import DuckLang.Decimal.Binary64
import DuckLang.Text.Layout

/-! Numbers read from text.  An integer is an optional sign and decimal digits.  A float is decimal
or, after `0x`, hexadecimal with an exponent of two; an underscore may stand between two digits.
`inf`, `infinity` and `nan` are read in any case. -/

namespace DuckLang.Decimal

/-- A text that starts with a sign, split into whether it is negative and the rest. -/
def splitSign : List Char → Bool × List Char
  | '-' :: cs => (true, cs)
  | '+' :: cs => (false, cs)
  | cs => (false, cs)

/-- The value of a decimal digit. -/
def digit? (c : Char) : Option Nat :=
  if '0' ≤ c ∧ c ≤ '9' then some (c.toNat - '0'.toNat) else none

/-- The number that decimal digits write after those of `value`. -/
def natOfDigits? : Nat → List Char → Option Nat
  | value, [] => some value
  | value, c :: cs =>
    match digit? c with
    | some d => natOfDigits? (value * 10 + d) cs
    | none => none

/-- The 64 bit integer a text writes: an optional sign and one or more decimal digits. -/
def readInt? (text : String) : Option Int64 := do
  let (negative, cs) := splitSign text.toList
  if cs.isEmpty then none
  let n ← natOfDigits? 0 cs
  let value : Int := if negative then -n else n
  if Int64.minValue.toInt ≤ value ∧ value ≤ Int64.maxValue.toInt then some (Int64.ofInt value)
  else none

/-- What stood before a character, as far as underscores care. -/
inductive Before where
  | start
  | digit
  | underscore
  | other

/-- Whether each underscore stands between two digits; the `0x` in front counts as a digit. -/
def underscoresSeparate (hexadecimal : Bool) : Before → List Char → Bool
  | .underscore, [] => false
  | _, [] => true
  | before, c :: cs =>
    if (digit? c).isSome || (hexadecimal && (Text.hexDigit? c).isSome) then
      underscoresSeparate hexadecimal .digit cs
    else if c = '_' then
      match before with
      | .digit => underscoresSeparate hexadecimal .underscore cs
      | _ => false
    else
      match before with
      | .underscore => false
      | _ => underscoresSeparate hexadecimal .other cs

/-- The digits of a mantissa: their value, the number of them after the point, whether there is one
at all, and what follows. -/
structure Mantissa where
  value : Nat
  places : Nat
  found : Bool
  rest : List Char

/-- Reads a mantissa in the given base.  Underscores are passed over and a second point ends it. -/
def readMantissa (base : Nat) : (value places : Nat) → (found pointed : Bool) → List Char → Mantissa
  | value, places, found, _, [] => { value, places, found, rest := [] }
  | value, places, found, pointed, c :: cs =>
    if c = '_' then readMantissa base value places found pointed cs
    else if c = '.' then
      if pointed then { value, places, found, rest := c :: cs }
      else readMantissa base value places found true cs
    else
      match Text.hexDigit? c with
      | some d =>
        if d < base then
          readMantissa base (value * base + d) (if pointed then places + 1 else places) true
            pointed cs
        else { value, places, found, rest := c :: cs }
      | none => { value, places, found, rest := c :: cs }

/-- Reads the digits of an exponent, which stop counting once they are past every double. -/
def readExponentDigits : Nat → List Char → Nat × List Char
  | value, [] => (value, [])
  | value, c :: cs =>
    if c = '_' then readExponentDigits value cs
    else
      match digit? c with
      | some d => readExponentDigits (if value < 10000 then value * 10 + d else value) cs
      | none => (value, c :: cs)

/-- Reads the exponent after its letter: an optional sign and at least one digit. -/
def readExponent? (cs : List Char) : Option (Int × List Char) :=
  let (negative, cs) := splitSign cs
  match cs with
  | c :: _ =>
    if (digit? c).isSome then
      let (n, rest) := readExponentDigits 0 cs
      some (if negative then -(n : Int) else n, rest)
    else none
  | [] => none

/-- The double nearest to `mantissa * 10 ^ exponent`; none past the largest double. -/
def ofDecimal? (mantissa : Nat) (exponent : Int) : Option Float :=
  let size : Int := (Nat.toDigits 10 mantissa).length
  if mantissa = 0 then some 0
  else if 310 < size + exponent then none
  else if size + exponent < -330 then some 0
  else if 0 ≤ exponent then Binary64.ofRatio? (mantissa * powerOfTen exponent.toNat) 1
  else Binary64.ofRatio? mantissa (powerOfTen (-exponent).toNat)

/-- The double nearest to `mantissa * 2 ^ exponent`; none past the largest double. -/
def ofBinary? (mantissa : Nat) (exponent : Int) : Option Float :=
  let size : Int := mantissa.log2
  if mantissa = 0 then some 0
  else if 1030 < size + exponent then none
  else if size + exponent < -1100 then some 0
  else
    let (num, den) := Binary64.scale mantissa 1 exponent
    Binary64.ofRatio? num den

/-- The double that decimal digits with an optional exponent write. -/
def readDecimal? (cs : List Char) : Option Float := do
  let m := readMantissa 10 0 0 false false cs
  if !m.found || !underscoresSeparate false .start cs then none
  let (exponent, rest) ←
    match m.rest with
    | c :: rest => if c = 'e' ∨ c = 'E' then readExponent? rest else some (0, c :: rest)
    | [] => some (0, [])
  if !rest.isEmpty then none
  ofDecimal? m.value (exponent - m.places)

/-- The double that hexadecimal digits with an exponent of two write. -/
def readHexadecimal? (cs : List Char) : Option Float := do
  let m := readMantissa 16 0 0 false false cs
  if !m.found || !underscoresSeparate true .digit cs then none
  let (exponent, rest) ←
    match m.rest with
    | c :: rest => if c = 'p' ∨ c = 'P' then readExponent? rest else none
    | [] => none
  if !rest.isEmpty then none
  ofBinary? m.value (exponent - 4 * m.places)

/-- The double that a text without a sign writes in digits. -/
def readMagnitude? : List Char → Option Float
  | '0' :: 'x' :: c :: cs => readHexadecimal? (c :: cs)
  | '0' :: 'X' :: c :: cs => readHexadecimal? (c :: cs)
  | cs => readDecimal? cs

/-- The double a text writes. -/
def readFloat? (text : String) : Option Float :=
  let (negative, cs) := splitSign text.toList
  let lower := String.ofList (cs.map Char.toLower)
  if lower = "inf" ∨ lower = "infinity" then some (Binary64.withSign negative Binary64.infinity)
  else if (String.ofList (text.toList.map Char.toLower)) = "nan" then some Binary64.notANumber
  else (readMagnitude? cs).map (Binary64.withSign negative)

end DuckLang.Decimal
