import DuckLang.Decimal.General
import DuckLang.Llvm
import DuckLang.Text.Layout

/-! The text of constants.  An integer of at least four hexadecimal digits is written in base
sixteen where that repeats its digits much more than base ten does; a double is written in decimal
where that is exact and else as its bits. -/

namespace DuckLang.Llvm

/-- How much the digits of a number vary: the number of different digits among them by their number,
which is counted up to the base. -/
def entropy (base : Nat) (digits : List Char) : Float :=
  Float.ofNat digits.eraseDups.length / Float.ofNat (min digits.length base)

/-- How much hexadecimal digits may vary, by their number. -/
def maxHexEntropy (length : Nat) : Float :=
  if length ≤ 6 then 2.0 / Float.ofNat length
  else if length ≤ 10 then 3.0 / Float.ofNat length
  else 4.0 / Float.ofNat (min length 16)

/-- Whether a number is written in base sixteen. -/
def prefersHex (n : Nat) : Bool :=
  let digits := Nat.toDigits 16 n
  let hex := entropy 16 digits
  let decimal := entropy 10 (Nat.toDigits 10 n)
  4096 ≤ n && hex ≤ maxHexEntropy digits.length + 0.01 && decimal ≥ hex + 0.2

/-- An integer constant. -/
def intText (n : Int) : String :=
  if 0 ≤ n ∧ prefersHex n.toNat then "u0x" ++ Text.hexUpper 0 n.toNat else toString n

/-- The bits of a double in base sixteen. -/
def bitsText (bits : Nat) : String :=
  "0x" ++ Text.hexUpper 0 bits

/-- A double constant. -/
def doubleText (x : Float) : String :=
  match Binary64.shape x with
  | .nan => bitsText 0x7FF8000000000000
  | .infinite _ => bitsText x.toBits.toNat
  | .finite negative mantissa exponent =>
    let s := Decimal.shortest mantissa exponent
    if s.equals mantissa exponent then (if negative then "-" else "") ++ s.general
    else bitsText x.toBits.toNat

/-- Whether a byte stands for itself between quotes. -/
def isPlain (b : UInt8) : Bool :=
  0x20 ≤ b && b ≤ 0x7E && b != 0x22 && b != 0x5C

/-- Bytes between quotes; those that do not stand for themselves are written in base sixteen. -/
def quoted (bytes : Bytes) : String :=
  let body := bytes.map fun b =>
    if isPlain b then (Char.ofNat b.toNat).toString else "\\" ++ Text.hexUpper 2 b.toNat
  "\"" ++ String.join body ++ "\""

/-- Whether a character may stand in a bare name. -/
def isNameChar (c : Char) : Bool :=
  c.isAlphanum || c = '$' || c = '.' || c = '_' || c = '-'

/-- A name, between quotes if some of its characters may not stand in a bare one. -/
def nameText (name : String) : String :=
  if name.toList.all isNameChar then name else quoted (Text.Utf8.encode name)

end DuckLang.Llvm
