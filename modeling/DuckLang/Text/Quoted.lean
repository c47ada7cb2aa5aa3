import DuckLang.Text.Layout
import DuckLang.Text.Printable
import DuckLang.Text.Utf8

/-! Quoted literals.  `quoteChar` and `quoteBytes` write a character or a byte string between
quotes, with escapes for the quote, the backslash and whatever cannot be printed; `unquote?` reads
a literal between double quotes, single quotes or backquotes. -/

namespace DuckLang.Text.Quoted

/-- The letter that names a control character after a backslash. -/
def controlLetter? (c : Char) : Option Char :=
  if c = '\x07' then some 'a'
  else if c = '\x08' then some 'b'
  else if c = '\x0c' then some 'f'
  else if c = '\n' then some 'n'
  else if c = '\r' then some 'r'
  else if c = '\t' then some 't'
  else if c = '\x0b' then some 'v'
  else none

/-- The control character a letter names after a backslash. -/
def ofControlLetter? (c : Char) : Option Char :=
  if c = 'a' then some '\x07'
  else if c = 'b' then some '\x08'
  else if c = 'f' then some '\x0c'
  else if c = 'n' then some '\n'
  else if c = 'r' then some '\r'
  else if c = 't' then some '\t'
  else if c = 'v' then some '\x0b'
  else none

/-- A character as it stands between quotes of the given kind. -/
def escape (quote c : Char) : String :=
  if c = quote ∨ c = '\\' then String.ofList ['\\', c]
  else if isPrintable c then c.toString
  else
    match controlLetter? c with
    | some letter => String.ofList ['\\', letter]
    | none =>
      if c.toNat < 0x80 then "\\x" ++ hex 2 c.toNat
      else if c.toNat < 0x10000 then "\\u" ++ hex 4 c.toNat
      else "\\U" ++ hex 8 c.toNat

/-- A character between single quotes. -/
def quoteChar (c : Char) : String :=
  "'" ++ escape '\'' c ++ "'"

/-- A piece of a byte string as it stands between double quotes. -/
def escapePiece : Utf8.Piece → String
  | .char c => escape '"' c
  | .stray b => "\\x" ++ hex 2 b.toNat

/-- A byte string between double quotes. -/
def quoteBytes (bytes : Bytes) : String :=
  "\"" ++ String.join ((Utf8.pieces bytes).map escapePiece) ++ "\""

/-- The bytes of one character. -/
def charBytes (c : Char) : Bytes :=
  Utf8.encode c.toString

/-- The number that the first `count` characters write in base sixteen, and what follows them. -/
def hexRun? : Nat → Nat → List Char → Option (Nat × List Char)
  | 0, value, cs => some (value, cs)
  | _ + 1, _, [] => none
  | count + 1, value, c :: cs =>
    match hexDigit? c with
    | some d => hexRun? count (value * 16 + d) cs
    | none => none

/-- The value of a digit of base eight. -/
def octalDigit? (c : Char) : Option Nat :=
  if '0' ≤ c ∧ c ≤ '7' then some (c.toNat - '0'.toNat) else none

/-- The code point of a number, if it is one. -/
def codePoint? (n : Nat) : Option Char :=
  if h : n.isValidChar then some (Char.ofNatAux n h) else none

/-- The bytes denoted by the escape whose backslash has been read, and what follows it. -/
def readEscape? (quote : Char) : List Char → Option (Bytes × List Char)
  | [] => none
  | 'x' :: cs => do
    let (n, rest) ← hexRun? 2 0 cs
    pure ([n.toUInt8], rest)
  | 'u' :: cs => do
    let (n, rest) ← hexRun? 4 0 cs
    let c ← codePoint? n
    pure (charBytes c, rest)
  | 'U' :: cs => do
    let (n, rest) ← hexRun? 8 0 cs
    let c ← codePoint? n
    pure (charBytes c, rest)
  | '\\' :: cs => some (charBytes '\\', cs)
  | c :: cs =>
    match ofControlLetter? c with
    | some control => some (charBytes control, cs)
    | none =>
      if c = quote then some (charBytes c, cs)
      else
        match octalDigit? c, cs with
        | some a, d :: e :: rest => do
          let b ← octalDigit? d
          let o ← octalDigit? e
          let n := a * 64 + b * 8 + o
          if n < 256 then some ([n.toUInt8], rest) else none
        | _, _ => none

/-- The bytes of at most `limit` characters of a literal, read up to the closing quote, which must
be the last character. -/
def readBody? (quote : Char) : Nat → List Char → Option Bytes
  | _, [] => none
  | 0, c :: cs => if c = quote ∧ cs = [] then some [] else none
  | limit + 1, c :: cs =>
    if c = quote then if cs = [] then some [] else none
    else if c = '\n' then none
    else if c = '\\' then do
      let (bytes, rest) ← readEscape? quote cs
      let more ← readBody? quote limit rest
      pure (bytes ++ more)
    else do
      let more ← readBody? quote limit cs
      pure (charBytes c ++ more)

/-- The bytes of a raw literal, read up to the closing backquote, which must be the last character.
Carriage returns are dropped. -/
def readRaw? : List Char → Option Bytes
  | [] => none
  | c :: cs =>
    if c = '\x60' then if cs = [] then some [] else none
    else do
      let more ← readRaw? cs
      pure (if c = '\r' then more else charBytes c ++ more)

/-- The bytes denoted by a quoted literal.  Between single quotes stands at most one character. -/
def unquote? (literal : String) : Option Bytes :=
  match literal.toList with
  | '"' :: cs => readBody? '"' cs.length cs
  | '\'' :: cs => readBody? '\'' 1 cs
  | '\x60' :: cs => readRaw? cs
  | _ => none

end DuckLang.Text.Quoted
