import DuckLang.DataType
import DuckLang.Decimal.Positional
import DuckLang.Text.Utf8

/-! Values.  An int or char is a 64 bit integer, a char being its code point; a float is a double.
A value of a type without storage still carries a number, which nothing but its text shows. -/

namespace DuckLang

/-- A value with its type. -/
inductive Value where
  | int (n : Int64)
  | float (x : Float)
  | char (n : Int64)
  | string (n : Int64)
  | void (n : Int64)
  | invalid (n : Int64)

namespace Value

/-- The type of a value. -/
def type : Value → DataType
  | int _ => .int
  | float _ => .float
  | char _ => .char
  | string _ => .string
  | void _ => .void
  | invalid _ => .invalid

/-- The integer of a value that is no float; 0 for a float. -/
def number : Value → Int64
  | int n | char n | string n | void n | invalid n => n
  | float _ => 0

/-- The value widened to a double. -/
def toFloat : Value → Float
  | float x => x
  | v => Binary64.ofInt64 v.number

/-- The character with the given code point. -/
def ofChar (c : Char) : Value :=
  char (Int64.ofNat c.toNat)

/-- The value stored where a type is expected.  A type without storage stores what it is given. -/
def convert (v : Value) (type : DataType) : Value :=
  if v.type = type then v
  else
    match type with
    | .float => float v.toFloat
    | .int => int (Binary64.truncate v.toFloat)
    | .char => char (Binary64.truncate v.toFloat)
    | _ => v

/-- Whether a value counts as true in a condition: whether it is not zero. -/
def isTrue : Value → Bool
  | float x => x != 0
  | v => v.number != 0

/-- The character whose code point is the low 32 bits of an integer; the replacement character if
they are no code point. -/
def charOf (n : Int64) : Char :=
  let code := (n.toInt % 0x100000000).toNat
  if h : code.isValidChar then Char.ofNatAux code h else Text.Utf8.replacement

/-- The text that writing a value prints. -/
def text : Value → String
  | float x => Decimal.positional x
  | char n => (charOf n).toString
  | v => toString v.number.toInt

/-- Whether two values are pooled as one constant: floats of one type when they are less than
`1e-9` apart. -/
def sameConstant (v w : Value) : Bool :=
  match v, w with
  | float x, float y => (x - y).abs < 1e-9
  | float _, _ => false
  | _, float _ => false
  | v, w => v.type = w.type && v.number == w.number

end Value

end DuckLang
