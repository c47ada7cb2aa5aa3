/-! Fixed layouts of short texts: numbers in base sixteen with a least width, and texts padded to a
width counted in characters. -/

namespace DuckLang.Text

/-- A text with spaces in front until it is `width` characters long. -/
def padLeft (width : Nat) (s : String) : String :=
  String.ofList (List.replicate (width - s.length) ' ') ++ s

/-- A text with spaces behind until it is `width` characters long. -/
def padRight (width : Nat) (s : String) : String :=
  s ++ String.ofList (List.replicate (width - s.length) ' ')

/-- The digits of a number in base sixteen, in lower case, with zeros in front until there are
`width` of them. -/
def hex (width n : Nat) : String :=
  let digits := Nat.toDigits 16 n
  String.ofList (List.replicate (width - digits.length) '0' ++ digits)

/-- The digits of a number in base sixteen, in upper case, with zeros in front until there are
`width` of them. -/
def hexUpper (width n : Nat) : String :=
  (hex width n).map Char.toUpper

/-- The value of a digit of base sixteen, in either case. -/
def hexDigit? (c : Char) : Option Nat :=
  if '0' ≤ c ∧ c ≤ '9' then some (c.toNat - '0'.toNat)
  else if 'a' ≤ c ∧ c ≤ 'f' then some (c.toNat - 'a'.toNat + 10)
  else if 'A' ≤ c ∧ c ≤ 'F' then some (c.toNat - 'A'.toNat + 10)
  else none

end DuckLang.Text
