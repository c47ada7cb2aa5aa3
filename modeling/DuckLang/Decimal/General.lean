import DuckLang.Decimal.Shortest

/-! Doubles written with an exponent where they are large or small.  The shortest digits that read
back stand in place when the first of them is at most four places behind the point and at most six
before it; otherwise an exponent of at least two digits follows.  A point always stands among the
digits. -/

namespace DuckLang.Decimal

/-- The number of digits from which on a whole number is written with an exponent. -/
def wholeLimit : Int := 6

/-- Digits with a point behind the first `count` of them and a zero if nothing follows it. -/
def pointed (count : Nat) (digits : List Char) : List Char :=
  let fraction := digits.drop count
  digits.take count ++ '.' :: (if fraction.isEmpty then ['0'] else fraction)

/-- An exponent with its sign and at least two digits. -/
def exponentText (exponent : Int) : List Char :=
  let digits := Nat.toDigits 10 exponent.natAbs
  let padded := if digits.length < 2 then '0' :: digits else digits
  'e' :: (if exponent < 0 then '-' else '+') :: padded

/-- A decimal written with its digits in place if they are near the point, else with an exponent. -/
def Scaled.general (s : Scaled) : String :=
  let digits := Nat.toDigits 10 s.digits
  let leading : Int := s.exponent + digits.length - 1
  if s.digits ≠ 0 ∧ (leading < -4 ∨ wholeLimit ≤ leading) then
    String.ofList (pointed 1 digits ++ exponentText leading)
  else if leading < 0 then
    String.ofList ('0' :: '.' :: (List.replicate (-leading - 1).toNat '0' ++ digits))
  else
    let whole := leading.toNat + 1
    String.ofList (pointed whole (digits ++ List.replicate (whole - digits.length) '0'))

end DuckLang.Decimal
