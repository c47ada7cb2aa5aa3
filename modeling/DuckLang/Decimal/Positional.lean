import DuckLang.Decimal.Shortest

/-! Doubles written without an exponent: the shortest digits that read back, zeros up to the point,
and no point on whole numbers. -/

namespace DuckLang.Decimal

/-- A decimal written with its digits in place, without an exponent. -/
def Scaled.positional (s : Scaled) : String :=
  let digits := Nat.toDigits 10 s.digits
  if 0 ≤ s.exponent then String.ofList (digits ++ List.replicate s.exponent.toNat '0')
  else
    let places := (-s.exponent).toNat
    let padded := List.replicate (places + 1 - digits.length) '0' ++ digits
    let whole := padded.take (padded.length - places)
    String.ofList (whole ++ '.' :: padded.drop (padded.length - places))

/-- A double written without an exponent. -/
def positional (x : Float) : String :=
  match Binary64.shape x with
  | .nan => "NaN"
  | .infinite negative => if negative then "-Inf" else "+Inf"
  | .finite negative mantissa exponent =>
    let text := (shortest mantissa exponent).positional
    if negative then "-" ++ text else text

end DuckLang.Decimal
