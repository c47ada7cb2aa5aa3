import DuckLang.Decimal.Power

/-! Doubles as exact numbers.  `shape` reads a double as a sign and a mantissa times a power of two,
`ofRatio?` rounds a ratio of natural numbers to the nearest double, and `truncate` cuts a double
down to a 64 bit integer. -/

namespace DuckLang.Binary64

/-- What a double denotes. -/
inductive Shape where
  | nan
  | infinite (negative : Bool)
  /-- The number `mantissa * 2 ^ exponent` with a sign. -/
  | finite (negative : Bool) (mantissa : Nat) (exponent : Int)
  deriving DecidableEq

/-- The least mantissa of a double that has all its bits, `2 ^ 52`. -/
def leastNormal : Nat := 0x10000000000000

/-- The shape of a double, read off its bits. -/
def shape (x : Float) : Shape :=
  let bits : Nat := x.toBits.toNat
  let negative := decide (0x8000000000000000 ≤ bits)
  let biased : Nat := bits / leastNormal % 0x800
  let fraction : Nat := bits % leastNormal
  if biased = 0x7FF then if fraction = 0 then .infinite negative else .nan
  else if biased = 0 then .finite negative fraction (-1074)
  else .finite negative (fraction + leastNormal) ((biased : Int) - 1075)

/-- The positive double with the given mantissa and exponent; the mantissa is below `2 ^ 53` and
reaches `2 ^ 52` unless the exponent is the least one. -/
def pack (mantissa : Nat) (exponent : Int) : Float :=
  if mantissa < leastNormal then Float.ofBits mantissa.toUInt64
  else Float.ofBits ((exponent + 1075).toNat * leastNormal + (mantissa - leastNormal)).toUInt64

/-- The positive infinity. -/
def infinity : Float := Float.ofBits 0x7FF0000000000000

/-- The quiet value that is no number. -/
def notANumber : Float := Float.ofBits 0x7FF8000000000001

/-- A double with its sign flipped if `negative`. -/
def withSign (negative : Bool) (x : Float) : Float :=
  if negative then -x else x

/-- The quotient of two numbers rounded to the nearest integer, a tie going to the even one. -/
def roundDiv (num den : Nat) : Nat :=
  let q := num / den
  let r := num % den
  if 2 * r < den then q
  else if den < 2 * r then q + 1
  else if q % 2 = 0 then q else q + 1

/-- A ratio scaled by a power of two, as numerator and denominator. -/
def scale (num den : Nat) (exponent : Int) : Nat × Nat :=
  if 0 ≤ exponent then (num * Decimal.powerOfTwo exponent.toNat, den)
  else (num, den * Decimal.powerOfTwo (-exponent).toNat)

/-- The exponent of the last mantissa bit of the double nearest to a positive ratio. -/
def lastExponent (num den : Nat) : Int :=
  let guess : Int := (num.log2 : Int) - den.log2 - 52
  let (n, d) := scale num den (-guess)
  max (if n / d < leastNormal then guess - 1 else guess) (-1074)

/-- The double nearest to a ratio, ties going to the even mantissa; none if it is past the largest
double. -/
def ofRatio? (num den : Nat) : Option Float :=
  if num = 0 then some 0
  else
    let exponent := lastExponent num den
    let (n, d) := scale num den (-exponent)
    let mantissa := roundDiv n d
    let (mantissa, exponent) :=
      if mantissa = 2 * leastNormal then (leastNormal, exponent + 1) else (mantissa, exponent)
    if 971 < exponent then none else some (pack mantissa exponent)

/-- The integer part of a double, cut toward zero. -/
def integerPart? (x : Float) : Option Int :=
  match shape x with
  | .finite negative mantissa exponent =>
    let (n, d) := scale mantissa 1 exponent
    let magnitude : Int := (n / d : Nat)
    some (if negative then -magnitude else magnitude)
  | _ => none

/-- A double cut toward zero to a 64 bit integer.  What is no number or lies outside of the range
gives the least integer. -/
def truncate (x : Float) : Int64 :=
  match integerPart? x with
  | some n =>
    if Int64.minValue.toInt ≤ n ∧ n ≤ Int64.maxValue.toInt then Int64.ofInt n else Int64.minValue
  | none => Int64.minValue

/-- The double nearest to a 64 bit integer. -/
def ofInt64 (n : Int64) : Float :=
  Float.ofInt n.toInt

end DuckLang.Binary64
