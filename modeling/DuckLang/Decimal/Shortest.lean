import DuckLang.Decimal.Binary64

/-! The fewest decimal digits that read back as a given double.  The reals that round to a double
form an interval, which holds its ends iff the mantissa is even.  On the grid of `n` digit decimals
the two neighbours of the double are tried for `n = 1, 2, …`; the first grid with a neighbour in the
interval gives the digits. -/

namespace DuckLang.Decimal

/-- The decimal `digits * 10 ^ exponent`. -/
structure Scaled where
  digits : Nat
  exponent : Int
  deriving DecidableEq

/-- The reals that round to a double, over a common denominator: the double is `value / den`. -/
structure Interval where
  low : Nat
  value : Nat
  high : Nat
  den : Nat
  closed : Bool

/-- The interval of the reals that round to the double `mantissa * 2 ^ exponent`. -/
def Interval.ofMantissa (mantissa : Nat) (exponent : Int) : Interval :=
  let below := if mantissa = Binary64.leastNormal ∧ -1074 < exponent then 1 else 2
  let (unit, den) := Binary64.scale 1 1 (exponent - 2)
  { low := (4 * mantissa - below) * unit
    value := 4 * mantissa * unit
    high := (4 * mantissa + 2) * unit
    den := den
    closed := mantissa % 2 = 0 }

/-- A natural number times a power of ten, as numerator and denominator. -/
def scaleTen (n : Nat) (exponent : Int) : Nat × Nat :=
  if 0 ≤ exponent then (n * powerOfTen exponent.toNat, 1) else (n, powerOfTen (-exponent).toNat)

/-- Whether the decimal `digits * 10 ^ exponent` lies in an interval. -/
def Interval.holds (i : Interval) (digits : Nat) (exponent : Int) : Bool :=
  let (n, d) := scaleTen digits exponent
  let point := n * i.den
  if i.closed then i.low * d ≤ point && point ≤ i.high * d
  else i.low * d < point && point < i.high * d

/-- The least `k` from `start` on, within `fuel` steps, with `num * 10 ^ k ≥ den`. -/
def leadingZeros (num den : Nat) : Nat → Nat → Nat
  | 0, k => k
  | fuel + 1, k => if den ≤ num * powerOfTen k then k else leadingZeros num den fuel (k + 1)

/-- The exponent of the first decimal digit of a positive ratio. -/
def leadingExponent (num den : Nat) : Int :=
  if den ≤ num then ((Nat.toDigits 10 (num / den)).length : Int) - 1
  else -(leadingZeros num den 400 1 : Int)

/-- A decimal without zeros at its end; `fuel` bounds their number. -/
def stripZeros : Nat → Scaled → Scaled
  | 0, s => s
  | fuel + 1, s =>
    if s.digits ≠ 0 ∧ s.digits % 10 = 0 then
      stripZeros fuel { digits := s.digits / 10, exponent := s.exponent + 1 }
    else s

/-- The decimal with its last digit at the given exponent that is nearest to the double and reads
back as it; of two that are equally near, the one with the even last digit. -/
def Interval.nearest? (i : Interval) (exponent : Int) : Option Scaled :=
  let (n, d) := scaleTen i.value (-exponent)
  let den := i.den * d
  let down := n / den
  let up := down + 1
  match i.holds down exponent, i.holds up exponent with
  | false, false => none
  | true, false => some { digits := down, exponent }
  | false, true => some { digits := up, exponent }
  | true, true => some { digits := Binary64.roundDiv n den, exponent }

/-- The first decimal that reads back among those with `count`, `count + 1`, … digits. -/
def Interval.search (i : Interval) (leading : Int) : Nat → Nat → Scaled
  | 0, _ => { digits := 0, exponent := 0 }
  | fuel + 1, count =>
    match i.nearest? (leading + 1 - count) with
    | some s => s
    | none => i.search leading fuel (count + 1)

/-- The fewest digits that read back as the double `mantissa * 2 ^ exponent`. -/
def shortest (mantissa : Nat) (exponent : Int) : Scaled :=
  if mantissa = 0 then { digits := 0, exponent := 0 }
  else
    let i := Interval.ofMantissa mantissa exponent
    stripZeros 20 (i.search (leadingExponent i.value i.den) 20 1)

/-- Whether a decimal is exactly the number `mantissa * 2 ^ exponent`. -/
def Scaled.equals (s : Scaled) (mantissa : Nat) (exponent : Int) : Bool :=
  let (n, d) := scaleTen s.digits s.exponent
  let (m, e) := Binary64.scale mantissa 1 exponent
  n * e == m * d

end DuckLang.Decimal
