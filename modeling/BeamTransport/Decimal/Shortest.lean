import BeamTransport.Decimal.Decoded

/-!
# The shortest decimal of a double

Among the decimals that read back to a double, those between the midpoints to its two neighbours,
`shortest` finds one with the fewest digits, and of these the nearest. It walks the decimal grids
from coarse to fine and tests on each the two grid points around the value. All of it is exact
arithmetic on naturals.
-/

namespace BeamTransport.Decimal

/-- The number `coefficient * 10 ^ exponent`. -/
structure Digits where
  /-- The digits, read as a natural number. -/
  coefficient : Nat
  /-- Power of ten of the last digit. -/
  exponent : Int
deriving DecidableEq

/-- A power of a base; one for negative exponents. -/
def power (base : Nat) (exponent : Int) : Nat := Nat.pow base exponent.toNat

/-- The value `significand * 2 ^ exponent` over `10 ^ place`, as a numerator and a denominator. -/
def gridRatio (significand : Nat) (exponent place : Int) : Nat × Nat :=
  (significand * power 2 exponent * power 10 (-place), power 2 (-exponent) * power 10 place)

/-- The decimals that read back to a double, in quarters of the spacing below it. -/
structure Rounding where
  /-- Midpoint to the next smaller double. -/
  low : Nat
  /-- Four times the significand. -/
  middle : Nat
  /-- Midpoint to the next larger double. -/
  high : Nat
  /-- Whether the midpoints themselves read back: a tie goes to the even significand. -/
  closed : Bool
  /-- Power of two of one quarter. -/
  exponent : Int

/-- The decimals that read back to `significand * 2 ^ exponent`. Below the smallest significand of a
binade the doubles lie twice as dense. -/
def Rounding.ofDouble (significand : Nat) (exponent : Int) : Rounding where
  low := 4 * significand - (if significand = hiddenBit ∧ exponent ≠ leastExponent then 1 else 2)
  middle := 4 * significand
  high := 4 * significand + 2
  closed := significand % 2 == 0
  exponent := exponent - 2

/-- Whether `coefficient * 10 ^ place` reads back. -/
def Rounding.contains (r : Rounding) (coefficient : Nat) (place : Int) : Bool :=
  let (low, unit) := gridRatio r.low r.exponent place
  let (high, _) := gridRatio r.high r.exponent place
  if r.closed then low ≤ coefficient * unit && coefficient * unit ≤ high
  else low < coefficient * unit && coefficient * unit < high

/-- The nearer of the two multiples of `10 ^ place` around the value, if it reads back, else the
other one, if that does. A tie goes up. -/
def Rounding.onGrid? (r : Rounding) (place : Int) : Option Digits :=
  let (value, unit) := gridRatio r.middle r.exponent place
  let below := value / unit
  let above := below + 1
  let first := if 2 * (value % unit) < unit then below else above
  let second := if 2 * (value % unit) < unit then above else below
  if r.contains first place then some ⟨first, place⟩
  else if r.contains second place then some ⟨second, place⟩
  else none

/-- The shortest decimal that reads back to `significand * 2 ^ exponent`. Seventeen digits always
suffice, so the walk from above the leading digit ends on some grid. -/
def shortest (significand : Nat) (exponent : Int) : Digits :=
  if significand = 0 then ⟨0, 0⟩
  else
    let top := (Nat.log2 significand + exponent) * 30103 / 100000 + 2
    let rounding := Rounding.ofDouble significand exponent
    ((List.range 24).findSome? fun (step : Nat) => rounding.onGrid? (top - step)).getD ⟨0, 0⟩

end BeamTransport.Decimal
