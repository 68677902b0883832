/-!
# Scalars

The arithmetic that the transport formulas are written in. Every formula of the library is stated
once, over any `Scalar`, so the same definition runs on doubles and can be read over the reals.

Besides the operations themselves the module holds the three notions that the formulas share:
`Significant` (a magnitude large enough to choose an algorithm by), `sign`, and a maximum and a
minimum that pass over an operand which is not a number.
-/

namespace BeamTransport

/-- A type of numbers with the operations that the transport formulas need. -/
class Scalar (α : Type) where
  [zero : Zero α]
  [one : One α]
  [add : Add α]
  [sub : Sub α]
  [mul : Mul α]
  [div : Div α]
  [neg : Neg α]
  [lt : LT α]
  [le : LE α]
  [beq : BEq α]
  [scientific : OfScientific α]
  ltDecidable (a b : α) : Decidable (a < b)
  leDecidable (a b : α) : Decidable (a ≤ b)
  /-- The number nearest to a natural number. -/
  ofNat : Nat → α
  /-- Whether the number is neither infinite nor undefined. -/
  isFinite : α → Bool
  pi : α
  abs : α → α
  sqrt : α → α
  sin : α → α
  cos : α → α
  tan : α → α
  sinh : α → α
  cosh : α → α
  /-- Angle of the point `(x, y)` against the first axis, ordinate given first. -/
  atan2 : α → α → α
  hypot : α → α → α

variable {α : Type} [Scalar α]

/-! ## Operations of a scalar

A concrete number type keeps its own instances; these serve the generic formulas, and have a low
priority so that they do nothing else. -/

instance (priority := 10) Scalar.instZero : Zero α := Scalar.zero

instance (priority := 10) Scalar.instOne : One α := Scalar.one

instance (priority := 10) Scalar.instAdd : Add α := Scalar.add

instance (priority := 10) Scalar.instSub : Sub α := Scalar.sub

instance (priority := 10) Scalar.instMul : Mul α := Scalar.mul

instance (priority := 10) Scalar.instDiv : Div α := Scalar.div

instance (priority := 10) Scalar.instNeg : Neg α := Scalar.neg

instance (priority := 10) Scalar.instLT : LT α := Scalar.lt

instance (priority := 10) Scalar.instLE : LE α := Scalar.le

instance (priority := 10) Scalar.instBEq : BEq α := Scalar.beq

instance (priority := 10) Scalar.instOfScientific : OfScientific α := Scalar.scientific

instance (priority := 10) Scalar.instDecidableLT : DecidableLT α := Scalar.ltDecidable

instance (priority := 10) Scalar.instDecidableLE : DecidableLE α := Scalar.leDecidable

instance (priority := 10) Scalar.instOfNat (n : Nat) : OfNat α n := ⟨Scalar.ofNat n⟩

/-! ## Shared notions -/

namespace Scalar

/-- The larger of two numbers, or the other one when only one of them is a number. -/
def max (a b : α) : α :=
  if a ≤ b then b else if a == a then a else b

/-- The smaller of two numbers, or the other one when only one of them is a number. -/
def min (a b : α) : α :=
  if a ≤ b then a else if b == b then b else a

/-- One with the sign of a non-zero number. -/
def sign (a : α) : α :=
  if a < 0 then -1 else 1

/-- Magnitudes up to this one, the spacing `2 ^ (-52)` of doubles next to one, count as zero where
an algorithm is chosen. -/
def resolution : α := 2.220446049250313080847263336181640625e-16

end Scalar

/-- A number whose magnitude stands out from zero. -/
def Significant (a : α) : Prop := Scalar.resolution < Scalar.abs a

instance (a : α) : Decidable (Significant a) :=
  inferInstanceAs (Decidable (Scalar.resolution < Scalar.abs a))

end BeamTransport
