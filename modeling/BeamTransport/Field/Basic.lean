import BeamTransport.Frame
import BeamTransport.Motion
import BeamTransport.Strength.Record

/-!
# Magnetic fields

The fields that magnets are made of, as functions of the local position: uniform fields, the
quadrupole, sums of multipoles, and the combined field of a sector bend, whose gradient acts on the
offsets from the curved orbit. `FieldMap.skew` turns any field about the axis of the magnet.
-/

namespace BeamTransport

namespace FieldMap

variable {α : Type} [Scalar α]

/-- The same field everywhere. -/
def uniform (b : Vec3 α) : FieldMap α := fun _ => b

/-- A vertical field, the same everywhere. -/
def dipole (b : α) : FieldMap α := uniform ⟨0, b, 0⟩

/-- The field of a gradient about the axis of the magnet. -/
def quadrupole (gradient : α) : FieldMap α := fun position =>
  ⟨gradient * position.y, gradient * position.x, 0⟩

/-- A field turned about the axis of the magnet: it is taken at the position turned back, and then
turned itself. -/
def skew (angle : α) (field : FieldMap α) : FieldMap α := fun position =>
  (field (position.rotateZ (-angle))).rotateZ angle

/-- A gradient about the reference orbit: it acts on the offsets from the orbit, and its horizontal
component lies along the orbit normal. -/
def orbitGradient (frame : OrbitFrame α) (gradient : α) : FieldMap α := fun position =>
  let point := frame.locate position
  (⟨0, gradient * point.x, 0⟩ : Vec3 α) + (gradient * point.y) • frame.normal point.s

/-- The field of a sector bend with a gradient: vertical and constant on the reference orbit, with
the gradient acting on the offsets from it. -/
def sector (base gradient curvature : α) : FieldMap α := fun position =>
  let frame : OrbitFrame α := .ofCurvature curvature
  let point := frame.locate position
  (⟨0, base + gradient * point.x, 0⟩ : Vec3 α) + (gradient * point.y) • frame.normal point.s

end FieldMap

/-- The coefficients of a multipole series, orders one to twelve. -/
structure Multipole (α : Type) where
  /-- Normal coefficients, counted from order one. -/
  normal : Fin 12 → α
  /-- Skew coefficients, counted from order one. -/
  skew : Fin 12 → α

namespace Multipole

variable {α : Type} [Scalar α]

/-- The coefficients of a strength record, scaled by the rigidity. -/
def ofStrengths (strengths : Strengths α) (rigidity : α) : Multipole α where
  normal index := strengths.get (.normal index.succ) * rigidity
  skew index := strengths.get (.skew index) * rigidity

/-- One normal coefficient; an order outside the series leaves no field. -/
def single (order : Nat) (coefficient : α) : Multipole α where
  normal index := if index.val + 1 = order then coefficient else 0
  skew _ := 0

/-- The series up to some order: the power `(x + i y) ^ n / n!` reached and the field summed. -/
structure Sum (α : Type) where
  /-- Real part of the power. -/
  re : α
  /-- Imaginary part of the power. -/
  im : α
  /-- Vertical field, the real part of the series. -/
  vertical : α
  /-- Horizontal field, the imaginary part of the series. -/
  horizontal : α

/-- The series before its first order. -/
def Sum.start : Sum α := ⟨1, 0, 0, 0⟩

/-- Adds the next order at the point `(x, y)`: the power from the one before, then its product with
the complex coefficient. -/
def Sum.next (m : Multipole α) (x y : α) (sum : Sum α) (index : Fin 12) : Sum α :=
  let n : α := Scalar.ofNat (index.val + 1)
  let re := (sum.re * x - sum.im * y) / n
  let im := (sum.re * y + sum.im * x) / n
  { re, im
    vertical := sum.vertical + (m.normal index * re - m.skew index * im)
    horizontal := sum.horizontal + (m.normal index * im + m.skew index * re) }

/-- The field of a multipole series. -/
def field (m : Multipole α) : FieldMap α := fun position =>
  let sum := (List.finRange 12).foldl (Sum.next m position.x position.y) Sum.start
  ⟨sum.horizontal, sum.vertical, 0⟩

end Multipole

end BeamTransport
