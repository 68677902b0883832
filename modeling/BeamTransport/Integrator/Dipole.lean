import BeamTransport.Geometry
import BeamTransport.Integrator.Basic

/-!
# Helix transport through bending fields

In a uniform field a particle moves on a helix, and a step of any length is exact. A gradient is
applied between two half helices as a rotation of the momentum in the gradient field where they
meet. The gradient acts on the offsets from the curved reference orbit.
-/

namespace BeamTransport

variable {α : Type} [Scalar α]

/-- The part of a vector along a unit axis. -/
def Vec3.along (a axis : Vec3 α) : Vec3 α := a.dot axis • axis

/-- A direction turned by an angle about a unit axis, left-handed. -/
def Vec3.turn (a axis : Vec3 α) (angle : α) : Vec3 α :=
  let transverse := a - a.along axis
  a.along axis + Scalar.cos angle • transverse + Scalar.sin angle • transverse.cross axis

/-- The part of a direction across a unit axis, turned by an angle about it, left-handed. -/
def Vec3.turnAcross (a axis : Vec3 α) (angle : α) : Vec3 α :=
  let transverse := a - a.along axis
  Scalar.cos angle • transverse + Scalar.sin angle • transverse.cross axis

namespace Motion

/-- Length of the chord of an arc: of curvature `kappa` and length `h`, hence turning by
`kappa * h`. Without significant curvature it is the arc itself. -/
def chord (kappa h : α) : α :=
  if Significant kappa then 2 * Scalar.sin (0.5 * (kappa * h)) / kappa else h

/-- Exact motion over a path length through a uniform field. Across the field the particle advances
by the chord of its arc, half way turned; along the field it drifts. -/
def helix (motion : Motion α) (state : State α) (field : Vec3 α) (h : α) : State α :=
  let b := field.length
  let p := state.momentum.length
  if Significant b ∧ ¬ (p == 0) then
    let axis := field / b
    let direction := state.momentum / p
    let kappa := motion.curvature b p
    let theta := kappa * h
    ⟨state.position + h • direction.along axis
        + chord kappa h • direction.turnAcross axis (0.5 * theta),
      p • direction.turn axis theta⟩
  else state.drift h

/-- Momentum after a path length in a field, the position held fixed. -/
def rotate (motion : Motion α) (momentum field : Vec3 α) (h : α) : Vec3 α :=
  let b := field.length
  let p := momentum.length
  if Significant b ∧ ¬ (p == 0) then
    p • (momentum / p).turn (field / b) (motion.curvature b p * h)
  else momentum

end Motion

/-- A bending magnet, possibly with a gradient. -/
structure Dipole (α : Type) where
  motion : Motion α
  field : α
  gradient : α
  angle : α
  length : α
  /-- Frame of the reference orbit that the gradient is measured against. -/
  frame : OrbitFrame α

namespace Dipole

/-- The bend of a geometry with the quadrupole strength of a record, at a design rigidity. -/
def ofMagnet (motion : Motion α) (strengths : Strengths α) (geometry : BendGeometry α)
    (rigidity : α) : Dipole α where
  motion
  field := geometry.field rigidity
  gradient := strengths.get .k1 * rigidity
  angle := geometry.angle
  length := geometry.arcLength
  frame := .ofCurvature geometry.curvature

/-- The bend of a geometry without gradient. -/
def withoutGradient (motion : Motion α) (geometry : BendGeometry α) (rigidity : α) : Dipole α :=
  ofMagnet motion .empty geometry rigidity

/-- Whether neither the field nor the gradient is significant. -/
def isZero (d : Dipole α) : Bool := ¬ Significant d.field ∧ ¬ Significant d.gradient

/-- The bending field as a vector. -/
def fieldVector (d : Dipole α) : Vec3 α := ⟨0, d.field, 0⟩

/-- The field of the gradient alone; one that is not significant gives none. -/
def gradientField (d : Dipole α) : FieldMap α := fun position =>
  if Significant d.gradient then FieldMap.orbitGradient d.frame d.gradient position else 0

/-- A step without error estimate: a helix, or with a gradient two half helices with the rotation
of the whole step between them. -/
def advance (d : Dipole α) (state : State α) (h : α) : State α :=
  if Significant d.gradient then
    let first := d.motion.helix state d.fieldVector (0.5 * h)
    let kicked := d.motion.rotate first.momentum (d.gradientField first.position) h
    d.motion.helix ⟨first.position, kicked⟩ d.fieldVector (0.5 * h)
  else d.motion.helix state d.fieldVector h

/-- Change of a state along the path. -/
def derivative (d : Dipole α) (state : State α) : State α :=
  ⟨state.momentum.direction,
    d.motion.force state.momentum (d.fieldVector + d.gradientField state.position)⟩

/-- Two half steps, compared with a full one; without strength, an exact drift. -/
def step (d : Dipole α) (state : State α) (h : α) : Step α :=
  if d.isZero then .exact (state.drift h)
  else .comparing (d.advance (d.advance state (0.5 * h)) (0.5 * h)) (d.advance state h)

end Dipole

end BeamTransport
