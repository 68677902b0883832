import BeamTransport.State

/-!
# Motion in a static magnetic field

A magnetic field turns the momentum of a charged particle and keeps its magnitude. Along the path
the position changes by the direction of motion, and the momentum by the coupling of the charge
times the vector product of the direction with the field.
-/

namespace BeamTransport

/-- Speed of light, in GeV/c per tesla metre and in metres per nanosecond. -/
def speedOfLight {α : Type} [Scalar α] : α := 0.299792458

/-- A magnetic field in tesla, over positions in the local frame. -/
abbrev FieldMap (α : Type) := Vec3 α → Vec3 α

/-- The motion of particles of one charge, in elementary charges. -/
structure Motion (α : Type) where
  charge : α

namespace Motion

variable {α : Type} [Scalar α]

/-- Momentum turned per tesla metre of field. -/
def coupling (motion : Motion α) : α := speedOfLight * motion.charge

/-- Magnetic rigidity of a momentum, in tesla metres. -/
def rigidity (motion : Motion α) (momentum : α) : α := momentum / Scalar.abs motion.coupling

/-- Magnitude of the momentum that has a given rigidity. -/
def nominalMomentum (motion : Motion α) (rigidity : α) : α := Scalar.abs (rigidity * motion.coupling)

/-- Signed curvature of the path of a momentum across a field. -/
def curvature (motion : Motion α) (field momentum : α) : α := motion.coupling * field / momentum

/-- Change of momentum along the path in a field. -/
def force (motion : Motion α) (momentum field : Vec3 α) : Vec3 α :=
  motion.coupling • momentum.direction.cross field

/-- Change of a state along the path in a field. -/
def derivative (motion : Motion α) (field : FieldMap α) (state : State α) : State α :=
  ⟨state.momentum.direction, motion.coupling • state.momentum.direction.cross (field state.position)⟩

end Motion

end BeamTransport
