import BeamTransport.Integrator.Dipole
import BeamTransport.Proofs.Vec3

/-!
# Turning a direction about an axis

A direction splits into a part along a unit axis and a part across it. Turning leaves the first part
and rotates the second in the plane across the axis, so it keeps lengths (`turn_dot_self` and
`length_turn`), and the angles of turns about one axis add up (`turn_turn`).
-/

namespace BeamTransport.Vec3

/-- The part of a vector across a unit axis. -/
noncomputable def across (a axis : Vec3 ℝ) : Vec3 ℝ := a - a.along axis

variable (a axis : Vec3 ℝ) (angle : ℝ)

theorem along_add_across : a.along axis + a.across axis = a := by
  rw [across, add_sub_cancel]

theorem turnAcross_eq : a.turnAcross axis angle =
    Real.cos angle • a.across axis + Real.sin angle • (a.across axis).cross axis := rfl

theorem turn_eq : a.turn axis angle = a.along axis + a.turnAcross axis angle :=
  add_assoc _ _ _

@[simp] theorem turnAcross_zero : a.turnAcross axis 0 = a.across axis := by
  rw [turnAcross_eq, Real.cos_zero, Real.sin_zero, one_smul, zero_smul, add_zero]

@[simp] theorem turn_zero : a.turn axis 0 = a := by
  rw [turn_eq, turnAcross_zero, along_add_across]

theorem along_cross : (a.along axis).cross axis = 0 := by
  rw [along, smul_cross, cross_self, smul_zero]

/-! ## The plane across a unit axis -/

variable {axis}

theorem across_dot (haxis : axis.dot axis = 1) : (a.across axis).dot axis = 0 := by
  rw [across, sub_dot, along, smul_dot, haxis, mul_one, sub_self]

/-- A quarter turn taken twice reverses a vector across the axis. -/
theorem cross_cross_across (haxis : axis.dot axis = 1) :
    ((a.across axis).cross axis).cross axis = -a.across axis := by
  rw [cross_cross_self, a.across_dot haxis, haxis, zero_smul, one_smul, zero_sub]

/-- A further quarter turn of a vector turned across the axis. -/
theorem turnAcross_cross (haxis : axis.dot axis = 1) :
    (a.turnAcross axis angle).cross axis =
      -Real.sin angle • a.across axis + Real.cos angle • (a.across axis).cross axis := by
  rw [turnAcross_eq, add_cross, smul_cross, smul_cross, a.cross_cross_across haxis]
  module

theorem turn_cross : (a.turn axis angle).cross axis = (a.turnAcross axis angle).cross axis := by
  rw [turn_eq, add_cross, along_cross, zero_add]

/-- Turning keeps the length across the axis: the direction and its quarter turn are orthogonal and
equally long. -/
theorem turnAcross_dot_self (haxis : axis.dot axis = 1) :
    (a.turnAcross axis angle).dot (a.turnAcross axis angle) =
      (a.across axis).dot (a.across axis) := by
  have hperp : (a.across axis).dot ((a.across axis).cross axis) = 0 := by
    rw [dot_comm, cross_dot_left]
  have hlong : ((a.across axis).cross axis).dot ((a.across axis).cross axis) =
      (a.across axis).dot (a.across axis) := by
    rw [cross_dot_cross, a.across_dot haxis, haxis, mul_one, mul_zero, sub_zero]
  simp only [turnAcross_eq, add_dot, dot_add, smul_dot, dot_smul, cross_dot_left, hperp, hlong]
  linear_combination (a.across axis).dot (a.across axis) * Real.cos_sq_add_sin_sq angle

theorem along_dot_turnAcross (haxis : axis.dot axis = 1) :
    (a.along axis).dot (a.turnAcross axis angle) = 0 := by
  rw [along, smul_dot, dot_comm axis, turnAcross_eq, add_dot, smul_dot, smul_dot,
    a.across_dot haxis, cross_dot_right]
  ring

theorem turn_dot_self (haxis : axis.dot axis = 1) :
    (a.turn axis angle).dot (a.turn axis angle) = a.dot a := by
  have hsplit (b : ℝ) : (a.turn axis b).dot (a.turn axis b) =
      (a.along axis).dot (a.along axis) + (a.across axis).dot (a.across axis) := by
    rw [turn_eq, add_dot, dot_add, dot_add, dot_comm (a.turnAcross axis b),
      a.along_dot_turnAcross b haxis, a.turnAcross_dot_self b haxis]
    ring
  rw [hsplit, ← hsplit 0, turn_zero]

theorem length_turn (haxis : axis.dot axis = 1) : (a.turn axis angle).length = a.length := by
  rw [length_eq_sqrt, a.turn_dot_self angle haxis, length_eq_sqrt]

/-! ## One turn after another -/

theorem turn_dot_axis (haxis : axis.dot axis = 1) : (a.turn axis angle).dot axis = a.dot axis := by
  rw [turn_eq, add_dot, along, smul_dot, haxis, mul_one, turnAcross_eq, add_dot, smul_dot, smul_dot,
    a.across_dot haxis, cross_dot_right]
  ring

theorem along_turn (haxis : axis.dot axis = 1) : (a.turn axis angle).along axis = a.along axis := by
  rw [along, a.turn_dot_axis angle haxis, along]

theorem across_turn (haxis : axis.dot axis = 1) :
    (a.turn axis angle).across axis = a.turnAcross axis angle := by
  rw [across, a.along_turn angle haxis, turn_eq, add_sub_cancel_left]

theorem turnAcross_turn (haxis : axis.dot axis = 1) (further : ℝ) :
    (a.turn axis angle).turnAcross axis further = a.turnAcross axis (angle + further) := by
  rw [turnAcross_eq, a.across_turn angle haxis, a.turnAcross_cross angle haxis, turnAcross_eq,
    turnAcross_eq, Real.cos_add, Real.sin_add]
  module

theorem turn_turn (haxis : axis.dot axis = 1) (further : ℝ) :
    (a.turn axis angle).turn axis further = a.turn axis (angle + further) := by
  rw [turn_eq, a.along_turn angle haxis, a.turnAcross_turn angle haxis, ← turn_eq]

end BeamTransport.Vec3
