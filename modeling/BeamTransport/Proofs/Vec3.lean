import BeamTransport.Proofs.Scalar
import BeamTransport.Vec3

/-!
# Vectors over the reals

Vectors with real components form a real vector space, with the scalar product bilinear and the
vector product turning a vector across both factors. `length_smul` and `direction_of_ne_zero` are
what the transport formulas need of lengths and directions.
-/

namespace BeamTransport.Vec3

/-! ## The vector space -/

instance : Neg (Vec3 ℝ) := ⟨fun a => ⟨-a.x, -a.y, -a.z⟩⟩

@[simp] theorem neg_x (a : Vec3 ℝ) : (-a).x = -a.x := rfl

@[simp] theorem neg_y (a : Vec3 ℝ) : (-a).y = -a.y := rfl

@[simp] theorem neg_z (a : Vec3 ℝ) : (-a).z = -a.z := rfl

noncomputable instance : AddCommGroup (Vec3 ℝ) where
  add_assoc a b c := by ext <;> simp <;> ring
  zero_add a := by ext <;> simp
  add_zero a := by ext <;> simp
  add_comm a b := by ext <;> simp <;> ring
  neg_add_cancel a := by ext <;> simp
  sub_eq_add_neg a b := by ext <;> simp <;> ring
  nsmul := nsmulRec
  zsmul := zsmulRec

noncomputable instance : Module ℝ (Vec3 ℝ) where
  one_smul a := by ext <;> simp
  mul_smul k l a := by ext <;> simp <;> ring
  smul_zero k := by ext <;> simp
  smul_add k a b := by ext <;> simp <;> ring
  add_smul k l a := by ext <;> simp <;> ring
  zero_smul a := by ext <;> simp

variable (a b c axis : Vec3 ℝ) (k : ℝ)

theorem div_eq_smul : a / k = k⁻¹ • a := by
  ext <;> simp <;> ring

/-! ## Products -/

theorem dot_comm : a.dot b = b.dot a := by
  unfold dot
  ring

theorem add_dot : (a + b).dot c = a.dot c + b.dot c := by
  simp only [dot, add_x, add_y, add_z]
  ring

theorem sub_dot : (a - b).dot c = a.dot c - b.dot c := by
  simp only [dot, sub_x, sub_y, sub_z]
  ring

theorem smul_dot : (k • a).dot b = k * a.dot b := by
  simp only [dot, smul_x, smul_y, smul_z]
  ring

theorem dot_add : a.dot (b + c) = a.dot b + a.dot c := by
  rw [dot_comm, add_dot, dot_comm b, dot_comm c]

theorem dot_smul : a.dot (k • b) = k * a.dot b := by
  rw [dot_comm, smul_dot, dot_comm]

theorem add_cross : (a + b).cross c = a.cross c + b.cross c := by
  ext <;> simp [cross] <;> ring

theorem smul_cross : (k • a).cross b = k • a.cross b := by
  ext <;> simp [cross] <;> ring

theorem cross_smul : a.cross (k • b) = k • a.cross b := by
  ext <;> simp [cross] <;> ring

theorem cross_self : a.cross a = 0 := by
  ext <;> simp [cross]

theorem cross_dot_left : (a.cross b).dot a = 0 := by
  simp only [dot, cross]
  ring

theorem cross_dot_right : (a.cross b).dot b = 0 := by
  simp only [dot, cross]
  ring

theorem cross_cross_self : (a.cross b).cross b = a.dot b • b - b.dot b • a := by
  ext <;> simp [cross, dot] <;> ring

theorem cross_dot_cross : (a.cross b).dot (a.cross b) = a.dot a * b.dot b - a.dot b * a.dot b := by
  simp only [dot, cross]
  ring

/-! ## Length and direction -/

theorem dot_self_nonneg : 0 ≤ a.dot a := by
  unfold dot
  nlinarith [mul_self_nonneg a.x, mul_self_nonneg a.y, mul_self_nonneg a.z]

theorem length_eq_sqrt : a.length = Real.sqrt (a.dot a) := rfl

theorem length_nonneg : 0 ≤ a.length := Real.sqrt_nonneg _

theorem length_mul_self : a.length * a.length = a.dot a := Real.mul_self_sqrt a.dot_self_nonneg

variable {a} in
theorem eq_zero_of_dot_self (h : a.dot a = 0) : a = 0 := by
  unfold dot at h
  have hx := mul_self_nonneg a.x
  have hy := mul_self_nonneg a.y
  have hz := mul_self_nonneg a.z
  ext
  · exact mul_self_eq_zero.mp (by linarith)
  · exact mul_self_eq_zero.mp (by linarith)
  · exact mul_self_eq_zero.mp (by linarith)

@[simp] theorem length_zero : (0 : Vec3 ℝ).length = 0 := by
  rw [length_eq_sqrt, dot]
  simp

theorem length_eq_zero_iff : a.length = 0 ↔ a = 0 := by
  constructor
  · intro h
    refine eq_zero_of_dot_self ?_
    rw [← length_mul_self, h, mul_zero]
  · rintro rfl
    exact length_zero

theorem length_pos_iff : 0 < a.length ↔ a ≠ 0 := by
  rw [ne_eq, ← length_eq_zero_iff]
  exact ⟨fun h => h.ne', fun h => lt_of_le_of_ne a.length_nonneg (Ne.symm h)⟩

theorem length_smul : (k • a).length = |k| * a.length := by
  rw [length_eq_sqrt, smul_dot, dot_smul, ← mul_assoc, Real.sqrt_mul (mul_self_nonneg k),
    Real.sqrt_mul_self_eq_abs, length_eq_sqrt]

variable {a}

theorem length_of_dot_self {l : ℝ} (hl : 0 ≤ l) (h : a.dot a = l * l) : a.length = l := by
  rw [length_eq_sqrt, h, Real.sqrt_mul_self hl]

/-- A vector over its length is a unit vector. -/
theorem unit_div_length (h : a ≠ 0) : (a / a.length).dot (a / a.length) = 1 := by
  have hpos := a.length_pos_iff.mpr h
  rw [div_eq_smul, smul_dot, dot_smul, ← length_mul_self]
  field_simp

theorem length_smul_div_length (h : a ≠ 0) : a.length • (a / a.length) = a := by
  have hpos := a.length_pos_iff.mpr h
  rw [div_eq_smul, smul_smul, mul_inv_cancel₀ hpos.ne', one_smul]

theorem direction_of_ne_zero (h : a ≠ 0) : a.direction = a / a.length := by
  have hpos : 0 < 1 / a.length := one_div_pos.mpr (a.length_pos_iff.mpr h)
  rw [direction, if_pos ⟨Scalar.isFinite_real _, hpos⟩, div_eq_smul, one_div]

@[simp] theorem direction_zero : (0 : Vec3 ℝ).direction = 0 := by
  rw [direction, length_zero, div_zero]
  exact if_neg fun h => lt_irrefl 0 h.2

/-- The length and the direction give a vector back, the zero vector included. -/
theorem length_smul_direction (a : Vec3 ℝ) : a.length • a.direction = a := by
  by_cases hzero : a = 0
  · rw [hzero, length_zero, zero_smul]
  · rw [direction_of_ne_zero hzero, length_smul_div_length hzero]

theorem direction_of_unit (hunit : a.length = 1) : a.direction = a := by
  have hscaled := a.length_smul_direction
  rwa [hunit, one_smul] at hscaled

theorem direction_smul {u : Vec3 ℝ} (hu : u.dot u = 1) {p : ℝ} (hp : 0 < p) :
    (p • u).direction = u := by
  have hlength : (p • u).length = p := by
    refine length_of_dot_self hp.le ?_
    rw [smul_dot, dot_smul, hu, mul_one]
  have hne : p • u ≠ 0 := by
    rw [← length_pos_iff, hlength]
    exact hp
  rw [direction_of_ne_zero hne, hlength, div_eq_smul, smul_smul, inv_mul_cancel₀ hp.ne', one_smul]

theorem rotateZ_smul (angle : ℝ) : (k • a).rotateZ angle = k • a.rotateZ angle := by
  unfold rotateZ
  ext <;> simp <;> ring

end BeamTransport.Vec3
