import BeamTransport.Decimal.Literal
import BeamTransport.Scalar.Basic
import Mathlib

/-!
# Real scalars

The real numbers as scalars: every formula of the library read exactly, with the circular functions
of analysis. All reals are finite, and the angle of a point is its argument as a complex number, in
the half-open interval from minus pi to pi. A literal stands for its exact value.
-/

namespace BeamTransport

noncomputable instance Scalar.instReal : Scalar ℝ where
  ltDecidable := inferInstance
  leDecidable := inferInstance
  ofNat n := n
  isFinite _ := true
  pi := Real.pi
  abs x := |x|
  sqrt := Real.sqrt
  sin := Real.sin
  cos := Real.cos
  tan := Real.tan
  sinh := Real.sinh
  cosh := Real.cosh
  atan2 y x := Complex.arg ⟨x, y⟩
  hypot x y := Real.sqrt (x ^ 2 + y ^ 2)

/-- A real literal has digits; those that are infinite or no number have no real value. -/
noncomputable instance Decimal.instOfLiteralReal : Decimal.OfLiteral ℝ where
  ofLiteral?
    | .finite negative digits exponent =>
      some (if negative then -(digits * 10 ^ exponent) else digits * 10 ^ exponent)
    | .infinite _ | .nan => none

/-! ## What the operations are over the reals -/

namespace Scalar

@[simp] theorem ofNat_real (n : ℕ) : (ofNat n : ℝ) = n := rfl

@[simp] theorem isFinite_real (a : ℝ) : isFinite a = true := rfl

@[simp] theorem abs_real (a : ℝ) : abs a = |a| := rfl

@[simp] theorem sqrt_real (a : ℝ) : sqrt a = Real.sqrt a := rfl

@[simp] theorem sin_real (a : ℝ) : sin a = Real.sin a := rfl

@[simp] theorem cos_real (a : ℝ) : cos a = Real.cos a := rfl

@[simp] theorem tan_real (a : ℝ) : tan a = Real.tan a := rfl

@[simp] theorem sinh_real (a : ℝ) : sinh a = Real.sinh a := rfl

@[simp] theorem cosh_real (a : ℝ) : cosh a = Real.cosh a := rfl

@[simp] theorem atan2_real (y x : ℝ) : atan2 y x = Complex.arg ⟨x, y⟩ := rfl

@[simp] theorem hypot_real (x y : ℝ) : hypot x y = Real.sqrt (x ^ 2 + y ^ 2) := rfl

@[simp] theorem min_real (a b : ℝ) : Scalar.min a b = Min.min a b := by
  rw [Scalar.min, min_def]
  split_ifs with hle hself
  · rfl
  · rfl
  · exact absurd (beq_self_eq_true b) hself

@[simp] theorem max_real (a b : ℝ) : Scalar.max a b = Max.max a b := by
  rw [Scalar.max, max_def]
  split_ifs with hle hself
  · rfl
  · rfl
  · exact absurd (beq_self_eq_true a) hself

theorem sign_mul_sign (a : ℝ) : sign a * sign a = 1 := by
  unfold sign
  split_ifs <;> norm_num

theorem sign_mul_self (a : ℝ) : sign a * a = |a| := by
  unfold sign
  split_ifs with h
  · rw [abs_of_neg h]
    ring
  · rw [abs_of_nonneg (not_lt.mp h), one_mul]

theorem resolution_pos : (0 : ℝ) < resolution := by
  unfold resolution
  norm_num

end Scalar

/-! ## Significant reals -/

theorem significant_iff (a : ℝ) : Significant a ↔ Scalar.resolution < |a| := Iff.rfl

theorem Significant.ne_zero {a : ℝ} (h : Significant a) : a ≠ 0 := by
  intro hzero
  rw [significant_iff, hzero, abs_zero] at h
  exact absurd Scalar.resolution_pos (lt_asymm h)

theorem not_significant_zero : ¬ Significant (0 : ℝ) := fun h => h.ne_zero rfl

theorem significant_of_one_le {a : ℝ} (h : 1 ≤ |a|) : Significant a := by
  rw [significant_iff]
  refine lt_of_lt_of_le ?_ h
  unfold Scalar.resolution
  norm_num

theorem significant_congr {a b : ℝ} (h : |a| = |b|) : Significant a ↔ Significant b := by
  rw [significant_iff, significant_iff, h]

/-! ## Signs -/

/-- One or minus one. -/
def IsSign (e : ℝ) : Prop := e = 1 ∨ e = -1

namespace IsSign

theorem one : IsSign 1 := Or.inl rfl

theorem neg_one : IsSign (-1) := Or.inr rfl

variable {e f : ℝ} (he : IsSign e) (a : ℝ)

include he

theorem mul_self : e * e = 1 := by
  rcases he with rfl | rfl
  · exact one_mul 1
  · norm_num

theorem ne_zero : e ≠ 0 := left_ne_zero_of_mul_eq_one he.mul_self

theorem mul (hf : IsSign f) : IsSign (e * f) := by
  rcases he with rfl | rfl
  · rwa [one_mul]
  · rcases hf with rfl | rfl
    · exact Or.inr (mul_one _)
    · exact Or.inl (by norm_num)

theorem div_mul (b : ℝ) : b / (e * a) = e * (b / a) := by
  rcases he with rfl | rfl
  · rw [one_mul, one_mul]
  · rw [neg_one_mul, neg_one_mul, div_neg]

theorem abs_mul : |e * a| = |a| := by
  rcases he with rfl | rfl
  · rw [one_mul]
  · rw [neg_one_mul, abs_neg]

theorem cos_mul : Real.cos (e * a) = Real.cos a := by
  rcases he with rfl | rfl
  · rw [one_mul]
  · rw [neg_one_mul, Real.cos_neg]

theorem sin_mul : Real.sin (e * a) = e * Real.sin a := by
  rcases he with rfl | rfl
  · rw [one_mul, one_mul]
  · rw [neg_one_mul, neg_one_mul, Real.sin_neg]

theorem tan_mul : Real.tan (e * a) = e * Real.tan a := by
  rw [Real.tan_eq_sin_div_cos, Real.tan_eq_sin_div_cos, he.sin_mul, he.cos_mul, mul_div_assoc]

theorem significant_mul : Significant (e * a) ↔ Significant a := significant_congr (he.abs_mul a)

variable {a} in
theorem sign_mul (ha : a ≠ 0) : Scalar.sign (e * a) = e * Scalar.sign a := by
  rcases he with rfl | rfl
  · rw [one_mul, one_mul]
  · unfold Scalar.sign
    rcases lt_or_gt_of_ne ha with hneg | hpos
    · rw [if_pos hneg, if_neg (not_lt.mpr (by linarith))]
      norm_num
    · rw [if_neg (not_lt.mpr hpos.le), if_pos (by linarith)]
      norm_num

end IsSign

end BeamTransport
