import BeamTransport.Geometry
import BeamTransport.Proofs.Scalar

/-!
# The arc of a bend

What the geometry of a magnet says once its orbit turns: curvature, field and chord as ratios of the
angle and the length. Without a turn there is neither curvature nor field. The geometries that no magnet has
are those of `exists_fault?_iff`.
-/

namespace BeamTransport.BendGeometry

section anyArithmetic

variable {α : Type}

/-- The numbers that describe a geometry. -/
def numbers (g : BendGeometry α) : List α :=
  [g.arcLength, g.angle, g.entranceFace, g.exitFace, g.fringeIntegral, g.halfGap]

theorem numbers_eq (g : BendGeometry α) : g.numbers = GeometryParameter.all.map g.parameter := rfl

variable [Scalar α]

/-- The geometries with a fault. -/
theorem exists_fault?_iff {g : BendGeometry α} :
    (∃ fault, g.fault? = some fault) ↔
      (∃ a ∈ g.numbers, Scalar.isFinite a = false) ∨ g.arcLength < 0 ∨
        (Significant g.angle ∧ ¬ Significant g.arcLength) := by
  rw [fault?, numbers_eq]
  cases hfind : GeometryParameter.all.find? fun p => !Scalar.isFinite (g.parameter p) with
  | some p =>
    have hp := List.find?_some hfind
    rw [Bool.not_eq_true'] at hp
    have hmem := List.mem_map_of_mem (f := g.parameter) (List.mem_of_find?_eq_some hfind)
    exact iff_of_true ⟨_, rfl⟩ (Or.inl ⟨_, hmem, hp⟩)
  | none =>
    have hfinite : ¬ ∃ a ∈ GeometryParameter.all.map g.parameter, Scalar.isFinite a = false := by
      rintro ⟨a, hmem, ha⟩
      obtain ⟨p, hp, rfl⟩ := List.mem_map.mp hmem
      have hall := List.find?_eq_none.mp hfind p hp
      rw [ha] at hall
      exact hall rfl
    rw [or_iff_right hfinite]
    by_cases hlength : g.arcLength < 0
    · simp [hlength]
    by_cases hangle : Significant g.angle ∧ ¬ Significant g.arcLength
    · simp [hlength, hangle]
    · simp [hlength, hangle]

end anyArithmetic

variable {g : BendGeometry ℝ}

theorem fault?_eq_none_iff : g.fault? = none ↔
    0 ≤ g.arcLength ∧ (Significant g.angle → Significant g.arcLength) := by
  rw [← not_iff_not, ← ne_eq, Option.ne_none_iff_exists', exists_fault?_iff, not_and_or, not_le,
    Classical.not_imp]
  simp

theorem isBent_iff :
    g.isBent = true ↔ Significant g.angle ∧ Significant g.arcLength := decide_eq_true_iff

theorem curvature_of_isBent (hbent : g.isBent = true) :
    g.curvature = g.angle / g.arcLength := if_pos hbent

theorem curvature_eq_zero_iff : g.curvature = 0 ↔ ¬ g.isBent = true := by
  constructor
  · intro hzero hbent
    obtain ⟨hangle, hlength⟩ := isBent_iff.mp hbent
    rw [curvature_of_isBent hbent] at hzero
    exact div_ne_zero hangle.ne_zero hlength.ne_zero hzero
  · intro hstraight
    exact if_neg hstraight

theorem field_eq_zero_iff {rigidity : ℝ} (hrigidity : rigidity ≠ 0) :
    g.field rigidity = 0 ↔ g.curvature = 0 := mul_eq_zero_iff_left hrigidity

theorem field_of_isBent (hbent : g.isBent = true) (rigidity : ℝ) :
    g.field rigidity = rigidity * (g.angle / g.arcLength) := by
  rw [field, curvature_of_isBent hbent]

theorem chordLength_of_isBent (hbent : g.isBent = true) :
    g.chordLength =
      2 * Real.sin (g.angle / g.arcLength * g.arcLength / 2) / (g.angle / g.arcLength) := by
  obtain ⟨hangle, hlength⟩ := BendGeometry.isBent_iff.mp hbent
  have hangle0 := hangle.ne_zero
  have hlength0 := hlength.ne_zero
  have hhalf : (0.5 : ℝ) * g.angle = g.angle / 2 := by ring
  rw [chordLength, if_pos hbent, Scalar.sin_real, hhalf, div_mul_cancel₀ _ hlength0]
  field_simp

end BeamTransport.BendGeometry
