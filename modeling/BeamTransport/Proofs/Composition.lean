import BeamTransport.Proofs.Momentum

/-!
# One helix after another

The second of two helices through one field starts in the direction that the first one turned to and
with its magnitude of momentum, so both wind about one axis with one curvature (`helix_helix`). Going
back along a helix therefore leads to its start, whatever the curvature (`helix_neg_helix`); and
where the chord belongs to an arc or to a straight line, path lengths add up (`helix_add`).
-/

namespace BeamTransport

/-! ## Drifts -/

namespace State

variable (state : State ℝ)

@[simp] theorem drift_zero : state.drift 0 = state := by
  rw [drift, zero_smul, add_zero]

theorem drift_drift (h₁ h₂ : ℝ) : (state.drift h₁).drift h₂ = state.drift (h₁ + h₂) := by
  rw [drift, drift, drift, add_smul, add_assoc]

end State

namespace Motion

/-! ## Chords -/

variable {kappa : ℝ}

/-- The chord of an arc taken backwards. The arc that stands in for its chord changes sign too. -/
theorem chord_neg (kappa h : ℝ) : chord kappa (-h) = -chord kappa h := by
  unfold chord
  split_ifs
  · rw [mul_neg, mul_neg, Scalar.sin_real, Scalar.sin_real, Real.sin_neg]
    ring
  · rfl

theorem chord_add (hkappa : kappa = 0 ∨ Significant kappa) (a : Vec3 ℝ) {axis : Vec3 ℝ}
    (haxis : axis.dot axis = 1) (h₁ h₂ : ℝ) :
    chord kappa h₁ • a.turnAcross axis (0.5 * (kappa * h₁))
        + chord kappa h₂ • a.turnAcross axis (kappa * h₁ + 0.5 * (kappa * h₂)) =
      chord kappa (h₁ + h₂) • a.turnAcross axis (0.5 * (kappa * (h₁ + h₂))) := by
  rcases hkappa with rfl | hkappa
  · simp [chord, not_significant_zero, add_smul]
  -- The second chord is that of the turned direction; in the plane across the axis its components
  -- follow from the addition theorems.
  · rw [← a.turnAcross_turn _ haxis, chord_smul_turnAcross, chord_smul_turnAcross,
      chord_smul_turnAcross, a.across_turn _ haxis, a.turnAcross_cross _ haxis, Vec3.turnAcross_eq]
    simp only [chord_mul_cos hkappa, chord_mul_sin hkappa]
    rw [mul_add, Real.cos_add, Real.sin_add]
    module

/-! ## Helices -/

variable (motion : Motion ℝ) (state : State ℝ) {field : Vec3 ℝ}

theorem helix_momentum_ne_zero (hp : state.momentum ≠ 0) (h : ℝ) :
    (motion.helix state field h).momentum ≠ 0 := by
  rwa [ne_eq, ← Vec3.length_eq_zero_iff, length_helix, Vec3.length_eq_zero_iff]

/-- The second helix goes on from the direction that the first one turned to. -/
theorem helix_helix (hb : Significant field.length) (hp : state.momentum ≠ 0) (h₁ h₂ : ℝ) :
    motion.helix (motion.helix state field h₁) field h₂ =
      let axis := field / field.length
      let direction := state.momentum / state.momentum.length
      let kappa := motion.curvature field.length state.momentum.length
      ⟨state.position + (h₁ + h₂) • direction.along axis
          + (chord kappa h₁ • direction.turnAcross axis (0.5 * (kappa * h₁))
            + chord kappa h₂ • direction.turnAcross axis (kappa * h₁ + 0.5 * (kappa * h₂))),
        state.momentum.length • direction.turn axis (kappa * (h₁ + h₂))⟩ := by
  have haxis := Vec3.unit_div_length (field_ne_zero hb)
  have hmoving : (motion.helix state field h₁).momentum ≠ 0 :=
    motion.helix_momentum_ne_zero state hp h₁
  have hlength := motion.length_helix state field h₁
  have hturned : (motion.helix state field h₁).momentum / state.momentum.length =
      (state.momentum / state.momentum.length).turn (field / field.length)
        (motion.curvature field.length state.momentum.length * h₁) := by
    rw [← hlength, ← Vec3.direction_of_ne_zero hmoving, direction_helix hb hp, hlength]
  have hposition : (motion.helix state field h₁).position = _ :=
    congrArg State.position (motion.helix_of_moving hb hp h₁)
  rw [motion.helix_of_moving hb hmoving, hlength, hturned, hposition]
  simp only [Vec3.along_turn _ _ haxis, Vec3.turnAcross_turn _ _ haxis, Vec3.turn_turn _ _ haxis]
  refine State.ext ?_ ?_
  · module
  · dsimp only
    rw [mul_add]

theorem helix_neg_helix (field : Vec3 ℝ) (h : ℝ) :
    motion.helix (motion.helix state field h) field (-h) = state := by
  by_cases hmoving : Significant field.length ∧ state.momentum ≠ 0
  · obtain ⟨hb, hp⟩ := hmoving
    have hback (kappa : ℝ) : kappa * h + 0.5 * (kappa * -h) = 0.5 * (kappa * h) := by ring
    rw [motion.helix_helix state hb hp]
    refine State.ext ?_ ?_
    · dsimp only
      rw [hback, chord_neg, neg_smul, add_neg_cancel, add_neg_cancel, zero_smul, add_zero, add_zero]
    · dsimp only
      rw [add_neg_cancel, mul_zero, Vec3.turn_zero, Vec3.length_smul_div_length hp]
  · have hdrifted : ¬ (Significant field.length ∧ (state.drift h).momentum ≠ 0) := hmoving
    rw [motion.helix_of_not_moving hmoving, motion.helix_of_not_moving hdrifted, State.drift_drift,
      add_neg_cancel, State.drift_zero]

theorem helix_add (field : Vec3 ℝ)
    (hkappa : ¬ (Significant field.length ∧ state.momentum ≠ 0) ∨
      motion.curvature field.length state.momentum.length = 0 ∨
      Significant (motion.curvature field.length state.momentum.length)) (h₁ h₂ : ℝ) :
    motion.helix (motion.helix state field h₁) field h₂ = motion.helix state field (h₁ + h₂) := by
  by_cases hmoving : Significant field.length ∧ state.momentum ≠ 0
  · obtain ⟨hb, hp⟩ := hmoving
    have haxis := Vec3.unit_div_length (field_ne_zero hb)
    have hexact := hkappa.resolve_left (not_not.mpr ⟨hb, hp⟩)
    rw [motion.helix_helix state hb hp, motion.helix_of_moving hb hp]
    refine State.ext ?_ rfl
    dsimp only
    rw [chord_add hexact _ haxis]
  · have hdrifted : ¬ (Significant field.length ∧ (state.drift h₁).momentum ≠ 0) := hmoving
    rw [motion.helix_of_not_moving hmoving, motion.helix_of_not_moving hmoving,
      motion.helix_of_not_moving hdrifted, State.drift_drift]

end Motion

/-- A step of a bend over no length leads nowhere. -/
theorem Dipole.advance_zero (d : Dipole ℝ) (state : State ℝ) : d.advance state 0 = state := by
  unfold advance
  split_ifs
  · simp only [mul_zero, d.motion.helix_zero, d.motion.rotate_zero]
  · exact d.motion.helix_zero state d.fieldVector

end BeamTransport
