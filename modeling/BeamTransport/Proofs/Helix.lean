import BeamTransport.Proofs.Derivative
import BeamTransport.Proofs.Turn

/-!
# The helix in a uniform field

`helix_solves_motion`: the helix starts at the given state and follows the equation of motion at
every path length, for any direction of the field. The path across the field is carried by the two
components of the chord, `chord * cos` and `chord * sin` of half the angle, whose derivatives are
the cosine and the sine of the whole angle.
-/

namespace BeamTransport.Motion

variable {kappa : ℝ}

/-! ## The chord of an arc -/

@[simp] theorem chord_zero (kappa : ℝ) : chord kappa 0 = 0 := by
  unfold chord
  split_ifs <;> simp

theorem chord_mul_cos (hkappa : Significant kappa) (h : ℝ) :
    chord kappa h * Real.cos (0.5 * (kappa * h)) = Real.sin (kappa * h) / kappa := by
  have hdouble := Real.sin_two_mul (0.5 * (kappa * h))
  rw [show 2 * (0.5 * (kappa * h)) = kappa * h by ring] at hdouble
  rw [chord, if_pos hkappa, hdouble, Scalar.sin_real]
  ring

theorem chord_mul_sin (hkappa : Significant kappa) (h : ℝ) :
    chord kappa h * Real.sin (0.5 * (kappa * h)) = (1 - Real.cos (kappa * h)) / kappa := by
  have hdouble := Real.cos_two_mul (0.5 * (kappa * h))
  rw [show 2 * (0.5 * (kappa * h)) = kappa * h by ring] at hdouble
  have hsq := Real.sin_sq (0.5 * (kappa * h))
  rw [chord, if_pos hkappa, hdouble, Scalar.sin_real]
  linear_combination 2 / kappa * hsq

theorem hasDerivAt_angle (kappa h : ℝ) : HasDerivAt (fun t => kappa * t) kappa h := by
  simpa using (hasDerivAt_id h).const_mul kappa

theorem hasDerivAt_chord_mul_cos (hkappa : kappa = 0 ∨ Significant kappa) (h : ℝ) :
    HasDerivAt (fun t => chord kappa t * Real.cos (0.5 * (kappa * t))) (Real.cos (kappa * h)) h := by
  rcases hkappa with rfl | hkappa
  · simpa [chord, not_significant_zero] using hasDerivAt_id' h
  · have hne := hkappa.ne_zero
    simp only [chord_mul_cos hkappa]
    refine ((hasDerivAt_angle kappa h).sin.div_const kappa).congr_deriv ?_
    field_simp

theorem hasDerivAt_chord_mul_sin (hkappa : kappa = 0 ∨ Significant kappa) (h : ℝ) :
    HasDerivAt (fun t => chord kappa t * Real.sin (0.5 * (kappa * t))) (Real.sin (kappa * h)) h := by
  rcases hkappa with rfl | hkappa
  · simpa using hasDerivAt_const h (0 : ℝ)
  · have hne := hkappa.ne_zero
    simp only [chord_mul_sin hkappa]
    refine (((hasDerivAt_angle kappa h).cos.const_sub 1).div_const kappa).congr_deriv ?_
    field_simp

/-! ## The motion across and along the field -/

variable (a : Vec3 ℝ) {axis : Vec3 ℝ}

theorem chord_smul_turnAcross (kappa h : ℝ) :
    chord kappa h • a.turnAcross axis (0.5 * (kappa * h)) =
      (chord kappa h * Real.cos (0.5 * (kappa * h))) • a.across axis +
        (chord kappa h * Real.sin (0.5 * (kappa * h))) • (a.across axis).cross axis := by
  rw [Vec3.turnAcross_eq]
  module

/-- Going straight along the field and by chords across it is going in the turned direction. -/
theorem hasDeriv_along_add_chord (hkappa : kappa = 0 ∨ Significant kappa) (h : ℝ) :
    Vec3.HasDeriv
      (fun t => t • a.along axis + chord kappa t • a.turnAcross axis (0.5 * (kappa * t)))
      (a.turn axis (kappa * h)) h := by
  simp only [chord_smul_turnAcross]
  refine ((Vec3.hasDeriv_smul (hasDerivAt_id h) _).add
    ((Vec3.hasDeriv_smul (hasDerivAt_chord_mul_cos hkappa h) _).add
      (Vec3.hasDeriv_smul (hasDerivAt_chord_mul_sin hkappa h) _))).congr_rate ?_
  rw [Vec3.turn_eq, Vec3.turnAcross_eq, one_smul]

theorem hasDeriv_turn (haxis : axis.dot axis = 1) (h : ℝ) :
    Vec3.HasDeriv (fun t => a.turn axis (kappa * t))
      (kappa • (a.turn axis (kappa * h)).cross axis) h := by
  simp only [Vec3.turn_eq, Vec3.turnAcross_eq]
  have hangle := hasDerivAt_angle kappa h
  refine ((Vec3.hasDeriv_const _ h).add ((Vec3.hasDeriv_smul hangle.cos _).add
    (Vec3.hasDeriv_smul hangle.sin _))).congr_rate ?_
  rw [← Vec3.turnAcross_eq, ← Vec3.turn_eq, Vec3.turn_cross, a.turnAcross_cross _ haxis]
  module

/-! ## The helix -/

variable (motion : Motion ℝ) {state : State ℝ} {field : Vec3 ℝ}

theorem moving_iff {momentum : Vec3 ℝ} :
    (Significant field.length ∧ ¬ (momentum.length == 0) = true) ↔
      Significant field.length ∧ momentum ≠ 0 := by
  rw [beq_iff_eq, Vec3.length_eq_zero_iff]

theorem helix_of_moving (hb : Significant field.length) (hp : state.momentum ≠ 0) (h : ℝ) :
    motion.helix state field h =
      let axis := field / field.length
      let direction := state.momentum / state.momentum.length
      let kappa := motion.curvature field.length state.momentum.length
      ⟨state.position + h • direction.along axis
          + chord kappa h • direction.turnAcross axis (0.5 * (kappa * h)),
        state.momentum.length • direction.turn axis (kappa * h)⟩ := by
  rw [helix, if_pos (moving_iff.mpr ⟨hb, hp⟩)]

theorem helix_of_not_moving (hmoving : ¬ (Significant field.length ∧ state.momentum ≠ 0)) (h : ℝ) :
    motion.helix state field h = state.drift h := by
  rw [helix, if_neg (fun hcondition => hmoving (moving_iff.mp hcondition))]

theorem rotate_of_moving {momentum : Vec3 ℝ} (hb : Significant field.length) (hp : momentum ≠ 0)
    (h : ℝ) : motion.rotate momentum field h =
      momentum.length • (momentum / momentum.length).turn (field / field.length)
        (motion.curvature field.length momentum.length * h) := by
  rw [rotate, if_pos (moving_iff.mpr ⟨hb, hp⟩)]

theorem rotate_of_not_moving {momentum : Vec3 ℝ}
    (hmoving : ¬ (Significant field.length ∧ momentum ≠ 0)) (h : ℝ) :
    motion.rotate momentum field h = momentum := by
  rw [rotate, if_neg (fun hcondition => hmoving (moving_iff.mp hcondition))]

theorem helix_zero (state : State ℝ) (field : Vec3 ℝ) : motion.helix state field 0 = state := by
  by_cases hmoving : Significant field.length ∧ state.momentum ≠ 0
  · rw [motion.helix_of_moving hmoving.1 hmoving.2]
    refine State.ext ?_ ?_
    · simp only [chord_zero, zero_smul, add_zero]
    · simp only [mul_zero, Vec3.turn_zero, Vec3.length_smul_div_length hmoving.2]
  · rw [motion.helix_of_not_moving hmoving, State.drift, zero_smul, add_zero]

theorem rotate_zero (momentum field : Vec3 ℝ) : motion.rotate momentum field 0 = momentum := by
  by_cases hmoving : Significant field.length ∧ momentum ≠ 0
  · rw [motion.rotate_of_moving hmoving.1 hmoving.2, mul_zero, Vec3.turn_zero,
      Vec3.length_smul_div_length hmoving.2]
  · exact motion.rotate_of_not_moving hmoving 0

section moving

variable {motion} (hb : Significant field.length) (hp : state.momentum ≠ 0)

include hb in
theorem field_ne_zero : field ≠ 0 :=
  field.length_pos_iff.mp (lt_of_le_of_ne field.length_nonneg (Ne.symm hb.ne_zero))

include hb hp

theorem direction_helix (h : ℝ) : (motion.helix state field h).momentum.direction =
    (state.momentum / state.momentum.length).turn (field / field.length)
      (motion.curvature field.length state.momentum.length * h) := by
  have haxis := Vec3.unit_div_length (field_ne_zero hb)
  rw [motion.helix_of_moving hb hp]
  refine Vec3.direction_smul ?_ (state.momentum.length_pos_iff.mpr hp)
  rw [Vec3.turn_dot_self _ _ haxis, Vec3.unit_div_length hp]

/-- The position on the helix changes by the direction of motion. -/
theorem hasDeriv_helix_position
    (hkappa : motion.curvature field.length state.momentum.length = 0 ∨
      Significant (motion.curvature field.length state.momentum.length)) (h : ℝ) :
    Vec3.HasDeriv (fun t => (motion.helix state field t).position)
      (motion.helix state field h).momentum.direction h := by
  rw [direction_helix hb hp]
  simp only [motion.helix_of_moving hb hp, add_assoc]
  refine ((Vec3.hasDeriv_const state.position h).add
    (hasDeriv_along_add_chord _ hkappa h)).congr_rate ?_
  rw [zero_add]

/-- The momentum on the helix changes by the force of the field: what the curvature turns of the
momentum is the coupling times the field. -/
theorem hasDeriv_helix_momentum (h : ℝ) :
    Vec3.HasDeriv (fun t => (motion.helix state field t).momentum)
      (motion.force (motion.helix state field h).momentum field) h := by
  have hfield := field_ne_zero hb
  have haxis := Vec3.unit_div_length hfield
  have hppos := state.momentum.length_pos_iff.mpr hp
  have hforce : state.momentum.length * motion.curvature field.length state.momentum.length =
      motion.coupling * field.length := by
    rw [curvature]
    field_simp
  rw [force, direction_helix hb hp]
  simp only [motion.helix_of_moving hb hp]
  refine ((hasDeriv_turn _ haxis h).const_smul state.momentum.length).congr_rate ?_
  rw [smul_smul, hforce, ← smul_smul, ← Vec3.cross_smul, Vec3.length_smul_div_length hfield]

end moving

/-- The helix through a uniform field is the motion of a charge in it: it starts at the given state,
and at every path length all its components change as the equation of motion says. -/
theorem helix_solves_motion (b : Vec3 ℝ) (y : State ℝ) (hb : Significant b.length)
    (hp : y.momentum ≠ 0)
    (hkappa : motion.curvature b.length y.momentum.length = 0 ∨
      Significant (motion.curvature b.length y.momentum.length)) (h : ℝ) :
    motion.helix y b 0 = y ∧
      State.HasDeriv (motion.helix y b)
        (motion.derivative (FieldMap.uniform b) (motion.helix y b h)) h := by
  refine ⟨motion.helix_zero y b, ⟨?_, ?_⟩⟩
  · exact hasDeriv_helix_position hb hp hkappa h
  · exact hasDeriv_helix_momentum hb hp h

/-- A negative charge, in a field and with a momentum that are askew to each other and to the axes,
taken backwards. -/
theorem helix_solves_motion_askew :
    let motion : Motion ℝ := ⟨-1⟩
    let b : Vec3 ℝ := ⟨10, 20, 20⟩
    let y : State ℝ := ⟨⟨1, -2, 3⟩, ⟨3, 0, 4⟩⟩
    Significant b.length ∧ y.momentum ≠ 0 ∧
      Significant (motion.curvature b.length y.momentum.length) ∧
      motion.helix y b 0 = y ∧
      State.HasDeriv (motion.helix y b)
        (motion.derivative (FieldMap.uniform b) (motion.helix y b (-7))) (-7) := by
  intro motion b y
  have hb : b.length = 30 := Vec3.length_of_dot_self (by norm_num) (by norm_num [b, Vec3.dot])
  have hp : y.momentum.length = 5 :=
    Vec3.length_of_dot_self (by norm_num) (by norm_num [y, Vec3.dot])
  have hbent : Significant b.length := significant_of_one_le (by norm_num [hb])
  have hmoving : y.momentum ≠ 0 := by
    rw [← Vec3.length_pos_iff, hp]
    norm_num
  have hkappa : Significant (motion.curvature b.length y.momentum.length) := by
    rw [hb, hp, curvature, coupling, speedOfLight]
    exact significant_of_one_le (by norm_num [motion])
  exact ⟨hbent, hmoving, hkappa, helix_solves_motion motion b y hbent hmoving (Or.inr hkappa) (-7)⟩

end BeamTransport.Motion
