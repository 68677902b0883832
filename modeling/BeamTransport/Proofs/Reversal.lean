import BeamTransport.Proofs.Composition

/-!
# Bends can be tracked backwards

A step of a bend over minus its length undoes it (`Dipole.step_neg_step`): going back, the second half
helix leads to the same point in the middle, where the gradient has the same field and turns the
momentum back. Nothing here depends on the strengths, because a particle keeps its magnitude of
momentum and so stays on the same side of every limit. A run backwards then visits the states of the
run in reverse order (`Integrator.Reverses.states_track`).
-/

namespace BeamTransport

/-! ## Steps backwards -/

theorem Motion.rotate_neg_rotate (motion : Motion ℝ) (momentum field : Vec3 ℝ) (h : ℝ) :
    motion.rotate (motion.rotate momentum field h) field (-h) = momentum := by
  by_cases hmoving : Significant field.length ∧ momentum ≠ 0
  · obtain ⟨hb, hp⟩ := hmoving
    have haxis := Vec3.unit_div_length (field_ne_zero hb)
    have hlength := motion.length_rotate momentum field h
    have hrotated : motion.rotate momentum field h ≠ 0 := by
      rwa [ne_eq, ← Vec3.length_eq_zero_iff, hlength, Vec3.length_eq_zero_iff]
    have hturned : motion.rotate momentum field h / momentum.length =
        (momentum / momentum.length).turn (field / field.length)
          (motion.curvature field.length momentum.length * h) := by
      rw [motion.rotate_of_moving hb hp, Vec3.div_eq_smul, smul_smul,
        inv_mul_cancel₀ (momentum.length_pos_iff.mpr hp).ne', one_smul]
    rw [motion.rotate_of_moving hb hrotated, hlength, hturned, Vec3.turn_turn _ _ haxis, ← mul_add,
      add_neg_cancel, mul_zero, Vec3.turn_zero, Vec3.length_smul_div_length hp]
  · rw [motion.rotate_of_not_moving hmoving, motion.rotate_of_not_moving hmoving]

namespace Dipole

variable (d : Dipole ℝ) (state : State ℝ) (h : ℝ)

theorem advance_neg_advance : d.advance (d.advance state h) (-h) = state := by
  have hhalf : (0.5 : ℝ) * -h = -(0.5 * h) := mul_neg _ _
  unfold advance
  split_ifs
  -- Back at the middle the position is that of the first half helix, so the gradient field is too.
  · dsimp only
    rw [hhalf, d.motion.helix_neg_helix, d.motion.rotate_neg_rotate]
    exact d.motion.helix_neg_helix state d.fieldVector (0.5 * h)
  · exact d.motion.helix_neg_helix state d.fieldVector h

theorem step_neg_step : (d.step (d.step state h).out (-h)).out = state := by
  have hhalf : (0.5 : ℝ) * -h = -(0.5 * h) := mul_neg _ _
  unfold step
  split_ifs
  · rw [Step.exact, Step.exact, State.drift_drift, add_neg_cancel, State.drift_zero]
  · rw [Step.comparing, Step.comparing, hhalf, advance_neg_advance, advance_neg_advance]

end Dipole

/-! ## Runs backwards -/

namespace Integrator

/-- A step over minus a length undoes a step over it. -/
def Reverses (i : Integrator ℝ) : Prop :=
  ∀ (y : State ℝ) (h : ℝ), (i.step (i.step y h).out (-h)).out = y

theorem reverses_dipole (d : Dipole ℝ) : (dipole d).Reverses := d.step_neg_step

namespace Reverses

variable {i : Integrator ℝ} (hi : i.Reverses)

include hi

theorem after_neg_after (y : State ℝ) (h : ℝ) {n k : ℕ} (hk : k ≤ n) :
    i.after (-h) (i.after h y n) k = i.after h y (n - k) := by
  -- Each step back undoes the last step that is left of the run.
  induction k with
  | zero => rfl
  | succ k ih =>
    have hprevious : n - k = n - (k + 1) + 1 := by omega
    rw [after_succ, ih (by omega), hprevious, after_succ, hi]

theorem states_track_neg (initial : State ℝ) (length : ℝ) {n : ℕ} (hn : 0 < n) : ∃ final,
    (i.track initial length n).getLast? = some final ∧
      final.state :: (i.track final.state (-length) n).map (·.state) =
        (initial :: (i.track initial length n).map (·.state)).reverse := by
  refine ⟨_, i.getLast?_track initial length hn, ?_⟩
  rw [states_track, states_track, neg_div]
  refine List.ext_getElem ?_ fun k hback _ => ?_
  · simp
  · have hk : k ≤ n := by
      rw [List.length_map, List.length_range] at hback
      omega
    simp [hi.after_neg_after initial (length / n) hk]

end Reverses

/-- Tracking through a bend is time reversible, whatever its field, its gradient and the state. A step
without error estimate and a whole step are undone by the same step backwards; and tracking back from
the end of a run visits the states of the run in reverse order, back to its start. -/
theorem dipole_time_reversible (d : Dipole ℝ) :
    (∀ (y : State ℝ) (h : ℝ), d.advance (d.advance y h) (-h) = y) ∧
      (∀ (y dydx dydx' : State ℝ) (h : ℝ),
        ((dipole d).stepWith ((dipole d).stepWith y dydx h).out dydx' (-h)).out = y) ∧
      ∀ (initial : State ℝ) (length : ℝ) (n : ℕ), 0 < n → ∃ final,
        ((dipole d).track initial length n).getLast? = some final ∧
          final.state :: ((dipole d).track final.state (-length) n).map (·.state) =
            (initial :: ((dipole d).track initial length n).map (·.state)).reverse := by
  refine ⟨d.advance_neg_advance, ?_, ?_⟩
  · intro y dydx dydx' h
    exact d.step_neg_step y h
  · intro initial length n hn
    exact (reverses_dipole d).states_track_neg initial length hn

/-- Three steps through a bend with a gradient, off the orbit, and three steps back. -/
theorem dipole_time_reversible_three_steps :
    let d : Dipole ℝ := .ofMagnet ⟨-1⟩ (Strengths.empty.set .k1 (-4)) (.sector 2 1) 3
    let y : State ℝ := ⟨⟨0.1, -0.2, 0⟩, ⟨0.3, 0, 0.4⟩⟩
    0 < 3 ∧ ∃ final, ((dipole d).track y 2 3).getLast? = some final ∧
      final.state :: ((dipole d).track final.state (-2) 3).map (·.state) =
        (y :: ((dipole d).track y 2 3).map (·.state)).reverse := by
  intro d y
  exact ⟨by norm_num, (dipole_time_reversible d).2.2 y 2 3 (by norm_num)⟩

end Integrator

end BeamTransport
