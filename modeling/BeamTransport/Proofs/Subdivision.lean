import BeamTransport.Proofs.Composition
import BeamTransport.Proofs.Geometry

/-!
# A bend without gradient may be cut into any steps

Without gradient a bend moves a particle along one helix. Where the helix is exact for the particle
(`Dipole.IsExactFor`), path lengths add up (`Dipole.advance_add`), so a step shows no error
(`Dipole.step_eq_advance`) and a run is on the helix after each of its steps, however many there are
(`Dipole.path_independent_of_steps`).
-/

namespace BeamTransport

/-! ## Steps without error -/

protected theorem State.sub_self (state : State ℝ) : state - state = 0 :=
  State.ext (sub_self state.position) (sub_self state.momentum)

theorem Step.comparing_self (state : State ℝ) : Step.comparing state state = .exact state := by
  rw [comparing, State.sub_self, exact]

@[simp] theorem State.maxAbs_zero : (0 : State ℝ).maxAbs = 0 := by
  simp [maxAbs, components, Scalar.max]

namespace Dipole

variable (d : Dipole ℝ)

/-- The helix of a state through a bend is exact: the particle goes straight, because there is no
field, no momentum or no curvature, or else turns by a significant curvature. Curvatures in between
are followed along arcs in place of chords. -/
def IsExactFor (state : State ℝ) : Prop :=
  ¬ Significant d.field ∨ state.momentum.length = 0 ∨
    d.motion.curvature |d.field| state.momentum.length = 0 ∨
    Significant (d.motion.curvature |d.field| state.momentum.length)

variable {d} {state : State ℝ}

theorem IsExactFor.advance (hexact : d.IsExactFor state) (h : ℝ) :
    d.IsExactFor (d.advance state h) := by
  -- Exactness only asks for the magnitude of the momentum, which a bend keeps.
  unfold IsExactFor
  rw [d.length_advance]
  exact hexact

section noGradient

variable (hgradient : ¬ Significant d.gradient)

include hgradient

theorem advance_eq_helix (state : State ℝ) (h : ℝ) :
    d.advance state h = d.motion.helix state d.fieldVector h := if_neg hgradient

theorem advance_eq_drift (hfield : ¬ Significant d.field) (state : State ℝ) (h : ℝ) :
    d.advance state h = state.drift h := by
  have hstill : ¬ (Significant d.fieldVector.length ∧ state.momentum ≠ 0) := by
    rw [length_fieldVector, significant_congr (abs_abs d.field)]
    exact fun hmoving => hfield hmoving.1
  rw [advance_eq_helix hgradient, d.motion.helix_of_not_moving hstill]

theorem advance_add (hexact : d.IsExactFor state) (h₁ h₂ : ℝ) :
    d.advance (d.advance state h₁) h₂ = d.advance state (h₁ + h₂) := by
  by_cases hfield : Significant d.field
  · simp only [advance_eq_helix hgradient]
    refine d.motion.helix_add state d.fieldVector ?_ h₁ h₂
    rw [length_fieldVector]
    rcases hexact with hnone | hrest | hkappa
    · exact absurd hfield hnone
    · exact Or.inl fun hmoving => hmoving.2 (state.momentum.length_eq_zero_iff.mp hrest)
    · exact Or.inr hkappa
  · simp only [advance_eq_drift hgradient hfield, State.drift_drift]

theorem step_eq_advance (hexact : d.IsExactFor state) (h : ℝ) :
    d.step state h = ⟨d.advance state h, 0⟩ := by
  have hhalves : (0.5 : ℝ) * h + 0.5 * h = h := by ring
  unfold step
  split_ifs with hzero
  · have hfield : ¬ Significant d.field := by
      simp only [isZero, decide_eq_true_eq] at hzero
      exact hzero.1
    rw [advance_eq_drift hgradient hfield, Step.exact]
  · rw [advance_add hgradient hexact, hhalves, Step.comparing_self, Step.exact]

theorem after_eq_advance (hexact : d.IsExactFor state) (h : ℝ) (k : ℕ) :
    (Integrator.dipole d).after h state k = d.advance state (k * h) := by
  induction k with
  | zero =>
    rw [Nat.cast_zero, zero_mul, d.advance_zero]
    rfl
  | succ k ih =>
    have hstep : ((Integrator.dipole d).step (d.advance state (k * h)) h).out =
        d.advance (d.advance state (k * h)) h :=
      congrArg Step.out (step_eq_advance hgradient (hexact.advance _) h)
    rw [Integrator.after_succ, ih, hstep, advance_add hgradient hexact]
    congr 1
    push_cast
    ring

end noGradient

/-- Through a bend without gradient the path does not depend on the number of steps, for every state
whose helix is exact: steps add up, each step is exact and shows no error, and the records of a run
in any number of steps lie on one helix. -/
theorem path_independent_of_steps (d : Dipole ℝ) (hgradient : ¬ Significant d.gradient)
    (y : State ℝ) (hexact : d.IsExactFor y) :
    (∀ h₁ h₂ : ℝ, d.advance (d.advance y h₁) h₂ = d.advance y (h₁ + h₂)) ∧
      (∀ (dydx : State ℝ) (h : ℝ),
        (Integrator.dipole d).stepWith y dydx h = ⟨d.advance y h, 0⟩) ∧
      ∀ (length : ℝ) (n k : ℕ), k < n →
        ((Integrator.dipole d).track y length n)[k]? =
          some ⟨d.advance y ((k + 1) * length / n), (k + 1) * length / n, 0⟩ := by
  refine ⟨advance_add hgradient hexact, ?_, ?_⟩
  · intro dydx h
    exact step_eq_advance hgradient hexact h
  · intro length n k hk
    have herror : ((Integrator.dipole d).step (d.advance y (k * (length / n))) (length / n)).maxError
        = 0 := by
      rw [Integrator.step, Integrator.stepWith, step_eq_advance hgradient (hexact.advance _)]
      exact State.maxAbs_zero
    rw [Integrator.getElem?_track _ _ _ _ _ hk, after_eq_advance hgradient hexact,
      after_eq_advance hgradient hexact, herror]
    push_cast
    rw [mul_div_assoc]

/-- A negative charge in a bend, off the orbit and askew to the field, backwards in seven steps. -/
theorem path_independent_of_steps_backwards :
    let d : Dipole ℝ := .withoutGradient ⟨-1⟩ (.sector 1 30) 1
    let y : State ℝ := ⟨⟨1, -2, 3⟩, ⟨3, 4, 0⟩⟩
    ¬ Significant d.gradient ∧ d.IsExactFor y ∧
      ∀ k : ℕ, k < 7 → ((Integrator.dipole d).track y (-2) 7)[k]? =
        some ⟨d.advance y ((k + 1) * -2 / (7 : ℕ)), (k + 1) * -2 / (7 : ℕ), 0⟩ := by
  intro d y
  have hgradient : ¬ Significant d.gradient := by
    have hnone : d.gradient = 0 := by simp [d, withoutGradient, ofMagnet]
    rw [hnone]
    exact not_significant_zero
  have hfield : d.field = 30 := by
    have hbent : (BendGeometry.sector 1 30 : BendGeometry ℝ).isBent = true :=
      BendGeometry.isBent_iff.mpr ⟨significant_of_one_le (by norm_num [BendGeometry.sector]),
        significant_of_one_le (by norm_num [BendGeometry.sector])⟩
    change (BendGeometry.sector 1 30 : BendGeometry ℝ).field 1 = 30
    rw [BendGeometry.field_of_isBent hbent]
    norm_num [BendGeometry.sector]
  have hp : y.momentum.length = 5 :=
    Vec3.length_of_dot_self (by norm_num) (by norm_num [y, Vec3.dot])
  have hexact : d.IsExactFor y := by
    refine Or.inr (Or.inr (Or.inr (significant_of_one_le ?_)))
    rw [hfield, hp, Motion.curvature, Motion.coupling, speedOfLight]
    norm_num [d, withoutGradient, ofMagnet]
  exact ⟨hgradient, hexact, fun k hk =>
    (path_independent_of_steps d hgradient y hexact).2.2 (-2) 7 k hk⟩

end Dipole

end BeamTransport
