import BeamTransport.Proofs.DipoleFringe
import BeamTransport.Proofs.Field
import BeamTransport.Proofs.Magnet
import BeamTransport.Proofs.Subdivision

/-!
# Steps without force

Where nothing changes the momentum, the direction is the same at every stage of a Runge-Kutta step, so
that the step is a drift and shows no error (`RungeKutta.step_of_no_force`). The other algorithms compare
their field and their gradient with what is significant before they do anything else. So a magnet whose
strengths and angle are all zero is a drift, whatever its kind and the algorithm that its set assigns to
it (`Magnet.drifts_when_off`).
-/

namespace BeamTransport

/-! ## Straight paths -/

namespace State

variable (y : State ℝ) (h : ℝ)

theorem drift_halves : (y.drift (0.5 * h)).drift (0.5 * h) = y.drift h := by
  rw [drift_drift]
  congr 1
  ring

theorem driftDerivative_add_smul : (y + h • y.driftDerivative).driftDerivative = y.driftDerivative := by
  have hmomentum : (y + h • y.driftDerivative).momentum = y.momentum := by
    rw [add_momentum, smul_momentum, driftDerivative, smul_zero, add_zero]
  rw [driftDerivative, hmomentum, driftDerivative]

/-- The weights of a fourth-order step make up the whole of its length. -/
theorem add_weighted_driftDerivative :
    let k := y.driftDerivative
    y + (h / 6) • (k + (2 : ℝ) • k + (2 : ℝ) • k + k) = y.drift h := by
  refine State.ext ?_ ?_
  · simp only [add_position, smul_position, driftDerivative, drift]
    module
  · simp only [add_momentum, smul_momentum, driftDerivative, drift]
    module

end State

namespace RungeKutta

variable {r : RungeKutta ℝ} (hforce : ∀ y, r.derivative y = y.driftDerivative)

include hforce

theorem singleStep_of_no_force (y : State ℝ) (h : ℝ) :
    r.singleStep y (r.derivative y) h = y.drift h := by
  simp only [singleStep, hforce, State.driftDerivative_add_smul]
  exact y.add_weighted_driftDerivative h

theorem step_of_no_force (y : State ℝ) (h : ℝ) :
    r.step y (r.derivative y) h = .exact (y.drift h) := by
  simp only [step, singleStep_of_no_force hforce]
  rw [State.drift_halves, Step.comparing_self]

end RungeKutta

theorem RungeKutta.derivative_of_no_field (motion : Motion ℝ) (y : State ℝ) :
    (RungeKutta.mk motion (.uniform 0)).derivative y = y.driftDerivative := by
  have hcross : y.momentum.direction.cross (FieldMap.uniform 0 y.position) = 0 := by
    simp only [FieldMap.uniform]
    ext <;> simp [Vec3.cross]
  rw [derivative, Motion.derivative, hcross, smul_zero, State.driftDerivative]

theorem Dipole.step_of_zero {d : Dipole ℝ} (hfield : d.field = 0) (hgradient : d.gradient = 0)
    (y : State ℝ) (h : ℝ) : d.step y h = .exact (y.drift h) := by
  have hzero : d.isZero = true := by
    rw [isZero, hfield, hgradient, decide_eq_true_iff]
    exact ⟨not_significant_zero, not_significant_zero⟩
  rw [step, if_pos hzero]

theorem DipoleQuadrupole.step_of_no_gradient {q : DipoleQuadrupole ℝ} (hk1 : ¬ Significant q.k1)
    (y dydx : State ℝ) (h : ℝ) : q.step y dydx h = q.bend.step y h := by
  rw [step, if_pos hk1]

/-! ## Magnets that are off -/

namespace Magnet

/-- Neither bent nor with a strength under any key, whatever its faces and its fringe field. -/
structure Off (magnet : Magnet ℝ) : Prop where
  angle : magnet.geometry.angle = 0
  strengths : ∀ key, magnet.strengths.get key = 0

namespace Off

variable {magnet : Magnet ℝ} (hoff : magnet.Off)

include hoff

theorem curvature : magnet.geometry.curvature = 0 := by
  rw [BendGeometry.curvature_eq_zero_iff, BendGeometry.isBent_iff, hoff.angle]
  exact fun hbent => not_significant_zero hbent.1

theorem bending : magnet.geometry.field magnet.rigidity = 0 := by
  rw [BendGeometry.field, hoff.curvature, mul_zero]

theorem scaled (key : StrengthKey) : magnet.strengths.get key * magnet.rigidity = 0 := by
  rw [hoff.strengths, zero_mul]

theorem coefficient (order : ℕ) : magnet.coefficient order = 0 := by
  unfold Magnet.coefficient
  split
  · exact hoff.scaled _
  · rfl

theorem field_eq {field : FieldMap ℝ} (hfield : magnet.field? = some field) : field = .uniform 0 := by
  have hsingle (order : ℕ) : (Multipole.single order (0 : ℝ)).field = .uniform 0 :=
    FieldMap.multipole_of_zero (fun _ => ite_self 0) fun _ => rfl
  have hseries : (Multipole.ofStrengths magnet.strengths magnet.rigidity).field = .uniform 0 :=
    FieldMap.multipole_of_zero (fun _ => hoff.scaled _) fun _ => hoff.scaled _
  simp only [field?, hoff.coefficient, hoff.bending, hoff.curvature, FieldMap.sector_straight,
    FieldMap.quadrupole_zero, hsingle, hseries, FieldMap.skew_uniform_zero] at hfield
  split at hfield
  all_goals first | exact (Option.some.inj hfield).symm | exact nomatch hfield

/-- Every algorithm that the magnet can be built into drifts. -/
theorem step_of_built {motion : Motion ℝ} {context : Context ℝ} {i : Integrator ℝ}
    (hi : magnet.Built motion context i) (y : State ℝ) (h : ℝ) : i.step y h = .exact (y.drift h) := by
  cases hi with
  | drift => rfl
  | dipole => exact Dipole.step_of_zero hoff.bending (hoff.scaled .k1) y h
  | dipoleQuadrupole =>
    have hbend : (Dipole.withoutGradient motion magnet.geometry magnet.rigidity).gradient = 0 :=
      zero_mul _
    have hk1 : ¬ Significant (magnet.strengths.get .k1) := by
      rw [hoff.strengths]
      exact not_significant_zero
    exact (DipoleQuadrupole.step_of_no_gradient hk1 y _ h).trans
      (Dipole.step_of_zero hoff.bending hbend y h)
  | dipoleFringe =>
    have hbend : ¬ Significant (magnet.geometry.field magnet.rigidity) := by
      rw [hoff.bending]
      exact not_significant_zero
    exact DipoleFringe.step_of_not_significant _ y h hbend
  | rungeKutta hfield =>
    rw [hoff.field_eq hfield]
    exact RungeKutta.step_of_no_force (RungeKutta.derivative_of_no_field motion) y h

end Off

/-- A magnet that is off is a drift, by any algorithm, for any charge and from any state, at rest too:
it is built unless its set gives it to Runge-Kutta and it has no field, and then each step leads straight
on and shows no error. -/
theorem drifts_when_off (magnet : Magnet ℝ) (hcheck : magnet.check = .ok ()) (hoff : magnet.Off)
    (set : IntegratorSet) (motion : Motion ℝ) (context : Context ℝ) :
    (∃ i, magnet.integrator set motion context = .ok i ∧ ∀ y h, i.step y h = .exact (y.drift h)) ∨
      set.integratorFor magnet.kind = .rungeKutta ∧ magnet.field? = none ∧
        magnet.integrator set motion context = .error (.unsupportedField magnet.kind) := by
  rcases exists_integrator_or set motion context hcheck with ⟨i, hi⟩ | hrefused
  · exact Or.inl ⟨i, hi, hoff.step_of_built (built_of_integrator hcheck hi)⟩
  · exact Or.inr hrefused

/-- A skew sextupole with rotated faces and a strength that was written as zero, for a particle at rest
and for one that moves, backwards. -/
theorem drifts_when_off_skew :
    let magnet : Magnet ℝ :=
      ⟨.skewSextupole, -3, Strengths.empty.set (.normal 2) 0, ⟨2, 0, 1, 1, 1, 1⟩, .exit⟩
    magnet.check = .ok () ∧ magnet.Off ∧ ∃ i,
      magnet.integrator Profile.bdsimMatrix.set ⟨-1⟩ .standard = .ok i ∧
        i.step ⟨⟨1, -2, 3⟩, 0⟩ (-5) = .exact ⟨⟨1, -2, 3⟩, 0⟩ ∧
        i.step ⟨⟨1, -2, 3⟩, ⟨3, 0, 4⟩⟩ (-5) = .exact ⟨⟨-2, -2, -1⟩, ⟨3, 0, 4⟩⟩ := by
  intro magnet
  have hcheck : magnet.check = .ok () := check_eq_ok_iff.mpr
    ⟨by norm_num [magnet], by norm_num [magnet], fun h => absurd h not_significant_zero⟩
  have hoff : magnet.Off := by
    refine ⟨rfl, fun key => ?_⟩
    simp [magnet, Strengths.get_set]
  have hrest : (State.mk ⟨1, -2, 3⟩ 0 : State ℝ).drift (-5) = ⟨⟨1, -2, 3⟩, 0⟩ := by
    simp [State.drift, Vec3.direction]
  have hmoves : (State.mk ⟨1, -2, 3⟩ ⟨3, 0, 4⟩ : State ℝ).drift (-5) =
      ⟨⟨-2, -2, -1⟩, ⟨3, 0, 4⟩⟩ := by
    have hlength : (⟨3, 0, 4⟩ : Vec3 ℝ).length = 5 :=
      Vec3.length_of_dot_self (by norm_num) (by norm_num [Vec3.dot])
    have hmoving : (⟨3, 0, 4⟩ : Vec3 ℝ) ≠ 0 := fun hzero => by
      rw [hzero, Vec3.length_zero] at hlength
      norm_num at hlength
    rw [State.drift, Vec3.direction_of_ne_zero hmoving, hlength]
    refine State.ext (Vec3.ext ?_ ?_ ?_) rfl <;> norm_num
  rcases drifts_when_off magnet hcheck hoff Profile.bdsimMatrix.set ⟨-1⟩ .standard with
    ⟨i, hi, hstep⟩ | ⟨-, hnone, -⟩
  · exact ⟨hcheck, hoff, i, hi, (hstep _ _).trans (congrArg _ hrest),
      (hstep _ _).trans (congrArg _ hmoves)⟩
  · exact absurd hnone (Option.some_ne_none _)

end Magnet

end BeamTransport
