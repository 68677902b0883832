import BeamTransport.Proofs.DipoleFringe
import BeamTransport.Proofs.Helix
import BeamTransport.Proofs.Tracking

/-!
# Magnetic fields keep the magnitude of the momentum

Every part of an analytic step keeps the magnitude: the helix and the kick of a gradient turn the
momentum about an axis, and the edge kick and the matrix rebuild it from slopes at the magnitude it
had. `momentum_magnitude_kept` puts them together for whole steps and for runs.
-/

namespace BeamTransport

/-- A moving particle keeps its magnitude of momentum when its direction is turned. -/
theorem Vec3.length_smul_turn {a axis : Vec3 ℝ} (ha : a ≠ 0) (haxis : axis.dot axis = 1)
    (angle : ℝ) : (a.length • (a / a.length).turn axis angle).length = a.length := by
  have hunit : (a / a.length).length = 1 :=
    length_of_dot_self zero_le_one (by rw [unit_div_length ha, mul_one])
  rw [length_smul, length_turn _ _ haxis, hunit, mul_one, abs_of_nonneg a.length_nonneg]

namespace Motion

variable (motion : Motion ℝ)

theorem length_helix (state : State ℝ) (field : Vec3 ℝ) (h : ℝ) :
    (motion.helix state field h).momentum.length = state.momentum.length := by
  by_cases hmoving : Significant field.length ∧ state.momentum ≠ 0
  · obtain ⟨hb, hp⟩ := hmoving
    rw [motion.helix_of_moving hb hp]
    exact Vec3.length_smul_turn hp (Vec3.unit_div_length (field_ne_zero hb)) _
  · rw [motion.helix_of_not_moving hmoving]
    rfl

theorem length_rotate (momentum field : Vec3 ℝ) (h : ℝ) :
    (motion.rotate momentum field h).length = momentum.length := by
  by_cases hmoving : Significant field.length ∧ momentum ≠ 0
  · obtain ⟨hb, hp⟩ := hmoving
    rw [motion.rotate_of_moving hb hp]
    exact Vec3.length_smul_turn hp (Vec3.unit_div_length (field_ne_zero hb)) _
  · rw [motion.rotate_of_not_moving hmoving]

end Motion

/-! ## Bends -/

namespace Dipole

variable (d : Dipole ℝ)

theorem length_fieldVector : d.fieldVector.length = |d.field| := by
  refine Vec3.length_of_dot_self (abs_nonneg _) ?_
  rw [fieldVector, Vec3.dot, abs_mul_abs_self]
  ring

theorem length_advance (state : State ℝ) (h : ℝ) :
    (d.advance state h).momentum.length = state.momentum.length := by
  unfold advance
  split_ifs
  · rw [d.motion.length_helix, d.motion.length_rotate, d.motion.length_helix]
  · exact d.motion.length_helix _ _ _

theorem length_step (state : State ℝ) (h : ℝ) :
    (d.step state h).out.momentum.length = state.momentum.length := by
  unfold step
  split_ifs
  · rfl
  · rw [Step.comparing, d.length_advance, d.length_advance]

end Dipole

/-! ## Momenta rebuilt from slopes -/

theorem OrbitCoords.momentum_ofSlopes (point : OrbitPoint ℝ) (xp yp : ℝ) {p : ℝ} (hp : 0 ≤ p) :
    (OrbitCoords.ofSlopes point xp yp p).momentum = p := by
  have hroot := sqrt_slopes_pos xp yp
  have hsqrt := Real.mul_self_sqrt (slopes_pos xp yp).le
  set root := Real.sqrt (1 + xp * xp + yp * yp) with hrootDef
  have hsquare : xp * (p / root) * (xp * (p / root)) + yp * (p / root) * (yp * (p / root))
      + p / root * (p / root) = p * p := by
    field_simp
    linear_combination -p ^ 2 * hsqrt
  rw [momentum, ofSlopes]
  simp only [Scalar.sqrt_real, ← hrootDef, hsquare, Real.sqrt_mul_self hp]

namespace DipoleFringe

variable (edge : DipoleFringe ℝ)

theorem length_kick (state : State ℝ) (h : ℝ) :
    (edge.kick state h).momentum.length = state.momentum.length := by
  by_cases hforward : state.momentum ≠ 0 ∧ 0 < (edge.body.frame.ofLocal state).ps
  · rw [edge.kick_of_forward state h hforward.1 hforward.2, OrbitFrame.length_toLocal_momentum,
      kicked, OrbitCoords.momentum_ofSlopes _ _ _ state.momentum.length_nonneg]
  · rw [edge.kick_of_not_forward state h]
    rwa [not_and_or, not_ne_iff, not_lt] at hforward

theorem length_step (state : State ℝ) (h : ℝ) :
    (edge.step state h).out.momentum.length = state.momentum.length := by
  by_cases hfield : Significant edge.body.field
  · rw [edge.step_of_significant state h hfield, edge.body.length_step, edge.length_kick]
  · rw [edge.step_of_not_significant state h hfield]
    rfl

end DipoleFringe

theorem DipoleQuadrupole.length_matrixStep (q : DipoleQuadrupole ℝ) (state : State ℝ) (h : ℝ) :
    (q.frame.toLocal (q.matrixStep (q.frame.ofLocal state) h)).momentum.length =
      state.momentum.length := by
  have hmomentum := q.frame.momentum_ofLocal state
  rw [OrbitFrame.length_toLocal_momentum, matrixStep, hmomentum,
    OrbitCoords.momentum_ofSlopes _ _ _ state.momentum.length_nonneg]

/-! ## Steps and runs -/

namespace Integrator

/-- Whether a step from a state is analytic: always without a matrix, with a matrix when there is no
gradient or a forward particle is close to the orbit, and never by Runge-Kutta. -/
def StepsAnalytically : Integrator ℝ → State ℝ → Prop
  | .drift, _ => True
  | .dipole _, _ => True
  | .dipoleFringe _, _ => True
  | .dipoleQuadrupole q, y =>
    ¬ Significant q.k1 ∨
      q.isParaxial (q.frame.ofLocal y) = true ∧ 0 < (q.frame.ofLocal y).ps
  | .rungeKutta _, _ => False

theorem length_stepWith (i : Integrator ℝ) (y dydx : State ℝ) (h : ℝ)
    (hanalytic : i.StepsAnalytically y) :
    (i.stepWith y dydx h).out.momentum.length = y.momentum.length := by
  cases i with
  | drift => rfl
  | dipole d => exact d.length_step y h
  | dipoleFringe edge => exact edge.length_step y h
  | rungeKutta r => exact hanalytic.elim
  | dipoleQuadrupole q =>
    rw [stepWith, DipoleQuadrupole.step]
    rcases hanalytic with hk1 | ⟨hparaxial, _⟩
    · rw [if_pos hk1]
      exact q.bend.length_step y h
    · split_ifs
      · exact q.length_matrixStep y h
      · exact q.bend.length_step y h

/-- Analytic steps keep the magnitude of the momentum, whatever state they start from, whatever
derivative they are given and however long they are; and so do whole runs of the integrators whose
steps are always analytic. -/
theorem momentum_magnitude_kept (i : Integrator ℝ) :
    (∀ (y dydx : State ℝ) (h : ℝ), i.StepsAnalytically y →
        (i.stepWith y dydx h).out.momentum.length = y.momentum.length) ∧
      (i.kind = .drift ∨ i.kind = .dipole ∨ i.kind = .dipoleFringe →
        ∀ (initial : State ℝ) (length : ℝ) (steps : ℕ), ∀ r ∈ i.track initial length steps,
          r.state.momentum.length = initial.momentum.length) := by
  refine ⟨i.length_stepWith, ?_⟩
  intro hkind initial length steps
  have hanalytic (y : State ℝ) : i.StepsAnalytically y := by
    cases i <;> simp [kind] at hkind <;> trivial
  refine forall_mem_track (P := fun y => y.momentum.length = initial.momentum.length) ?_ rfl length steps
  intro y h hy
  rw [step, i.length_stepWith _ _ _ (hanalytic y), hy]

/-- A backward matrix step near the axis of a gradient, and a backward run through an edge whose pole faces
are rotated. -/
theorem momentum_magnitude_kept_backwards :
    let q : DipoleQuadrupole ℝ :=
      .ofMagnet ⟨1⟩ (Strengths.empty.set .k1 1) (.sector 1 0) 1 .standard
    let edge : DipoleFringe ℝ := .ofMagnet ⟨-1⟩ .empty ⟨1, 2, 1 / 4, 1 / 2, 1, 1⟩ .exit 1 .standard
    let y : State ℝ := ⟨⟨3, 4, 0⟩, ⟨28, 0, 96⟩⟩
    Significant q.k1 ∧ q.isParaxial (q.frame.ofLocal y) = true ∧ 0 < (q.frame.ofLocal y).ps ∧
      ((dipoleQuadrupole q).stepWith y 0 (-2)).out.momentum.length = y.momentum.length ∧
      (dipoleFringe edge).kind = .dipoleFringe ∧
      ∀ r ∈ (dipoleFringe edge).track y (-1) 3,
        r.state.momentum.length = y.momentum.length := by
  intro q edge y
  have hk1 : Significant q.k1 :=
    significant_of_one_le (by norm_num [q, DipoleQuadrupole.ofMagnet, Strengths.get_set])
  have hcurvature : (BendGeometry.sector 1 0 : BendGeometry ℝ).curvature = 0 := by
    simp [BendGeometry.curvature, BendGeometry.isBent, BendGeometry.sector, not_significant_zero]
  have hfield : q.field = 0 := by
    change (1 : ℝ) * (BendGeometry.sector 1 0 : BendGeometry ℝ).curvature = 0
    rw [hcurvature, mul_zero]
  have hgradient : q.gradient = 1 := by
    simp [q, DipoleQuadrupole.ofMagnet, Strengths.get_set]
  have hframe : q.frame = ⟨0⟩ := by
    change OrbitFrame.ofCurvature (BendGeometry.sector 1 0 : BendGeometry ℝ).curvature = _
    rw [hcurvature, OrbitFrame.ofCurvature, if_neg not_significant_zero]
  have hlocal : q.frame.ofLocal y = { x := 3, y := 4, s := 0, px := 28, py := 0, ps := 96 } := by
    simp [hframe, OrbitFrame.ofLocal, OrbitFrame.locate, OrbitFrame.isStraight,
      OrbitFrame.normal_eq, OrbitFrame.tangent_eq, Vec3.dot, y]
  have hmomentum : (q.frame.ofLocal y).momentum = 100 := by
    rw [OrbitFrame.momentum_ofLocal]
    exact Vec3.length_of_dot_self (by norm_num) (by norm_num [y, Vec3.dot])
  have hamplitude : (q.frame.ofLocal y).amplitude = 5 := by
    rw [hlocal, OrbitCoords.amplitude, Scalar.hypot_real, Real.sqrt_eq_iff_mul_self_eq] <;> norm_num
  have hcosine : (q.frame.ofLocal y).forwardCosine = 0.96 := by
    rw [OrbitCoords.forwardCosine, hmomentum, hlocal]
    norm_num
  have hradius : q.radiusOfCurvature (q.frame.ofLocal y) = some (100 / (speedOfLight * 5)) := by
    have hcoupling : q.motion.coupling = speedOfLight := mul_one _
    have hlight : (0 : ℝ) < speedOfLight := by
      rw [speedOfLight]
      norm_num
    rw [DipoleQuadrupole.radiusOfCurvature, hfield, hgradient, hamplitude, hmomentum, hcoupling]
    norm_num [abs_of_pos hlight, hlight]
  have hparaxial : q.isParaxial (q.frame.ofLocal y) = true := by
    rw [DipoleQuadrupole.isParaxial, hcosine, hradius]
    norm_num [q, DipoleQuadrupole.ofMagnet, Context.standard, ParaxialCriterion.standard,
      ParaxialCriterion.accepts, Comparison.violated, speedOfLight]
  have hforward : 0 < (q.frame.ofLocal y).ps := by
    rw [hlocal]
    norm_num
  exact ⟨hk1, hparaxial, hforward,
    (momentum_magnitude_kept (dipoleQuadrupole q)).1 y 0 (-2) (Or.inr ⟨hparaxial, hforward⟩), rfl,
    (momentum_magnitude_kept (dipoleFringe edge)).2 (Or.inr (Or.inr rfl)) y (-1) 3⟩

end Integrator

end BeamTransport
