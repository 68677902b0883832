import BeamTransport.Integrator
import BeamTransport.Proofs.Frame
import BeamTransport.Proofs.Geometry

/-!
# Which particles take the matrix

A particle takes the matrix when there is a gradient and the particle is accepted: its share of forward
momentum reaches a limit, and its path is not curved too tightly. The matrix itself always leads
forward, since it rebuilds the momentum from slopes. So it suits the particles that move forward, and
it is these alone that are accepted exactly if the limit is positive
(`DipoleQuadrupole.matrix_for_forward_particles_iff`).
-/

namespace BeamTransport

namespace OrbitCoords

variable {c : OrbitCoords ℝ}

theorem forward_of_forwardCosine_pos (hcosine : 0 < c.forwardCosine) :
    0 < c.momentum ∧ 0 < c.ps := by
  rw [forwardCosine] at hcosine
  split_ifs at hcosine with hmoving
  · exact ⟨hmoving, (div_pos_iff_of_pos_right hmoving).mp hcosine⟩
  · exact absurd hcosine (lt_irrefl 0)

theorem ofSlopes_ps_pos (point : OrbitPoint ℝ) (xp yp : ℝ) {p : ℝ} (hp : 0 < p) :
    0 < (ofSlopes point xp yp p).ps := div_pos hp (sqrt_slopes_pos xp yp)

end OrbitCoords

/-! ## Acceptance -/

namespace Comparison

variable (comparison : Comparison)

theorem violated_none (limit : ℝ) : comparison.violated none limit = false := by
  cases comparison with
  | strict => rfl
  | inclusive => simp [violated]

theorem violated_of_lt {radius limit : ℝ} (hradius : limit < radius) :
    comparison.violated (some radius) limit = false := by
  cases comparison with
  | strict => simp [violated, hradius.le]
  | inclusive => simp [violated, hradius]

/-- A fast particle keeps any limit on its radius. -/
theorem violated_of_fast {bending limit p : ℝ} (hp : limit * bending < p) :
    comparison.violated (if 0 < bending then some (p / bending) else none) limit = false := by
  split_ifs with hbending
  · exact comparison.violated_of_lt ((lt_div_iff₀ hbending).mpr hp)
  · exact comparison.violated_none limit

end Comparison

theorem ParaxialCriterion.accepts_iff (c : ParaxialCriterion ℝ) (cosine : ℝ) (radius : Option ℝ)
    (minimumRadius : ℝ) :
    c.accepts cosine radius minimumRadius = true ↔
      c.forwardCosine ≤ cosine ∧
        c.comparison.violated radius (minimumRadius * c.margin) = false := by
  simp [accepts]

namespace DipoleQuadrupole

variable (q : DipoleQuadrupole ℝ)

/-- A step from the state is a matrix step. -/
def TakesMatrix (y : State ℝ) : Prop :=
  Significant q.k1 ∧ q.isParaxial (q.frame.ofLocal y) = true

variable {q}

theorem step_of_takesMatrix {y : State ℝ} (hmatrix : q.TakesMatrix y) (dydx : State ℝ) (h : ℝ) :
    q.step y dydx h = .exact (q.frame.toLocal (q.matrixStep (q.frame.ofLocal y) h)) := by
  rw [step, if_neg (not_not.mpr hmatrix.1), if_pos hmatrix.2]

theorem step_of_not_isParaxial {y : State ℝ} (hrefused : q.isParaxial (q.frame.ofLocal y) = false)
    (dydx : State ℝ) (h : ℝ) :
    q.step y dydx h = if Significant q.k1 then q.backup.step y dydx h else q.bend.step y h := by
  rw [step]
  simp only [hrefused, Bool.false_eq_true, if_false, ite_not]

theorem matrixStep_ps_pos {c : OrbitCoords ℝ} (hmoving : 0 < c.momentum) (h : ℝ) :
    0 < (q.matrixStep c h).ps := OrbitCoords.ofSlopes_ps_pos _ _ _ hmoving

theorem forward_of_isParaxial (hlimit : 0 < q.criterion.forwardCosine) {c : OrbitCoords ℝ}
    (haccepted : q.isParaxial c = true) : 0 < c.momentum ∧ 0 < c.ps := by
  rw [isParaxial, ParaxialCriterion.accepts_iff] at haccepted
  exact OrbitCoords.forward_of_forwardCosine_pos (hlimit.trans_le haccepted.1)

theorem not_isParaxial_of_backward (hlimit : 0 < q.criterion.forwardCosine) {c : OrbitCoords ℝ}
    (hps : c.ps ≤ 0) : q.isParaxial c = false := by
  by_contra haccepted
  rw [Bool.not_eq_false] at haccepted
  exact absurd (forward_of_isParaxial hlimit haccepted).2 (not_lt.mpr hps)

/-- A particle that is fast for the field it is in keeps the limit on its radius, so that only its
direction counts. -/
theorem isParaxial_of_fast {c : OrbitCoords ℝ} (hcosine : q.criterion.forwardCosine ≤ c.forwardCosine)
    (hfast : q.minimumRadius * q.criterion.margin
      * (|q.motion.coupling| * (|q.field| + |q.gradient| * c.amplitude)) < c.momentum) :
    q.isParaxial c = true := by
  rw [isParaxial, ParaxialCriterion.accepts_iff]
  exact ⟨hcosine, q.criterion.comparison.violated_of_fast hfast⟩

/-- Without a positive limit a fast particle is accepted that crosses the orbit at a right angle. -/
theorem exists_sideways_isParaxial (hlimit : q.criterion.forwardCosine ≤ 0) : ∃ y,
    (q.frame.ofLocal y).ps = 0 ∧ q.isParaxial (q.frame.ofLocal y) = true := by
  -- The particle starts where the orbit does and is fast for the bending field alone.
  set slowest := q.minimumRadius * q.criterion.margin * (|q.motion.coupling| * |q.field|) with hslowest
  set p := |slowest| + 1 with hp
  have hpos : 0 < p := by positivity
  set c : OrbitCoords ℝ := { x := 0, y := 0, s := 0, px := p, py := 0, ps := 0 } with hc
  have hlocal : q.frame.ofLocal (q.frame.toLocal c) = c := by
    have hside : 0 < 1 + q.frame.curvature * c.x := by simp [hc]
    have hturn : q.frame.firstTurn c.s = c.s :=
      q.frame.firstTurn_of_mem (by simp [hc, Real.pi_pos]) (by simp [hc, Real.pi_pos.le])
    rw [q.frame.ofLocal_toLocal c hside, hturn]
  have hmomentum : c.momentum = p := by
    simp [OrbitCoords.momentum, hc, Real.sqrt_mul_self hpos.le]
  have hcosine : c.forwardCosine = 0 := by simp [OrbitCoords.forwardCosine, hc]
  have hamplitude : c.amplitude = 0 := by simp [OrbitCoords.amplitude, hc]
  refine ⟨q.frame.toLocal c, by rw [hlocal], ?_⟩
  rw [hlocal]
  refine isParaxial_of_fast (hcosine ▸ hlimit) ?_
  rw [hamplitude, hmomentum, mul_zero, add_zero]
  exact lt_of_le_of_lt (le_abs_self slowest) (lt_add_one _)

/-- On the axis of a straight magnet the path is not curved. -/
theorem isParaxial_on_axis (hstraight : q.frame.curvature = 0) (hfield : q.field = 0) {p : ℝ}
    (hp : p ≠ 0) (hcosine : q.criterion.forwardCosine ≤ p / |p|) :
    q.isParaxial (q.frame.ofLocal ⟨0, ⟨0, 0, p⟩⟩) = true := by
  have hlocal := q.frame.ofLocal_of_straight hstraight ⟨0, ⟨0, 0, p⟩⟩
  set c := q.frame.ofLocal ⟨0, ⟨0, 0, p⟩⟩ with hc
  have hmomentum : c.momentum = |p| := by
    simp [OrbitCoords.momentum, hlocal, Real.sqrt_mul_self_eq_abs]
  have hforward : c.forwardCosine = p / |p| := by
    rw [OrbitCoords.forwardCosine, hmomentum, if_pos (abs_pos.mpr hp), hlocal]
  have hamplitude : c.amplitude = 0 := by simp [OrbitCoords.amplitude, hlocal]
  refine isParaxial_of_fast (hforward ▸ hcosine) ?_
  rw [hamplitude, hfield, hmomentum, abs_zero, mul_zero, add_zero, mul_zero, mul_zero]
  exact abs_pos.mpr hp

theorem ofMagnet_of_straight (motion : Motion ℝ) (strengths : Strengths ℝ) {g : BendGeometry ℝ}
    (hstraight : ¬ g.isBent = true) (rigidity : ℝ) (context : Context ℝ) :
    let q := DipoleQuadrupole.ofMagnet motion strengths g rigidity context
    q.frame.curvature = 0 ∧ q.field = 0 := by
  have hcurvature := BendGeometry.curvature_eq_zero_iff.mpr hstraight
  refine ⟨?_, ?_⟩
  · change (OrbitFrame.ofCurvature g.curvature).curvature = 0
    rw [hcurvature, OrbitFrame.ofCurvature, if_neg not_significant_zero]
  · change rigidity * g.curvature = 0
    rw [hcurvature, mul_zero]

/-- A matrix refuses every particle that does not move forward exactly if the limit on the share of
forward momentum is positive, whatever else the context holds. Then such a particle is left to
Runge-Kutta, or without a gradient to the bend; and a particle that takes the matrix moves, with slopes
against the orbit, and goes on forward. -/
theorem matrix_for_forward_particles_iff (motion : Motion ℝ) (strengths : Strengths ℝ)
    (g : BendGeometry ℝ) (rigidity : ℝ) (context : Context ℝ) :
    let q := DipoleQuadrupole.ofMagnet motion strengths g rigidity context
    (0 < context.criterion.forwardCosine ↔
        ∀ y, (q.frame.ofLocal y).ps ≤ 0 → q.isParaxial (q.frame.ofLocal y) = false) ∧
      (0 < context.criterion.forwardCosine → ∀ (y dydx : State ℝ) (h : ℝ),
        let c := q.frame.ofLocal y
        (c.ps ≤ 0 →
            q.step y dydx h = if Significant q.k1 then q.backup.step y dydx h else q.bend.step y h) ∧
          (q.TakesMatrix y →
            q.step y dydx h = .exact (q.frame.toLocal (q.matrixStep c h)) ∧
              0 < c.momentum ∧ 0 < c.ps ∧ 0 < (q.matrixStep c h).ps)) := by
  intro q
  refine ⟨⟨fun hlimit y hps => not_isParaxial_of_backward hlimit hps, ?_⟩, ?_⟩
  · intro hrefused
    by_contra hlimit
    obtain ⟨y, hps, haccepted⟩ := exists_sideways_isParaxial (q := q) (not_lt.mp hlimit)
    rw [hrefused y hps.le] at haccepted
    exact Bool.false_ne_true haccepted
  · intro hlimit y dydx h c
    refine ⟨?_, ?_⟩
    · intro hps
      exact step_of_not_isParaxial (not_isParaxial_of_backward hlimit hps) dydx h
    · intro hmatrix
      obtain ⟨hmoving, hforward⟩ := forward_of_isParaxial hlimit hmatrix.2
      exact ⟨step_of_takesMatrix hmatrix dydx h, hmoving, hforward, matrixStep_ps_pos hmoving h⟩

/-- In a quadrupole under the standard limit, a particle that moves backwards off the axis and one that
moves forward on it. -/
theorem matrix_for_forward_particles_iff_standard :
    let q : DipoleQuadrupole ℝ :=
      .ofMagnet ⟨1⟩ (Strengths.empty.set .k1 1) (.sector 1 0) 1 .standard
    let backward : State ℝ := ⟨⟨3, 4, 0⟩, ⟨28, 0, -96⟩⟩
    let forward : State ℝ := ⟨0, ⟨0, 0, 2⟩⟩
    0 < (Context.standard : Context ℝ).criterion.forwardCosine ∧
      (q.frame.ofLocal backward).ps ≤ 0 ∧
      q.step backward 0 (-2) = q.backup.step backward 0 (-2) ∧
      q.TakesMatrix forward ∧ 0 < (q.matrixStep (q.frame.ofLocal forward) (-2)).ps := by
  intro q backward forward
  obtain ⟨hcurvature, hfield⟩ := ofMagnet_of_straight ⟨1⟩ (Strengths.empty.set .k1 1)
    (g := .sector 1 0) (by simp [BendGeometry.isBent, BendGeometry.sector, not_significant_zero]) 1
    .standard
  have hlimit : (0 : ℝ) < (Context.standard : Context ℝ).criterion.forwardCosine := by
    norm_num [Context.standard, ParaxialCriterion.standard]
  have hk1 : Significant q.k1 :=
    significant_of_one_le (by norm_num [q, ofMagnet, Strengths.get_set])
  have hps : (q.frame.ofLocal backward).ps ≤ 0 := by
    rw [q.frame.ofLocal_of_straight hcurvature]
    norm_num [backward]
  have hmatrix : q.TakesMatrix forward := by
    refine ⟨hk1, isParaxial_on_axis hcurvature hfield two_ne_zero ?_⟩
    norm_num [q, ofMagnet, Context.standard, ParaxialCriterion.standard]
  have hsteps := (matrix_for_forward_particles_iff ⟨1⟩ (Strengths.empty.set .k1 1) (.sector 1 0) 1
    .standard).2 hlimit
  have hbackward := (hsteps backward 0 (-2)).1 hps
  rw [if_pos hk1] at hbackward
  exact ⟨hlimit, hps, hbackward, hmatrix, ((hsteps forward 0 (-2)).2 hmatrix).2.2.2⟩

/-- Under a limit of minus one, which no context refuses, a matrix turns a particle round that moves
backwards along the axis of a quadrupole. -/
theorem matrix_turns_backward_particle_round :
    let context : Context ℝ := ⟨0.05, ⟨-1, 1, .strict⟩, .fixed 1e-6⟩
    let q : DipoleQuadrupole ℝ := .ofMagnet ⟨1⟩ (Strengths.empty.set .k1 1) (.sector 1 0) 1 context
    let y : State ℝ := ⟨0, ⟨0, 0, -1⟩⟩
    context.fault?.isNone = true ∧ q.TakesMatrix y ∧ (q.frame.ofLocal y).ps = -1 ∧
      0 < (q.matrixStep (q.frame.ofLocal y) 1).ps := by
  intro context q y
  obtain ⟨hcurvature, hfield⟩ := ofMagnet_of_straight ⟨1⟩ (Strengths.empty.set .k1 1)
    (g := .sector 1 0) (by simp [BendGeometry.isBent, BendGeometry.sector, not_significant_zero]) 1
    context
  have hfault : context.fault?.isNone = true := by
    norm_num [context, Context.fault?]
  have hk1 : Significant q.k1 :=
    significant_of_one_le (by norm_num [q, ofMagnet, Strengths.get_set])
  have haccepted : q.isParaxial (q.frame.ofLocal y) = true := by
    refine isParaxial_on_axis hcurvature hfield (by norm_num) ?_
    norm_num [q, ofMagnet, context]
  have hlocal := q.frame.ofLocal_of_straight hcurvature y
  have hmoving : 0 < (q.frame.ofLocal y).momentum := by
    rw [q.frame.momentum_ofLocal, Vec3.length_pos_iff]
    intro hrest
    exact absurd (congrArg Vec3.z hrest) (by norm_num [y])
  exact ⟨hfault, ⟨hk1, haccepted⟩, by rw [hlocal], matrixStep_ps_pos hmoving 1⟩

end DipoleQuadrupole

end BeamTransport
