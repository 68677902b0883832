import BeamTransport.Proofs.Drift
import BeamTransport.Proofs.KickSum
import BeamTransport.Proofs.OrbitAdvance

/-!
# Particles without charge

No field turns a particle without charge. Its helix has no curvature, an edge gives it no kick, and no
force acts at any stage of a Runge-Kutta step, so each of these steps is a drift. The matrix of a straight
magnet leads it straight on as well; that of a bend does not quite, because in the coordinates of a
curved orbit a straight path obeys an equation that the matrix takes to first order. So a particle without
charge goes straight through every magnet, except where the matrix of a bend takes it, and there its
offset follows hyperbolic functions of the angle of the orbit (`Magnet.neutral_goes_straight`).
-/

namespace BeamTransport

/-! ## Helices and kicks -/

namespace Motion

variable {motion : Motion ℝ} (hneutral : motion.coupling = 0)

include hneutral

theorem curvature_of_neutral (field p : ℝ) : motion.curvature field p = 0 := by
  rw [curvature, hneutral, zero_mul, zero_div]

theorem helix_of_neutral (state : State ℝ) (field : Vec3 ℝ) (h : ℝ) :
    motion.helix state field h = state.drift h := by
  by_cases hmoving : Significant field.length ∧ state.momentum ≠ 0
  · have hchord : chord 0 h = h := if_neg not_significant_zero
    rw [motion.helix_of_moving hmoving.1 hmoving.2, curvature_of_neutral hneutral]
    simp only [zero_mul, mul_zero, Vec3.turnAcross_zero, Vec3.turn_zero, hchord]
    rw [add_assoc, ← smul_add, Vec3.along_add_across, Vec3.length_smul_div_length hmoving.2, State.drift,
      Vec3.direction_of_ne_zero hmoving.2]
  · exact motion.helix_of_not_moving hmoving h

theorem rotate_of_neutral (momentum field : Vec3 ℝ) (h : ℝ) :
    motion.rotate momentum field h = momentum := by
  by_cases hmoving : Significant field.length ∧ momentum ≠ 0
  · rw [motion.rotate_of_moving hmoving.1 hmoving.2, curvature_of_neutral hneutral, zero_mul,
      Vec3.turn_zero, Vec3.length_smul_div_length hmoving.2]
  · exact motion.rotate_of_not_moving hmoving h

end Motion

namespace Dipole

variable {d : Dipole ℝ} (hneutral : d.motion.coupling = 0) (y : State ℝ) (h : ℝ)

include hneutral

theorem advance_of_neutral : d.advance y h = y.drift h := by
  unfold advance
  split_ifs
  · simp only [Motion.helix_of_neutral hneutral, Motion.rotate_of_neutral hneutral]
    exact y.drift_halves h
  · exact Motion.helix_of_neutral hneutral y d.fieldVector h

theorem step_of_neutral : d.step y h = .exact (y.drift h) := by
  unfold step
  split_ifs
  · rfl
  · simp only [advance_of_neutral hneutral]
    rw [State.drift_halves, Step.comparing_self]

end Dipole

namespace DipoleFringe

variable {edge : DipoleFringe ℝ} (hneutral : edge.body.motion.coupling = 0)

include hneutral

theorem kicked_of_neutral (c : OrbitCoords ℝ) (p share : ℝ) :
    edge.kicked c p share = edge.kicked c p 0 := by
  have hcurvature := Motion.curvature_of_neutral hneutral edge.body.field p
  simp only [kicked_eq, kickX, kickY, hcurvature, zero_mul, mul_zero]

theorem kickBy_of_neutral (y : State ℝ) (share : ℝ) : edge.kickBy y share = y := by
  have hnone : edge.kickBy y share = edge.kickBy y 0 := by
    simp only [kickBy, kicked_of_neutral hneutral _ _ share]
  rw [hnone, kickBy_zero]

theorem step_of_neutral (y : State ℝ) (h : ℝ) : edge.step y h = .exact (y.drift h) := by
  rw [step_eq_stepBy, stepBy]
  split_ifs
  · rw [kickBy_of_neutral hneutral, Dipole.step_of_neutral hneutral]
  · rfl

end DipoleFringe

theorem RungeKutta.derivative_of_neutral {r : RungeKutta ℝ} (hneutral : r.motion.coupling = 0)
    (y : State ℝ) : r.derivative y = y.driftDerivative := by
  rw [derivative, Motion.derivative, hneutral, zero_smul, State.driftDerivative]

/-! ## Matrices -/

namespace Focusing

variable {omega2 : ℝ} (homega : omega2 ≤ 0)

include homega

theorem phase_nonpos (s : ℝ) : omega2 * s * s ≤ 0 := by
  rw [mul_assoc]
  exact mul_nonpos_of_nonpos_of_nonneg homega (mul_self_nonneg s)

theorem dispersion_nonneg (s : ℝ) : 0 ≤ (after omega2 s).dispersion := by
  have hphase := phase_nonpos homega s
  unfold after
  split_ifs with hshort hpositive
  · rw [series]
    dsimp only
    nlinarith [mul_self_nonneg s]
  · exact absurd hpositive (not_lt.mpr homega)
  · rw [defocused]
    dsimp only
    refine div_nonneg_of_nonpos ?_ homega
    nlinarith [mul_self_nonneg (Scalar.sinh (0.5 * (Scalar.sqrt (-omega2) * s)))]

theorem sine_ne_zero {s : ℝ} (hs : s ≠ 0) : (after omega2 s).sine ≠ 0 := by
  have hphase := phase_nonpos homega s
  unfold after
  split_ifs with hshort hpositive
  · rw [series]
    refine mul_ne_zero hs ?_
    linarith
  · exact absurd hpositive (not_lt.mpr homega)
  · have hfrequency := frequency_ne_zero (not_lt.mp hshort)
    rw [abs_of_nonpos homega] at hfrequency
    rw [defocused]
    exact div_ne_zero (Real.sinh_ne_zero.mpr (mul_ne_zero hfrequency hs)) hfrequency

omit homega

theorem two_mul_sinh_half_sq (x : ℝ) :
    2 * Real.sinh (0.5 * x) * Real.sinh (0.5 * x) = Real.cosh x - 1 := by
  have hdouble := Real.cosh_two_mul (0.5 * x)
  have hsquares := Real.cosh_sq (0.5 * x)
  rw [show 2 * (0.5 * x) = x by ring] at hdouble
  linear_combination -hdouble - hsquares

theorem curvature_ne_zero_of_phase {k s : ℝ} (hphase : seriesThreshold ≤ (k * s) ^ 2) : k ≠ 0 := by
  rintro rfl
  norm_num [seriesThreshold] at hphase

/-- Away from a curved orbit a free particle is led as by a force away from it. -/
theorem after_free {k s : ℝ} (hphase : seriesThreshold ≤ (k * s) ^ 2) : after (-(k * k)) s =
    ⟨Real.cosh (k * s), Real.sinh (k * s) / k, (Real.cosh (k * s) - 1) / (k * k)⟩ := by
  have hlong : ¬ Scalar.abs (-(k * k) * s * s) < seriesThreshold := by
    have hsquare : -(k * k) * s * s = -(k * s) ^ 2 := by ring
    rw [hsquare, Scalar.abs_real, abs_neg, abs_sq]
    exact not_lt.mpr hphase
  have haway : ¬ 0 < -(k * k) := not_lt.mpr (neg_nonpos.mpr (mul_self_nonneg k))
  have hroot : Real.sqrt (- -(k * k)) = |k| := by rw [neg_neg, Real.sqrt_mul_self_eq_abs]
  have hhalf := two_mul_sinh_half_sq (|k| * s)
  rw [after, if_neg hlong, if_neg haway, defocused]
  simp only [Scalar.sqrt_real, Scalar.cosh_real, Scalar.sinh_real, hroot, neg_mul, neg_div_neg_eq, hhalf]
  -- The sign of the curvature is lost in the root, and does not matter to what is even in it.
  rcases abs_choice k with habs | habs
  · rw [habs]
  · rw [habs, neg_mul, Real.cosh_neg, Real.sinh_neg, neg_div_neg_eq]

end Focusing

namespace DipoleQuadrupole

variable {q : DipoleQuadrupole ℝ} (hneutral : q.motion.coupling = 0)

section neutral

include hneutral

theorem momentumRatio_of_neutral (c : OrbitCoords ℝ) : q.momentumRatio c = 0 := by
  rw [momentumRatio, hneutral, zero_mul, zero_div]

/-- Without charge only the curvature of the orbit is left. -/
theorem transport_of_neutral (c : OrbitCoords ℝ) (ds : ℝ) :
    let k := q.frame.curvature
    let f := Focusing.after (-(k * k)) ds
    q.transport c ds =
      { x := c.x * f.cosine + c.xp * f.sine + k * f.dispersion
        xp := k * k * f.sine * c.x + c.xp * f.cosine + k * f.sine
        y := c.y + c.yp * ds
        yp := c.yp } := by
  intro k f
  have hratio := momentumRatio_of_neutral hneutral c
  have hhorizontal : q.horizontalFocusing c = -(k * k) := by
    rw [horizontalFocusing, hratio]
    ring
  have hvertical : q.verticalFocusing c = 0 := by
    rw [verticalFocusing, hratio, neg_zero, zero_mul]
  have hsource : q.dispersionSource c = k := by
    rw [dispersionSource, hratio, sub_zero, mul_one]
  simp only [transport, hhorizontal, hvertical, hsource, Focusing.after_zero, neg_neg, neg_zero, zero_mul,
    zero_add, mul_one, f]

variable (hstraight : q.frame.curvature = 0)

include hstraight

theorem transport_of_straight (c : OrbitCoords ℝ) (ds : ℝ) :
    q.transport c ds = ⟨c.x + c.xp * ds, c.xp, c.y + c.yp * ds, c.yp⟩ := by
  rw [transport_of_neutral hneutral, hstraight, mul_zero, neg_zero, Focusing.after_zero]
  simp

theorem orbitAdvance_of_straight {c : OrbitCoords ℝ} (hforward : 0 < c.ps) (h : ℝ) :
    q.orbitAdvance c h = h * c.ps / c.momentum := by
  have hhalf (a : ℝ) : 0.5 * (a + a) = a := by ring
  have hslopes := (OrbitCoords.sqrt_slopes_pos c.xp c.yp).ne'
  have hps := hforward.ne'
  simp only [orbitAdvance, estimate, transport_of_straight hneutral hstraight, projected, hhalf, hstraight]
  rw [OrbitCoords.momentum_of_forward hforward, zero_mul, add_zero, one_mul, Scalar.sqrt_real]
  field_simp

theorem matrixStep_of_straight {c : OrbitCoords ℝ} (hforward : 0 < c.ps) (h : ℝ) :
    q.matrixStep c h =
      { c with
        x := c.x + h * (c.px / c.momentum)
        y := c.y + h * (c.py / c.momentum)
        s := c.s + h * (c.ps / c.momentum) } := by
  have hx : c.xp * (h * c.ps / c.momentum) = h * (c.px / c.momentum) := by
    rw [← OrbitCoords.xp_mul_ps hforward]
    ring
  have hy : c.yp * (h * c.ps / c.momentum) = h * (c.py / c.momentum) := by
    rw [← OrbitCoords.yp_mul_ps hforward]
    ring
  have hslopes := OrbitCoords.ofSlopes_slopes hforward
  rw [matrixStep, transport_of_straight hneutral hstraight,
    orbitAdvance_of_straight hneutral hstraight hforward, hx, hy, mul_div_assoc]
  exact congrArg (fun d : OrbitCoords ℝ =>
    { d with
      x := c.x + h * (c.px / c.momentum)
      y := c.y + h * (c.py / c.momentum)
      s := c.s + h * (c.ps / c.momentum) }) hslopes

/-- The matrix of a straight magnet is a drift for a particle that moves forward. -/
theorem toLocal_matrixStep_of_straight {y : State ℝ} (hforward : 0 < (q.frame.ofLocal y).ps) (h : ℝ) :
    q.frame.toLocal (q.matrixStep (q.frame.ofLocal y) h) = y.drift h := by
  have hmoving : y.momentum ≠ 0 := by
    intro hrest
    rw [q.frame.ofLocal_of_straight hstraight, hrest] at hforward
    exact lt_irrefl _ hforward
  have hlocal : q.matrixStep (q.frame.ofLocal y) h = q.frame.ofLocal (y.drift h) := by
    rw [matrixStep_of_straight hneutral hstraight hforward, q.frame.momentum_ofLocal,
      q.frame.ofLocal_of_straight hstraight, q.frame.ofLocal_of_straight hstraight, State.drift,
      Vec3.direction_of_ne_zero hmoving]
    rfl
  rw [hlocal, q.frame.toLocal_ofLocal]

end neutral

end DipoleQuadrupole

/-- Coordinates a distance further along an orbit of some curvature, for a particle that no force acts on,
to first order in the offset and the slopes: the vertical motion is straight, and the radius from the
centre of curvature, in units of that of the orbit, follows the hyperbolic functions of the angle that the
orbit turns by. Angles too small for the closed form are served by its series. -/
structure OrbitCoords.LinearFlight (curvature ds : ℝ) (c d : OrbitCoords ℝ) : Prop where
  momentum : d.momentum = c.momentum
  s : d.s = c.s + ds
  y : d.y = c.y + c.yp * ds
  yp : d.yp = c.yp
  x : Focusing.seriesThreshold ≤ (curvature * ds) ^ 2 →
    1 + curvature * d.x =
      (1 + curvature * c.x) * Real.cosh (curvature * ds) + c.xp * Real.sinh (curvature * ds)
  xp : Focusing.seriesThreshold ≤ (curvature * ds) ^ 2 →
    d.xp = (1 + curvature * c.x) * Real.sinh (curvature * ds) + c.xp * Real.cosh (curvature * ds)

namespace DipoleQuadrupole

variable {q : DipoleQuadrupole ℝ} {c : OrbitCoords ℝ} (hforward : 0 < c.ps) (h : ℝ)

include hforward

theorem slopes_matrixStep :
    (q.matrixStep c h).xp = (q.transport c (q.orbitAdvance c h)).xp ∧
      (q.matrixStep c h).yp = (q.transport c (q.orbitAdvance c h)).yp :=
  OrbitCoords.slopes_ofSlopes _ _ _ (OrbitCoords.momentum_pos_of_forward hforward).ne'

/-- The matrix transports a particle without charge as if it flew freely. -/
theorem linearFlight_matrixStep (hneutral : q.motion.coupling = 0) :
    c.LinearFlight q.frame.curvature (q.orbitAdvance c h) (q.matrixStep c h) := by
  set k := q.frame.curvature with hk
  set ds := q.orbitAdvance c h with hds
  have hmoving := OrbitCoords.momentum_pos_of_forward hforward
  have htransport := transport_of_neutral hneutral c ds
  obtain ⟨hxp, hyp⟩ := q.slopes_matrixStep hforward h
  refine ⟨OrbitCoords.momentum_ofSlopes _ _ _ hmoving.le, rfl, ?_, ?_, ?_, ?_⟩
  · exact congrArg Transverse.y htransport
  · exact hyp.trans (congrArg Transverse.yp htransport)
  · intro hphase
    have hx : (q.matrixStep c h).x = _ := congrArg Transverse.x htransport
    rw [hx, Focusing.after_free hphase]
    dsimp only
    rw [← hk]
    have hcurved := Focusing.curvature_ne_zero_of_phase hphase
    field_simp
    ring
  · intro hphase
    have hx : (q.matrixStep c h).xp = _ := hxp.trans (congrArg Transverse.xp htransport)
    rw [hx, Focusing.after_free hphase]
    dsimp only
    rw [← hk]
    have hcurved := Focusing.curvature_ne_zero_of_phase hphase
    field_simp
    ring

end DipoleQuadrupole

/-! ## Magnets -/

/-- A step from the state is not by a matrix, unless by that of a straight magnet and forward. -/
def Integrator.StepsStraight : Integrator ℝ → State ℝ → Prop
  | .dipoleQuadrupole q, y =>
    q.TakesMatrix y → q.frame.curvature = 0 ∧ 0 < (q.frame.ofLocal y).ps
  | _, _ => True

theorem DipoleQuadrupole.step_of_neutral {q : DipoleQuadrupole ℝ} (hneutral : q.motion.coupling = 0)
    (hbend : q.bend.motion.coupling = 0) (hbackup : q.backup.motion.coupling = 0) {y : State ℝ}
    (hy : (Integrator.dipoleQuadrupole q).StepsStraight y) (h : ℝ) :
    q.step y (q.derivative y) h = .exact (y.drift h) := by
  by_cases hk1 : Significant q.k1
  · cases hparaxial : q.isParaxial (q.frame.ofLocal y) with
    | true =>
      obtain ⟨hstraight, hforward⟩ := hy ⟨hk1, hparaxial⟩
      rw [step_of_takesMatrix ⟨hk1, hparaxial⟩, toLocal_matrixStep_of_straight hneutral hstraight hforward]
    | false =>
      rw [step_of_not_isParaxial hparaxial, if_pos hk1]
      exact RungeKutta.step_of_no_force (RungeKutta.derivative_of_neutral hbackup) y h
  · rw [step_of_no_gradient hk1, Dipole.step_of_neutral hbend]

namespace Magnet

theorem step_of_neutral {magnet : Magnet ℝ} {context : Context ℝ} {i : Integrator ℝ}
    (hi : magnet.Built ⟨0⟩ context i) {y : State ℝ} (hy : i.StepsStraight y) (h : ℝ) :
    i.step y h = .exact (y.drift h) := by
  have hneutral : (⟨0⟩ : Motion ℝ).coupling = 0 := Motion.coupling_eq_zero_iff _ |>.mpr rfl
  cases hi with
  | drift => rfl
  | dipole => exact Dipole.step_of_neutral hneutral y h
  | dipoleFringe => exact DipoleFringe.step_of_neutral hneutral y h
  | @rungeKutta field _ =>
    have hforce : ∀ y, (RungeKutta.mk ⟨0⟩ field).derivative y = y.driftDerivative :=
      RungeKutta.derivative_of_neutral hneutral
    exact RungeKutta.step_of_no_force hforce y h
  | dipoleQuadrupole => exact DipoleQuadrupole.step_of_neutral hneutral hneutral hneutral hy h

/-- A particle without charge goes straight through every magnet that is built, in steps that show no
error, as long as no matrix takes it but that of a straight magnet, moving forward. The matrix of a bend
leads a particle that moves forward as the linear equations of free motion do, where it divides by nothing
zero, and shows no error either. -/
theorem neutral_goes_straight (magnet : Magnet ℝ) (hcheck : magnet.check = .ok ()) (set : IntegratorSet)
    (context : Context ℝ) :
    (∃ i, magnet.integrator set ⟨0⟩ context = .ok i ∧
      (∀ y h, i.StepsStraight y → i.step y h = .exact (y.drift h)) ∧
      ∀ q, i = .dipoleQuadrupole q → ∀ y h, q.TakesMatrix y →
        let c := q.frame.ofLocal y
        0 < c.ps → q.stretchAtStart c ≠ 0 → q.stretchHalfway c h ≠ 0 →
          i.step y h = .exact (q.frame.toLocal (q.matrixStep c h)) ∧
            c.LinearFlight q.frame.curvature (q.orbitAdvance c h) (q.matrixStep c h)) ∨
      set.integratorFor magnet.kind = .rungeKutta ∧ magnet.field? = none ∧
        magnet.integrator set ⟨0⟩ context = .error (.unsupportedField magnet.kind) := by
  rcases exists_integrator_or set ⟨0⟩ context hcheck with ⟨i, hi⟩ | hrefused
  · have hbuilt := built_of_integrator hcheck hi
    refine Or.inl ⟨i, hi, fun y h hy => step_of_neutral hbuilt hy h, ?_⟩
    rintro q rfl y h hmatrix c hforward - -
    have hneutral : q.motion.coupling = 0 := by
      cases hbuilt
      exact Motion.coupling_eq_zero_iff _ |>.mpr rfl
    exact ⟨DipoleQuadrupole.step_of_takesMatrix hmatrix _ h,
      DipoleQuadrupole.linearFlight_matrixStep hforward h hneutral⟩
  · exact Or.inr hrefused

namespace gradientBend

/-- A bend of unit curvature with a gradient. -/
noncomputable def magnet : Magnet ℝ :=
  ⟨.dipoleQuadrupole, 1, Strengths.empty.set .k1 1, .sector 1 1, .entrance⟩

/-- What it is built into for particles without charge. -/
noncomputable def matrix : DipoleQuadrupole ℝ :=
  .ofMagnet ⟨0⟩ magnet.strengths magnet.geometry magnet.rigidity .standard

/-- Forward from the start of the orbit, and upwards. -/
noncomputable def rising : State ℝ := ⟨⟨0, 0, 0⟩, ⟨0, 7, 24⟩⟩

/-- Backwards beside the start of the orbit. -/
noncomputable def backward : State ℝ := ⟨⟨1, 1, 0⟩, ⟨5, 0, -12⟩⟩

theorem check_eq : magnet.check = .ok () := check_eq_ok_iff.mpr
  ⟨by norm_num [magnet], by norm_num [magnet, BendGeometry.sector],
    fun _ => significant_of_one_le (by norm_num [magnet, BendGeometry.sector])⟩

theorem integrator_eq :
    magnet.integrator Profile.bdsimMatrix.set ⟨0⟩ .standard = .ok (.dipoleQuadrupole matrix) := by
  rw [integrator_of_check _ _ _ check_eq]
  rfl

theorem neutral : matrix.motion.coupling = 0 := Motion.coupling_eq_zero_iff _ |>.mpr rfl

theorem significant_k1 : Significant matrix.k1 :=
  significant_of_one_le (by norm_num [matrix, magnet, DipoleQuadrupole.ofMagnet, Strengths.get_set])

theorem curvature_eq : matrix.frame.curvature = 1 := by
  have hsignificant : Significant (1 : ℝ) := significant_of_one_le (by norm_num)
  have hbent : magnet.geometry.isBent = true := BendGeometry.isBent_iff.mpr ⟨hsignificant, hsignificant⟩
  have hratio : magnet.geometry.angle / magnet.geometry.arcLength = 1 := div_self one_ne_zero
  exact (curvature_frame_ofMagnet hbent (hratio.symm ▸ hsignificant)).trans hratio

theorem ofLocal_rising : matrix.frame.ofLocal rising = ⟨⟨0, 0, 0⟩, 0, 7, 24⟩ :=
  matrix.frame.ofLocal_start (by norm_num) 0 _

theorem not_takesMatrix_backward : ¬ matrix.TakesMatrix backward := by
  have hlimit : 0 < matrix.criterion.forwardCosine := by
    norm_num [matrix, DipoleQuadrupole.ofMagnet, Context.standard, ParaxialCriterion.standard]
  have hside : 0 < 1 + matrix.frame.curvature * 1 := by norm_num [curvature_eq]
  have hps : (matrix.frame.ofLocal backward).ps ≤ 0 := by
    rw [backward, matrix.frame.ofLocal_start hside]
    norm_num
  intro hmatrix
  have hrefused := DipoleQuadrupole.not_isParaxial_of_backward hlimit hps
  exact Bool.false_ne_true (hrefused.symm.trans hmatrix.2)

theorem momentum_rising : (matrix.frame.ofLocal rising).momentum = 25 := by
  rw [matrix.frame.momentum_ofLocal]
  exact Vec3.length_of_dot_self (by norm_num) (by norm_num [rising, Vec3.dot])

theorem forward_rising : 0 < (matrix.frame.ofLocal rising).ps := by
  rw [ofLocal_rising]
  norm_num

theorem takesMatrix_rising : matrix.TakesMatrix rising := by
  have hcosine : (matrix.frame.ofLocal rising).forwardCosine = 24 / 25 := by
    rw [OrbitCoords.forwardCosine, momentum_rising, ofLocal_rising, if_pos (by norm_num)]
  refine ⟨significant_k1, DipoleQuadrupole.isParaxial_of_fast ?_ ?_⟩
  · rw [hcosine]
    norm_num [matrix, DipoleQuadrupole.ofMagnet, Context.standard, ParaxialCriterion.standard]
  · rw [neutral, momentum_rising]
    norm_num

theorem stretchAtStart_pos : 0 < matrix.stretchAtStart (matrix.frame.ofLocal rising) := by
  rw [DipoleQuadrupole.stretchAtStart, DipoleQuadrupole.stretch_pos_iff, ofLocal_rising]
  norm_num

/-- The first estimate leads outwards, away from the centre. -/
theorem stretchHalfway_pos (h : ℝ) : 0 < matrix.stretchHalfway (matrix.frame.ofLocal rising) h := by
  have haway : -((1 : ℝ) * 1) ≤ 0 := by norm_num
  have houtwards := Focusing.dispersion_nonneg haway
    (h / matrix.stretchAtStart (matrix.frame.ofLocal rising))
  rw [DipoleQuadrupole.stretchHalfway, DipoleQuadrupole.stretch_pos_iff, DipoleQuadrupole.halfway,
    DipoleQuadrupole.estimate_eq, DipoleQuadrupole.transport_of_neutral neutral, curvature_eq]
  dsimp only
  simp only [ofLocal_rising, OrbitCoords.xp] at houtwards ⊢
  linarith

/-- The orbit turns away from the particle, which the matrix takes for a slope against it. -/
theorem xp_matrixStep_ne_zero : (matrix.matrixStep (matrix.frame.ofLocal rising) 1).xp ≠ 0 := by
  have haway : -((1 : ℝ) * 1) ≤ 0 := by norm_num
  have hadvance : matrix.orbitAdvance (matrix.frame.ofLocal rising) 1 ≠ 0 := by
    rw [DipoleQuadrupole.orbitAdvance_eq]
    exact div_ne_zero one_ne_zero (stretchHalfway_pos 1).ne'
  have hslope := Focusing.sine_ne_zero haway hadvance
  rw [(matrix.slopes_matrixStep forward_rising 1).1, DipoleQuadrupole.transport_of_neutral neutral,
    curvature_eq]
  dsimp only
  simpa [ofLocal_rising, OrbitCoords.xp] using hslope

end gradientBend

/-- A particle that moves backwards, which no matrix takes, goes straight; one that moves forward follows
the matrix. -/
theorem neutral_goes_straight_backwards :
    gradientBend.magnet.check = .ok () ∧ ∃ i,
      gradientBend.magnet.integrator Profile.bdsimMatrix.set ⟨0⟩ .standard = .ok i ∧
        i.step gradientBend.backward (-2) = .exact (gradientBend.backward.drift (-2)) ∧
        let q := gradientBend.matrix
        let c := q.frame.ofLocal gradientBend.rising
        q.TakesMatrix gradientBend.rising ∧ 0 < c.ps ∧ q.stretchAtStart c ≠ 0 ∧
          q.stretchHalfway c 1 ≠ 0 ∧
          c.LinearFlight q.frame.curvature (q.orbitAdvance c 1) (q.matrixStep c 1) := by
  rcases neutral_goes_straight gradientBend.magnet gradientBend.check_eq Profile.bdsimMatrix.set
    .standard with ⟨i, hi, hstraight, hflight⟩ | ⟨-, hnone, -⟩
  · obtain rfl := Except.ok.inj (hi.symm.trans gradientBend.integrator_eq)
    have hforward := gradientBend.forward_rising
    have hstart := gradientBend.stretchAtStart_pos.ne'
    have hhalfway := (gradientBend.stretchHalfway_pos 1).ne'
    refine ⟨gradientBend.check_eq, _, hi, hstraight _ _ ?_, gradientBend.takesMatrix_rising, hforward,
      hstart, hhalfway, ?_⟩
    · intro hmatrix
      exact absurd hmatrix gradientBend.not_takesMatrix_backward
    · exact (hflight _ rfl _ 1 gradientBend.takesMatrix_rising hforward hstart hhalfway).2
  · exact nomatch hnone

/-- A particle without charge that starts on the orbit, forward and upwards, is bent by the matrix: its
momentum does not keep its vertical part. -/
theorem neutral_bent_by_matrix :
    gradientBend.magnet.check = .ok () ∧ ∃ i,
      gradientBend.magnet.integrator Profile.bdsimMatrix.set ⟨0⟩ .standard = .ok i ∧
        (i.step gradientBend.rising 1).out ≠ gradientBend.rising.drift 1 := by
  refine ⟨gradientBend.check_eq, _, gradientBend.integrator_eq, ?_⟩
  intro hdrift
  have hmatrix := DipoleQuadrupole.step_of_takesMatrix gradientBend.takesMatrix_rising
    (gradientBend.matrix.derivative gradientBend.rising) 1
  have hout : gradientBend.matrix.frame.toLocal _ = gradientBend.rising.drift 1 :=
    (congrArg Step.out hmatrix).symm.trans hdrift
  have hflight := DipoleQuadrupole.linearFlight_matrixStep gradientBend.forward_rising 1
    gradientBend.neutral
  have hforward : 0 < (gradientBend.matrix.matrixStep _ 1).ps := DipoleQuadrupole.matrixStep_ps_pos
    (OrbitCoords.momentum_pos_of_forward gradientBend.forward_rising) 1
  have hslope := gradientBend.xp_matrixStep_ne_zero
  set d := gradientBend.matrix.matrixStep (gradientBend.matrix.frame.ofLocal gradientBend.rising) 1
  -- The vertical part and the vertical slope are kept together only without a horizontal slope.
  have hpy : d.py = 7 := by
    rw [← (gradientBend.matrix.frame.parts_of_toLocal d).2.1, hout]
    rfl
  have hps : d.ps = 24 := by
    have hyp : d.py / d.ps = 7 / 24 := by
      rw [← OrbitCoords.yp, hflight.yp, gradientBend.ofLocal_rising]
      rfl
    rw [hpy, div_eq_div_iff hforward.ne' (by norm_num)] at hyp
    linarith
  have hpx : d.px = 0 := by
    have hmomentum : d.momentum = 25 := by
      rw [hflight.momentum, gradientBend.momentum_rising]
    rw [OrbitCoords.momentum, hpy, hps, Scalar.sqrt_real, Real.sqrt_eq_iff_mul_self_eq_of_pos (by norm_num)]
      at hmomentum
    exact mul_self_eq_zero.mp (by linarith)
  refine hslope ?_
  rw [OrbitCoords.xp, hpx, zero_div]

end Magnet

end BeamTransport
