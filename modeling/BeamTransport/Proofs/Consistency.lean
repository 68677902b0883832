import BeamTransport.Proofs.ErrorEstimate
import BeamTransport.Proofs.FourthOrder
import BeamTransport.Proofs.Subdivision

/-!
# Steps integrate the change along the path

An integrator gives the change of a state along the path and a step over a length of it, by formulas of
their own. A step over no length leads nowhere, and from there on it leads along that change
(`Integrator.step_integrates_derivative`): the rates of a helix and of a kick add up as the change does
(`Dipole.derivative_eq`), and so do those of two half steps, since each starts at the rate of its own
(`hasDerivAt_both`).
-/

open Filter Topology

namespace BeamTransport

variable {E : Type*} [NormedAddCommGroup E] [NormedSpace ℝ E]

/-- What depends on two lengths changes, as both grow, at the sum of the rates of each alone. -/
theorem hasDerivAt_both {f : ℝ × ℝ → E} {a b : E} (hf : DifferentiableAt ℝ f 0)
    (hfirst : HasDerivAt (fun h => f (h, 0)) a 0) (hsecond : HasDerivAt (fun h => f (0, h)) b 0) :
    HasDerivAt (fun h => f (h, h)) (a + b) 0 := by
  have hline := hasDerivAt_line_start hf
  have ha : fderiv ℝ f 0 (1, 0) = a := (hline (1, 0)).unique (by simpa using hfirst)
  have hb : fderiv ℝ f 0 (0, 1) = b := (hline (0, 1)).unique (by simpa using hsecond)
  have hsum : fderiv ℝ f 0 (1, 1) = a + b := by
    rw [← ha, ← hb, ← map_add]
    simp
  rw [← hsum]
  simpa using hline (1, 1)

theorem hasDerivAt_half {f : ℝ → E} {a : E} (hf : HasDerivAt f a 0) :
    HasDerivAt (fun h => f (0.5 * h)) ((0.5 : ℝ) • a) 0 := by
  have hhalf : HasDerivAt (fun h : ℝ => 0.5 * h) 0.5 0 := by
    simpa using (hasDerivAt_id (0 : ℝ)).const_mul 0.5
  refine HasDerivAt.scomp 0 ?_ hhalf
  rwa [mul_zero]

/-- Two half steps of a transport change a state at the rate of a whole one. -/
theorem hasDerivAt_halves {f : ℝ × ℝ → E} {a : E} (hf : DifferentiableAt ℝ f 0)
    (halone : ∀ h, f (h, 0) = f (0, h)) (hrate : HasDerivAt (fun h => f (0, h)) a 0) :
    HasDerivAt (fun h => f (0.5 * h, 0.5 * h)) a 0 := by
  have hscaled : DifferentiableAt ℝ (fun z : ℝ × ℝ => f (0.5 * z.1, 0.5 * z.2)) 0 := by
    refine DifferentiableAt.comp 0 ?_ (by fun_prop)
    simpa [Prod.zero_eq_mk] using hf
  have hsecond := hasDerivAt_half hrate
  have hfirst : HasDerivAt (fun h => f (0.5 * h, 0)) ((0.5 : ℝ) • a) 0 := by
    simpa only [halone] using hsecond
  have hboth := hasDerivAt_both hscaled (by simpa using hfirst) (by simpa using hsecond)
  convert hboth using 1
  module

/-! ## Drift, helix and kick -/

theorem State.hasDeriv_drift (y : State ℝ) (h : ℝ) : State.HasDeriv y.drift y.driftDerivative h := by
  refine ⟨?_, Vec3.hasDeriv_const y.momentum h⟩
  refine ((Vec3.hasDeriv_const y.position h).add
    (Vec3.hasDeriv_smul (hasDerivAt_id h) y.momentum.direction)).congr_rate ?_
  rw [zero_add, one_smul]
  rfl

namespace Motion

variable (motion : Motion ℝ)

theorem hasDerivAt_chord_start (kappa : ℝ) : HasDerivAt (chord kappa) 1 0 := by
  by_cases hkappa : Significant kappa
  · have hne := hkappa.ne_zero
    have hangle : HasDerivAt (fun h => 0.5 * (kappa * h)) (0.5 * kappa) 0 :=
      (hasDerivAt_angle kappa 0).const_mul 0.5
    have hchord : chord kappa = fun h => 2 * Real.sin (0.5 * (kappa * h)) / kappa :=
      funext fun _ => if_pos hkappa
    rw [hchord]
    refine ((hangle.sin.const_mul 2).div_const kappa).congr_deriv ?_
    simp
    field_simp
    norm_num
  · have hchord : chord kappa = fun h => h := funext fun _ => if_neg hkappa
    rw [hchord]
    exact hasDerivAt_id 0

/-- Going straight along an axis and by chords across it starts in the given direction, whatever the
curvature. -/
theorem hasDerivAt_along_add_chord_start (kappa : ℝ) (a axis : Vec3 ℝ) :
    HasDerivAt (fun h => h • a.along axis + chord kappa h • a.turnAcross axis (0.5 * (kappa * h))) a 0 := by
  have hturn : ContDiffAt ℝ 1 (fun h : ℝ => a.turnAcross axis (0.5 * (kappa * h))) 0 := by fun_prop
  have hacross := (hasDerivAt_chord_start kappa).smul (hturn.differentiableAt one_ne_zero).hasDerivAt
  refine (((hasDerivAt_id (0 : ℝ)).smul_const (a.along axis)).add hacross).congr_deriv ?_
  simp only [chord_zero, mul_zero, Vec3.turnAcross_zero, one_smul, zero_smul, zero_add]
  exact a.along_add_across axis

theorem force_of_weak {field : Vec3 ℝ} (hfield : field.length = 0) (momentum : Vec3 ℝ) :
    motion.force momentum field = 0 := by
  rw [force, field.length_eq_zero_iff.mp hfield]
  ext <;> simp [Vec3.cross]

theorem force_add (momentum a b : Vec3 ℝ) :
    motion.force momentum (a + b) = motion.force momentum a + motion.force momentum b := by
  rw [force, force, force]
  ext <;> simp [Vec3.cross] <;> ring

theorem helix_momentum (state : State ℝ) (field : Vec3 ℝ) (h : ℝ) :
    (motion.helix state field h).momentum = motion.rotate state.momentum field h := by
  by_cases hmoving : Significant field.length ∧ state.momentum ≠ 0
  · rw [motion.helix_of_moving hmoving.1 hmoving.2, motion.rotate_of_moving hmoving.1 hmoving.2]
  · rw [motion.helix_of_not_moving hmoving, motion.rotate_of_not_moving hmoving, State.drift]

variable {field : Vec3 ℝ} (hfield : field.length = 0 ∨ Significant field.length)

include hfield

theorem hasDerivAt_rotate_start {momentum : Vec3 ℝ} (hp : momentum ≠ 0) :
    HasDerivAt (motion.rotate momentum field) (motion.force momentum field) 0 := by
  rcases hfield with hnone | hfield
  · have hstill : motion.rotate momentum field = fun _ => momentum := by
      funext h
      refine motion.rotate_of_not_moving (fun hmoving => ?_) h
      rw [hnone] at hmoving
      exact not_significant_zero hmoving.1
    rw [hstill, motion.force_of_weak hnone]
    exact hasDerivAt_const 0 momentum
  · have hhelix : Vec3.HasDeriv (fun h => (motion.helix ⟨0, momentum⟩ field h).momentum)
        (motion.force (motion.helix ⟨0, momentum⟩ field 0).momentum field) 0 :=
      hasDeriv_helix_momentum hfield hp 0
    simpa only [Vec3.hasDeriv_iff, motion.helix_momentum, motion.rotate_zero] using hhelix

theorem hasDerivAt_helix_start {state : State ℝ} (hp : state.momentum ≠ 0) :
    HasDerivAt (motion.helix state field)
      ⟨state.momentum.direction, motion.force state.momentum field⟩ 0 := by
  refine State.hasDeriv_iff.mp ⟨Vec3.hasDeriv_iff.mpr ?_, Vec3.hasDeriv_iff.mpr ?_⟩
  · by_cases hmoving : Significant field.length ∧ state.momentum ≠ 0
    · simp only [motion.helix_of_moving hmoving.1 hmoving.2, add_assoc, Vec3.direction_of_ne_zero hp]
      exact (hasDerivAt_along_add_chord_start _ _ _).const_add state.position
    · simp only [motion.helix_of_not_moving hmoving, State.drift]
      simpa using ((hasDerivAt_id (0 : ℝ)).smul_const state.momentum.direction).const_add state.position
  · simpa only [motion.helix_momentum] using motion.hasDerivAt_rotate_start hfield hp

end Motion

/-! ## Bends -/

namespace Dipole

/-- Change of a state along the helix of a bend. -/
noncomputable def helixRate (d : Dipole ℝ) (y : State ℝ) : State ℝ :=
  ⟨y.momentum.direction, d.motion.force y.momentum d.fieldVector⟩

/-- Change of a state by the kick of the gradient. -/
noncomputable def kickRate (d : Dipole ℝ) (y : State ℝ) : State ℝ :=
  ⟨0, d.motion.force y.momentum (d.gradientField y.position)⟩

theorem derivative_eq (d : Dipole ℝ) (y : State ℝ) : d.derivative y = d.helixRate y + d.kickRate y := by
  rw [derivative, d.motion.force_add]
  exact State.ext (add_zero _).symm rfl

/-- A state at which each field of a bend is none or significant, off the centre of the orbit that a
gradient is measured against. -/
structure RegularAt (d : Dipole ℝ) (y : State ℝ) : Prop where
  field : d.field = 0 ∨ Significant d.field
  kick : (d.gradientField y.position).length = 0 ∨ Significant (d.gradientField y.position).length
  offCentre : Significant d.gradient → ¬ d.frame.AtCentre y.position

theorem step_zero (d : Dipole ℝ) (y : State ℝ) : (d.step y 0).out = y := by
  unfold step
  split_ifs
  · exact y.drift_zero
  · simp only [Step.comparing, mul_zero, d.advance_zero]

namespace RegularAt

variable {d : Dipole ℝ} {y : State ℝ} (hy : d.RegularAt y) (hp : y.momentum ≠ 0)

include hy

theorem fieldVector : d.fieldVector.length = 0 ∨ Significant d.fieldVector.length := by
  rw [d.length_fieldVector, abs_eq_zero, significant_congr (abs_abs d.field)]
  exact hy.field

theorem not_limit : (d.gradientField y.position).length ≠ Scalar.resolution := by
  rcases hy.kick with hnone | hstrong
  · rw [hnone]
    exact Scalar.resolution_pos.ne
  · rw [significant_iff, abs_of_nonneg (Vec3.length_nonneg _)] at hstrong
    exact hstrong.ne'

include hp

theorem hasDerivAt_helix : HasDerivAt (d.motion.helix y d.fieldVector) (d.helixRate y) 0 :=
  d.motion.hasDerivAt_helix_start hy.fieldVector hp

theorem hasDerivAt_kick : HasDerivAt
    (fun h => (⟨y.position, d.motion.rotate y.momentum (d.gradientField y.position) h⟩ : State ℝ))
    (d.kickRate y) 0 := by
  have hkick := d.motion.hasDerivAt_rotate_start hy.kick hp
  exact State.hasDeriv_iff.mp ⟨Vec3.hasDeriv_const y.position 0, Vec3.hasDeriv_iff.mpr hkick⟩

theorem contDiffAt_midway {kick : ℝ × ℝ → ℝ} (hkick : ContDiffAt ℝ 1 kick 0) :
    ContDiffAt ℝ 1 (fun z : ℝ × ℝ => d.midway y z.1 (kick z)) 0 :=
  d.contDiffAt_midway contDiffAt_const contDiffAt_fst rfl (y.momentum.length_pos_iff.mpr hp).ne'
    (fun _ => rfl) hy.offCentre hy.not_limit hkick

theorem hasDerivAt_midway :
    HasDerivAt (fun h => d.midway y h h) ((0.5 : ℝ) • d.helixRate y + d.kickRate y) 0 := by
  have hsmooth := (hy.contDiffAt_midway hp contDiffAt_snd).differentiableAt one_ne_zero
  refine hasDerivAt_both hsmooth ?_ ?_
  · simp only [d.midway_of_no_kick]
    exact hasDerivAt_half (hy.hasDerivAt_helix hp)
  · simp only [d.midway_start]
    exact hy.hasDerivAt_kick hp

/-- A step without error estimate starts at the rate of change: half the rate of the helix before the kick,
and half of it after. -/
theorem hasDerivAt_advance : HasDerivAt (d.advance y) (d.derivative y) 0 := by
  by_cases hgradient : Significant d.gradient
  · have hsmooth := d.motion.contDiffAt_helix (h := fun z : ℝ × ℝ => 0.5 * z.2) d.fieldVector
      (hy.contDiffAt_midway hp contDiffAt_fst) (by fun_prop) (y.momentum.length_pos_iff.mpr hp).ne'
      fun _ => d.length_midway _ _ _
    have hfirst : HasDerivAt (fun h => d.motion.helix (d.midway y h h) d.fieldVector (0.5 * 0))
        ((0.5 : ℝ) • d.helixRate y + d.kickRate y) 0 := by
      simpa only [mul_zero, d.motion.helix_zero] using hy.hasDerivAt_midway hp
    have hsecond : HasDerivAt (fun h => d.motion.helix (d.midway y 0 0) d.fieldVector (0.5 * h))
        ((0.5 : ℝ) • d.helixRate y) 0 := by
      simpa only [d.midway_of_no_kick, mul_zero, d.motion.helix_zero] using
        hasDerivAt_half (hy.hasDerivAt_helix hp)
    have hboth := hasDerivAt_both (hsmooth.differentiableAt one_ne_zero) hfirst hsecond
    have hadvance : d.advance y = fun h => d.motion.helix (d.midway y h h) d.fieldVector (0.5 * h) :=
      funext (d.advance_eq_midway hgradient y)
    rw [hadvance, d.derivative_eq]
    refine hboth.congr_deriv ?_
    module
  · have hnone : d.kickRate y = 0 := by
      rw [kickRate, gradientField, if_neg hgradient, d.motion.force_of_weak Vec3.length_zero]
      rfl
    have hhelix : d.advance y = d.motion.helix y d.fieldVector := funext fun _ => if_neg hgradient
    rw [hhelix, d.derivative_eq, hnone, add_zero]
    exact hy.hasDerivAt_helix hp

theorem hasDerivAt_step : HasDerivAt (fun h => (d.step y h).out) (d.derivative y) 0 := by
  by_cases hzero : d.isZero = true
  · have hweak := hzero
    simp only [isZero, decide_eq_true_eq] at hweak
    have hdrift (h : ℝ) : (d.step y h).out = d.advance y h := by
      rw [step, if_pos hzero, advance_eq_drift hweak.2 hweak.1, Step.exact]
    simp only [hdrift]
    exact hy.hasDerivAt_advance hp
  · have hcomposed := d.composed_advance hp hy.offCentre hy.not_limit
    have hstep (h : ℝ) : (d.step y h).out = d.advance (d.advance y (0.5 * h)) (0.5 * h) := by
      rw [step, if_neg hzero, Step.comparing]
    simp only [hstep]
    refine hasDerivAt_halves (hcomposed.smooth.differentiableAt (by decide)) hcomposed.alone ?_
    simpa only [d.advance_zero] using hy.hasDerivAt_advance hp

end RegularAt

end Dipole

/-! ## Runge-Kutta -/

namespace RungeKutta

variable {r : RungeKutta ℝ} {y : State ℝ} (hrate : ContDiffAt ℝ 1 r.derivative y)

include hrate

theorem hasDerivAt_singleStep :
    HasDerivAt (fun h => r.singleStep y (r.derivative y) h) (r.derivative y) 0 := by
  obtain ⟨hsecond, hthird, hfourth⟩ := r.rates_zero y
  have hrates : ContDiffAt ℝ 1 (fun h => r.derivative y + (2 : ℝ) • r.secondRate y h
      + (2 : ℝ) • r.thirdRate y h + r.fourthRate y h) 0 :=
    ContDiffAt.comp (f := fun h => (y, h)) 0 (contDiffAt_rates hrate) (by fun_prop)
  have hsixth : HasDerivAt (fun h : ℝ => h / 6) (1 / 6) 0 := (hasDerivAt_id 0).div_const 6
  have hstep := (hsixth.smul (hrates.differentiableAt one_ne_zero).hasDerivAt).const_add y
  simp only [singleStep_eq]
  refine hstep.congr_deriv ?_
  rw [hsecond, hthird, hfourth]
  module

theorem hasDerivAt_step :
    HasDerivAt (fun h => ((Integrator.rungeKutta r).step y h).out) (r.derivative y) 0 := by
  have hsingle := contDiffAt_singleStep hrate
  have hfirst : ContDiffAt ℝ 1 (fun z : ℝ × ℝ => r.singleStep y (r.derivative y) z.2) 0 :=
    ContDiffAt.comp (g := fun x : State ℝ × ℝ => r.singleStep x.1 (r.derivative x.1) x.2)
      (f := fun z : ℝ × ℝ => (y, z.2)) 0 hsingle (by fun_prop)
  have hboth : ContDiffAt ℝ 1 (fun z : ℝ × ℝ => r.singleStep (r.singleStep y (r.derivative y) z.2)
      (r.derivative (r.singleStep y (r.derivative y) z.2)) z.1) 0 := by
    refine ContDiffAt.comp (g := fun x : State ℝ × ℝ => r.singleStep x.1 (r.derivative x.1) x.2)
      (f := fun z : ℝ × ℝ => (r.singleStep y (r.derivative y) z.2, z.1)) 0 ?_ (hfirst.prodMk contDiffAt_fst)
    simpa using hsingle
  have halves := hasDerivAt_halves (hboth.differentiableAt one_ne_zero) (fun h => by simp)
    (by simpa using hasDerivAt_singleStep hrate)
  simpa only [step_out, middle] using halves

end RungeKutta

/-! ## Integrators -/

namespace Integrator

/-- A state at which an integrator without matrices follows the motion: a bend where each of its fields is
none or significant, and Runge-Kutta through the field of a magnet, off the centre of the orbit that a
gradient is measured against. -/
def FollowsAt (y : State ℝ) : Integrator ℝ → Prop
  | .drift => True
  | .dipole d => d.RegularAt y
  | .rungeKutta r => ∃ magnet : Magnet ℝ, magnet.field? = some r.field ∧
      (magnet.kind = .dipoleQuadrupole →
        ¬ (OrbitFrame.ofCurvature magnet.geometry.curvature).AtCentre y.position)
  | .dipoleQuadrupole _ | .dipoleFringe _ => False

/-- A step of a drift, of a bend or of Runge-Kutta through the field of a magnet integrates the change along
the path that the integrator itself gives: over no length it leads nowhere, and from there all components
of the state change at that rate. -/
theorem step_integrates_derivative (i : Integrator ℝ) (y : State ℝ) (hp : y.momentum ≠ 0)
    (hfollows : i.FollowsAt y) :
    (i.step y 0).out = y ∧ State.HasDeriv (fun h => (i.step y h).out) (i.derivative y) 0 := by
  cases i with
  | drift => exact ⟨y.drift_zero, y.hasDeriv_drift 0⟩
  | dipole d =>
    refine ⟨d.step_zero y, ?_⟩
    exact State.hasDeriv_iff.mpr (Dipole.RegularAt.hasDerivAt_step hfollows hp)
  | rungeKutta r =>
    obtain ⟨magnet, hfield, hcentre⟩ := hfollows
    have hsmooth := Magnet.contDiffAt_field (n := 1) hfield hcentre
    have hrate : ContDiffAt ℝ 1 r.derivative y := r.motion.contDiffAt_derivative hsmooth hp
    refine ⟨?_, State.hasDeriv_iff.mpr (RungeKutta.hasDerivAt_step hrate)⟩
    rw [RungeKutta.step_out]
    simp [RungeKutta.middle]
  | dipoleQuadrupole q => exact hfollows.elim
  | dipoleFringe edge => exact hfollows.elim

/-- A negative charge far off the orbit of a bend with a gradient. -/
theorem step_integrates_derivative_far_off :
    let d : Dipole ℝ := ⟨⟨-1⟩, -3, 2, 1, 1, ⟨1⟩⟩
    let y : State ℝ := ⟨⟨3, -4, 0⟩, ⟨1, -2, 2⟩⟩
    y.momentum ≠ 0 ∧ (dipole d).FollowsAt y ∧ ((dipole d).step y 0).out = y ∧
      State.HasDeriv (fun h => ((dipole d).step y h).out) ((dipole d).derivative y) 0 := by
  intro d y
  have hmoving : y.momentum ≠ 0 := fun hrest => by
    simpa [y] using congrArg Vec3.x hrest
  have hlength : (d.gradientField y.position).length = 10 := Dipole.length_gradientField_far_off
  have hregular : d.RegularAt y :=
    { field := Or.inr (significant_of_one_le (by norm_num [d]))
      kick := Or.inr (significant_of_one_le (by norm_num [hlength]))
      offCentre := by
        rintro - ⟨-, hx, -⟩
        norm_num [d, y] at hx }
  exact ⟨hmoving, hregular, step_integrates_derivative (dipole d) y hmoving hregular⟩

end Integrator

end BeamTransport
