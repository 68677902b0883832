import BeamTransport.Magnet
import BeamTransport.Proofs.Composition
import BeamTransport.Proofs.Field
import BeamTransport.Proofs.MultipoleSeries
import BeamTransport.Proofs.OrbitAdvance
import BeamTransport.Proofs.Space

/-!
# Steps vary smoothly

The steps of a bend choose between formulas by magnitudes that the motion keeps, so nothing of the choice
changes along a path of states with one magnitude of momentum: the helix through a field varies smoothly
with the state and the length (`Motion.contDiffAt_helix`). Only the field of a gradient changes from place to
place, and its kick is smooth as long as the field is not just at the limit
(`Motion.contDiffAt_rotate`). About a curved orbit the direction of the normal is a position over its
distance from the centre of curvature, so off the centre every field of a magnet is smooth
(`Magnet.contDiffAt_field`), and nothing is left of the cut of the angle.
-/

open Filter Topology

namespace BeamTransport

variable {E : Type*} [NormedAddCommGroup E] [NormedSpace ℝ E] {n : WithTop ℕ∞} {e : E}

/-! ## The motion -/

namespace Motion

variable (motion : Motion ℝ) {h : E → ℝ}

@[fun_prop]
theorem contDiffAt_chord (kappa : ℝ) (hh : ContDiffAt ℝ n h e) :
    ContDiffAt ℝ n (fun e => chord kappa (h e)) e := by
  unfold chord
  split_ifs
  · simp only [Scalar.sin_real]
    fun_prop
  · exact hh

/-- The helix from states of one magnitude of momentum. -/
theorem contDiffAt_helix {state : E → State ℝ} {p : ℝ} (field : Vec3 ℝ) (hstate : ContDiffAt ℝ n state e)
    (hh : ContDiffAt ℝ n h e) (hp : p ≠ 0) (hlength : ∀ e, (state e).momentum.length = p) :
    ContDiffAt ℝ n (fun e => motion.helix (state e) field (h e)) e := by
  have hmoving (e : E) : (state e).momentum ≠ 0 := by
    rw [ne_eq, ← Vec3.length_eq_zero_iff, hlength]
    exact hp
  by_cases hb : Significant field.length
  · simp only [motion.helix_of_moving hb (hmoving _), hlength, Vec3.div_eq_smul]
    fun_prop
  · simp only [motion.helix_of_not_moving (fun hboth => hb hboth.1), State.drift]
    have hdirection := Vec3.contDiffAt_direction (n := n) (a := fun e => (state e).momentum) (by fun_prop)
      (hmoving e)
    fun_prop

/-- The kick of a field that is not just at the limit, on momenta of one magnitude. -/
theorem contDiffAt_rotate {momentum field : E → Vec3 ℝ} {p : ℝ} (hmomentum : ContDiffAt ℝ n momentum e)
    (hfield : ContDiffAt ℝ n field e) (hh : ContDiffAt ℝ n h e) (hp : p ≠ 0)
    (hlength : ∀ e, (momentum e).length = p) (hlimit : (field e).length ≠ Scalar.resolution) :
    ContDiffAt ℝ n (fun e => motion.rotate (momentum e) (field e) (h e)) e := by
  have hmoving (e : E) : momentum e ≠ 0 := by
    rw [ne_eq, ← Vec3.length_eq_zero_iff, hlength]
    exact hp
  have hcontinuous : ContinuousAt (fun e => (field e).length) e :=
    Vec3.continuous_length.continuousAt.comp hfield.continuousAt
  rcases lt_or_gt_of_ne hlimit with hweak | hstrong
  · refine hmomentum.congr_of_eventuallyEq ?_
    filter_upwards [hcontinuous.eventually_lt continuousAt_const hweak] with a ha
    refine motion.rotate_of_not_moving (fun hboth => lt_asymm ha ?_) _
    simpa [significant_iff, abs_of_nonneg (Vec3.length_nonneg _)] using hboth.1
  · have hne : field e ≠ 0 := (Vec3.length_pos_iff _).mp (Scalar.resolution_pos.trans hstrong)
    have haxis := Vec3.contDiffAt_div_length hfield hne
    have hstrength := Vec3.contDiffAt_length hfield hne
    have hsmooth : ContDiffAt ℝ n (fun e => p • (momentum e / p).turn (field e / (field e).length)
        (motion.curvature (field e).length p * h e)) e := by
      simp only [curvature, Vec3.div_eq_smul (momentum _)]
      fun_prop
    refine hsmooth.congr_of_eventuallyEq ?_
    filter_upwards [continuousAt_const.eventually_lt hcontinuous hstrong] with a ha
    have hsignificant : Significant (field a).length := by
      rwa [significant_iff, abs_of_nonneg (Vec3.length_nonneg _)]
    rw [motion.rotate_of_moving hsignificant (hmoving a), hlength]

/-- The change along the path through a smooth field. -/
theorem contDiffAt_derivative {field : FieldMap ℝ} {y : State ℝ} (hfield : ContDiffAt ℝ n field y.position)
    (hp : y.momentum ≠ 0) : ContDiffAt ℝ n (motion.derivative field) y := by
  have hdirection := Vec3.contDiffAt_direction (n := n) State.contDiff_momentum.contDiffAt hp
  have hthere : ContDiffAt ℝ n (fun y : State ℝ => field y.position) y :=
    hfield.comp y State.contDiff_position.contDiffAt
  exact State.contDiffAt_mk hdirection ((Vec3.contDiffAt_cross hdirection hthere).const_smul _)

end Motion

/-! ## Fields about an orbit -/

namespace OrbitFrame

variable (frame : OrbitFrame ℝ) {position : Vec3 ℝ}

/-- The signed distance of a position from the vertical axis through the centre of curvature. -/
noncomputable def signedRadius (position : Vec3 ℝ) : ℝ :=
  Scalar.sign frame.curvature * Real.sqrt ((position.x + 1 / frame.curvature) ^ 2 + position.z ^ 2)

theorem squares_ne_zero (hbent : frame.curvature ≠ 0) (hcentre : ¬ frame.AtCentre position) :
    (position.x + 1 / frame.curvature) ^ 2 + position.z ^ 2 ≠ 0 := by
  intro hzero
  rw [add_eq_zero_iff_of_nonneg (sq_nonneg _) (sq_nonneg _), sq_eq_zero_iff, sq_eq_zero_iff,
    add_eq_zero_iff_eq_neg] at hzero
  exact hcentre ⟨hbent, hzero⟩

theorem signedRadius_ne_zero (hbent : frame.curvature ≠ 0) (hcentre : ¬ frame.AtCentre position) :
    frame.signedRadius position ≠ 0 := by
  have hsign := left_ne_zero_of_mul_eq_one (Scalar.sign_mul_sign frame.curvature)
  exact mul_ne_zero hsign ((Real.sqrt_ne_zero (by positivity)).mpr (frame.squares_ne_zero hbent hcentre))

/-- Off the centre the normal of the orbit is the horizontal position from there over its distance. -/
theorem normal_locate (hbent : frame.curvature ≠ 0) (hcentre : ¬ frame.AtCentre position) :
    frame.normal (frame.locate position).s =
      (frame.signedRadius position)⁻¹ • ⟨position.x + 1 / frame.curvature, 0, position.z⟩ := by
  have hradius := frame.signedRadius_ne_zero hbent hcentre
  obtain ⟨hcos, hsin⟩ := radius_mul_cos_sin (Scalar.sign_mul_sign frame.curvature)
    (position.x + 1 / frame.curvature) position.z
  rw [normal_eq, locate_of_bent hbent]
  dsimp only
  rw [mul_div_cancel₀ _ hbent]
  ext
  · rw [Vec3.smul_x, eq_inv_mul_iff_mul_eq₀ hradius]
    exact hcos
  · rw [Vec3.smul_y, mul_zero]
  · rw [Vec3.smul_z, eq_inv_mul_iff_mul_eq₀ hradius]
    exact hsin

theorem orbitGradient_of_bent (gradient : ℝ) (hbent : frame.curvature ≠ 0)
    (hcentre : ¬ frame.AtCentre position) :
    FieldMap.orbitGradient frame gradient position =
      (⟨0, gradient * (frame.signedRadius position - 1 / frame.curvature), 0⟩ : Vec3 ℝ)
        + (gradient * position.y * (frame.signedRadius position)⁻¹) •
          (⟨position.x + 1 / frame.curvature, 0, position.z⟩ : Vec3 ℝ) := by
  rw [FieldMap.orbitGradient, frame.normal_locate hbent hcentre, locate_of_bent hbent, smul_smul]
  rfl

theorem orbitGradient_of_straight (gradient : ℝ) (hstraight : frame.curvature = 0) :
    FieldMap.orbitGradient frame gradient =
      fun position => ⟨gradient * position.y, gradient * position.x, 0⟩ := by
  funext position
  rw [FieldMap.orbitGradient, locate, if_pos (frame.isStraight_iff.mpr hstraight), normal_eq, hstraight]
  ext <;> simp

theorem contDiffAt_signedRadius (hbent : frame.curvature ≠ 0) (hcentre : ¬ frame.AtCentre position) :
    ContDiffAt ℝ n frame.signedRadius position := by
  have hsquares := frame.squares_ne_zero hbent hcentre
  exact contDiffAt_const.mul (ContDiffAt.sqrt (by fun_prop) hsquares)

theorem eventually_not_atCentre (hcentre : ¬ frame.AtCentre position) :
    ∀ᶠ near in 𝓝 position, ¬ frame.AtCentre near := by
  by_cases hbent : frame.curvature = 0
  · exact .of_forall fun near hat => hat.1 hbent
  · have hcontinuous : Continuous fun a : Vec3 ℝ => (a.x + 1 / frame.curvature) ^ 2 + a.z ^ 2 :=
      (contDiff_iff_contDiffAt.mpr fun _ => by fun_prop : ContDiff ℝ 0 _).continuous
    filter_upwards [hcontinuous.continuousAt.eventually_ne (frame.squares_ne_zero hbent hcentre)]
      with near hnear hat
    rw [hat.2.1, hat.2.2] at hnear
    norm_num at hnear

/-- The field of a gradient about an orbit is smooth off the centre. -/
theorem contDiffAt_orbitGradient (gradient : ℝ) (hcentre : ¬ frame.AtCentre position) :
    ContDiffAt ℝ n (FieldMap.orbitGradient frame gradient) position := by
  by_cases hbent : frame.curvature = 0
  · rw [frame.orbitGradient_of_straight gradient hbent]
    fun_prop
  · have hradius := frame.contDiffAt_signedRadius (n := n) hbent hcentre
    have hne := frame.signedRadius_ne_zero hbent hcentre
    have hsmooth : ContDiffAt ℝ n (fun position : Vec3 ℝ =>
        (⟨0, gradient * (frame.signedRadius position - 1 / frame.curvature), 0⟩ : Vec3 ℝ)
          + (gradient * position.y * (frame.signedRadius position)⁻¹) •
            (⟨position.x + 1 / frame.curvature, 0, position.z⟩ : Vec3 ℝ)) position := by
      fun_prop (disch := exact hne)
    refine hsmooth.congr_of_eventuallyEq ?_
    filter_upwards [frame.eventually_not_atCentre hcentre] with near hnear
    exact frame.orbitGradient_of_bent gradient hbent hnear

end OrbitFrame

/-! ## Fields of magnets -/

theorem Vec3.contDiff_asPoint : ContDiff ℝ n Vec3.asPoint := by
  have hsum (a : Vec3 ℝ) : a.asPoint = a.x + a.y * Complex.I := Complex.mk_eq_add_mul_I _ _
  simp only [funext hsum]
  exact (Complex.ofRealCLM.contDiff.comp contDiff_x).add
    ((Complex.ofRealCLM.contDiff.comp contDiff_y).mul contDiff_const)

/-- The field of a multipole is smooth as its power series is. -/
theorem Multipole.contDiffAt_field (m : Multipole ℝ) (position : Vec3 ℝ) :
    ContDiffAt ℝ n m.field position := by
  have hpoint := Vec3.contDiff_asPoint (n := n)
  have hseries : ContDiff ℝ n fun a : Vec3 ℝ => ∑ index, m.term a.asPoint index := by
    unfold term
    fun_prop
  have hfield (a : Vec3 ℝ) : m.field a =
      ⟨(∑ index, m.term a.asPoint index).im, (∑ index, m.term a.asPoint index).re, 0⟩ :=
    Vec3.eq_of_asField (m.asField_field a) rfl
  simp only [funext hfield]
  exact Vec3.contDiffAt_mk (Complex.imCLM.contDiff.comp hseries).contDiffAt
    (Complex.reCLM.contDiff.comp hseries).contDiffAt contDiffAt_const

namespace FieldMap

theorem contDiffAt_sector (base gradient curvature : ℝ) {position : Vec3 ℝ}
    (hcentre : ¬ (OrbitFrame.ofCurvature curvature).AtCentre position) :
    ContDiffAt ℝ n (sector base gradient curvature) position := by
  have hgradient := (OrbitFrame.ofCurvature curvature).contDiffAt_orbitGradient (n := n) gradient hcentre
  rw [funext (sector_eq base gradient curvature)]
  exact contDiffAt_const.add hgradient

theorem contDiffAt_quadrupole (gradient : ℝ) (position : Vec3 ℝ) :
    ContDiffAt ℝ n (quadrupole gradient) position := by
  unfold quadrupole
  fun_prop

theorem contDiffAt_skew {field : FieldMap ℝ} (hfield : ∀ position, ContDiffAt ℝ n field position)
    (angle : ℝ) (position : Vec3 ℝ) : ContDiffAt ℝ n (skew angle field) position :=
  Vec3.contDiffAt_rotateZ angle
    ((hfield _).comp position (Vec3.contDiffAt_rotateZ (-angle) contDiffAt_id))

end FieldMap

/-- The field of a magnet is smooth, that of a sector off the centre of its orbit. -/
theorem Magnet.contDiffAt_field {magnet : Magnet ℝ} {field : FieldMap ℝ} {position : Vec3 ℝ}
    (hfield : magnet.field? = some field)
    (hcentre : magnet.kind = .dipoleQuadrupole →
      ¬ (OrbitFrame.ofCurvature magnet.geometry.curvature).AtCentre position) :
    ContDiffAt ℝ n field position := by
  obtain ⟨kind, rigidity, strengths, geometry, face⟩ := magnet
  cases kind <;> cases hfield
  case none | solenoid | dipole | dipoleFringe => exact contDiffAt_const
  case dipoleQuadrupole => exact FieldMap.contDiffAt_sector _ _ _ (hcentre rfl)
  case quadrupole => exact FieldMap.contDiffAt_quadrupole _ _
  case sextupole | octupole | decapole | multipole => exact Multipole.contDiffAt_field _ _
  case skewQuadrupole => exact FieldMap.contDiffAt_skew (FieldMap.contDiffAt_quadrupole _) _ _
  case skewSextupole | skewOctupole | skewDecapole =>
    exact FieldMap.contDiffAt_skew (Multipole.contDiffAt_field _) _ _

/-! ## Bends -/

namespace Dipole

variable (d : Dipole ℝ)

theorem contDiffAt_gradientField {position : Vec3 ℝ}
    (hcentre : Significant d.gradient → ¬ d.frame.AtCentre position) :
    ContDiffAt ℝ n d.gradientField position := by
  by_cases hgradient : Significant d.gradient
  · have heq : d.gradientField = FieldMap.orbitGradient d.frame d.gradient :=
      funext fun _ => if_pos hgradient
    rw [heq]
    exact d.frame.contDiffAt_orbitGradient d.gradient (hcentre hgradient)
  · have heq : d.gradientField = fun _ => 0 := funext fun _ => if_neg hgradient
    rw [heq]
    exact contDiffAt_const

/-- The state between the half helices of a step, with the length of the step and that of the kick taken
apart. -/
noncomputable def midway (state : State ℝ) (h kick : ℝ) : State ℝ :=
  let first := d.motion.helix state d.fieldVector (0.5 * h)
  ⟨first.position, d.motion.rotate first.momentum (d.gradientField first.position) kick⟩

theorem advance_eq_midway (hgradient : Significant d.gradient) (state : State ℝ) (h : ℝ) :
    d.advance state h = d.motion.helix (d.midway state h h) d.fieldVector (0.5 * h) := if_pos hgradient

theorem length_midway (state : State ℝ) (h kick : ℝ) :
    (d.midway state h kick).momentum.length = state.momentum.length := by
  rw [midway, d.motion.length_rotate, d.motion.length_helix]

theorem midway_start (state : State ℝ) (kick : ℝ) : d.midway state 0 kick =
    ⟨state.position, d.motion.rotate state.momentum (d.gradientField state.position) kick⟩ := by
  rw [midway, mul_zero, d.motion.helix_zero]

theorem midway_of_no_kick (state : State ℝ) (h : ℝ) :
    d.midway state h 0 = d.motion.helix state d.fieldVector (0.5 * h) := by
  rw [midway, d.motion.rotate_zero]

section smooth

variable {state : E → State ℝ} {h kick : E → ℝ} {p : ℝ} (hstate : ContDiffAt ℝ n state e)
  (hh : ContDiffAt ℝ n h e) (hzero : h e = 0) (hp : p ≠ 0) (hlength : ∀ e, (state e).momentum.length = p)
  (hcentre : Significant d.gradient → ¬ d.frame.AtCentre (state e).position)
  (hlimit : (d.gradientField (state e).position).length ≠ Scalar.resolution)

include hstate hh hzero hp hlength hcentre hlimit

/-- At length zero the kick is given where the step starts, and there it is smooth. -/
theorem contDiffAt_midway (hkick : ContDiffAt ℝ n kick e) :
    ContDiffAt ℝ n (fun e => d.midway (state e) (h e) (kick e)) e := by
  have hhalf : ContDiffAt ℝ n (fun e => 0.5 * h e) e := contDiffAt_const.mul hh
  have hfirst := d.motion.contDiffAt_helix d.fieldVector hstate hhalf hp hlength
  have hstart : d.motion.helix (state e) d.fieldVector (0.5 * h e) = state e := by
    rw [hzero, mul_zero, d.motion.helix_zero]
  have hplace := State.contDiff_position.contDiffAt.comp e hfirst
  have hthere : ContDiffAt ℝ n d.gradientField
      (d.motion.helix (state e) d.fieldVector (0.5 * h e)).position := by
    rw [hstart]
    exact d.contDiffAt_gradientField hcentre
  have hmomentum := State.contDiff_momentum.contDiffAt.comp e hfirst
  have hkicked := d.motion.contDiffAt_rotate hmomentum (hthere.comp e hplace) hkick hp ?_ ?_
  · exact State.contDiffAt_mk hplace hkicked
  · intro e
    rw [Function.comp, d.motion.length_helix, hlength]
  · rwa [Function.comp, Function.comp, hstart]

/-- A short step from states of one magnitude of momentum. -/
theorem contDiffAt_advance : ContDiffAt ℝ n (fun e => d.advance (state e) (h e)) e := by
  by_cases hgradient : Significant d.gradient
  · have hmidway := d.contDiffAt_midway hstate hh hzero hp hlength hcentre hlimit hh
    simp only [d.advance_eq_midway hgradient]
    refine d.motion.contDiffAt_helix d.fieldVector hmidway (contDiffAt_const.mul hh) hp fun e => ?_
    rw [d.length_midway, hlength]
  · simp only [advance, if_neg hgradient]
    exact d.motion.contDiffAt_helix d.fieldVector hstate hh hp hlength

end smooth

end Dipole

end BeamTransport
