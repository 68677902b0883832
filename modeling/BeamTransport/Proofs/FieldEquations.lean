import BeamTransport.Proofs.SkewMultipole
import BeamTransport.Proofs.Smoothness

/-!
# Fields of magnets are free of curl and divergence

A field that is an analytic function across the axis of a magnet has neither curl nor divergence, by the
equations of Cauchy and Riemann (`FieldMap.AcrossAxis`). The power series of a multipole is such a function,
and so is the field of a sector without curvature. About a curved orbit the offset from it changes along the
normal, so that the rate of change of the field is still symmetric and there is no curl; but the normals
diverge, and the field with them (`OrbitFrame.divergence_orbitGradient`). `Magnet.field_equations` says this
of every magnet that has a field.
-/

open Filter Topology

namespace BeamTransport

namespace FieldMap

variable (field : FieldMap ℝ) (position : Vec3 ℝ)

/-- The curl of a field, from its rates of change along the axes. -/
noncomputable def curl : Vec3 ℝ :=
  let dx := fderiv ℝ field position ⟨1, 0, 0⟩
  let dy := fderiv ℝ field position ⟨0, 1, 0⟩
  let dz := fderiv ℝ field position ⟨0, 0, 1⟩
  ⟨dy.z - dz.y, dz.x - dx.z, dx.y - dy.x⟩

/-- The divergence of a field, from its rates of change along the axes. -/
noncomputable def divergence : ℝ :=
  (fderiv ℝ field position ⟨1, 0, 0⟩).x + (fderiv ℝ field position ⟨0, 1, 0⟩).y
    + (fderiv ℝ field position ⟨0, 0, 1⟩).z

variable {field position}

theorem fderiv_of_line {direction rate : Vec3 ℝ} (hfield : DifferentiableAt ℝ field position)
    (hline : HasDerivAt (fun t : ℝ => field (position + t • direction)) rate 0) :
    fderiv ℝ field position direction = rate := by
  have hrate : HasLineDerivAt ℝ field rate position direction := hline
  rw [← hfield.lineDeriv_eq_fderiv, hrate.lineDeriv]

/-! ## Uniform fields -/

theorem fderiv_uniform (b : Vec3 ℝ) : fderiv ℝ (uniform b) position = 0 := fderiv_const_apply b

theorem curl_uniform (b : Vec3 ℝ) : curl (uniform b) position = 0 := by
  rw [curl, fderiv_uniform]
  ext <;> exact sub_self _

theorem divergence_uniform (b : Vec3 ℝ) : divergence (uniform b) position = 0 := by
  rw [divergence, fderiv_uniform]
  simp

/-! ## Analytic fields -/

/-- A field across the axis of the magnet that is an analytic function of the position there. -/
structure AcrossAxis (field : FieldMap ℝ) (series : ℂ → ℂ) : Prop where
  asField (a : Vec3 ℝ) : (field a).asField = series a.asPoint
  along (a : Vec3 ℝ) : (field a).z = 0
  differentiable : Differentiable ℂ series

namespace AcrossAxis

variable {series : ℂ → ℂ} (hseries : AcrossAxis field series) (hfield : DifferentiableAt ℝ field position)

include hseries

theorem hasDerivAt_line (position direction : Vec3 ℝ) :
    HasDerivAt (fun t : ℝ => (field (position + t • direction)).asField)
      (deriv series position.asPoint * direction.asPoint) 0 := by
  have hline : HasDerivAt (fun t : ℝ => position.asPoint + t * direction.asPoint) direction.asPoint 0 := by
    simpa using ((Complex.ofRealCLM.hasDerivAt (x := (0 : ℝ))).mul_const direction.asPoint).const_add
      position.asPoint
  have hpoint (t : ℝ) : (position + t • direction).asPoint = position.asPoint + t * direction.asPoint := by
    apply Complex.ext <;> simp [Vec3.asPoint]
  have hslope : HasDerivAt series (deriv series position.asPoint)
      (position.asPoint + (0 : ℝ) * direction.asPoint) := by
    rw [Complex.ofReal_zero, zero_mul, add_zero]
    exact (hseries.differentiable _).hasDerivAt
  simp only [hseries.asField, hpoint]
  exact hslope.comp 0 hline

include hfield

/-- The field changes along a direction by the complex slope times the direction. -/
theorem fderiv_eq (direction : Vec3 ℝ) :
    let rate := deriv series position.asPoint * direction.asPoint
    fderiv ℝ field position direction = ⟨rate.im, rate.re, 0⟩ := by
  have hline := hseries.hasDerivAt_line position direction
  refine fderiv_of_line hfield (Vec3.hasDeriv_iff.mp ⟨?_, ?_, ?_⟩)
  · exact Complex.imCLM.hasFDerivAt.comp_hasDerivAt 0 hline
  · exact Complex.reCLM.hasFDerivAt.comp_hasDerivAt 0 hline
  · simp only [hseries.along]
    exact hasDerivAt_const _ _

theorem curl_eq_zero : curl field position = 0 := by
  simp only [curl, hseries.fderiv_eq hfield]
  ext <;> simp [Vec3.asPoint]

theorem divergence_eq_zero : divergence field position = 0 := by
  simp only [divergence, hseries.fderiv_eq hfield]
  simp [Vec3.asPoint]

end AcrossAxis

theorem acrossAxis_multipole (m : Multipole ℝ) :
    AcrossAxis m.field fun point => ∑ index, m.term point index where
  asField := m.asField_field
  along _ := rfl
  differentiable := by
    unfold Multipole.term
    fun_prop

/-- The field of a sector about a straight orbit. -/
theorem acrossAxis_sector (base gradient : ℝ) {curvature : ℝ}
    (hstraight : (OrbitFrame.ofCurvature curvature).curvature = 0) :
    AcrossAxis (sector base gradient curvature) fun point => base + gradient * point := by
  have hfield (a : Vec3 ℝ) :
      sector base gradient curvature a = ⟨gradient * a.y, base + gradient * a.x, 0⟩ := by
    rw [sector_eq, OrbitFrame.orbitGradient_of_straight _ gradient hstraight]
    ext <;> simp [dipole, uniform]
  refine ⟨fun a => ?_, fun a => congrArg Vec3.z (hfield a), by fun_prop⟩
  rw [hfield]
  apply Complex.ext <;> simp [Vec3.asField, Vec3.asPoint]

end FieldMap

/-! ## The gradient about a curved orbit -/

namespace OrbitFrame

theorem hasDerivAt_coordinate (a rate : ℝ) : HasDerivAt (fun t : ℝ => a + t * rate) rate 0 := by
  simpa using ((hasDerivAt_id (0 : ℝ)).mul_const rate).const_add a

theorem signedRadius_sq (frame : OrbitFrame ℝ) (position : Vec3 ℝ) : frame.signedRadius position ^ 2 =
    (position.x + 1 / frame.curvature) ^ 2 + position.z ^ 2 := by
  have hsign := Scalar.sign_mul_sign frame.curvature
  rw [signedRadius, mul_pow, Real.sq_sqrt (by positivity), sq, hsign, one_mul]

variable {frame : OrbitFrame ℝ} {position : Vec3 ℝ} (hbent : frame.curvature ≠ 0)
  (hcentre : ¬ frame.AtCentre position)

include hbent hcentre

/-- The distance from the centre changes along the normal. -/
theorem hasDerivAt_signedRadius (direction : Vec3 ℝ) :
    HasDerivAt (fun t : ℝ => frame.signedRadius (position + t • direction))
      (direction.dot (frame.normal (frame.locate position).s)) 0 := by
  have hradius := frame.signedRadius_ne_zero hbent hcentre
  have hsmooth := (frame.contDiffAt_signedRadius (n := 1) hbent hcentre).differentiableAt one_ne_zero
  obtain ⟨rate, hrate⟩ : ∃ rate, HasLineDerivAt ℝ frame.signedRadius rate position direction :=
    ⟨_, hsmooth.hasFDerivAt.hasLineDerivAt direction⟩
  have hx := (hasDerivAt_coordinate position.x direction.x).add_const (1 / frame.curvature)
  have hz := hasDerivAt_coordinate position.z direction.z
  -- The square of the distance changes at a rate that can be read off.
  have hsquare := hrate.fun_pow 2
  simp only [signedRadius_sq] at hsquare
  have hrates := hsquare.unique ((hx.fun_pow 2).fun_add (hz.fun_pow 2))
  simp only [zero_smul, add_zero, zero_mul] at hrates
  have hnormal : rate = direction.dot (frame.normal (frame.locate position).s) := by
    rw [frame.normal_locate hbent hcentre, Vec3.dot_smul, eq_inv_mul_iff_mul_eq₀ hradius, Vec3.dot]
    linear_combination hrates / 2
  exact hnormal ▸ hrate

/-- The normal changes by what of the direction is across it, over the distance from the centre. -/
theorem hasDerivAt_normal (direction : Vec3 ℝ) :
    let normal := frame.normal (frame.locate position).s
    HasDerivAt (fun t : ℝ => frame.normal (frame.locate (position + t • direction)).s)
      ((frame.signedRadius position)⁻¹ •
        ((⟨direction.x, 0, direction.z⟩ : Vec3 ℝ) - direction.dot normal • normal)) 0 := by
  intro normal
  have hradius := frame.signedRadius_ne_zero hbent hcentre
  have harm : HasDerivAt (fun t : ℝ => (⟨position.x + t * direction.x + 1 / frame.curvature, 0,
      position.z + t * direction.z⟩ : Vec3 ℝ)) ⟨direction.x, 0, direction.z⟩ 0 :=
    Vec3.hasDeriv_iff.mp ⟨(hasDerivAt_coordinate position.x direction.x).add_const _, hasDerivAt_const _ _,
      hasDerivAt_coordinate position.z direction.z⟩
  have hstart : position + (0 : ℝ) • direction = position := by rw [zero_smul, add_zero]
  have hline : Continuous fun t : ℝ => position + t • direction := by fun_prop
  have hnear : ∀ᶠ t in 𝓝 (0 : ℝ), ¬ frame.AtCentre (position + t • direction) :=
    hline.tendsto' 0 position hstart |>.eventually (frame.eventually_not_atCentre hcentre)
  have hinverse := (hasDerivAt_signedRadius hbent hcentre direction).fun_inv (by rwa [hstart])
  have hproduct := hinverse.fun_smul harm
  have harmStart : (⟨position.x + 1 / frame.curvature, 0, position.z⟩ : Vec3 ℝ) =
      frame.signedRadius position • normal := by
    rw [show normal = _ from frame.normal_locate hbent hcentre, smul_inv_smul₀ hradius]
  refine (hproduct.congr_of_eventuallyEq ?_).congr_deriv ?_
  · filter_upwards [hnear] with t ht
    exact frame.normal_locate hbent ht
  · have hscale : -direction.dot normal / frame.signedRadius position ^ 2 * frame.signedRadius position =
        -((frame.signedRadius position)⁻¹ * direction.dot normal) := by
      field_simp
    simp only [hstart, zero_mul, add_zero]
    rw [harmStart, smul_smul, hscale, neg_smul, ← sub_eq_add_neg, smul_sub, smul_smul]

/-- The field of a gradient changes as the offsets from the orbit and the normal do. -/
theorem hasDerivAt_orbitGradient (gradient : ℝ) (direction : Vec3 ℝ) :
    let normal := frame.normal (frame.locate position).s
    HasDerivAt (fun t : ℝ => FieldMap.orbitGradient frame gradient (position + t • direction))
      ((⟨0, gradient * direction.dot normal, 0⟩ : Vec3 ℝ) + ((gradient * direction.y) • normal
        + (gradient * position.y) • (frame.signedRadius position)⁻¹ •
          ((⟨direction.x, 0, direction.z⟩ : Vec3 ℝ) - direction.dot normal • normal))) 0 := by
  intro normal
  have hstart : position + (0 : ℝ) • direction = position := by rw [zero_smul, add_zero]
  have hx (a : Vec3 ℝ) : (frame.locate a).x = frame.signedRadius a - 1 / frame.curvature := by
    rw [locate_of_bent hbent]
    rfl
  have hy (a : Vec3 ℝ) : (frame.locate a).y = a.y := by
    rw [locate_of_bent hbent]
  have hvertical : HasDerivAt (fun t : ℝ =>
      (⟨0, gradient * (frame.locate (position + t • direction)).x, 0⟩ : Vec3 ℝ))
      ⟨0, gradient * direction.dot normal, 0⟩ 0 := by
    simp only [hx]
    exact Vec3.hasDeriv_iff.mp ⟨hasDerivAt_const _ _,
      ((hasDerivAt_signedRadius hbent hcentre direction).sub_const _).const_mul gradient,
      hasDerivAt_const _ _⟩
  have hheight : HasDerivAt (fun t : ℝ => gradient * (frame.locate (position + t • direction)).y)
      (gradient * direction.y) 0 := by
    simp only [hy]
    exact (hasDerivAt_coordinate position.y direction.y).const_mul gradient
  have halong := hheight.fun_smul (hasDerivAt_normal hbent hcentre direction)
  refine (hvertical.fun_add halong).congr_deriv ?_
  rw [hstart, hy, add_comm ((gradient * position.y) • _)]

theorem fderiv_orbitGradient (gradient : ℝ) (direction : Vec3 ℝ) :
    let normal := frame.normal (frame.locate position).s
    fderiv ℝ (FieldMap.orbitGradient frame gradient) position direction =
      (⟨0, gradient * direction.dot normal, 0⟩ : Vec3 ℝ) + ((gradient * direction.y) • normal
        + (gradient * position.y) • (frame.signedRadius position)⁻¹ •
          ((⟨direction.x, 0, direction.z⟩ : Vec3 ℝ) - direction.dot normal • normal)) := by
  have hsmooth := frame.contDiffAt_orbitGradient (n := 1) gradient hcentre
  exact FieldMap.fderiv_of_line (hsmooth.differentiableAt one_ne_zero)
    (hasDerivAt_orbitGradient hbent hcentre gradient direction)

theorem curl_orbitGradient (gradient : ℝ) :
    FieldMap.curl (FieldMap.orbitGradient frame gradient) position = 0 := by
  rw [FieldMap.curl]
  simp only [fderiv_orbitGradient hbent hcentre, normal_eq]
  ext
  · simp [Vec3.dot]
  · simp [Vec3.dot]
    ring
  · simp [Vec3.dot]

/-- The normals of a curved orbit diverge, and with them the field off the plane of the orbit. -/
theorem divergence_orbitGradient (gradient : ℝ) :
    FieldMap.divergence (FieldMap.orbitGradient frame gradient) position =
      gradient * position.y / frame.signedRadius position := by
  have hsq := Real.cos_sq_add_sin_sq (frame.curvature * (frame.locate position).s)
  rw [FieldMap.divergence]
  simp only [fderiv_orbitGradient hbent hcentre, normal_eq]
  simp [Vec3.dot]
  linear_combination -(gradient * position.y / frame.signedRadius position) * hsq

end OrbitFrame

namespace FieldMap

variable {base gradient curvature : ℝ} {position : Vec3 ℝ}

theorem fderiv_sector : fderiv ℝ (sector base gradient curvature) position =
    fderiv ℝ (orbitGradient (.ofCurvature curvature) gradient) position := by
  rw [funext (sector_eq base gradient curvature)]
  exact fderiv_const_add (⟨0, base, 0⟩ : Vec3 ℝ)

theorem curl_sector_of_bent (hbent : (OrbitFrame.ofCurvature curvature).curvature ≠ 0)
    (hcentre : ¬ (OrbitFrame.ofCurvature curvature).AtCentre position) :
    curl (sector base gradient curvature) position = 0 := by
  rw [← OrbitFrame.curl_orbitGradient hbent hcentre gradient, curl, curl, fderiv_sector]

theorem divergence_sector_of_bent (hbent : (OrbitFrame.ofCurvature curvature).curvature ≠ 0)
    (hcentre : ¬ (OrbitFrame.ofCurvature curvature).AtCentre position) :
    divergence (sector base gradient curvature) position =
      gradient * position.y / (OrbitFrame.ofCurvature curvature).signedRadius position := by
  rw [← OrbitFrame.divergence_orbitGradient hbent hcentre gradient, divergence, divergence, fderiv_sector]

end FieldMap

/-! ## The fields of magnets -/

namespace Magnet

variable {magnet : Magnet ℝ} {field : FieldMap ℝ}

theorem field?_of_field (hfield : magnet.field = .ok field) : magnet.field? = some field := by
  rw [Magnet.field] at hfield
  cases hmap : magnet.field? with
  | none =>
    rw [hmap] at hfield
    cases hfield
  | some map =>
    rw [hmap] at hfield
    rw [Except.ok.inj hfield]

/-- The field of a bend with a gradient is that of a sector; the other kinds have a uniform field or that
of a multipole. -/
theorem sector_or_uniform_or_multipole (hfield : magnet.field? = some field) :
    magnet.kind = .dipoleQuadrupole ∧
        field = .sector (magnet.geometry.field magnet.rigidity) (magnet.coefficient 1)
          magnet.geometry.curvature ∨
      magnet.kind ≠ .dipoleQuadrupole ∧
        ((∃ b, field = .uniform b) ∨ ∃ m : Multipole ℝ, field = m.field) := by
  obtain ⟨kind, rigidity, strengths, geometry, face⟩ := magnet
  cases kind <;> cases hfield
  case none | solenoid | dipole | dipoleFringe => exact Or.inr ⟨nofun, Or.inl ⟨_, rfl⟩⟩
  case dipoleQuadrupole => exact Or.inl ⟨rfl, rfl⟩
  case quadrupole => exact Or.inr ⟨nofun, Or.inr ⟨_, FieldMap.quadrupole_eq_single _⟩⟩
  case sextupole | octupole | decapole | multipole => exact Or.inr ⟨nofun, Or.inr ⟨_, rfl⟩⟩
  case skewQuadrupole =>
    rw [FieldMap.quadrupole_eq_single]
    exact Or.inr ⟨nofun, Or.inr ⟨_, Multipole.skew_field _ _⟩⟩
  case skewSextupole | skewOctupole | skewDecapole =>
    exact Or.inr ⟨nofun, Or.inr ⟨_, Multipole.skew_field _ _⟩⟩

/-- The field of every magnet that has one is differentiable and free of curl, for a bend with a gradient
off the vertical axis through the centre of its orbit. It is also free of divergence, unless it is that of a
bend with a gradient about a curved orbit; this diverges by the gradient times the height, over the signed
distance from the centre. -/
theorem field_equations (hfield : magnet.field = .ok field) (position : Vec3 ℝ)
    (hcentre : magnet.kind = .dipoleQuadrupole →
      ¬ (OrbitFrame.ofCurvature magnet.geometry.curvature).AtCentre position) :
    let frame := OrbitFrame.ofCurvature magnet.geometry.curvature
    DifferentiableAt ℝ field position ∧ FieldMap.curl field position = 0 ∧
      ((magnet.kind = .dipoleQuadrupole → frame.curvature = 0) →
        FieldMap.divergence field position = 0) ∧
      (magnet.kind = .dipoleQuadrupole → frame.curvature ≠ 0 →
        FieldMap.divergence field position =
          magnet.coefficient 1 * position.y / frame.signedRadius position) := by
  have hmap := field?_of_field hfield
  have hsmooth : DifferentiableAt ℝ field position :=
    (contDiffAt_field (n := 1) hmap hcentre).differentiableAt one_ne_zero
  intro frame
  refine ⟨hsmooth, ?_⟩
  rcases sector_or_uniform_or_multipole hmap with ⟨hkind, rfl⟩ | ⟨hkind, ⟨b, rfl⟩ | ⟨m, rfl⟩⟩
  · by_cases hstraight : frame.curvature = 0
    · have hacross := FieldMap.acrossAxis_sector (magnet.geometry.field magnet.rigidity)
        (magnet.coefficient 1) hstraight
      exact ⟨hacross.curl_eq_zero hsmooth, fun _ => hacross.divergence_eq_zero hsmooth,
        fun _ hbent => absurd hstraight hbent⟩
    · exact ⟨FieldMap.curl_sector_of_bent hstraight (hcentre hkind),
        fun hzero => absurd (hzero hkind) hstraight,
        fun _ _ => FieldMap.divergence_sector_of_bent hstraight (hcentre hkind)⟩
  · exact ⟨FieldMap.curl_uniform b, fun _ => FieldMap.divergence_uniform b,
      fun hsector => absurd hsector hkind⟩
  · have hacross := FieldMap.acrossAxis_multipole m
    exact ⟨hacross.curl_eq_zero hsmooth, fun _ => hacross.divergence_eq_zero hsmooth,
      fun hsector => absurd hsector hkind⟩

/-- A bend of negative curvature with a gradient, above its orbit, where the field diverges but has no curl;
and a multipole with all its strengths. -/
theorem field_equations_above :
    let bend : Magnet ℝ :=
      ⟨.dipoleQuadrupole, 3, Strengths.empty.set .k1 5, .sector 2 (-2), .entrance⟩
    let multipole : Magnet ℝ := ⟨.multipole, -2, ⟨fun _ => some 1⟩, .sector 2 (-2), .exit⟩
    let frame : OrbitFrame ℝ := OrbitFrame.ofCurvature bend.geometry.curvature
    let position : Vec3 ℝ := ⟨0, 1, 1⟩
    (¬ frame.AtCentre position ∧ ∃ field, bend.field = .ok field ∧
        FieldMap.curl field position = 0 ∧ FieldMap.divergence field position ≠ 0) ∧
      ∃ field, multipole.field = .ok field ∧
        FieldMap.curl field position = 0 ∧ FieldMap.divergence field position = 0 := by
  intro bend multipole frame position
  have hcurvature : frame.curvature = -1 := by
    have hbent : bend.geometry.isBent = true := BendGeometry.isBent_iff.mpr
      ⟨significant_of_one_le (by norm_num [bend, BendGeometry.sector]),
        significant_of_one_le (by norm_num [bend, BendGeometry.sector])⟩
    have hratio : bend.geometry.angle / bend.geometry.arcLength = -1 := by
      norm_num [bend, BendGeometry.sector]
    exact (curvature_frame_ofMagnet hbent (hratio ▸ significant_of_one_le (by norm_num))).trans hratio
  have hbent : frame.curvature ≠ 0 := by norm_num [hcurvature]
  have hcentre : ¬ frame.AtCentre position := fun hat => one_ne_zero hat.2.2
  have hradius := frame.signedRadius_ne_zero hbent hcentre
  have hkind : multipole.kind ≠ .dipoleQuadrupole := by simp [multipole]
  obtain ⟨-, hcurl, -, hdivergence⟩ :=
    field_equations (show bend.field = .ok _ from rfl) position fun _ => hcentre
  obtain ⟨-, hcurlFree, hfree, -⟩ :=
    field_equations (show multipole.field = .ok _ from rfl) position fun hsector => absurd hsector hkind
  refine ⟨⟨hcentre, _, rfl, hcurl, ?_⟩, _, rfl, hcurlFree, hfree fun hsector => absurd hsector hkind⟩
  rw [hdivergence rfl hbent]
  refine div_ne_zero ?_ hradius
  norm_num [coefficient, StrengthKey.normal?, StrengthKey.k1, Strengths.get_set, bend, position]

end Magnet

end BeamTransport
