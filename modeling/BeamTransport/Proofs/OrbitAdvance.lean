import BeamTransport.Proofs.Paraxial
import BeamTransport.Proofs.ReferenceOrbit

/-!
# How far along the orbit a matrix step leads

A matrix step divides the path length by the path that a particle covers for each distance along the
orbit (`DipoleQuadrupole.stretch`), first at the incoming offset and then half way to a first estimate.
The stretch has the sign of the side of the centre of curvature. An incoming particle is never beyond
the centre, but a first estimate may lead there. So a step of an accepted particle divides by nothing
zero and leads forward along the orbit exactly if the particle is not at the centre and the point half
way is on the orbit's side of it; in a straight magnet it always is, and after a short step too
(`DipoleQuadrupole.matrix_step_advances_iff`).
-/

namespace BeamTransport

open Filter Topology

/-! ## The side of the centre -/

namespace OrbitFrame

variable (frame : OrbitFrame ℝ)

/-- On the vertical axis through the centre of curvature. -/
def AtCentre (position : Vec3 ℝ) : Prop :=
  frame.curvature ≠ 0 ∧ position.x = -(1 / frame.curvature) ∧ position.z = 0

variable {frame} in
theorem side_of_bent (hbent : frame.curvature ≠ 0) (position : Vec3 ℝ) :
    1 + frame.curvature * (frame.locate position).x =
      |frame.curvature| * Real.sqrt ((position.x + 1 / frame.curvature) ^ 2 + position.z ^ 2) := by
  -- The offset is a signed radius less the radius of the orbit, with the sign of the curvature.
  rw [locate_of_bent hbent, ← Scalar.sign_mul_self]
  dsimp only
  field_simp
  ring

theorem side_nonneg (position : Vec3 ℝ) : 0 ≤ 1 + frame.curvature * (frame.locate position).x := by
  by_cases hbent : frame.curvature = 0
  · rw [hbent, zero_mul, add_zero]
    exact zero_le_one
  · rw [side_of_bent hbent]
    exact mul_nonneg (abs_nonneg _) (Real.sqrt_nonneg _)

theorem side_eq_zero_iff (position : Vec3 ℝ) :
    1 + frame.curvature * (frame.locate position).x = 0 ↔ frame.AtCentre position := by
  by_cases hbent : frame.curvature = 0
  · simp [AtCentre, hbent]
  · have hsquares : (position.x + 1 / frame.curvature) ^ 2 + position.z ^ 2 = 0 ↔
        position.x = -(1 / frame.curvature) ∧ position.z = 0 := by
      rw [add_eq_zero_iff_of_nonneg (sq_nonneg _) (sq_nonneg _), sq_eq_zero_iff, sq_eq_zero_iff,
        add_eq_zero_iff_eq_neg]
    rw [side_of_bent hbent, mul_eq_zero_iff_left (abs_ne_zero.mpr hbent),
      Real.sqrt_eq_zero (by positivity), hsquares, AtCentre, and_iff_right hbent]

theorem side_pos_iff (position : Vec3 ℝ) :
    0 < 1 + frame.curvature * (frame.locate position).x ↔ ¬ frame.AtCentre position := by
  rw [← frame.side_eq_zero_iff, (frame.side_nonneg position).lt_iff_ne, ne_comm]

variable {frame} in
theorem locate_atCentre {position : Vec3 ℝ} (hat : frame.AtCentre position) :
    frame.locate position = ⟨-(1 / frame.curvature), position.y, 0⟩ := by
  obtain ⟨hbent, hx, hz⟩ := hat
  have harg : Complex.arg ⟨0, 0⟩ = 0 := Complex.arg_zero
  rw [locate_of_bent hbent, hx, hz]
  simp [harg]

variable {frame} in
/-- The directions at the centre are those at the start of the orbit. -/
theorem ofLocal_atCentre {y : State ℝ} (hat : frame.AtCentre y.position) :
    frame.ofLocal y =
      { x := -(1 / frame.curvature), y := y.position.y, s := 0
        px := y.momentum.x, py := y.momentum.y, ps := y.momentum.z } := by
  rw [ofLocal, locate_atCentre hat, normal_eq, tangent_eq]
  simp [Vec3.dot]

end OrbitFrame

/-! ## Short distances -/

namespace Focusing

variable (omega2 : ℝ)

theorem eventually_series : ∀ᶠ s in 𝓝 (0 : ℝ), after omega2 s = series (omega2 * s * s) s := by
  have hphase : Tendsto (fun s : ℝ => |omega2 * s * s|) (𝓝 0) (𝓝 0) :=
    Continuous.tendsto' (by fun_prop) _ _ (by simp)
  have hthreshold : (0 : ℝ) < seriesThreshold := by norm_num [seriesThreshold]
  filter_upwards [hphase.eventually (gt_mem_nhds hthreshold)] with s hs
  exact if_pos hs

/-- Without focusing the particle goes straight on. -/
theorem after_zero (s : ℝ) : after 0 s = ⟨1, s, 0.5 * s * s⟩ := by
  have hshort : Scalar.abs (0 * s * s) < (seriesThreshold : ℝ) := by
    norm_num [seriesThreshold]
  rw [after, if_pos hshort, series]
  simp

variable {omega2} in
theorem tendsto_after {part : Focusing ℝ → ℝ} {limit : ℝ}
    (hseries : Tendsto (fun s : ℝ => part (series (omega2 * s * s) s)) (𝓝 0) (𝓝 limit)) :
    Tendsto (fun s => part (after omega2 s)) (𝓝 0) (𝓝 limit) :=
  hseries.congr' ((eventually_series omega2).mono fun _ hs => congrArg part hs.symm)

theorem tendsto_cosine : Tendsto (fun s => (after omega2 s).cosine) (𝓝 0) (𝓝 1) := by
  refine tendsto_after (Continuous.tendsto' ?_ _ _ (by simp [series]))
  simp only [series]
  fun_prop

theorem tendsto_sine : Tendsto (fun s => (after omega2 s).sine) (𝓝 0) (𝓝 0) := by
  refine tendsto_after (Continuous.tendsto' ?_ _ _ (by simp [series]))
  simp only [series]
  fun_prop

theorem tendsto_dispersion : Tendsto (fun s => (after omega2 s).dispersion) (𝓝 0) (𝓝 0) := by
  refine tendsto_after (Continuous.tendsto' ?_ _ _ (by simp [series]))
  simp only [series]
  fun_prop

variable {omega2} in
theorem frequency_ne_zero {s : ℝ} (hphase : seriesThreshold ≤ |omega2 * s * s|) :
    Real.sqrt |omega2| ≠ 0 := by
  have hthreshold : (0 : ℝ) < seriesThreshold := by norm_num [seriesThreshold]
  have homega : omega2 ≠ 0 := by
    rintro rfl
    rw [zero_mul, zero_mul, abs_zero] at hphase
    exact absurd hphase (not_le.mpr hthreshold)
  exact (Real.sqrt_pos.mpr (abs_pos.mpr homega)).ne'

end Focusing

namespace DipoleQuadrupole

variable (q : DipoleQuadrupole ℝ) (c : OrbitCoords ℝ) (h : ℝ)

/-! ## What a step divides by -/

/-- Path length covered for each distance along the orbit, at a horizontal offset and at slopes. -/
noncomputable def stretch (x xp yp : ℝ) : ℝ :=
  (1 + q.frame.curvature * x) * Real.sqrt (1 + xp * xp + yp * yp)

theorem stretch_pos_iff (x xp yp : ℝ) :
    0 < q.stretch x xp yp ↔ 0 < 1 + q.frame.curvature * x :=
  mul_pos_iff_of_pos_right (OrbitCoords.sqrt_slopes_pos xp yp)

theorem stretch_eq_zero_iff (x xp yp : ℝ) :
    q.stretch x xp yp = 0 ↔ 1 + q.frame.curvature * x = 0 :=
  mul_eq_zero_iff_right (OrbitCoords.sqrt_slopes_pos xp yp).ne'

/-- The mean of the incoming offsets and slopes and those of the first estimate. -/
noncomputable def halfway : Transverse ℝ :=
  let e := q.estimate c h
  ⟨0.5 * (c.x + e.x), 0.5 * (c.xp + e.xp), 0.5 * (c.y + e.y), 0.5 * (c.yp + e.yp)⟩

/-- The stretch at the incoming offset and slopes. -/
noncomputable def stretchAtStart : ℝ := q.stretch c.x c.xp c.yp

/-- The stretch at the mean offset and slopes. -/
noncomputable def stretchHalfway : ℝ :=
  q.stretch (q.halfway c h).x (q.halfway c h).xp (q.halfway c h).yp

theorem estimate_eq : q.estimate c h = q.transport c (h / q.stretchAtStart c) := rfl

theorem orbitAdvance_eq : q.orbitAdvance c h = h / q.stretchHalfway c h := rfl

theorem matrixStep_s : (q.matrixStep c h).s = c.s + q.orbitAdvance c h := rfl

/-- No divisor of a matrix step over a path length is zero. -/
structure Divides : Prop where
  momentum : c.momentum ≠ 0
  tangent : c.ps ≠ 0
  start : q.stretchAtStart c ≠ 0
  halfway : q.stretchHalfway c h ≠ 0
  focusing : ∀ omega2 ∈ [q.horizontalFocusing c, q.verticalFocusing c], ∀ s : ℝ,
    Focusing.seriesThreshold ≤ |omega2 * s * s| → Real.sqrt |omega2| ≠ 0

variable {q c h}

theorem orbitAdvance_pos_iff (hh : 0 < h) :
    0 < q.orbitAdvance c h ↔ 0 < 1 + q.frame.curvature * (q.halfway c h).x := by
  rw [orbitAdvance_eq, div_pos_iff_of_pos_left hh, stretchHalfway, stretch_pos_iff]

/-! ## Short steps -/

variable (q c) in
theorem tendsto_transport_x : Tendsto (fun s => (q.transport c s).x) (𝓝 0) (𝓝 c.x) := by
  have hoffset := (Focusing.tendsto_cosine (q.horizontalFocusing c)).const_mul c.x
  have hslope := (Focusing.tendsto_sine (q.horizontalFocusing c)).const_mul c.xp
  have hsource :=
    (Focusing.tendsto_dispersion (q.horizontalFocusing c)).const_mul (q.dispersionSource c)
  have hsum := (hoffset.add hslope).add hsource
  rw [mul_one, mul_zero, mul_zero, add_zero, add_zero] at hsum
  exact hsum

variable (q c) in
theorem tendsto_halfway_x : Tendsto (fun h => (q.halfway c h).x) (𝓝 0) (𝓝 c.x) := by
  have hdistance : Tendsto (fun h => h / q.stretchAtStart c) (𝓝 0) (𝓝 0) :=
    Continuous.tendsto' (by fun_prop) _ _ (zero_div _)
  have hestimate : Tendsto (fun h => (q.estimate c h).x) (𝓝 0) (𝓝 c.x) :=
    (q.tendsto_transport_x c).comp hdistance
  have hmean := (hestimate.const_add c.x).const_mul 0.5
  rwa [show (0.5 : ℝ) * (c.x + c.x) = c.x by ring] at hmean

/-- A short step from the orbit's side of the centre does not reach the centre half way. -/
theorem exists_short_step (hside : 0 < 1 + q.frame.curvature * c.x) : ∃ longest : ℝ, 0 < longest ∧
    ∀ h, 0 < h → h ≤ longest → 0 < 1 + q.frame.curvature * (q.halfway c h).x := by
  have hlimit := ((q.tendsto_halfway_x c).const_mul q.frame.curvature).const_add 1
  obtain ⟨reach, hreach, hnear⟩ := Metric.eventually_nhds_iff.mp
    (hlimit.eventually (lt_mem_nhds hside))
  refine ⟨reach / 2, half_pos hreach, ?_⟩
  intro h hh hshort
  refine hnear ?_
  rw [Real.dist_eq, sub_zero, abs_of_pos hh]
  linarith

/-! ## A particle of half the design momentum -/

theorem halfway_x_of_unfocused {p s : ℝ} (hfocusing : q.horizontalFocusing (.onOrbit p s) = 0) (h : ℝ) :
    (q.halfway (.onOrbit p s) h).x = q.dispersionSource (.onOrbit p s) * h ^ 2 / 4 := by
  have hstretch : q.stretchAtStart (.onOrbit p s) = 1 := by
    simp [stretchAtStart, stretch]
  simp only [halfway, estimate_eq, hstretch, div_one, transport, hfocusing, Focusing.after_zero,
    OrbitCoords.onOrbit_toOrbitPoint, OrbitCoords.onOrbit_xp]
  ring

theorem isParaxial_of_tangent (hlimit : q.criterion.forwardCosine ≤ 1) (hpx : c.px = 0)
    (hpy : c.py = 0) (hps : 0 < c.ps)
    (hfast : q.minimumRadius * q.criterion.margin
      * (|q.motion.coupling| * (|q.field| + |q.gradient| * c.amplitude)) < c.ps) :
    q.isParaxial c = true := by
  have hmomentum : c.momentum = c.ps := by
    simp [OrbitCoords.momentum, hpx, hpy, Real.sqrt_mul_self hps.le]
  have hcosine : c.forwardCosine = 1 := by
    rw [OrbitCoords.forwardCosine, hmomentum, if_pos hps, div_self hps.ne']
  exact isParaxial_of_fast (hcosine ▸ hlimit) (hmomentum ▸ hfast)

/-- A bend of unit curvature whose gradient takes the horizontal focusing from particles of half the
design momentum. -/
noncomputable def unfocusedBend : DipoleQuadrupole ℝ :=
  .ofMagnet ⟨1⟩ (Strengths.empty.set .k1 (-3 / 2)) (.sector 3 3) 2 .standard

namespace unfocusedBend

/-- Half the design momentum along the beam line, at the start of the orbit. -/
noncomputable def onOrbit : State ℝ := ⟨0, ⟨0, 0, speedOfLight⟩⟩

/-- The same momentum at the centre of curvature. -/
noncomputable def atCentre : State ℝ := ⟨⟨-1, 0, 0⟩, ⟨0, 0, speedOfLight⟩⟩

theorem light_pos : (0 : ℝ) < speedOfLight := by norm_num [speedOfLight]

theorem limit_pos : 0 < unfocusedBend.criterion.forwardCosine := by
  norm_num [unfocusedBend, ofMagnet, Context.standard, ParaxialCriterion.standard]

theorem k1_eq : unfocusedBend.k1 = -3 / 2 := by
  norm_num [unfocusedBend, ofMagnet, Strengths.get_set]

theorem coupling_eq : unfocusedBend.motion.coupling = speedOfLight := mul_one _

theorem curvature_field : unfocusedBend.frame.curvature = 1 ∧ unfocusedBend.field = 2 := by
  have hbent : (BendGeometry.sector 3 3 : BendGeometry ℝ).isBent = true :=
    BendGeometry.isBent_iff.mpr ⟨significant_of_one_le (by norm_num [BendGeometry.sector]),
      significant_of_one_le (by norm_num [BendGeometry.sector])⟩
  have hratio : (BendGeometry.sector 3 3 : BendGeometry ℝ).angle /
      (BendGeometry.sector 3 3 : BendGeometry ℝ).arcLength = 1 := by norm_num [BendGeometry.sector]
  have hturning : Significant ((BendGeometry.sector 3 3 : BendGeometry ℝ).angle /
      (BendGeometry.sector 3 3 : BendGeometry ℝ).arcLength) :=
    significant_of_one_le (by rw [hratio, abs_one])
  refine ⟨(curvature_frame_ofMagnet hbent hturning).trans hratio, ?_⟩
  exact (BendGeometry.field_of_isBent hbent 2).trans (by rw [hratio, mul_one])

theorem not_isAtCentre : ¬ unfocusedBend.frame.AtCentre onOrbit.position := by
  intro hat
  exact absurd hat.2.1 (by norm_num [curvature_field.1, onOrbit])

theorem isAtCentre : unfocusedBend.frame.AtCentre atCentre.position := by
  rw [OrbitFrame.AtCentre, curvature_field.1]
  exact ⟨one_ne_zero, by norm_num [atCentre], rfl⟩

theorem ofLocal_onOrbit_eq :
    ∃ s, unfocusedBend.frame.ofLocal onOrbit = .onOrbit speedOfLight s := by
  refine ⟨unfocusedBend.frame.firstTurn 0, ?_⟩
  have hcurved : unfocusedBend.frame.curvature ≠ 0 := curvature_field.1 ▸ one_ne_zero
  rw [← unfocusedBend.frame.ofLocal_onOrbit hcurved, State.onOrbit_zero, onOrbit]

/-- Within a unit of the orbit, the path of such a particle is not curved too tightly. -/
theorem takesMatrix_of_near {y : State ℝ} (hlocal : unfocusedBend.frame.ofLocal y = c)
    (hpx : c.px = 0) (hpy : c.py = 0) (hps : c.ps = speedOfLight) (hnear : c.amplitude ≤ 1) :
    unfocusedBend.TakesMatrix y := by
  have hstrong : Significant unfocusedBend.k1 := significant_of_one_le (by norm_num [k1_eq])
  refine ⟨hstrong, hlocal ▸ isParaxial_of_tangent ?_ hpx hpy (hps ▸ light_pos) ?_⟩
  · norm_num [unfocusedBend, ofMagnet, Context.standard, ParaxialCriterion.standard]
  · have hradius : unfocusedBend.minimumRadius * unfocusedBend.criterion.margin = 0.05 := by
      norm_num [unfocusedBend, ofMagnet, Context.standard, ParaxialCriterion.standard]
    have hgradient : unfocusedBend.gradient = -3 := by
      norm_num [unfocusedBend, ofMagnet, Strengths.get_set]
    rw [hradius, coupling_eq, curvature_field.2, hgradient, hps, abs_of_pos light_pos, abs_two, abs_neg,
      Nat.abs_ofNat]
    calc 0.05 * (speedOfLight * (2 + 3 * c.amplitude))
        = (0.05 * (2 + 3 * c.amplitude)) * speedOfLight := by ring
      _ < 1 * speedOfLight := mul_lt_mul_of_pos_right (by linarith) light_pos
      _ = speedOfLight := one_mul _

theorem takesMatrix_onOrbit : unfocusedBend.TakesMatrix onOrbit := by
  obtain ⟨s, hstart⟩ := ofLocal_onOrbit_eq
  exact takesMatrix_of_near hstart rfl rfl rfl (by simp [OrbitCoords.amplitude])

theorem takesMatrix_atCentre : unfocusedBend.TakesMatrix atCentre := by
  refine takesMatrix_of_near (OrbitFrame.ofLocal_atCentre isAtCentre) rfl rfl rfl ?_
  norm_num [OrbitCoords.amplitude, curvature_field.1, atCentre]

/-- From the orbit the point half way reaches the centre after a path of two lengths. -/
theorem side_halfway (h : ℝ) : 1 + unfocusedBend.frame.curvature *
    (unfocusedBend.halfway (unfocusedBend.frame.ofLocal onOrbit) h).x = 1 - h ^ 2 / 4 := by
  obtain ⟨s, hstart⟩ := ofLocal_onOrbit_eq
  have htwice : unfocusedBend.momentumRatio (.onOrbit speedOfLight s) = 2 := by
    rw [momentumRatio, OrbitCoords.onOrbit_momentum light_pos.le, coupling_eq]
    exact mul_div_cancel_left₀ 2 light_pos.ne'
  have hfocusing : unfocusedBend.horizontalFocusing (.onOrbit speedOfLight s) = 0 := by
    rw [horizontalFocusing, htwice, k1_eq, curvature_field.1]
    norm_num
  rw [hstart, halfway_x_of_unfocused hfocusing, dispersionSource, htwice, curvature_field.1]
  ring

end unfocusedBend

/-! ## Accepted particles -/

/-- A matrix step of an accepted particle moves by a positive momentum with a positive part along the
orbit, from no further in than the centre of curvature, where only a particle on the axis through it is. It
divides by nothing zero and leads forward along the orbit exactly if the particle is not at the centre and
half way it is on the orbit's side of the centre: always in a straight magnet, and from anywhere but the
centre for every short step. -/
theorem matrix_step_advances_iff (q : DipoleQuadrupole ℝ) (hlimit : 0 < q.criterion.forwardCosine)
    (y : State ℝ) (hmatrix : q.TakesMatrix y) :
    let c := q.frame.ofLocal y
    let side (h : ℝ) := 1 + q.frame.curvature * (q.halfway c h).x
    (0 < c.momentum ∧ 0 < c.ps ∧ 0 ≤ 1 + q.frame.curvature * c.x ∧
        (1 + q.frame.curvature * c.x = 0 ↔ q.frame.AtCentre y.position)) ∧
      (∀ h, 0 < h →
        (q.Divides c h ∧ 0 < q.orbitAdvance c h ∧ c.s < (q.matrixStep c h).s ↔
          ¬ q.frame.AtCentre y.position ∧ 0 < side h)) ∧
      (q.frame.isStraight = true → ¬ q.frame.AtCentre y.position ∧ ∀ h, 0 < side h) ∧
      (¬ q.frame.AtCentre y.position →
        ∃ longest : ℝ, 0 < longest ∧ ∀ h, 0 < h → h ≤ longest → 0 < side h) := by
  intro c side
  obtain ⟨hmoving, hforward⟩ := forward_of_isParaxial hlimit hmatrix.2
  have hcentre : 0 < 1 + q.frame.curvature * c.x ↔ ¬ q.frame.AtCentre y.position :=
    q.frame.side_pos_iff y.position
  refine ⟨⟨hmoving, hforward, q.frame.side_nonneg y.position, q.frame.side_eq_zero_iff y.position⟩,
    ?_, ?_, ?_⟩
  · intro h hh
    constructor
    -- Of the divisors the one at the incoming offset says that the particle is not at the centre.
    · rintro ⟨hdivides, hadvance, -⟩
      refine ⟨?_, (orbitAdvance_pos_iff hh).mp hadvance⟩
      rw [← q.frame.side_eq_zero_iff, ← q.stretch_eq_zero_iff]
      exact hdivides.start
    · rintro ⟨hoff, hside⟩
      have hadvance := (orbitAdvance_pos_iff hh).mpr hside
      refine ⟨⟨hmoving.ne', hforward.ne', ?_, ?_, ?_⟩, hadvance, ?_⟩
      · exact ((q.stretch_pos_iff _ _ _).mpr (hcentre.mpr hoff)).ne'
      · exact ((q.stretch_pos_iff _ _ _).mpr hside).ne'
      · intro omega2 _ s hphase
        exact Focusing.frequency_ne_zero hphase
      · rw [matrixStep_s]
        exact lt_add_of_pos_right _ hadvance
  · intro hstraight
    have hflat := q.frame.isStraight_iff.mp hstraight
    refine ⟨fun hat => hat.1 hflat, fun h => ?_⟩
    simp only [side, hflat, zero_mul, add_zero]
    exact one_pos
  · intro hoff
    exact exists_short_step (hcentre.mpr hoff)

/-- A step of one length leads a particle of half the design momentum on along the orbit. -/
theorem matrix_step_advances_iff_one_length :
    let q := unfocusedBend
    let y := unfocusedBend.onOrbit
    let c := q.frame.ofLocal y
    0 < q.criterion.forwardCosine ∧ q.TakesMatrix y ∧ ¬ q.frame.AtCentre y.position ∧
      q.Divides c 1 ∧ 0 < q.orbitAdvance c 1 ∧ c.s < (q.matrixStep c 1).s := by
  intro q y c
  have hoff := unfocusedBend.not_isAtCentre
  have hone : 0 < 1 + q.frame.curvature * (q.halfway c 1).x := by
    rw [unfocusedBend.side_halfway 1]
    norm_num
  have hsteps := (matrix_step_advances_iff q unfocusedBend.limit_pos y
    unfocusedBend.takesMatrix_onOrbit).2.1
  exact ⟨unfocusedBend.limit_pos, unfocusedBend.takesMatrix_onOrbit, hoff,
    (hsteps 1 one_pos).mpr ⟨hoff, hone⟩⟩

/-- A step of three lengths leads that particle back along the orbit, though it was accepted; and one is
accepted at the centre, where a divisor is zero. -/
theorem accepted_particles_fail_to_advance :
    let q := unfocusedBend
    let c := q.frame.ofLocal unfocusedBend.onOrbit
    let centre := q.frame.ofLocal unfocusedBend.atCentre
    0 < q.criterion.forwardCosine ∧
      (q.TakesMatrix unfocusedBend.onOrbit ∧ q.orbitAdvance c 3 < 0 ∧ (q.matrixStep c 3).s < c.s) ∧
      q.TakesMatrix unfocusedBend.atCentre ∧ 1 + q.frame.curvature * centre.x = 0 := by
  intro q c centre
  have hbeyond : 1 + q.frame.curvature * (q.halfway c 3).x < 0 := by
    rw [unfocusedBend.side_halfway 3]
    norm_num
  have hback : q.orbitAdvance c 3 < 0 := by
    rw [orbitAdvance_eq]
    exact div_neg_of_pos_of_neg three_pos
      (mul_neg_of_neg_of_pos hbeyond (OrbitCoords.sqrt_slopes_pos _ _))
  refine ⟨unfocusedBend.limit_pos, ⟨unfocusedBend.takesMatrix_onOrbit, hback, ?_⟩,
    unfocusedBend.takesMatrix_atCentre, ?_⟩
  · rw [matrixStep_s]
    exact add_lt_of_neg_right _ hback
  · exact (q.frame.side_eq_zero_iff _).mpr unfocusedBend.isAtCentre

end DipoleQuadrupole

end BeamTransport
