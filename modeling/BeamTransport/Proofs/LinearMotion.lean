import BeamTransport.Proofs.Neutral

/-!
# The matrix solves the linear equations of motion

The focusing functions are the fundamental solutions of `u'' = source - omega2 u`
(`Focusing.solves_closed`), and every solution is combined from them by its offset and slope at the start
(`Oscillates.eq_focusing`). Each plane of the linear motion along the orbit is such an equation, so where
no phase is left to the series, the matrix leads to the point on the one path that the equations of motion
allow (`DipoleQuadrupole.matrix_step_solves_linear_motion`).
-/

namespace BeamTransport

theorem eq_start_of_hasDerivAt_zero {g : ℝ → ℝ} (hg : ∀ t, HasDerivAt g 0 t) (s : ℝ) : g s = g 0 :=
  is_const_of_deriv_eq_zero (fun t => (hg t).differentiableAt) (fun t => (hg t).deriv) s 0

namespace Focusing

/-! ## Closed forms -/

/-- The solutions in closed form, for phases of any size. -/
noncomputable def closed (omega2 s : ℝ) : Focusing ℝ :=
  if 0 < omega2 then focused omega2 s
  else if omega2 < 0 then defocused omega2 s
  else ⟨1, s, 0.5 * s * s⟩

theorem focused_eq (omega2 s : ℝ) :
    let omega := Real.sqrt omega2
    focused omega2 s =
      ⟨Real.cos (omega * s), Real.sin (omega * s) / omega, (1 - Real.cos (omega * s)) / omega2⟩ := by
  intro omega
  have hdouble := Real.cos_two_mul (0.5 * (omega * s))
  have hsquares := Real.sin_sq (0.5 * (omega * s))
  rw [show 2 * (0.5 * (omega * s)) = omega * s by ring] at hdouble
  have hhalf : 2 * Real.sin (0.5 * (omega * s)) * Real.sin (0.5 * (omega * s)) =
      1 - Real.cos (omega * s) := by
    linear_combination 2 * hsquares + hdouble
  simp only [focused, Scalar.sqrt_real, Scalar.cos_real, Scalar.sin_real]
  rw [← hhalf]

theorem defocused_eq (omega2 s : ℝ) :
    let omega := Real.sqrt (-omega2)
    defocused omega2 s =
      ⟨Real.cosh (omega * s), Real.sinh (omega * s) / omega, (1 - Real.cosh (omega * s)) / omega2⟩ := by
  intro omega
  have hhalf := two_mul_sinh_half_sq (omega * s)
  have hneg : 1 - Real.cosh (omega * s) =
      -2 * Real.sinh (0.5 * (omega * s)) * Real.sinh (0.5 * (omega * s)) := by
    linear_combination hhalf
  simp only [defocused, Scalar.sqrt_real, Scalar.cosh_real, Scalar.sinh_real]
  rw [hneg]

/-- The series takes over only where a phase is short but not zero. -/
theorem after_eq_closed {omega2 s : ℝ}
    (hphase : omega2 * s * s = 0 ∨ seriesThreshold ≤ |omega2 * s * s|) :
    after omega2 s = closed omega2 s := by
  have hthreshold : (0 : ℝ) < seriesThreshold := by norm_num [seriesThreshold]
  rcases hphase with hzero | hlong
  · have hshort : Scalar.abs (omega2 * s * s) < seriesThreshold := by
      rwa [Scalar.abs_real, hzero, abs_zero]
    rw [after, if_pos hshort, series, hzero]
    rcases mul_eq_zero.mp hzero with hfree | rfl
    · rcases mul_eq_zero.mp hfree with rfl | rfl
      · simp [closed]
      · simp [closed, focused_eq, defocused_eq]
    · simp [closed, focused_eq, defocused_eq]
  · have hlong' : ¬ Scalar.abs (omega2 * s * s) < seriesThreshold := not_lt.mpr hlong
    have homega : omega2 ≠ 0 := by
      rintro rfl
      rw [zero_mul, zero_mul, abs_zero] at hlong
      exact absurd hlong (not_le.mpr hthreshold)
    rw [after, if_neg hlong', closed]
    split_ifs with hfocused hdefocused
    · rfl
    · rfl
    · exact absurd (le_antisymm (not_lt.mp hfocused) (not_lt.mp hdefocused)) homega

/-! ## Fundamental solutions -/

/-- Functions of the distance that start and change as the focusing functions have to. -/
structure Solves (omega2 : ℝ) (f : ℝ → Focusing ℝ) : Prop where
  start : f 0 = ⟨1, 0, 0⟩
  cosine : ∀ s, HasDerivAt (fun t => (f t).cosine) (-omega2 * (f s).sine) s
  sine : ∀ s, HasDerivAt (fun t => (f t).sine) (f s).cosine s
  dispersion : ∀ s, HasDerivAt (fun t => (f t).dispersion) (f s).sine s

variable {omega2 : ℝ}

theorem Solves.cosine_add {f : ℝ → Focusing ℝ} (hf : Solves omega2 f) (s : ℝ) :
    (f s).cosine + omega2 * (f s).dispersion = 1 := by
  have hconstant := eq_start_of_hasDerivAt_zero (fun t =>
    ((hf.cosine t).add ((hf.dispersion t).const_mul omega2)).congr_deriv (by ring)) s
  simpa [hf.start] using hconstant

theorem solves_focused (hfocused : 0 < omega2) : Solves omega2 (focused omega2) := by
  have hsquare := Real.mul_self_sqrt hfocused.le
  have hne := (Real.sqrt_pos.mpr hfocused).ne'
  have hne2 := hfocused.ne'
  simp only [funext (focused_eq omega2)]
  set omega := Real.sqrt omega2
  have hangle (s : ℝ) := Motion.hasDerivAt_angle omega s
  refine ⟨by simp, fun s => ?_, fun s => ?_, fun s => ?_⟩
  · refine (hangle s).cos.congr_deriv ?_
    dsimp only
    rw [← hsquare]
    field_simp
  · refine ((hangle s).sin.div_const omega).congr_deriv ?_
    exact mul_div_cancel_right₀ _ hne
  · refine (((hangle s).cos.const_sub 1).div_const omega2).congr_deriv ?_
    dsimp only
    rw [← hsquare]
    field_simp

theorem solves_defocused (hdefocused : omega2 < 0) : Solves omega2 (defocused omega2) := by
  have hpos : 0 < -omega2 := neg_pos.mpr hdefocused
  have hsquare := Real.mul_self_sqrt hpos.le
  have hne := (Real.sqrt_pos.mpr hpos).ne'
  have homega2 : omega2 = -(Real.sqrt (-omega2) * Real.sqrt (-omega2)) := by rw [hsquare, neg_neg]
  simp only [funext (defocused_eq omega2)]
  set omega := Real.sqrt (-omega2)
  have hangle (s : ℝ) := Motion.hasDerivAt_angle omega s
  refine ⟨by simp, fun s => ?_, fun s => ?_, fun s => ?_⟩
  · refine (hangle s).cosh.congr_deriv ?_
    dsimp only
    rw [homega2]
    field_simp
  · refine ((hangle s).sinh.div_const omega).congr_deriv ?_
    exact mul_div_cancel_right₀ _ hne
  · refine (((hangle s).cosh.const_sub 1).div_const omega2).congr_deriv ?_
    dsimp only
    rw [homega2]
    field_simp

theorem solves_free : Solves 0 fun s => ⟨1, s, 0.5 * s * s⟩ := by
  refine ⟨by simp, fun s => ?_, fun s => hasDerivAt_id s, fun s => ?_⟩
  · simpa using hasDerivAt_const s (1 : ℝ)
  · refine (((hasDerivAt_id s).const_mul (0.5 : ℝ)).mul (hasDerivAt_id s)).congr_deriv ?_
    simp only [id]
    ring

theorem solves_closed (omega2 : ℝ) : Solves omega2 (closed omega2) := by
  unfold closed
  split_ifs with hfocused hdefocused
  · exact solves_focused hfocused
  · exact solves_defocused hdefocused
  · obtain rfl : omega2 = 0 := le_antisymm (not_lt.mp hfocused) (not_lt.mp hdefocused)
    exact solves_free

end Focusing

/-! ## Offsets and slopes in one plane -/

/-- An offset and its slope along the orbit follow `u'' = source - omega2 u`. -/
structure Oscillates (omega2 source : ℝ) (u u' : ℝ → ℝ) : Prop where
  offset : ∀ s, HasDerivAt u (u' s) s
  slope : ∀ s, HasDerivAt u' (source - omega2 * u s) s

variable {omega2 source : ℝ} {u u' : ℝ → ℝ} {f : ℝ → Focusing ℝ}

/-- What the focusing functions make of an offset and a slope at the start. -/
theorem Focusing.Solves.oscillates (hf : Focusing.Solves omega2 f) (source x xp : ℝ) :
    Oscillates omega2 source
      (fun s => x * (f s).cosine + xp * (f s).sine + source * (f s).dispersion)
      (fun s => -omega2 * (f s).sine * x + xp * (f s).cosine + source * (f s).sine) := by
  refine ⟨fun s => ?_, fun s => ?_⟩
  · refine ((((hf.cosine s).const_mul x).add ((hf.sine s).const_mul xp)).add
      ((hf.dispersion s).const_mul source)).congr_deriv ?_
    ring
  · refine (((((hf.sine s).const_mul (-omega2)).mul_const x).add ((hf.cosine s).const_mul xp)).add
      ((hf.sine s).const_mul source)).congr_deriv ?_
    linear_combination source * hf.cosine_add s

/-- There is no other motion from an offset and a slope: what the focusing functions make, over the distance
that is left, of the offset and the slope reached does not change on the way. -/
theorem Oscillates.eq_focusing (hu : Oscillates omega2 source u u') (hf : Focusing.Solves omega2 f)
    (s : ℝ) :
    u s = u 0 * (f s).cosine + u' 0 * (f s).sine + source * (f s).dispersion ∧
      u' s = -omega2 * (f s).sine * u 0 + u' 0 * (f s).cosine + source * (f s).sine := by
  have hleft (t : ℝ) : HasDerivAt (fun t => s - t) (-1) t := (hasDerivAt_id t).const_sub s
  have hcosine (t : ℝ) := (hf.cosine (s - t)).comp t (hleft t)
  have hsine (t : ℝ) := (hf.sine (s - t)).comp t (hleft t)
  have hdispersion (t : ℝ) := (hf.dispersion (s - t)).comp t (hleft t)
  constructor
  · have hconstant := eq_start_of_hasDerivAt_zero (fun t =>
      ((((hu.offset t).mul (hcosine t)).add ((hu.slope t).mul (hsine t))).add
        ((hdispersion t).const_mul source)).congr_deriv (by simp only [Function.comp]; ring)) s
    simpa [hf.start] using hconstant
  · have hconstant := eq_start_of_hasDerivAt_zero (fun t =>
      (((((hsine t).const_mul (-omega2)).mul (hu.offset t)).add ((hu.slope t).mul (hcosine t))).add
        ((hsine t).const_mul source)).congr_deriv (by simp only [Function.comp]; ring)) s
    simpa [hf.start] using hconstant

/-! ## The linear motion along the orbit -/

namespace DipoleQuadrupole

/-- Offsets and slopes, as functions of the distance along the orbit from given coordinates on, that follow
the linear equations of motion: with the curvature `k` of the orbit and the design momentum over that of the
particle as `r`,

    x'' = k (1 - r) - (r k1 + (2 r - 1) k ^ 2) x
    y'' = r k1 y
-/
structure LinearMotion (q : DipoleQuadrupole ℝ) (c : OrbitCoords ℝ) (path : ℝ → Transverse ℝ) : Prop where
  start : path 0 = ⟨c.x, c.xp, c.y, c.yp⟩
  x : ∀ s, HasDerivAt (fun t => (path t).x) (path s).xp s
  xp : ∀ s,
    let k := q.frame.curvature
    let r := q.motion.coupling * q.rigidity / c.momentum
    HasDerivAt (fun t => (path t).xp) (k * (1 - r) - (r * q.k1 + (2 * r - 1) * k ^ 2) * (path s).x) s
  y : ∀ s, HasDerivAt (fun t => (path t).y) (path s).yp s
  yp : ∀ s,
    let r := q.motion.coupling * q.rigidity / c.momentum
    HasDerivAt (fun t => (path t).yp) (r * q.k1 * (path s).y) s

variable {q : DipoleQuadrupole ℝ} {c : OrbitCoords ℝ} {path : ℝ → Transverse ℝ}

theorem LinearMotion.horizontal (hpath : q.LinearMotion c path) :
    Oscillates (q.horizontalFocusing c) (q.dispersionSource c) (fun s => (path s).x)
      (fun s => (path s).xp) := by
  refine ⟨hpath.x, fun s => (hpath.xp s).congr_deriv ?_⟩
  simp only [horizontalFocusing, dispersionSource, momentumRatio]
  ring

theorem LinearMotion.vertical (hpath : q.LinearMotion c path) :
    Oscillates (q.verticalFocusing c) 0 (fun s => (path s).y) (fun s => (path s).yp) := by
  refine ⟨hpath.y, fun s => (hpath.yp s).congr_deriv ?_⟩
  simp only [verticalFocusing, momentumRatio]
  ring

variable (q c) in
/-- The transport of coordinates with the focusing functions in closed form. -/
noncomputable def closedTransport (s : ℝ) : Transverse ℝ :=
  let h := Focusing.closed (q.horizontalFocusing c) s
  let v := Focusing.closed (q.verticalFocusing c) s
  { x := c.x * h.cosine + c.xp * h.sine + q.dispersionSource c * h.dispersion
    xp := -q.horizontalFocusing c * h.sine * c.x + c.xp * h.cosine + q.dispersionSource c * h.sine
    y := c.y * v.cosine + c.yp * v.sine
    yp := -q.verticalFocusing c * v.sine * c.y + c.yp * v.cosine }

variable (q c) in
theorem linearMotion_closedTransport : q.LinearMotion c (q.closedTransport c) := by
  have hh := Focusing.solves_closed (q.horizontalFocusing c)
  have hv := Focusing.solves_closed (q.verticalFocusing c)
  have hhorizontal := hh.oscillates (q.dispersionSource c) c.x c.xp
  have hvertical := hv.oscillates 0 c.y c.yp
  simp only [zero_mul, add_zero] at hvertical
  refine ⟨?_, hhorizontal.offset, fun s => (hhorizontal.slope s).congr_deriv ?_, hvertical.offset,
    fun s => (hvertical.slope s).congr_deriv ?_⟩
  · simp only [closedTransport, hh.start, hv.start]
    simp
  · simp only [closedTransport, horizontalFocusing, dispersionSource, momentumRatio]
    ring
  · simp only [closedTransport, verticalFocusing, momentumRatio]
    ring

/-- The linear equations of motion have one solution. -/
theorem LinearMotion.eq_closedTransport (hpath : q.LinearMotion c path) : path = q.closedTransport c := by
  funext s
  obtain ⟨hx, hxp⟩ := hpath.horizontal.eq_focusing (Focusing.solves_closed _) s
  obtain ⟨hy, hyp⟩ := hpath.vertical.eq_focusing (Focusing.solves_closed _) s
  simp only [hpath.start, zero_mul, add_zero] at hx hxp hy hyp
  simp only [closedTransport, ← hx, ← hxp, ← hy, ← hyp]

theorem transport_eq_closed {ds : ℝ}
    (hphase : ∀ omega2 ∈ [q.horizontalFocusing c, q.verticalFocusing c],
      omega2 * ds * ds = 0 ∨ Focusing.seriesThreshold ≤ |omega2 * ds * ds|) :
    q.transport c ds = q.closedTransport c ds := by
  have hh := Focusing.after_eq_closed (hphase (q.horizontalFocusing c) (by simp))
  have hv := Focusing.after_eq_closed (hphase (q.verticalFocusing c) (by simp))
  rw [transport, hh, hv, closedTransport]

/-- A matrix step of a particle that moves forward leads on along the orbit by its distance, to the offsets
and slopes that the linear equations of motion lead to there, and keeps the magnitude of the momentum, where
no phase is so short that the series takes over. The equations have a solution and no other. -/
theorem matrix_step_solves_linear_motion (q : DipoleQuadrupole ℝ) (c : OrbitCoords ℝ)
    (hforward : 0 < c.ps) (h : ℝ)
    (hphase : ∀ omega2 ∈ [q.horizontalFocusing c, q.verticalFocusing c],
      let phase2 := omega2 * q.orbitAdvance c h * q.orbitAdvance c h
      phase2 = 0 ∨ Focusing.seriesThreshold ≤ |phase2|) :
    let ds := q.orbitAdvance c h
    let d := q.matrixStep c h
    ∃ path, q.LinearMotion c path ∧ (∀ other, q.LinearMotion c other → other = path) ∧
      d.s = c.s + ds ∧ ⟨d.x, d.xp, d.y, d.yp⟩ = path ds ∧ d.momentum = c.momentum := by
  intro ds d
  have hmoving := OrbitCoords.momentum_pos_of_forward hforward
  obtain ⟨hxp, hyp⟩ := q.slopes_matrixStep hforward h
  have htransport : q.transport c ds = q.closedTransport c ds := transport_eq_closed hphase
  refine ⟨q.closedTransport c, q.linearMotion_closedTransport c, fun _ hother => hother.eq_closedTransport,
    q.matrixStep_s c h, ?_, OrbitCoords.momentum_ofSlopes _ _ _ hmoving.le⟩
  rw [← htransport]
  simp only [d, hxp, hyp]
  rfl

namespace unfocusedBend

/-- Half the design momentum along the orbit, above its start. -/
noncomputable def above : OrbitCoords ℝ :=
  { x := 0, y := 1, s := 0, px := 0, py := 0, ps := speedOfLight }

theorem focusing_above : unfocusedBend.horizontalFocusing above = 0 ∧
    unfocusedBend.verticalFocusing above = 3 ∧ unfocusedBend.dispersionSource above = -1 := by
  have hmomentum : above.momentum = speedOfLight := by
    simp [OrbitCoords.momentum, above, Real.sqrt_mul_self light_pos.le]
  have htwice : unfocusedBend.momentumRatio above = 2 := by
    rw [momentumRatio, hmomentum, coupling_eq]
    exact mul_div_cancel_left₀ 2 light_pos.ne'
  rw [horizontalFocusing, verticalFocusing, dispersionSource, htwice, k1_eq, curvature_field.1]
  norm_num

/-- Over a unit of path the vertical phase is longer than those that the series serves. -/
theorem phase_above : Focusing.seriesThreshold ≤
    |3 * unfocusedBend.orbitAdvance above 1 * unfocusedBend.orbitAdvance above 1| := by
  obtain ⟨hhorizontal, hvertical, hsource⟩ := focusing_above
  set sine := (Focusing.after (3 : ℝ) 1).sine with hsine
  have hbound : |sine| ≤ 1 := by
    have hlong : ¬ Scalar.abs ((3 : ℝ) * 1 * 1) < Focusing.seriesThreshold := by
      norm_num [Focusing.seriesThreshold]
    have hroot : (1 : ℝ) ≤ Real.sqrt 3 := Real.one_le_sqrt.mpr (by norm_num)
    rw [hsine, Focusing.after, if_neg hlong, if_pos three_pos, Focusing.focused_eq]
    dsimp only
    rw [abs_div, abs_of_pos (zero_lt_one.trans_le hroot)]
    exact div_le_one_of_le₀ ((Real.abs_sin_le_one _).trans hroot) (zero_le_one.trans hroot)
  have hstart : unfocusedBend.stretchAtStart above = 1 := by
    simp [stretchAtStart, stretch, above, OrbitCoords.xp, OrbitCoords.yp]
  have hhalfway : unfocusedBend.stretchHalfway above 1 =
      3 / 4 * Real.sqrt (5 / 4 + 9 / 4 * sine ^ 2) := by
    simp only [stretchHalfway, stretch, halfway, estimate_eq, transport, hstart, hhorizontal, hvertical,
      hsource, curvature_field.1, div_one, ← hsine, Focusing.after_zero]
    norm_num [above, OrbitCoords.xp, OrbitCoords.yp]
    ring_nf
  have hshort : unfocusedBend.stretchHalfway above 1 ≤ 2 := by
    have hroot : Real.sqrt (5 / 4 + 9 / 4 * sine ^ 2) ≤ 2 := by
      refine Real.sqrt_le_iff.mpr ⟨by norm_num, ?_⟩
      have hsquare := (sq_le_one_iff_abs_le_one sine).mpr hbound
      linarith
    rw [hhalfway]
    linarith
  have hpos : 0 < unfocusedBend.stretchHalfway above 1 := by
    rw [hhalfway]
    positivity
  have hadvance : 1 / 2 ≤ unfocusedBend.orbitAdvance above 1 := by
    rw [orbitAdvance_eq]
    exact one_div_le_one_div_of_le hpos hshort
  rw [Focusing.seriesThreshold, abs_of_nonneg (by positivity)]
  nlinarith

end unfocusedBend

/-- In a bend that leaves the particle unfocused across the orbit and draws it down to the orbit. -/
theorem matrix_step_solves_linear_motion_above :
    let q := unfocusedBend
    let c := unfocusedBend.above
    let d := q.matrixStep c 1
    0 < c.ps ∧
      (∀ omega2 ∈ [q.horizontalFocusing c, q.verticalFocusing c],
        let phase2 := omega2 * q.orbitAdvance c 1 * q.orbitAdvance c 1
        phase2 = 0 ∨ Focusing.seriesThreshold ≤ |phase2|) ∧
      ∃ path, q.LinearMotion c path ∧ ⟨d.x, d.xp, d.y, d.yp⟩ = path (q.orbitAdvance c 1) := by
  intro q c d
  have hphase : ∀ omega2 ∈ [q.horizontalFocusing c, q.verticalFocusing c],
      let phase2 := omega2 * q.orbitAdvance c 1 * q.orbitAdvance c 1
      phase2 = 0 ∨ Focusing.seriesThreshold ≤ |phase2| := by
    obtain ⟨hhorizontal, hvertical, -⟩ := unfocusedBend.focusing_above
    rw [hhorizontal, hvertical, List.forall_mem_cons, List.forall_mem_singleton]
    exact ⟨Or.inl (by simp), Or.inr unfocusedBend.phase_above⟩
  have hforward : 0 < c.ps := unfocusedBend.light_pos
  obtain ⟨path, hpath, -, -, hend, -⟩ := matrix_step_solves_linear_motion q c hforward 1 hphase
  exact ⟨hforward, hphase, path, hpath, hend⟩

end DipoleQuadrupole

end BeamTransport
