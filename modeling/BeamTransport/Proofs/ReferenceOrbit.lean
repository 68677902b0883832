import BeamTransport.Proofs.Geometry
import BeamTransport.Proofs.Momentum

/-!
# The reference particle stays on the reference orbit

A bend guides the particles of one momentum along its orbit (`Dipole.Guides`): there the helix has
the curvature of the orbit, and the gradient, the edge kick and the dispersion all vanish. So every
step of a bend, of an edge and of a matrix moves such a particle along the orbit by the length of
the step, and `reference_particle_stays_on_orbit` follows by induction over a run.
-/

namespace BeamTransport

/-- The state of a particle of momentum `p` on the orbit of curvature `c`, after a distance. -/
noncomputable def State.onOrbit (c p s : ℝ) : State ℝ :=
  ⟨⟨(Real.cos (c * s) - 1) / c, 0, Real.sin (c * s) / c⟩,
    p • (⟨-Real.sin (c * s), 0, Real.cos (c * s)⟩ : Vec3 ℝ)⟩

namespace OrbitCoords

/-- The orbit coordinates of a particle of momentum `p` on the orbit, after a distance. -/
noncomputable def onOrbit (p s : ℝ) : OrbitCoords ℝ :=
  { x := 0, y := 0, s, px := 0, py := 0, ps := p }

variable (p s : ℝ)

@[simp] theorem onOrbit_toOrbitPoint : (onOrbit p s).toOrbitPoint = ⟨0, 0, s⟩ := rfl

@[simp] theorem onOrbit_ps : (onOrbit p s).ps = p := rfl

@[simp] theorem onOrbit_xp : (onOrbit p s).xp = 0 := zero_div p

@[simp] theorem onOrbit_yp : (onOrbit p s).yp = 0 := zero_div p

theorem onOrbit_momentum {p : ℝ} (hp : 0 ≤ p) (s : ℝ) : (onOrbit p s).momentum = p := by
  rw [momentum, onOrbit, mul_zero, zero_add, zero_add]
  exact Real.sqrt_mul_self hp

theorem ofSlopes_zero (p s : ℝ) : ofSlopes ⟨0, 0, s⟩ 0 0 p = onOrbit p s := by
  simp [ofSlopes, onOrbit]

end OrbitCoords

namespace OrbitFrame

variable (frame : OrbitFrame ℝ) {p : ℝ}

theorem onOrbit_momentum (s : ℝ) :
    (State.onOrbit frame.curvature p s).momentum = p • frame.tangent s := rfl

theorem tangent_dot_self (s : ℝ) : (frame.tangent s).dot (frame.tangent s) = 1 := by
  rw [tangent_eq, Vec3.dot]
  linear_combination Real.sin_sq_add_cos_sq (frame.curvature * s)

theorem length_onOrbit_momentum (hp : 0 ≤ p) (s : ℝ) :
    (State.onOrbit frame.curvature p s).momentum.length = p := by
  refine Vec3.length_of_dot_self hp ?_
  rw [onOrbit_momentum, Vec3.smul_dot, Vec3.dot_smul, tangent_dot_self, mul_one]

theorem onOrbit_momentum_ne_zero (hp : 0 < p) (s : ℝ) :
    (State.onOrbit frame.curvature p s).momentum ≠ 0 := by
  rw [← Vec3.length_pos_iff, frame.length_onOrbit_momentum hp.le]
  exact hp

theorem onOrbit_eq_toLocal (hbent : frame.curvature ≠ 0) (s : ℝ) :
    State.onOrbit frame.curvature p s =
      frame.toLocal (OrbitCoords.onOrbit p s) := by
  refine State.ext ?_ ?_
  · rw [toLocal_position_of_bent hbent, State.onOrbit, OrbitCoords.onOrbit, normal_eq]
    ext <;> simp <;> ring
  · rw [onOrbit_momentum, toLocal_momentum, OrbitCoords.onOrbit, tangent_eq]
    ext <;> simp

theorem ofLocal_onOrbit (hbent : frame.curvature ≠ 0) (s : ℝ) :
    frame.ofLocal (State.onOrbit frame.curvature p s) =
      OrbitCoords.onOrbit p (frame.firstTurn s) := by
  rw [frame.onOrbit_eq_toLocal hbent, ofLocal_toLocal]
  · rfl
  · rw [OrbitCoords.onOrbit_toOrbitPoint, mul_zero, add_zero]
    exact one_pos

/-- Counting the distance from the first turn leads to the same states. -/
theorem onOrbit_firstTurn_add (s h : ℝ) :
    State.onOrbit frame.curvature p (frame.firstTurn s + h) =
      State.onOrbit frame.curvature p (s + h) := by
  obtain ⟨hcos, hsin⟩ := frame.cos_sin_firstTurn s
  simp only [State.onOrbit, mul_add, Real.cos_add, Real.sin_add, hcos, hsin]

/-! ## The helix along the orbit -/

variable {sigma : ℝ}

theorem along_vertical (s : ℝ) : (frame.tangent s).along ⟨0, sigma, 0⟩ = 0 := by
  have hdot : (frame.tangent s).dot ⟨0, sigma, 0⟩ = 0 := by
    rw [tangent_eq, Vec3.dot]
    ring
  rw [Vec3.along, hdot, zero_smul]

theorem across_vertical (s : ℝ) : (frame.tangent s).across ⟨0, sigma, 0⟩ = frame.tangent s := by
  rw [Vec3.across, along_vertical, sub_zero]

theorem tangent_cross_vertical (s : ℝ) :
    (frame.tangent s).cross ⟨0, sigma, 0⟩ = -sigma • frame.normal s := by
  rw [tangent_eq, normal_eq]
  ext <;> simp [Vec3.cross]
  ring

/-- A field of either sign turns the tangent along the orbit when it turns it by the angle of the
orbit, counted with the sign of the field. -/
theorem turn_tangent (hsigma : sigma = 1 ∨ sigma = -1) (s h : ℝ) :
    (frame.tangent s).turn ⟨0, sigma, 0⟩ (sigma * frame.curvature * h) = frame.tangent (s + h) := by
  rw [Vec3.turn_eq, along_vertical, Vec3.turnAcross_eq, across_vertical, tangent_cross_vertical,
    tangent_eq, tangent_eq, normal_eq, mul_add, Real.sin_add, Real.cos_add]
  rcases hsigma with rfl | rfl
  · ext <;> simp <;> ring
  · ext <;> simp <;> ring

/-- The chords of such a turn lead along the orbit. -/
theorem chord_tangent (hsigma : sigma = 1 ∨ sigma = -1)
    (hkappa : Significant (sigma * frame.curvature)) (s h : ℝ) :
    (State.onOrbit frame.curvature p s).position
        + Motion.chord (sigma * frame.curvature) h •
          (frame.tangent s).turnAcross ⟨0, sigma, 0⟩ (0.5 * (sigma * frame.curvature * h)) =
      (State.onOrbit frame.curvature p (s + h)).position := by
  rw [Motion.chord_smul_turnAcross, Motion.chord_mul_cos hkappa, Motion.chord_mul_sin hkappa,
    across_vertical, tangent_cross_vertical, tangent_eq, normal_eq, State.onOrbit, State.onOrbit,
    mul_add, Real.sin_add, Real.cos_add]
  rcases hsigma with rfl | rfl
  · ext <;> simp <;> ring
  · ext <;> simp <;> ring

end OrbitFrame

/-! ## Bends that guide a momentum -/

/-- A bend guides the particles of momentum `p` along the orbit of its frame: both its field and its
orbit are significantly curved, and the force of the field is what the orbit takes to turn `p`. -/
structure Dipole.Guides (d : Dipole ℝ) (p : ℝ) : Prop where
  momentum_pos : 0 < p
  field : Significant d.field
  curvature : Significant d.frame.curvature
  balance : d.motion.coupling * d.field = p * d.frame.curvature

namespace Dipole

variable {d : Dipole ℝ} {p : ℝ}

theorem exists_sign (hfield : d.field ≠ 0) : ∃ sigma : ℝ, (sigma = 1 ∨ sigma = -1) ∧
    d.fieldVector / d.fieldVector.length = ⟨0, sigma, 0⟩ ∧ |d.field| = sigma * d.field := by
  have habs := abs_pos.mpr hfield
  rw [length_fieldVector]
  rcases lt_or_gt_of_ne hfield with hneg | hpos
  · refine ⟨-1, Or.inr rfl, ?_, by rw [abs_of_neg hneg]; ring⟩
    rw [abs_of_neg hneg, fieldVector]
    ext <;> simp [hfield, div_neg]
  · refine ⟨1, Or.inl rfl, ?_, by rw [abs_of_pos hpos, one_mul]⟩
    rw [abs_of_pos hpos, fieldVector]
    ext <;> simp [hfield]

theorem helix_onOrbit (hd : d.Guides p) (s h : ℝ) :
    d.motion.helix (State.onOrbit d.frame.curvature p s) d.fieldVector h =
      State.onOrbit d.frame.curvature p (s + h) := by
  obtain ⟨hp, hfield, hcurvature, hbalance⟩ := hd
  -- The axis is that of the field, up or down: its sign passes to the curvature of the helix, and
  -- the turn about it is the turn of the orbit again.
  obtain ⟨sigma, hsigma, haxis, habs⟩ := exists_sign hfield.ne_zero
  have hlength := d.frame.length_onOrbit_momentum hp.le s
  have hmoving := d.frame.onOrbit_momentum_ne_zero hp s
  have hbending : Significant d.fieldVector.length := by
    rw [length_fieldVector]
    exact (significant_congr (abs_abs d.field)).mpr hfield
  have hkappa : d.motion.curvature d.fieldVector.length p = sigma * d.frame.curvature := by
    rw [Motion.curvature, length_fieldVector, habs, div_eq_iff hp.ne']
    linear_combination sigma * hbalance
  have hsignificant : Significant (sigma * d.frame.curvature) := by
    refine (significant_congr ?_).mpr hcurvature
    rcases hsigma with rfl | rfl <;> simp
  have hdirection : (State.onOrbit d.frame.curvature p s).momentum / p = d.frame.tangent s := by
    rw [d.frame.onOrbit_momentum, Vec3.div_eq_smul, smul_smul, inv_mul_cancel₀ hp.ne', one_smul]
  rw [d.motion.helix_of_moving hbending hmoving, hlength, hkappa, haxis, hdirection]
  refine State.ext ?_ ?_
  · dsimp only
    rw [d.frame.along_vertical, smul_zero, add_zero]
    exact d.frame.chord_tangent hsigma hsignificant s h
  · dsimp only
    rw [d.frame.turn_tangent hsigma, d.frame.onOrbit_momentum]

theorem gradientField_onOrbit (hbent : d.frame.curvature ≠ 0) (s : ℝ) :
    d.gradientField (State.onOrbit d.frame.curvature p s).position = 0 := by
  have hpoint := congrArg OrbitCoords.toOrbitPoint (d.frame.ofLocal_onOrbit (p := p) hbent s)
  have hlocate : d.frame.locate (State.onOrbit d.frame.curvature p s).position =
      ⟨0, 0, d.frame.firstTurn s⟩ := hpoint
  unfold gradientField
  split_ifs
  · rw [FieldMap.orbitGradient, hlocate]
    simp only [mul_zero, zero_smul, add_zero]
    rfl
  · rfl

theorem advance_onOrbit (hd : d.Guides p) (s h : ℝ) :
    d.advance (State.onOrbit d.frame.curvature p s) h =
      State.onOrbit d.frame.curvature p (s + h) := by
  unfold advance
  split_ifs
  · have hmiddle := gradientField_onOrbit (d := d) (p := p) hd.curvature.ne_zero (s + 0.5 * h)
    have hstill : ¬ (Significant (0 : Vec3 ℝ).length ∧
        (State.onOrbit d.frame.curvature p (s + 0.5 * h)).momentum ≠ 0) := by
      rw [Vec3.length_zero]
      exact fun hmoving => not_significant_zero hmoving.1
    have hhalves : s + 0.5 * h + 0.5 * h = s + h := by ring
    simp only [helix_onOrbit hd, hmiddle, d.motion.rotate_of_not_moving hstill, hhalves]
  · exact helix_onOrbit hd s h

theorem step_onOrbit (hd : d.Guides p) (s h : ℝ) :
    (d.step (State.onOrbit d.frame.curvature p s) h).out =
      State.onOrbit d.frame.curvature p (s + h) := by
  have hzero : ¬ d.isZero = true := by
    simp [isZero, hd.field]
  have hhalves : s + 0.5 * h + 0.5 * h = s + h := by ring
  rw [step, if_neg hzero, Step.comparing, advance_onOrbit hd, advance_onOrbit hd, hhalves]

end Dipole

/-! ## Edges and matrices -/

/-- On the orbit there is nothing for an edge to kick. -/
theorem DipoleFringe.kick_onOrbit {edge : DipoleFringe ℝ} {p : ℝ} (hd : edge.body.Guides p)
    (s h : ℝ) :
    edge.kick (State.onOrbit edge.body.frame.curvature p s) h =
      State.onOrbit edge.body.frame.curvature p s := by
  have hbent := hd.curvature.ne_zero
  have hlocal := edge.body.frame.ofLocal_onOrbit (p := p) hbent s
  have hlength := edge.body.frame.length_onOrbit_momentum hd.momentum_pos.le s
  have hmoving := edge.body.frame.onOrbit_momentum_ne_zero hd.momentum_pos s
  have hforward :
      0 < (edge.body.frame.ofLocal (State.onOrbit edge.body.frame.curvature p s)).ps := by
    rw [hlocal]
    exact hd.momentum_pos
  have hkicked (fraction : ℝ) :
      edge.kicked (edge.body.frame.ofLocal (State.onOrbit edge.body.frame.curvature p s)) p fraction =
        edge.body.frame.ofLocal (State.onOrbit edge.body.frame.curvature p s) := by
    rw [hlocal]
    simp [kicked, OrbitCoords.ofSlopes_zero]
  rw [edge.kick_of_forward _ h hmoving hforward, hlength, hkicked, OrbitFrame.toLocal_ofLocal]

theorem DipoleFringe.step_onOrbit {edge : DipoleFringe ℝ} {p : ℝ} (hd : edge.body.Guides p)
    (s h : ℝ) :
    (edge.step (State.onOrbit edge.body.frame.curvature p s) h).out =
      State.onOrbit edge.body.frame.curvature p (s + h) := by
  rw [edge.step_of_significant _ h hd.field, kick_onOrbit hd, Dipole.step_onOrbit hd]

namespace DipoleQuadrupole

variable {q : DipoleQuadrupole ℝ} {p : ℝ}

theorem matrixStep_onOrbit (hp : 0 < p) (hratio : q.motion.coupling * q.rigidity = p) (s h : ℝ) :
    q.matrixStep (.onOrbit p s) h = .onOrbit p (s + h) := by
  have hmomentum := OrbitCoords.onOrbit_momentum hp.le s
  have hone : q.momentumRatio (.onOrbit p s) = 1 := by
    rw [momentumRatio, hratio, hmomentum, div_self hp.ne']
  have htransport (ds : ℝ) : q.transport (.onOrbit p s) ds = ⟨0, 0, 0, 0⟩ := by
    simp [transport, dispersionSource, hone]
  have hadvance : q.orbitAdvance (.onOrbit p s) h = h := by
    simp [orbitAdvance, estimate, projected, htransport]
  rw [matrixStep, hadvance, htransport, hmomentum]
  exact OrbitCoords.ofSlopes_zero p (s + h)

/-- A step of a guided particle whose momentum is the design momentum, where the matrix accepts
particles on the orbit. -/
theorem step_onOrbit (hd : q.bend.Guides p) (hframe : q.bend.frame = q.frame)
    (hratio : q.motion.coupling * q.rigidity = p)
    (hparaxial : ∀ s, q.isParaxial (.onOrbit p s) = true) (dydx : State ℝ) (s h : ℝ) :
    (q.step (State.onOrbit q.frame.curvature p s) dydx h).out =
      State.onOrbit q.frame.curvature p (s + h) := by
  have hbent : q.frame.curvature ≠ 0 := hframe ▸ hd.curvature.ne_zero
  rw [step]
  by_cases hk1 : Significant q.k1
  -- The matrix starts from the first turn, which leads to the same states as the whole distance.
  · rw [if_neg (not_not.mpr hk1), q.frame.ofLocal_onOrbit hbent, if_pos (hparaxial _), Step.exact,
      matrixStep_onOrbit hd.momentum_pos hratio, ← q.frame.onOrbit_eq_toLocal hbent,
      q.frame.onOrbit_firstTurn_add]
  · rw [if_pos hk1, ← hframe, Dipole.step_onOrbit hd]

end DipoleQuadrupole

/-! ## Bends of a geometry -/

section geometry

variable {motion : Motion ℝ} {g : BendGeometry ℝ} {rigidity : ℝ}
  (hbent : g.isBent = true) (hcurvature : Significant (g.angle / g.arcLength))
  (hmomentum : 0 < motion.coupling * rigidity)
  (hfield : Significant (rigidity * (g.angle / g.arcLength)))

include hbent hcurvature

theorem curvature_frame_ofMagnet :
    (OrbitFrame.ofCurvature g.curvature).curvature = g.angle / g.arcLength := by
  rw [BendGeometry.curvature_of_isBent hbent, OrbitFrame.curvature_ofCurvature hcurvature]

include hmomentum

/-- The path of a design particle on the orbit has the radius of the orbit. -/
theorem DipoleQuadrupole.isParaxial_onOrbit (strengths : Strengths ℝ) (context : Context ℝ) (s : ℝ) :
    (DipoleQuadrupole.ofMagnet motion strengths g rigidity context).isParaxial
        (.onOrbit (motion.coupling * rigidity) s) =
      context.criterion.accepts 1 (some (1 / |g.angle / g.arcLength|)) context.minimumRadius := by
  set q := DipoleQuadrupole.ofMagnet motion strengths g rigidity context with hq
  have hp := OrbitCoords.onOrbit_momentum hmomentum.le s
  have hcosine : (OrbitCoords.onOrbit (motion.coupling * rigidity) s).forwardCosine = 1 := by
    rw [OrbitCoords.forwardCosine, hp, if_pos hmomentum, OrbitCoords.onOrbit_ps,
      div_self hmomentum.ne']
  have hbending : |motion.coupling| * (|q.field| + |q.gradient|
      * (OrbitCoords.onOrbit (motion.coupling * rigidity) s).amplitude) =
        motion.coupling * rigidity * |g.angle / g.arcLength| := by
    have hstrength : q.field = rigidity * (g.angle / g.arcLength) :=
      BendGeometry.field_of_isBent hbent rigidity
    rw [hstrength, abs_mul, ← abs_of_pos hmomentum, abs_mul]
    simp [OrbitCoords.amplitude]
    ring
  have hradius : q.radiusOfCurvature (.onOrbit (motion.coupling * rigidity) s) =
      some (1 / |g.angle / g.arcLength|) := by
    have hpos := mul_pos hmomentum (abs_pos.mpr hcurvature.ne_zero)
    have hcoupling : q.motion.coupling = motion.coupling := rfl
    rw [radiusOfCurvature, hp]
    simp only [Scalar.abs_real, hcoupling, hbending, if_pos hpos]
    rw [div_mul_cancel_left₀ hmomentum.ne', one_div]
  rw [isParaxial, hcosine, hradius]
  rfl

include hfield in
/-- A bend guides the particles of its design momentum, whatever its gradient. -/
theorem Dipole.guides_ofMagnet (strengths : Strengths ℝ) :
    (Dipole.ofMagnet motion strengths g rigidity).Guides (motion.coupling * rigidity) := by
  have hframe : (Dipole.ofMagnet motion strengths g rigidity).frame.curvature =
      g.angle / g.arcLength := curvature_frame_ofMagnet hbent hcurvature
  have hstrength : (Dipole.ofMagnet motion strengths g rigidity).field =
      rigidity * (g.angle / g.arcLength) := BendGeometry.field_of_isBent hbent rigidity
  refine ⟨hmomentum, ?_, ?_, ?_⟩
  · rw [hstrength]
    exact hfield
  · rw [hframe]
    exact hcurvature
  · rw [hstrength, hframe, ← mul_assoc]
    rfl

end geometry

/-! ## Runs along the orbit -/

theorem State.onOrbit_zero (c p : ℝ) : State.onOrbit c p 0 = ⟨0, ⟨0, 0, p⟩⟩ := by
  refine State.ext ?_ ?_
  · ext <;> simp [State.onOrbit]
  · ext <;> simp [State.onOrbit]

/-- The distance from the start to a point of the orbit is the chord of the angle between them. -/
theorem State.length_onOrbit_position (c p s : ℝ) :
    (State.onOrbit c p s).position.length = |2 * Real.sin (c * s / 2) / c| := by
  have hwhole := Real.sin_sq_add_cos_sq (c * s)
  have hhalf := Real.sin_sq_add_cos_sq (c * s / 2)
  have hdouble := Real.cos_sq (c * s / 2)
  rw [mul_div_cancel₀ _ two_ne_zero] at hdouble
  refine Vec3.length_of_dot_self (abs_nonneg _) ?_
  rw [abs_mul_abs_self, onOrbit, Vec3.dot]
  linear_combination (hwhole - 4 * hhalf + 4 * hdouble) / c ^ 2

theorem Integrator.after_onOrbit {i : Integrator ℝ} {c p h : ℝ}
    (hstep : ∀ s, (i.step (State.onOrbit c p s) h).out = State.onOrbit c p (s + h)) (k : ℕ) :
    i.after h (State.onOrbit c p 0) k = State.onOrbit c p (k * h) := by
  induction k with
  | zero =>
    rw [Nat.cast_zero, zero_mul]
    rfl
  | succ k ih =>
    rw [after_succ, ih, hstep]
    congr 1
    push_cast
    ring

section runs

variable {i : Integrator ℝ} {c p : ℝ}
  (hstep : ∀ s h, (i.step (State.onOrbit c p s) h).out = State.onOrbit c p (s + h))

include hstep

/-- Where every step leads along the orbit, so does a run, record by record. -/
theorem Integrator.record_onOrbit (length : ℝ) {n k : ℕ} (hk : k < n) : ∃ r,
    (i.track (State.onOrbit c p 0) length n)[k]? = some r ∧
      r.s = (k + 1) * length / n ∧ r.state = State.onOrbit c p r.s := by
  refine ⟨_, i.getElem?_track _ length n k hk, rfl, ?_⟩
  rw [after_onOrbit (fun s => hstep s _)]
  push_cast
  rw [mul_div_assoc]

theorem Integrator.last_onOrbit (length : ℝ) {n : ℕ} (hn : 0 < n) : ∃ r,
    (i.track (State.onOrbit c p 0) length n).getLast? = some r ∧
      r.state = State.onOrbit c p length := by
  have hn0 : (n : ℝ) ≠ 0 := Nat.cast_ne_zero.mpr hn.ne'
  refine ⟨_, i.getLast?_track _ length hn, ?_⟩
  rw [after_onOrbit (fun s => hstep s _), mul_div_cancel₀ _ hn0]

end runs

/-- The reference particle of a bend stays on the reference orbit, through a bend with any gradient,
through an edge with any pole face, and through a matrix that accepts particles on the orbit: every
record of every run is the point of the orbit at its path length. At the end of the arc the particle
is one chord away from the start. -/
theorem reference_particle_stays_on_orbit (motion : Motion ℝ) (strengths : Strengths ℝ)
    (g : BendGeometry ℝ) (face : Face) (rigidity : ℝ) (context : Context ℝ) (i : Integrator ℝ)
    (hi : i = .dipole (.ofMagnet motion strengths g rigidity) ∨
      i = .dipoleFringe (.ofMagnet motion strengths g face rigidity context) ∨
      i = .dipoleQuadrupole (.ofMagnet motion strengths g rigidity context) ∧
        context.criterion.accepts 1 (some (1 / |g.angle / g.arcLength|)) context.minimumRadius = true)
    (hbent : g.isBent = true) (hcurvature : Significant (g.angle / g.arcLength))
    (hmomentum : 0 < motion.coupling * rigidity)
    (hfield : Significant (rigidity * (g.angle / g.arcLength))) :
    let c := g.angle / g.arcLength
    let p := motion.coupling * rigidity
    (∀ (length : ℝ) (n k : ℕ), k < n → ∃ r,
        (i.track ⟨0, ⟨0, 0, p⟩⟩ length n)[k]? = some r ∧
          r.s = (k + 1) * length / n ∧ r.state = State.onOrbit c p r.s) ∧
      ∀ n : ℕ, 0 < n → ∃ r,
        (i.track ⟨0, ⟨0, 0, p⟩⟩ g.arcLength n).getLast? = some r ∧
          r.state.position.length = |g.chordLength| := by
  intro c p
  have hd := Dipole.guides_ofMagnet hbent hcurvature hmomentum hfield
  have hframe := curvature_frame_ofMagnet hbent hcurvature
  have hstep (s h : ℝ) : (i.step (State.onOrbit c p s) h).out = State.onOrbit c p (s + h) := by
    have hc : c = (OrbitFrame.ofCurvature g.curvature).curvature := hframe.symm
    rcases hi with rfl | rfl | ⟨rfl, haccepts⟩
    · rw [hc]
      exact Dipole.step_onOrbit (hd strengths) s h
    · rw [hc]
      exact DipoleFringe.step_onOrbit (hd strengths) s h
    · rw [hc]
      have hparaxial (t : ℝ) := (DipoleQuadrupole.isParaxial_onOrbit hbent hcurvature hmomentum
        strengths context t).trans haccepts
      exact DipoleQuadrupole.step_onOrbit (hd .empty) rfl rfl hparaxial _ s h
  rw [← State.onOrbit_zero c p]
  refine ⟨fun length n k hk => Integrator.record_onOrbit hstep length hk, ?_⟩
  intro n hn
  obtain ⟨r, hlast, hstate⟩ := Integrator.last_onOrbit hstep g.arcLength hn
  refine ⟨r, hlast, ?_⟩
  rw [hstate, State.length_onOrbit_position, BendGeometry.chordLength_of_isBent hbent]

/-- The matrix of a bend of negative curvature, over more than a whole turn, for a negative charge. -/
theorem reference_particle_stays_on_tight_orbit :
    let motion : Motion ℝ := ⟨-1⟩
    let g : BendGeometry ℝ := ⟨2, -10, 1, 2, 1, 1⟩
    let i : Integrator ℝ :=
      .dipoleQuadrupole (.ofMagnet motion (Strengths.empty.set .k1 4) g (-3) .standard)
    let p := motion.coupling * -3
    (Context.standard : Context ℝ).criterion.accepts 1 (some (1 / |g.angle / g.arcLength|))
        (Context.standard : Context ℝ).minimumRadius = true ∧
      g.isBent = true ∧ Significant (g.angle / g.arcLength) ∧ 0 < p ∧
      Significant (-3 * (g.angle / g.arcLength)) ∧
      (∀ (length : ℝ) (n k : ℕ), k < n → ∃ r,
        (i.track ⟨0, ⟨0, 0, p⟩⟩ length n)[k]? = some r ∧
          r.s = (k + 1) * length / n ∧ r.state = State.onOrbit (g.angle / g.arcLength) p r.s) ∧
      ∀ n : ℕ, 0 < n → ∃ r,
        (i.track ⟨0, ⟨0, 0, p⟩⟩ g.arcLength n).getLast? = some r ∧
          r.state.position.length = |g.chordLength| := by
  intro motion g i p
  have hcurvature : g.angle / g.arcLength = -5 := by norm_num [g]
  have haccepts : (Context.standard : Context ℝ).criterion.accepts 1
      (some (1 / |g.angle / g.arcLength|)) (Context.standard : Context ℝ).minimumRadius = true := by
    rw [hcurvature]
    norm_num [Context.standard, ParaxialCriterion.standard, ParaxialCriterion.accepts,
      Comparison.violated, abs_of_neg]
  have hbent : g.isBent = true :=
    BendGeometry.isBent_iff.mpr ⟨significant_of_one_le (by norm_num [g]),
      significant_of_one_le (by norm_num [g])⟩
  have hsignificant : Significant (g.angle / g.arcLength) :=
    significant_of_one_le (by norm_num [hcurvature])
  have hmomentum : 0 < p := by
    norm_num [p, motion, Motion.coupling, speedOfLight]
  have hfield : Significant (-3 * (g.angle / g.arcLength)) :=
    significant_of_one_le (by norm_num [hcurvature])
  exact ⟨haccepts, hbent, hsignificant, hmomentum, hfield,
    reference_particle_stays_on_orbit motion (Strengths.empty.set .k1 4) g .exit (-3) .standard i
      (Or.inr (Or.inr ⟨rfl, haccepts⟩)) hbent hsignificant hmomentum hfield⟩

end BeamTransport
