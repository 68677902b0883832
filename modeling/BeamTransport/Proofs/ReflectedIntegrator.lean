import BeamTransport.Proofs.KickSum
import BeamTransport.Proofs.ReflectedField

/-!
# Integrators under reflections

Every integrator has an image under a reflection: with the charge its sign, with the orbit the sign of the
horizontal axis, the bending field both and the gradient that of the charges. The image moves the image
of each state as the integrator moves the state (`Reflection.isImage_integrator`): the helix and
Runge-Kutta by the symmetry of the motion, the edge and the matrix because slopes, kicks and focusing get
the signs of the axes and the choice of the matrix none.
-/

namespace BeamTransport.Reflection

variable (r : Reflection)

/-! ## Bends -/

noncomputable def dipole (d : Dipole ℝ) : Dipole ℝ where
  motion := r.motion d.motion
  field := r.charge * r.horizontal * d.field
  gradient := r.charge * d.gradient
  angle := r.horizontal * d.angle
  length := d.length
  frame := r.frame d.frame

theorem isSign_bending : IsSign (r.charge * r.horizontal) :=
  r.isSign_charge.mul r.isSign_horizontal

section dipole

variable (d : Dipole ℝ) (y : State ℝ) (h : ℝ)

theorem dipole_fieldVector : (r.dipole d).fieldVector = r.field d.fieldVector := by
  rw [Dipole.fieldVector, Dipole.fieldVector, field_eq, mul_zero, mul_zero]
  rfl

theorem significant_dipole_field : Significant (r.dipole d).field ↔ Significant d.field :=
  r.isSign_bending.significant_mul d.field

theorem significant_dipole_gradient : Significant (r.dipole d).gradient ↔ Significant d.gradient :=
  r.isSign_charge.significant_mul d.gradient

theorem carries_gradientField : r.Carries d.gradientField (r.dipole d).gradientField := by
  intro a
  unfold Dipole.gradientField
  simp only [significant_dipole_gradient]
  split_ifs
  · exact r.carries_orbitGradient d.frame d.gradient a
  · exact r.field_zero.symm

theorem dipole_derivative : (r.dipole d).derivative (r.state y) = r.state (d.derivative y) := by
  apply State.ext
  · exact r.direction_map _
  · have hgradient : (r.dipole d).gradientField (r.state y).position =
        r.field (d.gradientField y.position) := r.carries_gradientField d y.position
    show (r.motion d.motion).force (r.map y.momentum) _ = _
    rw [dipole_fieldVector, hgradient, ← r.field_add, r.force_map]
    rfl

theorem dipole_helix :
    (r.dipole d).motion.helix (r.state y) (r.dipole d).fieldVector h =
      r.state (d.motion.helix y d.fieldVector h) := by
  rw [dipole_fieldVector]
  exact r.helix_state d.fieldVector y d.motion h

theorem dipole_advance : (r.dipole d).advance (r.state y) h = r.state (d.advance y h) := by
  unfold Dipole.advance
  simp only [significant_dipole_gradient]
  split_ifs
  · set first := d.motion.helix y d.fieldVector (0.5 * h) with hfirst
    have hkicked : (r.dipole d).motion.rotate (r.state first).momentum
        ((r.dipole d).gradientField (r.state first).position) h =
          r.map (d.motion.rotate first.momentum (d.gradientField first.position) h) := by
      rw [show (r.dipole d).gradientField (r.state first).position = _ from
        r.carries_gradientField d first.position]
      exact r.rotate_map _ d.motion first.momentum h
    rw [dipole_helix, ← hfirst, hkicked]
    exact r.dipole_helix d ⟨first.position, _⟩ (0.5 * h)
  · exact r.dipole_helix d y h

theorem dipole_isZero : (r.dipole d).isZero = d.isZero := by
  unfold Dipole.isZero
  simp only [significant_dipole_field, significant_dipole_gradient]

theorem dipole_step : (r.dipole d).step (r.state y) h = r.step (d.step y h) := by
  unfold Dipole.step
  rw [dipole_isZero]
  split_ifs
  · rw [r.step_exact, r.drift_state]
  · rw [r.step_comparing, dipole_advance, dipole_advance, dipole_advance]

end dipole

/-! ## Edges -/

noncomputable def edge (e : DipoleFringe ℝ) : DipoleFringe ℝ where
  body := r.dipole e.body
  poleFace := r.horizontal * e.poleFace
  correction := r.horizontal * e.correction
  thin := e.thin

theorem bending_curvature (motion : Motion ℝ) (field p : ℝ) :
    (r.motion motion).curvature (r.charge * r.horizontal * field) p =
      r.horizontal * motion.curvature field p := by
  have hsquare := r.isSign_charge.mul_self
  rw [Motion.curvature, Motion.curvature, r.coupling_motion]
  linear_combination r.horizontal * (motion.coupling * field / p) * hsquare

section edge

variable (e : DipoleFringe ℝ) (shift p : ℝ) (y : State ℝ) (h : ℝ)

theorem edge_kickX (point : OrbitPoint ℝ) :
    (r.edge e).kickX (r.point shift point) p = r.horizontal * e.kickX point p := by
  have hsquare := r.isSign_horizontal.mul_self
  show (r.motion e.body.motion).curvature (r.charge * r.horizontal * e.body.field) p
    * Real.tan (r.horizontal * e.poleFace) * (r.horizontal * point.x) = _
  rw [bending_curvature, r.isSign_horizontal.tan_mul, DipoleFringe.kickX]
  linear_combination r.horizontal * e.body.motion.curvature e.body.field p * Real.tan e.poleFace
    * point.x * hsquare

theorem edge_kickY (point : OrbitPoint ℝ) :
    (r.edge e).kickY (r.point shift point) p = r.vertical * e.kickY point p := by
  have hsquare := r.isSign_horizontal.mul_self
  show (r.motion e.body.motion).curvature (r.charge * r.horizontal * e.body.field) p
    * Real.tan (r.horizontal * e.poleFace - r.horizontal * e.correction) * (r.vertical * point.y) = _
  rw [bending_curvature, ← mul_sub, r.isSign_horizontal.tan_mul, DipoleFringe.kickY]
  linear_combination r.vertical * e.body.motion.curvature e.body.field p
    * Real.tan (e.poleFace - e.correction) * point.y * hsquare

theorem edge_kicked (c : OrbitCoords ℝ) (share : ℝ) :
    (r.edge e).kicked (r.coords shift c) p share = r.coords shift (e.kicked c p share) := by
  have hpoint : (r.coords shift c).toOrbitPoint = r.point shift c.toOrbitPoint := rfl
  rw [DipoleFringe.kicked_eq, DipoleFringe.kicked_eq, coords_xp, coords_yp, hpoint, edge_kickX,
    edge_kickY, mul_left_comm share, mul_left_comm share, ← mul_add, ← mul_sub, ofSlopes_point]

theorem edge_kick : (r.edge e).kick (r.state y) h = r.state (e.kick y h) := by
  obtain ⟨k, hlocal⟩ := r.ofLocal_state e.body.frame y
  have hframe : (r.edge e).body.frame.ofLocal (r.state y) =
      r.coords (e.body.frame.turns k) (e.body.frame.ofLocal y) := hlocal
  by_cases hforward : y.momentum ≠ 0 ∧ 0 < (e.body.frame.ofLocal y).ps
  · have hmoving : (r.state y).momentum ≠ 0 := (r.map_ne_zero_iff _).mpr hforward.1
    have hlength : (r.state y).momentum.length = y.momentum.length := r.length_map _
    rw [e.kick_of_forward y h hforward.1 hforward.2,
      (r.edge e).kick_of_forward _ h hmoving (by rw [hframe]; exact hforward.2), hframe, hlength,
      edge_kicked]
    set fraction := DipoleFringe.kickFraction e.thin.value h
    have hmomentum := congrArg State.momentum (r.toLocal_coords e.body.frame
      (e.kicked (e.body.frame.ofLocal y) y.momentum.length fraction) k)
    exact State.ext rfl hmomentum
  · rw [not_and_or, not_ne_iff, not_lt] at hforward
    rw [e.kick_of_not_forward y h hforward, (r.edge e).kick_of_not_forward]
    rcases hforward with hrest | hbackward
    · left
      show r.map y.momentum = 0
      rw [hrest, r.map_zero]
    · right
      rw [hframe]
      exact hbackward

theorem edge_step : (r.edge e).step (r.state y) h = r.step (e.step y h) := by
  have hbody : Significant (r.edge e).body.field ↔ Significant e.body.field :=
    r.significant_dipole_field e.body
  by_cases hfield : Significant e.body.field
  · rw [e.step_of_significant y h hfield, (r.edge e).step_of_significant _ h (hbody.mpr hfield),
      edge_kick]
    exact r.dipole_step e.body _ h
  · rw [e.step_of_not_significant y h hfield,
      (r.edge e).step_of_not_significant _ h (hbody.not.mpr hfield), r.step_exact, r.drift_state]

end edge

/-! ## Matrices -/

/-- The image of a matrix and of all that it may leave a particle to. -/
noncomputable def matrix (q : DipoleQuadrupole ℝ) : DipoleQuadrupole ℝ where
  motion := r.motion q.motion
  bend := r.dipole q.bend
  backup := ⟨r.motion q.backup.motion, r.fieldMap q.backup.field⟩
  frame := r.frame q.frame
  rigidity := r.charge * q.rigidity
  k1 := q.k1
  field := r.charge * r.horizontal * q.field
  gradient := r.charge * q.gradient
  minimumRadius := q.minimumRadius
  criterion := q.criterion

noncomputable def transverse (t : Transverse ℝ) : Transverse ℝ :=
  ⟨r.horizontal * t.x, r.horizontal * t.xp, r.vertical * t.y, r.vertical * t.yp⟩

section matrix

variable (q : DipoleQuadrupole ℝ) (shift : ℝ) (c : OrbitCoords ℝ) (h ds : ℝ)

theorem matrix_radiusOfCurvature :
    (r.matrix q).radiusOfCurvature (r.coords shift c) = q.radiusOfCurvature c := by
  unfold DipoleQuadrupole.radiusOfCurvature matrix
  simp only [coords_amplitude, coords_momentum, r.coupling_motion, Scalar.abs_real,
    r.isSign_bending.abs_mul, r.isSign_charge.abs_mul]

theorem matrix_isParaxial : (r.matrix q).isParaxial (r.coords shift c) = q.isParaxial c := by
  unfold DipoleQuadrupole.isParaxial
  rw [coords_forwardCosine, matrix_radiusOfCurvature]
  rfl

theorem matrix_momentumRatio :
    (r.matrix q).momentumRatio (r.coords shift c) = q.momentumRatio c := by
  have hsquare := r.isSign_charge.mul_self
  rw [DipoleQuadrupole.momentumRatio, DipoleQuadrupole.momentumRatio, coords_momentum]
  show (r.motion q.motion).coupling * (r.charge * q.rigidity) / c.momentum = _
  rw [r.coupling_motion]
  linear_combination q.motion.coupling * q.rigidity / c.momentum * hsquare

theorem matrix_horizontalFocusing :
    (r.matrix q).horizontalFocusing (r.coords shift c) = q.horizontalFocusing c := by
  have hsquare := r.isSign_horizontal.mul_self
  rw [DipoleQuadrupole.horizontalFocusing, DipoleQuadrupole.horizontalFocusing, matrix_momentumRatio]
  show q.momentumRatio c * q.k1 + (2 * q.momentumRatio c - 1)
    * (r.horizontal * q.frame.curvature) * (r.horizontal * q.frame.curvature) = _
  linear_combination (2 * q.momentumRatio c - 1) * q.frame.curvature ^ 2 * hsquare

theorem matrix_verticalFocusing :
    (r.matrix q).verticalFocusing (r.coords shift c) = q.verticalFocusing c := by
  rw [DipoleQuadrupole.verticalFocusing, DipoleQuadrupole.verticalFocusing, matrix_momentumRatio]
  rfl

theorem matrix_dispersionSource :
    (r.matrix q).dispersionSource (r.coords shift c) = r.horizontal * q.dispersionSource c := by
  rw [DipoleQuadrupole.dispersionSource, DipoleQuadrupole.dispersionSource, matrix_momentumRatio]
  exact mul_assoc _ _ _

theorem matrix_transport :
    (r.matrix q).transport (r.coords shift c) ds = r.transverse (q.transport c ds) := by
  have hx : (r.coords shift c).x = r.horizontal * c.x := rfl
  have hy : (r.coords shift c).y = r.vertical * c.y := rfl
  simp only [DipoleQuadrupole.transport, transverse, matrix_horizontalFocusing,
    matrix_verticalFocusing, matrix_dispersionSource, coords_xp, coords_yp, hx, hy,
    Transverse.mk.injEq]
  refine ⟨?_, ?_, ?_, ?_⟩ <;> ring

theorem matrix_projected (x xp yp : ℝ) :
    (r.matrix q).projected h (r.horizontal * x) (r.horizontal * xp) (r.vertical * yp) =
      q.projected h x xp yp := by
  have hsquare := r.isSign_horizontal.mul_self
  have hoffset : 1 + (r.matrix q).frame.curvature * (r.horizontal * x) = 1 + q.frame.curvature * x := by
    show 1 + r.horizontal * q.frame.curvature * (r.horizontal * x) = _
    linear_combination q.frame.curvature * x * hsquare
  rw [DipoleQuadrupole.projected, DipoleQuadrupole.projected, hoffset, add_squares]

theorem matrix_estimate :
    (r.matrix q).estimate (r.coords shift c) h = r.transverse (q.estimate c h) := by
  have hx : (r.coords shift c).x = r.horizontal * c.x := rfl
  rw [DipoleQuadrupole.estimate, coords_xp, coords_yp, hx, matrix_projected, matrix_transport]
  rfl

theorem matrix_orbitAdvance :
    (r.matrix q).orbitAdvance (r.coords shift c) h = q.orbitAdvance c h := by
  have hmean (e a b : ℝ) : (0.5 : ℝ) * (e * a + e * b) = e * (0.5 * (a + b)) := by ring
  have hx : (r.coords shift c).x = r.horizontal * c.x := rfl
  rw [DipoleQuadrupole.orbitAdvance, matrix_estimate, coords_xp, coords_yp, hx]
  simp only [transverse, hmean, matrix_projected]
  rfl

theorem matrix_matrixStep :
    (r.matrix q).matrixStep (r.coords shift c) h = r.coords shift (q.matrixStep c h) := by
  have hs : (r.coords shift c).s + q.orbitAdvance c h = c.s + q.orbitAdvance c h + shift :=
    add_right_comm _ _ _
  unfold DipoleQuadrupole.matrixStep
  simp only [matrix_orbitAdvance, matrix_transport, transverse, coords_momentum, hs]
  exact r.ofSlopes_point shift ⟨_, _, _⟩ _ _ _

theorem matrix_step (y dydx : State ℝ) :
    (r.matrix q).step (r.state y) (r.state dydx) h = r.step (q.step y dydx h) := by
  obtain ⟨k, hlocal⟩ := r.ofLocal_state q.frame y
  have hframe : (r.matrix q).frame.ofLocal (r.state y) =
      r.coords (q.frame.turns k) (q.frame.ofLocal y) := hlocal
  have hk1 : (r.matrix q).k1 = q.k1 := rfl
  unfold DipoleQuadrupole.step
  simp only [hframe, hk1, matrix_isParaxial, matrix_matrixStep]
  split_ifs
  · rw [r.step_exact]
    exact congrArg Step.exact (r.toLocal_coords q.frame _ k)
  · exact Symmetry.rungeKutta_step q.backup.motion (r.carries_fieldMap q.backup.field) y dydx h
  · exact r.dipole_step q.bend y h

end matrix

/-! ## Integrators -/

noncomputable def integrator : Integrator ℝ → Integrator ℝ
  | .drift => .drift
  | .dipole d => .dipole (r.dipole d)
  | .dipoleQuadrupole q => .dipoleQuadrupole (r.matrix q)
  | .dipoleFringe e => .dipoleFringe (r.edge e)
  | .rungeKutta method => .rungeKutta ⟨r.motion method.motion, r.fieldMap method.field⟩

theorem drift_driftDerivative (y : State ℝ) :
    (r.state y).driftDerivative = r.state y.driftDerivative :=
  State.ext (r.direction_map _) r.map_zero.symm

/-- The image of an integrator moves the image of each state as the integrator moves the state. -/
theorem isImage_integrator (i : Integrator ℝ) : r.IsImage i (r.integrator i) := by
  cases i with
  | drift =>
    refine ⟨rfl, r.drift_driftDerivative, fun y dydx h => ?_⟩
    show Step.exact ((r.state y).drift h) = r.step (.exact (y.drift h))
    rw [r.step_exact, r.drift_state]
  | dipole d => exact ⟨rfl, r.dipole_derivative d, fun y _ h => r.dipole_step d y h⟩
  | dipoleFringe e => exact ⟨rfl, r.dipole_derivative e.body, fun y _ h => r.edge_step e y h⟩
  | dipoleQuadrupole q =>
    have hbackup := r.carries_fieldMap q.backup.field
    exact ⟨rfl, fun y => Symmetry.derivative_state y q.backup.motion hbackup,
      fun y dydx h => r.matrix_step q h y dydx⟩
  | rungeKutta method => exact r.isImage_rungeKutta method.motion (r.carries_fieldMap method.field)

end BeamTransport.Reflection
