import BeamTransport.Proofs.Frame
import BeamTransport.Proofs.Symmetry

/-!
# Reflections of the axes

A reflection is the symmetry of a sign for each of the horizontal axis, the vertical axis and the
charges. It carries the reference orbit to the one whose curvature has the sign of the horizontal axis,
and orbit coordinates to those with the signs of their axes: `ofLocal_state` and `toLocal_coords` go there
and back. Distances along the two orbits may differ by whole turns, since both count the half turn
beyond the centre of curvature forwards.
-/

namespace BeamTransport

/-- The symmetry of a sign for each axis across the beam line and for charges. -/
structure Reflection extends Symmetry where
  horizontal : ℝ
  vertical : ℝ
  isSign_horizontal : IsSign horizontal
  isSign_vertical : IsSign vertical
  map_eq : ∀ a, map a = ⟨horizontal * a.x, vertical * a.y, a.z⟩
  parity_eq : parity = horizontal * vertical

namespace Reflection

def ofSigns {h v c : ℝ} (hh : IsSign h) (hv : IsSign v) (hc : IsSign c) : Reflection where
  map a := ⟨h * a.x, v * a.y, a.z⟩
  parity := h * v
  charge := c
  map_add a b := by ext <;> simp <;> ring
  map_smul k a := by ext <;> simp <;> ring
  map_dot a b := by
    simp only [Vec3.dot]
    linear_combination a.x * b.x * hh.mul_self + a.y * b.y * hv.mul_self
  map_cross a b := by
    ext
    · simp only [Vec3.cross, Vec3.smul_x]
      linear_combination -(v * (a.y * b.z - b.y * a.z)) * hh.mul_self
    · simp only [Vec3.cross, Vec3.smul_y]
      linear_combination -(h * (a.z * b.x - b.z * a.x)) * hv.mul_self
    · simp only [Vec3.cross, Vec3.smul_z]
      ring
  isSign_parity := hh.mul hv
  isSign_charge := hc
  horizontal := h
  vertical := v
  isSign_horizontal := hh
  isSign_vertical := hv
  map_eq _ := rfl
  parity_eq := rfl

variable (r : Reflection)

@[simp] theorem map_x (a : Vec3 ℝ) : (r.map a).x = r.horizontal * a.x := by rw [r.map_eq]

@[simp] theorem map_y (a : Vec3 ℝ) : (r.map a).y = r.vertical * a.y := by rw [r.map_eq]

@[simp] theorem map_z (a : Vec3 ℝ) : (r.map a).z = a.z := by rw [r.map_eq]

theorem map_map (a : Vec3 ℝ) : r.map (r.map a) = a := by
  ext
  · rw [map_x, map_x, ← mul_assoc, r.isSign_horizontal.mul_self, one_mul]
  · rw [map_y, map_y, ← mul_assoc, r.isSign_vertical.mul_self, one_mul]
  · rw [map_z, map_z]

theorem maxAbs_state (y : State ℝ) : (r.state y).maxAbs = y.maxAbs := by
  simp only [State.maxAbs, State.components, Symmetry.state, map_x, map_y, map_z, List.foldl_cons,
    List.foldl_nil, Scalar.abs_real, r.isSign_horizontal.abs_mul, r.isSign_vertical.abs_mul]

/-! ## Field maps -/

noncomputable def fieldMap (field : FieldMap ℝ) : FieldMap ℝ := fun position =>
  r.field (field (r.map position))

theorem carries_fieldMap (field : FieldMap ℝ) : r.Carries field (r.fieldMap field) := by
  intro position
  rw [fieldMap, map_map]

variable {r} in
theorem eq_fieldMap {field image : FieldMap ℝ} (hfield : r.Carries field image) :
    image = r.fieldMap field := by
  funext position
  rw [fieldMap, ← hfield, map_map]

/-- The components of the image of a field. -/
theorem field_eq (b : Vec3 ℝ) : r.field b =
    ⟨r.charge * r.vertical * b.x, r.charge * r.horizontal * b.y,
      r.charge * (r.horizontal * r.vertical) * b.z⟩ := by
  rw [Symmetry.field, r.parity_eq, r.map_eq]
  ext
  · show r.horizontal * r.vertical * r.charge * (r.horizontal * b.x) = _
    linear_combination r.vertical * r.charge * b.x * r.isSign_horizontal.mul_self
  · show r.horizontal * r.vertical * r.charge * (r.vertical * b.y) = _
    linear_combination r.horizontal * r.charge * b.y * r.isSign_vertical.mul_self
  · show r.horizontal * r.vertical * r.charge * b.z = _
    ring

end Reflection

/-! ## Whole turns -/

namespace OrbitFrame

variable (frame : OrbitFrame ℝ)

/-- Distance along the orbit of a number of whole turns; a straight orbit has none. -/
noncomputable def turns (k : ℤ) : ℝ := (2 * k : ℤ) * Real.pi / frame.curvature

theorem turns_eq (k : ℤ) : frame.turns k = k * (2 * Real.pi) / frame.curvature := by
  rw [turns, Int.cast_mul, Int.cast_ofNat]
  ring

theorem turns_of_straight (hstraight : frame.curvature = 0) (k : ℤ) : frame.turns k = 0 := by
  rw [turns, hstraight, div_zero]

theorem cos_sin_turns (s : ℝ) (k : ℤ) :
    Real.cos (frame.curvature * (s + frame.turns k)) = Real.cos (frame.curvature * s) ∧
      Real.sin (frame.curvature * (s + frame.turns k)) = Real.sin (frame.curvature * s) := by
  by_cases hbent : frame.curvature = 0
  · rw [turns_of_straight frame hbent, add_zero]
    exact ⟨rfl, rfl⟩
  · rw [mul_add, turns_eq, mul_div_cancel₀ _ hbent]
    exact ⟨Real.cos_add_int_mul_two_pi _ k, Real.sin_add_int_mul_two_pi _ k⟩

theorem normal_turns (s : ℝ) (k : ℤ) : frame.normal (s + frame.turns k) = frame.normal s := by
  obtain ⟨hcos, hsin⟩ := frame.cos_sin_turns s k
  rw [normal_eq, normal_eq, hcos, hsin]

theorem tangent_turns (s : ℝ) (k : ℤ) : frame.tangent (s + frame.turns k) = frame.tangent s := by
  obtain ⟨hcos, hsin⟩ := frame.cos_sin_turns s k
  rw [tangent_eq, tangent_eq, hcos, hsin]

end OrbitFrame

/-- The argument of a number whose imaginary part gets a sign has that sign. A half turn keeps its own
sign, and then a whole turn is missing. -/
theorem IsSign.exists_arg_mul {e : ℝ} (he : IsSign e) (x y : ℝ) : ∃ k : ℤ,
    Complex.arg ⟨x, e * y⟩ = e * (Complex.arg ⟨x, y⟩ + k * (2 * Real.pi)) := by
  rcases he with rfl | rfl
  · refine ⟨0, ?_⟩
    rw [one_mul, one_mul, Int.cast_zero, zero_mul, add_zero]
  · have hconj : (⟨x, -1 * y⟩ : ℂ) = (starRingEnd ℂ) ⟨x, y⟩ := by
      rw [neg_one_mul]
      rfl
    rw [hconj, Complex.arg_conj]
    split_ifs with hhalf
    · refine ⟨-1, ?_⟩
      rw [hhalf]
      push_cast
      ring
    · refine ⟨0, ?_⟩
      push_cast
      ring

namespace Reflection

variable (r : Reflection)

/-! ## Orbit frames -/

def frame (f : OrbitFrame ℝ) : OrbitFrame ℝ := ⟨r.horizontal * f.curvature⟩

/-- The image of a point, counted from a different start of the orbit. -/
def point (shift : ℝ) (p : OrbitPoint ℝ) : OrbitPoint ℝ :=
  ⟨r.horizontal * p.x, r.vertical * p.y, p.s + shift⟩

/-- The image of orbit coordinates, counted from a different start of the orbit. -/
def coords (shift : ℝ) (c : OrbitCoords ℝ) : OrbitCoords ℝ :=
  { r.point shift c.toOrbitPoint with
    px := r.horizontal * c.px
    py := r.vertical * c.py
    ps := c.ps }

variable (f : OrbitFrame ℝ) (c : OrbitCoords ℝ) (shift s : ℝ) (k : ℤ)

theorem frame_ofCurvature (curvature : ℝ) :
    OrbitFrame.ofCurvature (r.horizontal * curvature) = r.frame (.ofCurvature curvature) := by
  unfold OrbitFrame.ofCurvature frame
  simp only [r.isSign_horizontal.significant_mul]
  split_ifs
  · rfl
  · rw [mul_zero]

theorem frame_normal : (r.frame f).normal s = r.horizontal • r.map (f.normal s) := by
  rw [OrbitFrame.normal_eq, OrbitFrame.normal_eq, r.map_eq, frame, mul_assoc,
    r.isSign_horizontal.cos_mul, r.isSign_horizontal.sin_mul]
  ext
  · show Real.cos (f.curvature * s) = r.horizontal * (r.horizontal * Real.cos (f.curvature * s))
    rw [← mul_assoc, r.isSign_horizontal.mul_self, one_mul]
  · show (0 : ℝ) = r.horizontal * (r.vertical * 0)
    rw [mul_zero, mul_zero]
  · rfl

theorem frame_tangent : (r.frame f).tangent s = r.map (f.tangent s) := by
  rw [OrbitFrame.tangent_eq, OrbitFrame.tangent_eq, r.map_eq, frame, mul_assoc,
    r.isSign_horizontal.cos_mul, r.isSign_horizontal.sin_mul, mul_zero, mul_neg]

theorem frame_normal_turns :
    (r.frame f).normal (s + f.turns k) = r.horizontal • r.map (f.normal s) := by
  rw [frame_normal, OrbitFrame.normal_turns]

theorem frame_tangent_turns : (r.frame f).tangent (s + f.turns k) = r.map (f.tangent s) := by
  rw [frame_tangent, OrbitFrame.tangent_turns]

theorem curvature_frame_ne_zero (hbent : f.curvature ≠ 0) : (r.frame f).curvature ≠ 0 :=
  mul_ne_zero r.isSign_horizontal.ne_zero hbent

theorem locate_map (a : Vec3 ℝ) : ∃ k : ℤ,
    (r.frame f).locate (r.map a) = r.point (f.turns k) (f.locate a) := by
  by_cases hbent : f.curvature = 0
  · have hframe : (r.frame f).curvature = 0 := by rw [frame, hbent, mul_zero]
    refine ⟨0, ?_⟩
    rw [OrbitFrame.locate, OrbitFrame.locate, if_pos ((r.frame f).isStraight_iff.mpr hframe),
      if_pos (f.isStraight_iff.mpr hbent), point, OrbitFrame.turns_of_straight f hbent, add_zero,
      map_x, map_y, map_z]
  · have hsquare := r.isSign_horizontal.mul_self
    set u := a.x + 1 / f.curvature with hu
    have harm : (r.map a).x + 1 / (r.frame f).curvature = r.horizontal * u := by
      rw [map_x, frame, r.isSign_horizontal.div_mul, ← mul_add]
    have hsign : Scalar.sign (r.frame f).curvature = r.horizontal * Scalar.sign f.curvature :=
      r.isSign_horizontal.sign_mul hbent
    have hradius : (r.horizontal * u) ^ 2 = u ^ 2 := by linear_combination u ^ 2 * hsquare
    have hforward : r.horizontal * Scalar.sign f.curvature * (r.horizontal * u) =
        Scalar.sign f.curvature * u := by linear_combination Scalar.sign f.curvature * u * hsquare
    -- The arms of the two orbits point the same way, and their angles are opposite.
    obtain ⟨k, harg⟩ := r.isSign_horizontal.exists_arg_mul (Scalar.sign f.curvature * u)
      (Scalar.sign f.curvature * a.z)
    refine ⟨k, ?_⟩
    rw [OrbitFrame.locate_of_bent (r.curvature_frame_ne_zero f hbent), OrbitFrame.locate_of_bent hbent]
    simp only [harm, hsign, map_y, map_z, hradius, hforward, ← hu]
    rw [mul_assoc r.horizontal (Scalar.sign f.curvature) a.z, harg, frame,
      r.isSign_horizontal.div_mul, mul_div_mul_left _ _ r.isSign_horizontal.ne_zero, add_div, point,
      OrbitFrame.turns_eq]
    congr 1
    ring

/-- The orbit coordinates of the image of a state are the image of its orbit coordinates, up to whole
turns. -/
theorem ofLocal_state (y : State ℝ) : ∃ k : ℤ,
    (r.frame f).ofLocal (r.state y) = r.coords (f.turns k) (f.ofLocal y) := by
  obtain ⟨k, hpoint⟩ := r.locate_map f y.position
  refine ⟨k, ?_⟩
  have hlocate : (r.frame f).locate (r.state y).position =
      r.point (f.turns k) (f.locate y.position) := hpoint
  have hmomentum : (r.state y).momentum = r.map y.momentum := rfl
  have hs : (r.point (f.turns k) (f.locate y.position)).s = (f.locate y.position).s + f.turns k := rfl
  rw [OrbitFrame.ofLocal, hlocate, hmomentum, hs, frame_normal_turns, frame_tangent_turns,
    Vec3.dot_smul, r.map_dot, r.map_dot, map_y]
  rfl

/-- The state of the image of orbit coordinates is the image of their state, whole turns apart. -/
theorem toLocal_coords :
    (r.frame f).toLocal (r.coords (f.turns k) c) = r.state (f.toLocal c) := by
  have hsquare := r.isSign_horizontal.mul_self
  have hs : (r.coords (f.turns k) c).s = c.s + f.turns k := rfl
  apply State.ext
  · by_cases hbent : f.curvature = 0
    · have hframe : (r.frame f).curvature = 0 := by rw [frame, hbent, mul_zero]
      show _ = r.map (f.toLocal c).position
      rw [OrbitFrame.toLocal, OrbitFrame.toLocal, if_pos ((r.frame f).isStraight_iff.mpr hframe),
        if_pos (f.isStraight_iff.mpr hbent), hs, OrbitFrame.turns_of_straight f hbent, add_zero, r.map_eq]
      rfl
    · show _ = r.map (f.toLocal c).position
      rw [OrbitFrame.toLocal_position_of_bent (r.curvature_frame_ne_zero f hbent),
        OrbitFrame.toLocal_position_of_bent hbent, hs, frame_normal_turns, frame,
        r.isSign_horizontal.div_mul, smul_smul, r.map_add, r.map_smul, r.map_eq ⟨_, c.y, 0⟩]
      have harm : (r.horizontal * (1 / f.curvature) + (r.coords (f.turns k) c).x) * r.horizontal =
          1 / f.curvature + c.x := by
        show (r.horizontal * (1 / f.curvature) + r.horizontal * c.x) * r.horizontal = _
        linear_combination (1 / f.curvature + c.x) * hsquare
      rw [harm, mul_neg]
      rfl
  · have hpx : (r.coords (f.turns k) c).px * r.horizontal = c.px := by
      show r.horizontal * c.px * r.horizontal = c.px
      linear_combination c.px * hsquare
    show _ = r.map (f.toLocal c).momentum
    rw [OrbitFrame.toLocal_momentum, OrbitFrame.toLocal_momentum, hs, frame_normal_turns,
      frame_tangent_turns, smul_smul, hpx, r.map_add, r.map_add, r.map_smul, r.map_smul,
      r.map_eq ⟨0, c.py, 0⟩, mul_zero]
    rfl

/-! ## Orbit coordinates -/

@[simp] theorem coords_xp : (r.coords shift c).xp = r.horizontal * c.xp := mul_div_assoc _ _ _

@[simp] theorem coords_yp : (r.coords shift c).yp = r.vertical * c.yp := mul_div_assoc _ _ _

/-- Squares do not see the signs of the axes. -/
theorem add_squares (a x y : ℝ) :
    a + r.horizontal * x * (r.horizontal * x) + r.vertical * y * (r.vertical * y) = a + x * x + y * y := by
  linear_combination x * x * r.isSign_horizontal.mul_self + y * y * r.isSign_vertical.mul_self

@[simp] theorem coords_momentum : (r.coords shift c).momentum = c.momentum := by
  have hsquares := r.add_squares 0 c.px c.py
  rw [zero_add, zero_add] at hsquares
  show Real.sqrt (r.horizontal * c.px * (r.horizontal * c.px)
    + r.vertical * c.py * (r.vertical * c.py) + c.ps * c.ps) = _
  rw [hsquares]
  rfl

@[simp] theorem coords_forwardCosine : (r.coords shift c).forwardCosine = c.forwardCosine := by
  rw [OrbitCoords.forwardCosine, OrbitCoords.forwardCosine, coords_momentum]
  rfl

@[simp] theorem coords_amplitude : (r.coords shift c).amplitude = c.amplitude := by
  have hsquares := r.add_squares 0 c.x c.y
  rw [zero_add, zero_add, ← sq, ← sq, ← sq, ← sq] at hsquares
  show Real.sqrt ((r.horizontal * c.x) ^ 2 + (r.vertical * c.y) ^ 2) = _
  rw [hsquares]
  rfl

theorem ofSlopes_point (p : OrbitPoint ℝ) (xp yp momentum : ℝ) :
    OrbitCoords.ofSlopes (r.point shift p) (r.horizontal * xp) (r.vertical * yp) momentum =
      r.coords shift (.ofSlopes p xp yp momentum) := by
  unfold OrbitCoords.ofSlopes coords
  simp only [add_squares]
  rw [mul_assoc r.horizontal, mul_assoc r.vertical]

end Reflection

end BeamTransport
