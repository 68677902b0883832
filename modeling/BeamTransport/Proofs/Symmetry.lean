import BeamTransport.Integrator
import BeamTransport.Proofs.Helix
import BeamTransport.Proofs.Tracking

/-!
# Symmetries of the motion in a field

A symmetry is an orthogonal map of the space together with a sign for charges. A magnetic field is
carried over by the map, with a further sign from a mirror and from the charges (`Symmetry.field`), so
that the force on a particle is carried over like its position. Hence the image of a particle follows the
image of its path: on the helix of a uniform field (`helix_state`), and in Runge-Kutta steps through any
field (`rungeKutta_step`). `Symmetry.IsImage` says the same of any two integrators, and `IsImage.track`
carries it over to runs.
-/

namespace BeamTransport

/-- An orthogonal map of the space, and a sign for charges. -/
structure Symmetry where
  map : Vec3 ℝ → Vec3 ℝ
  /-- Minus one for a mirror, which swaps left and right, and else one. -/
  parity : ℝ
  /-- Minus one if charges are reversed, and else one. -/
  charge : ℝ
  map_add : ∀ a b, map (a + b) = map a + map b
  map_smul : ∀ (k : ℝ) a, map (k • a) = k • map a
  map_dot : ∀ a b, (map a).dot (map b) = a.dot b
  map_cross : ∀ a b, (map a).cross (map b) = parity • map (a.cross b)
  isSign_parity : IsSign parity
  isSign_charge : IsSign charge

namespace Symmetry

variable (σ : Symmetry)

/-! ## Images -/

/-- The image of a magnetic field. -/
noncomputable def field (b : Vec3 ℝ) : Vec3 ℝ := (σ.parity * σ.charge) • σ.map b

noncomputable def motion (m : Motion ℝ) : Motion ℝ := ⟨σ.charge * m.charge⟩

def state (y : State ℝ) : State ℝ := ⟨σ.map y.position, σ.map y.momentum⟩

def step (s : Step ℝ) : Step ℝ := ⟨σ.state s.out, σ.state s.error⟩

def record (r : Record ℝ) : Record ℝ := ⟨σ.state r.state, r.s, r.maxError⟩

/-- One field map is the image of another. -/
def Carries (field image : FieldMap ℝ) : Prop :=
  ∀ position, image (σ.map position) = σ.field (field position)

/-! ## Vectors -/

variable (a b axis : Vec3 ℝ) (k : ℝ)

@[simp] theorem map_zero : σ.map 0 = 0 := by
  rw [← zero_smul ℝ (0 : Vec3 ℝ), σ.map_smul, zero_smul, zero_smul]

theorem map_sub : σ.map (a - b) = σ.map a - σ.map b := by
  rw [sub_eq_add_neg, ← neg_one_smul ℝ b, σ.map_add, σ.map_smul, neg_one_smul, ← sub_eq_add_neg]

theorem map_div : σ.map (a / k) = σ.map a / k := by
  rw [Vec3.div_eq_smul, Vec3.div_eq_smul, σ.map_smul]

@[simp] theorem length_map : (σ.map a).length = a.length := by
  rw [Vec3.length_eq_sqrt, σ.map_dot, Vec3.length_eq_sqrt]

theorem map_ne_zero_iff : σ.map a ≠ 0 ↔ a ≠ 0 := by
  rw [← Vec3.length_pos_iff, σ.length_map, Vec3.length_pos_iff]

theorem direction_map : (σ.map a).direction = σ.map a.direction := by
  by_cases ha : a = 0
  · rw [ha, map_zero, Vec3.direction_zero, map_zero]
  · rw [Vec3.direction_of_ne_zero ha, Vec3.direction_of_ne_zero ((σ.map_ne_zero_iff a).mpr ha),
      length_map, map_div]

/-! ## Fields -/

theorem isSign_field : IsSign (σ.parity * σ.charge) := σ.isSign_parity.mul σ.isSign_charge

theorem field_div : σ.field b / k = σ.field (b / k) := by
  rw [field, field, map_div, Vec3.div_eq_smul, Vec3.div_eq_smul, smul_comm]

theorem field_smul : σ.field (k • b) = k • σ.field b := by
  rw [field, field, σ.map_smul, smul_comm]

theorem field_add : σ.field (a + b) = σ.field a + σ.field b := by
  rw [field, field, field, σ.map_add, smul_add]

@[simp] theorem field_zero : σ.field 0 = 0 := by
  rw [field, map_zero, smul_zero]

@[simp] theorem length_field : (σ.field b).length = b.length := by
  have hsign := σ.isSign_field.abs_mul 1
  rw [mul_one, abs_one] at hsign
  rw [field, Vec3.length_smul, length_map, hsign, one_mul]

/-- Of the two signs of a field, that of the charges is left in a force. -/
theorem map_cross_field : (σ.map a).cross (σ.field b) = σ.charge • σ.map (a.cross b) := by
  have hparity := σ.isSign_parity.mul_self
  rw [field, Vec3.cross_smul, σ.map_cross, smul_smul]
  congr 1
  linear_combination σ.charge * hparity

theorem along_field : (σ.map a).along (σ.field axis) = σ.map (a.along axis) := by
  have hsign := σ.isSign_field.mul_self
  rw [Vec3.along, Vec3.along, field, Vec3.dot_smul, σ.map_dot, smul_smul, σ.map_smul]
  congr 1
  linear_combination a.dot axis * hsign

theorem across_field : (σ.map a).across (σ.field axis) = σ.map (a.across axis) := by
  rw [Vec3.across, Vec3.across, along_field, map_sub]

/-- About the image of an axis the image of a direction turns by the image of an angle, which has the sign
of the charges. -/
theorem turnAcross_field (angle : ℝ) :
    (σ.map a).turnAcross (σ.field axis) (σ.charge * angle) = σ.map (a.turnAcross axis angle) := by
  rw [Vec3.turnAcross_eq, across_field, map_cross_field, σ.isSign_charge.cos_mul,
    σ.isSign_charge.sin_mul, Vec3.turnAcross_eq, σ.map_add, σ.map_smul, σ.map_smul, smul_smul]
  congr 2
  linear_combination Real.sin angle * σ.isSign_charge.mul_self

theorem turn_field (angle : ℝ) :
    (σ.map a).turn (σ.field axis) (σ.charge * angle) = σ.map (a.turn axis angle) := by
  rw [Vec3.turn_eq, along_field, turnAcross_field, Vec3.turn_eq, σ.map_add]

/-! ## States and steps -/

variable (y z : State ℝ)

@[simp] theorem state_zero : σ.state 0 = 0 := State.ext σ.map_zero σ.map_zero

theorem state_add : σ.state (y + z) = σ.state y + σ.state z :=
  State.ext (σ.map_add ..) (σ.map_add ..)

theorem state_sub : σ.state (y - z) = σ.state y - σ.state z :=
  State.ext (σ.map_sub ..) (σ.map_sub ..)

theorem state_smul : σ.state (k • y) = k • σ.state y := State.ext (σ.map_smul ..) (σ.map_smul ..)

theorem step_exact : σ.step (.exact y) = .exact (σ.state y) := by
  rw [step, Step.exact, Step.exact, state_zero]

theorem step_comparing : σ.step (.comparing y z) = .comparing (σ.state y) (σ.state z) := by
  rw [step, Step.comparing, Step.comparing, state_sub]

theorem drift_state (h : ℝ) : (σ.state y).drift h = σ.state (y.drift h) := by
  rw [State.drift, State.drift, state, state, direction_map, σ.map_add, σ.map_smul]

/-! ## Motion -/

variable (m : Motion ℝ)

@[simp] theorem coupling_motion : (σ.motion m).coupling = σ.charge * m.coupling :=
  mul_left_comm _ _ _

theorem curvature_motion (b p : ℝ) :
    (σ.motion m).curvature b p = σ.charge * m.curvature b p := by
  rw [Motion.curvature, Motion.curvature, coupling_motion]
  ring

theorem force_map (momentum : Vec3 ℝ) :
    (σ.motion m).force (σ.map momentum) (σ.field b) = σ.map (m.force momentum b) := by
  rw [Motion.force, Motion.force, direction_map, map_cross_field, coupling_motion, smul_smul,
    σ.map_smul]
  congr 1
  linear_combination m.coupling * σ.isSign_charge.mul_self

variable {σ} in
theorem derivative_state {field image : FieldMap ℝ} (hfield : σ.Carries field image) :
    (σ.motion m).derivative image (σ.state y) = σ.state (m.derivative field y) := by
  apply State.ext
  · exact σ.direction_map _
  · show (σ.motion m).force (σ.map y.momentum) (image (σ.map y.position)) = _
    rw [hfield, force_map]
    rfl

/-! ### The helix -/

theorem chord_sign {e : ℝ} (he : IsSign e) (kappa h : ℝ) :
    Motion.chord (e * kappa) h = Motion.chord kappa h := by
  unfold Motion.chord
  simp only [he.significant_mul]
  split_ifs
  · rcases he with rfl | rfl
    · rw [one_mul]
    · rw [neg_one_mul, neg_mul, mul_neg, Scalar.sin_real, Scalar.sin_real, Real.sin_neg]
      ring
  · rfl

theorem moving_map_iff (momentum : Vec3 ℝ) :
    Significant (σ.field b).length ∧ σ.map momentum ≠ 0 ↔ Significant b.length ∧ momentum ≠ 0 := by
  rw [length_field, map_ne_zero_iff]

/-- The image of a helix is the helix of the image. -/
theorem helix_state (h : ℝ) :
    (σ.motion m).helix (σ.state y) (σ.field b) h = σ.state (m.helix y b h) := by
  by_cases hmoving : Significant b.length ∧ y.momentum ≠ 0
  · have himage : Significant (σ.field b).length ∧ (σ.state y).momentum ≠ 0 :=
      (σ.moving_map_iff b y.momentum).mpr hmoving
    rw [m.helix_of_moving hmoving.1 hmoving.2, (σ.motion m).helix_of_moving himage.1 himage.2]
    have hlength : (σ.state y).momentum.length = y.momentum.length := σ.length_map _
    have hdirection : (σ.state y).momentum / y.momentum.length =
        σ.map (y.momentum / y.momentum.length) := (σ.map_div ..).symm
    set kappa := m.curvature b.length y.momentum.length with hkappa
    have hangle (t : ℝ) : σ.charge * kappa * t = σ.charge * (kappa * t) := mul_assoc _ _ _
    have hhalf (t : ℝ) : 0.5 * (σ.charge * t) = σ.charge * (0.5 * t) := mul_left_comm _ _ _
    simp only [length_field, hlength, field_div, hdirection, curvature_motion, ← hkappa, hangle, hhalf,
      chord_sign σ.isSign_charge, along_field, turnAcross_field, turn_field]
    simp only [state, σ.map_add, σ.map_smul]
  · have himage : ¬ (Significant (σ.field b).length ∧ (σ.state y).momentum ≠ 0) :=
      (σ.moving_map_iff b y.momentum).not.mpr hmoving
    rw [m.helix_of_not_moving hmoving, (σ.motion m).helix_of_not_moving himage, drift_state]

theorem rotate_map (momentum : Vec3 ℝ) (h : ℝ) :
    (σ.motion m).rotate (σ.map momentum) (σ.field b) h = σ.map (m.rotate momentum b h) := by
  by_cases hmoving : Significant b.length ∧ momentum ≠ 0
  · have himage := (σ.moving_map_iff b momentum).mpr hmoving
    rw [m.rotate_of_moving hmoving.1 hmoving.2, (σ.motion m).rotate_of_moving himage.1 himage.2,
      length_map, length_field, ← map_div, field_div, curvature_motion, mul_assoc, turn_field,
      σ.map_smul]
  · have himage := (σ.moving_map_iff b momentum).not.mpr hmoving
    rw [m.rotate_of_not_moving hmoving, (σ.motion m).rotate_of_not_moving himage]

/-! ### Runge-Kutta steps -/

section rungeKutta

variable {σ} {field image : FieldMap ℝ} (hfield : σ.Carries field image)

include hfield

theorem rungeKutta_singleStep (y k1 : State ℝ) (h : ℝ) :
    (RungeKutta.mk (σ.motion m) image).singleStep (σ.state y) (σ.state k1) h =
      σ.state ((RungeKutta.mk m field).singleStep y k1 h) := by
  have hderivative (y : State ℝ) : σ.state ((RungeKutta.mk m field).derivative y) =
      (RungeKutta.mk (σ.motion m) image).derivative (σ.state y) :=
    (derivative_state y m hfield).symm
  simp only [RungeKutta.singleStep, state_add, state_smul, hderivative]

theorem rungeKutta_step (y dydx : State ℝ) (h : ℝ) :
    (RungeKutta.mk (σ.motion m) image).step (σ.state y) (σ.state dydx) h =
      σ.step ((RungeKutta.mk m field).step y dydx h) := by
  have hderivative (y : State ℝ) : (RungeKutta.mk (σ.motion m) image).derivative (σ.state y) =
      σ.state ((RungeKutta.mk m field).derivative y) := derivative_state y m hfield
  simp only [RungeKutta.step, step_comparing, rungeKutta_singleStep m hfield, hderivative]

end rungeKutta

/-! ## Integrators and runs -/

/-- One integrator moves the image of each state as another one moves the state. -/
structure IsImage (i j : Integrator ℝ) : Prop where
  kind : j.kind = i.kind
  derivative : ∀ y, j.derivative (σ.state y) = σ.state (i.derivative y)
  stepWith : ∀ y dydx h, j.stepWith (σ.state y) (σ.state dydx) h = σ.step (i.stepWith y dydx h)

theorem isImage_rungeKutta {field image : FieldMap ℝ} (hfield : σ.Carries field image) :
    σ.IsImage (.rungeKutta ⟨m, field⟩) (.rungeKutta ⟨σ.motion m, image⟩) :=
  ⟨rfl, fun y => derivative_state y m hfield, fun y dydx h => rungeKutta_step m hfield y dydx h⟩

namespace IsImage

variable {σ} {i j : Integrator ℝ} (himage : σ.IsImage i j)

include himage

protected theorem step (y : State ℝ) (h : ℝ) : j.step (σ.state y) h = σ.step (i.step y h) := by
  rw [Integrator.step, himage.derivative, himage.stepWith]
  rfl

theorem after (h : ℝ) (y : State ℝ) (k : ℕ) : j.after h (σ.state y) k = σ.state (i.after h y k) := by
  induction k with
  | zero => rfl
  | succ k ih =>
    rw [Integrator.after_succ, ih, himage.step, Integrator.after_succ]
    rfl

/-- The image of a state leaves the image of its path, and each step has the image of the error. -/
theorem getElem?_track (y : State ℝ) (length : ℝ) (n k : ℕ) :
    (j.track (σ.state y) length n)[k]? = ((i.track y length n)[k]?).map fun record =>
      ⟨σ.state record.state, record.s,
        (σ.step (i.step (i.after (length / n) y k) (length / n))).maxError⟩ := by
  by_cases hk : k < n
  · rw [Integrator.getElem?_track _ _ _ _ _ hk, Integrator.getElem?_track _ _ _ _ _ hk,
      himage.after, himage.after, himage.step]
    rfl
  · rw [List.getElem?_eq_none, List.getElem?_eq_none, Option.map_none]
    · rwa [Integrator.length_track, ← not_lt]
    · rwa [Integrator.length_track, ← not_lt]

/-- The records of the image of a state are the images of its records, for a symmetry that keeps the
largest component of an error. -/
theorem records (hmax : ∀ y : State ℝ, (σ.state y).maxAbs = y.maxAbs) (h : ℝ) (n : ℕ) (y : State ℝ)
    (s : ℝ) : j.records h n (σ.state y) s = (i.records h n y s).map σ.record := by
  induction n generalizing y s with
  | zero => rfl
  | succ n ih =>
    have herror : (σ.step (i.step y h)).maxError = (i.step y h).maxError := hmax _
    rw [Integrator.records, Integrator.records, himage.step, herror, List.map_cons]
    exact congrArg _ (ih (i.step y h).out (s + h))

theorem track (hmax : ∀ y : State ℝ, (σ.state y).maxAbs = y.maxAbs) (y : State ℝ) (length : ℝ)
    (n : ℕ) : j.track (σ.state y) length n = (i.track y length n).map σ.record :=
  himage.records hmax _ n y 0

end IsImage

/-- A state that a symmetry keeps leaves only such states behind, where the symmetry keeps the integrator
too. -/
theorem IsImage.track_fixed {σ : Symmetry} {i : Integrator ℝ} (himage : σ.IsImage i i)
    (hmax : ∀ y : State ℝ, (σ.state y).maxAbs = y.maxAbs) {y : State ℝ} (hy : σ.state y = y)
    (length : ℝ) (n : ℕ) :
    ∀ record ∈ i.track y length n, σ.state record.state = record.state := by
  intro record hrecord
  have hrun := himage.track hmax y length n
  rw [hy] at hrun
  have hkept : (i.track y length n).map σ.record = (i.track y length n).map id := by
    rw [← hrun, List.map_id]
  exact congrArg Record.state (List.map_inj_left.mp hkept record hrecord)

end Symmetry

end BeamTransport
