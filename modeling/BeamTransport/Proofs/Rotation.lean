import BeamTransport.Proofs.Symmetry

/-!
# Rotations about the axis of a magnet

Turning vectors about the third axis keeps scalar and vector products, so it is a symmetry, and the field
that it carries a field to is the skew one (`Symmetry.carries_skew`). Hence the paths through a skew field
are those through the plain field, turned by the same angle (`RungeKutta.tracks_turn_with_field`).
-/

namespace BeamTransport

/-! ## Turned vectors -/

namespace Vec3

variable (a b : Vec3 ℝ) (angle : ℝ)

theorem rotateZ_eq : a.rotateZ angle =
    ⟨a.x * Real.cos angle - a.y * Real.sin angle, a.x * Real.sin angle + a.y * Real.cos angle, a.z⟩ := by
  rw [rotateZ]
  ext
  · simp only [add_x, smul_x, Scalar.cos_real, Scalar.sin_real]
    ring
  · simp only [add_y, smul_y, Scalar.cos_real, Scalar.sin_real]
    ring
  · simp only [add_z, smul_z]
    ring

theorem rotateZ_add : (a + b).rotateZ angle = a.rotateZ angle + b.rotateZ angle := by
  simp only [rotateZ_eq]
  ext
  · simp only [add_x, add_y]
    ring
  · simp only [add_x, add_y]
    ring
  · rfl

theorem rotateZ_dot : (a.rotateZ angle).dot (b.rotateZ angle) = a.dot b := by
  have hsq := Real.cos_sq_add_sin_sq angle
  simp only [rotateZ_eq, dot]
  linear_combination (a.x * b.x + a.y * b.y) * hsq

theorem rotateZ_cross :
    (a.rotateZ angle).cross (b.rotateZ angle) = (a.cross b).rotateZ angle := by
  have hsq := Real.cos_sq_add_sin_sq angle
  simp only [rotateZ_eq, cross]
  ext
  · ring
  · ring
  · dsimp only
    linear_combination (a.x * b.y - b.x * a.y) * hsq

/-- Angles of turns add up. -/
theorem rotateZ_rotateZ (further : ℝ) :
    (a.rotateZ angle).rotateZ further = a.rotateZ (angle + further) := by
  simp only [rotateZ_eq, Real.cos_add, Real.sin_add]
  ext
  · dsimp only
    ring
  · dsimp only
    ring
  · rfl

@[simp] theorem rotateZ_zero : a.rotateZ 0 = a := by
  rw [rotateZ_eq, Real.cos_zero, Real.sin_zero]
  ext <;> simp

end Vec3

/-- A state turned about the axis of the magnet, position and momentum alike. -/
noncomputable def State.rotateZ (y : State ℝ) (angle : ℝ) : State ℝ :=
  ⟨y.position.rotateZ angle, y.momentum.rotateZ angle⟩

/-! ## The symmetry -/

namespace Symmetry

noncomputable def rotation (angle : ℝ) : Symmetry where
  map a := a.rotateZ angle
  parity := 1
  charge := 1
  map_add a b := a.rotateZ_add b angle
  map_smul k a := a.rotateZ_smul k angle
  map_dot a b := a.rotateZ_dot b angle
  map_cross a b := by rw [Vec3.rotateZ_cross, one_smul]
  isSign_parity := .one
  isSign_charge := .one

variable (angle : ℝ)

theorem rotation_motion (motion : Motion ℝ) : (rotation angle).motion motion = motion :=
  congrArg Motion.mk (one_mul motion.charge)

theorem rotation_field (b : Vec3 ℝ) : (rotation angle).field b = b.rotateZ angle := by
  show ((1 : ℝ) * 1) • b.rotateZ angle = _
  rw [mul_one, one_smul]

/-- The image of a field under a rotation is the skew field of its angle. -/
theorem carries_skew (field : FieldMap ℝ) : (rotation angle).Carries field (.skew angle field) := by
  intro position
  show (field ((position.rotateZ angle).rotateZ (-angle))).rotateZ angle = _
  rw [Vec3.rotateZ_rotateZ, add_neg_cancel, Vec3.rotateZ_zero, rotation_field]

end Symmetry

/-- Paths through a skew field are those through the plain field, turned: so are the change of a state
along the path, a step and its error, and each record of a run, with the largest component of the turned
error of its step. -/
theorem RungeKutta.tracks_turn_with_field (motion : Motion ℝ) (field : FieldMap ℝ) (angle : ℝ) :
    let plain : Integrator ℝ := .rungeKutta ⟨motion, field⟩
    let turned : Integrator ℝ := .rungeKutta ⟨motion, FieldMap.skew angle field⟩
    (∀ y, turned.derivative (y.rotateZ angle) = (plain.derivative y).rotateZ angle) ∧
      (∀ y h, turned.step (y.rotateZ angle) h =
        ⟨(plain.step y h).out.rotateZ angle, (plain.step y h).error.rotateZ angle⟩) ∧
      ∀ y length (n k : ℕ), (turned.track (y.rotateZ angle) length n)[k]? =
        ((plain.track y length n)[k]?).map fun record =>
          ⟨record.state.rotateZ angle, record.s,
            ((plain.step (plain.after (length / n) y k) (length / n)).error.rotateZ angle).maxAbs⟩ := by
  intro plain turned
  have himage : (Symmetry.rotation angle).IsImage plain turned := by
    have hskew := (Symmetry.rotation angle).isImage_rungeKutta motion
      (Symmetry.carries_skew angle field)
    rwa [Symmetry.rotation_motion] at hskew
  exact ⟨himage.derivative, himage.step, himage.getElem?_track⟩

end BeamTransport
