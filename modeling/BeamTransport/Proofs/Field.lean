import BeamTransport.Field.Basic
import BeamTransport.Proofs.Frame

/-!
# Fields about an orbit

The field of a sector bend is its bending field and the gradient about its orbit; on the axis of the
magnet only the bending field is left, and without a bend only the gradient. A gradient or a series of
multipoles without coefficients is no field, and a turn leaves it none.
-/

namespace BeamTransport.FieldMap

theorem orbitGradient_zero (frame : OrbitFrame ℝ) (position : Vec3 ℝ) :
    orbitGradient frame 0 position = 0 := by
  rw [orbitGradient]
  ext <;> simp

/-- Across the start of the orbit the field of a gradient is that of a quadrupole. -/
theorem orbitGradient_start (frame : OrbitFrame ℝ) (gradient : ℝ) {x : ℝ}
    (hside : 0 < 1 + frame.curvature * x) (y : ℝ) :
    orbitGradient frame gradient ⟨x, y, 0⟩ = ⟨gradient * y, gradient * x, 0⟩ := by
  rw [orbitGradient, frame.locate_start hside, OrbitFrame.normal_eq]
  ext <;> simp

theorem sector_eq (base gradient curvature : ℝ) (position : Vec3 ℝ) :
    sector base gradient curvature position =
      dipole base position + orbitGradient (.ofCurvature curvature) gradient position := by
  rw [sector, orbitGradient, dipole, uniform]
  ext
  · simp
  · simp only [Vec3.add_y]
    ring
  · simp

theorem sector_start (base gradient curvature : ℝ) :
    sector base gradient curvature ⟨0, 0, 0⟩ = ⟨0, base, 0⟩ := by
  have hside : 0 < 1 + (OrbitFrame.ofCurvature curvature).curvature * 0 := by
    rw [mul_zero, add_zero]
    exact one_pos
  rw [sector, OrbitFrame.locate_start _ hside]
  ext <;> simp

/-- A sector that neither bends nor turns is a quadrupole. -/
theorem sector_straight (gradient : ℝ) : sector 0 gradient 0 = quadrupole gradient := by
  have hframe : OrbitFrame.ofCurvature (0 : ℝ) = ⟨0⟩ := by
    rw [OrbitFrame.ofCurvature, if_neg not_significant_zero]
  have hstraight : (⟨0⟩ : OrbitFrame ℝ).isStraight = true := OrbitFrame.isStraight_iff _ |>.mpr rfl
  funext position
  rw [sector, hframe, OrbitFrame.locate, if_pos hstraight, OrbitFrame.normal_eq, quadrupole]
  ext <;> simp

/-! ## No field -/

theorem quadrupole_zero : quadrupole (0 : ℝ) = uniform 0 := by
  funext position
  rw [quadrupole, uniform, zero_mul, zero_mul]
  rfl

theorem skew_uniform_zero (angle : ℝ) : skew angle (uniform 0) = uniform 0 := by
  funext position
  simp only [skew, uniform]
  ext <;> simp [Vec3.rotateZ]

/-- The powers of the point go on from order to order, but no order adds to the field. -/
theorem multipole_of_zero {m : Multipole ℝ} (hnormal : ∀ index, m.normal index = 0)
    (hskew : ∀ index, m.skew index = 0) : m.field = uniform 0 := by
  funext position
  have hsum : let sum := (List.finRange 12).foldl (Multipole.Sum.next m position.x position.y) .start
      sum.vertical = 0 ∧ sum.horizontal = 0 := by
    refine List.foldlRecOn (motive := fun sum : Multipole.Sum ℝ => sum.vertical = 0 ∧ sum.horizontal = 0)
      _ _ ⟨rfl, rfl⟩ ?_
    rintro sum ⟨hvertical, hhorizontal⟩ index -
    simp [Multipole.Sum.next, hvertical, hhorizontal, hnormal, hskew]
  rw [Multipole.field, hsum.1, hsum.2]
  rfl

end BeamTransport.FieldMap
