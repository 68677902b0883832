import BeamTransport.Proofs.Field
import BeamTransport.Proofs.Reflection

/-!
# Magnetic fields under reflections

The image of a field under a reflection is a field of the same kind, whose coefficients get signs. A
bending field gets the signs of the charges and the horizontal axis, a gradient that of the charges: for
these any reflection will do, about a curved orbit too. The higher multipoles are odd or even in the
horizontal offset, order by order, so they ask for a reflection that keeps the horizontal axis; a skew
coefficient then gets the sign of the vertical axis as well.
-/

namespace BeamTransport.Reflection

variable (r : Reflection)

/-! ## Bends and gradients -/

theorem carries_uniform_zero : r.Carries (.uniform 0) (.uniform 0) := by
  intro position
  exact r.field_zero.symm

theorem carries_dipole (base : ℝ) :
    r.Carries (.dipole base) (.dipole (r.charge * r.horizontal * base)) := by
  intro position
  rw [FieldMap.dipole, FieldMap.dipole, FieldMap.uniform, FieldMap.uniform, field_eq, mul_zero,
    mul_zero]

theorem carries_quadrupole (gradient : ℝ) :
    r.Carries (.quadrupole gradient) (.quadrupole (r.charge * gradient)) := by
  intro position
  rw [FieldMap.quadrupole, FieldMap.quadrupole, field_eq, map_x, map_y]
  ext
  · show r.charge * gradient * (r.vertical * position.y) = r.charge * r.vertical * (gradient * position.y)
    ring
  · show r.charge * gradient * (r.horizontal * position.x) =
      r.charge * r.horizontal * (gradient * position.x)
    ring
  · exact (mul_zero _).symm

theorem carries_orbitGradient (f : OrbitFrame ℝ) (gradient : ℝ) :
    r.Carries (.orbitGradient f gradient) (.orbitGradient (r.frame f) (r.charge * gradient)) := by
  intro a
  obtain ⟨k, hpoint⟩ := r.locate_map f a
  set p := f.locate a with hp
  have hnormal : r.charge * gradient * (r.point (f.turns k) p).y * r.horizontal =
      gradient * p.y * (r.parity * r.charge) := by
    show r.charge * gradient * (r.vertical * p.y) * r.horizontal = _
    rw [r.parity_eq]
    ring
  have hvertical : (⟨0, r.charge * gradient * (r.point (f.turns k) p).x, 0⟩ : Vec3 ℝ) =
      r.field ⟨0, gradient * p.x, 0⟩ := by
    rw [field_eq]
    ext
    · exact (mul_zero _).symm
    · show r.charge * gradient * (r.horizontal * p.x) = r.charge * r.horizontal * (gradient * p.x)
      ring
    · exact (mul_zero _).symm
  have hs : (r.point (f.turns k) p).s = p.s + f.turns k := rfl
  rw [FieldMap.orbitGradient, FieldMap.orbitGradient, hpoint, ← hp, hs, frame_normal_turns, smul_smul,
    hnormal, hvertical, r.field_add, r.field_smul, mul_smul]
  rfl

theorem carries_sector (base gradient curvature : ℝ) :
    r.Carries (.sector base gradient curvature)
      (.sector (r.charge * r.horizontal * base) (r.charge * gradient) (r.horizontal * curvature)) := by
  intro position
  rw [FieldMap.sector_eq, FieldMap.sector_eq, r.carries_dipole, frame_ofCurvature,
    r.carries_orbitGradient, r.field_add]

/-! ## Multipoles -/

/-- The image of a multipole, for a reflection that keeps the horizontal axis. -/
noncomputable def multipole (m : Multipole ℝ) : Multipole ℝ where
  normal index := r.charge * m.normal index
  skew index := r.charge * r.vertical * m.skew index

noncomputable def sum (s : Multipole.Sum ℝ) : Multipole.Sum ℝ where
  re := s.re
  im := r.vertical * s.im
  vertical := r.charge * s.vertical
  horizontal := r.charge * r.vertical * s.horizontal

theorem sum_start : r.sum .start = .start := by
  unfold sum Multipole.Sum.start
  simp only [mul_zero]

/-- Reflected upside down, the powers of a point are conjugated. -/
theorem sum_next (m : Multipole ℝ) (x y : ℝ) (s : Multipole.Sum ℝ) (index : Fin 12) :
    Multipole.Sum.next (r.multipole m) x (r.vertical * y) (r.sum s) index =
      r.sum (Multipole.Sum.next m x y s index) := by
  have hsquare := r.isSign_vertical.mul_self
  have hre : s.re * x - r.vertical * s.im * (r.vertical * y) = s.re * x - s.im * y := by
    linear_combination -(s.im * y) * hsquare
  have him : s.re * (r.vertical * y) + r.vertical * s.im * x =
      r.vertical * (s.re * y + s.im * x) := by ring
  simp only [Multipole.Sum.next, sum, multipole, hre, him, mul_div_assoc r.vertical,
    Multipole.Sum.mk.injEq, true_and]
  set re := (s.re * x - s.im * y) / (Scalar.ofNat (index.val + 1) : ℝ)
  set im := (s.re * y + s.im * x) / (Scalar.ofNat (index.val + 1) : ℝ)
  constructor
  · linear_combination -(r.charge * m.skew index * im) * hsquare
  · ring

theorem carries_multipole (hh : r.horizontal = 1) (m : Multipole ℝ) :
    r.Carries m.field (r.multipole m).field := by
  intro position
  have hsum : (List.finRange 12).foldl
      (Multipole.Sum.next (r.multipole m) position.x (r.vertical * position.y)) (r.sum .start) =
      r.sum ((List.finRange 12).foldl (Multipole.Sum.next m position.x position.y) .start) :=
    List.foldl_hom r.sum (r.sum_next m position.x position.y)
  rw [sum_start] at hsum
  rw [Multipole.field, Multipole.field, map_x, map_y, hh, one_mul, hsum, field_eq, hh]
  ext
  · rfl
  · show r.charge * _ = r.charge * 1 * _
    rw [mul_one]
  · exact (mul_zero _).symm

theorem multipole_single (order : ℕ) (coefficient : ℝ) :
    r.multipole (.single order coefficient) = .single order (r.charge * coefficient) := by
  simp only [multipole, Multipole.single, mul_ite, mul_zero]

/-! ## Fields that mix the axes -/

section axes

variable (hh : r.horizontal = 1) (hv : r.vertical = 1)

include hh hv

theorem map_of_axes (a : Vec3 ℝ) : r.map a = a := by
  rw [r.map_eq, hh, hv, one_mul, one_mul]

theorem field_of_axes (b : Vec3 ℝ) : r.field b = r.charge • b := by
  rw [Symmetry.field, r.map_of_axes hh hv, r.parity_eq, hh, hv, one_mul, one_mul]

theorem carries_axial (b : ℝ) : r.Carries (.uniform ⟨0, 0, b⟩) (.uniform ⟨0, 0, r.charge * b⟩) := by
  intro position
  rw [FieldMap.uniform, FieldMap.uniform, r.field_of_axes hh hv]
  ext <;> simp

/-- Turning a field about the axis of the magnet mixes the axes, so both have to be kept. -/
theorem carries_skew (angle : ℝ) {field image : FieldMap ℝ} (hfield : r.Carries field image) :
    r.Carries (.skew angle field) (.skew angle image) := by
  intro position
  have hturned := hfield (position.rotateZ (-angle))
  rw [r.map_of_axes hh hv, r.field_of_axes hh hv] at hturned
  rw [FieldMap.skew, FieldMap.skew, r.map_of_axes hh hv, r.field_of_axes hh hv, hturned,
    Vec3.rotateZ_smul]

end axes

end BeamTransport.Reflection
