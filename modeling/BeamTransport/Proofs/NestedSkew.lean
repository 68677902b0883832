import BeamTransport.Proofs.Rotation

/-!
# Skew fields of skew fields

A skew field takes the field inside it at the position turned back and turns what it finds, so two of them,
one inside the other, turn by both angles, back as well as forth (`FieldMap.skew_skew`). Fields are thus
acted on by the angles as vectors are, and any nest of skew fields is a single one
(`FieldMap.skew_angles_add_up`).
-/

namespace BeamTransport

/-- A full turn leads back. -/
theorem Vec3.rotateZ_two_pi (a : Vec3 ℝ) : a.rotateZ (2 * Real.pi) = a := by
  rw [rotateZ_eq, Real.cos_two_pi, Real.sin_two_pi]
  ext <;> simp

namespace FieldMap

variable (field : FieldMap ℝ)

/-- The positions are turned back by the angle outside first, and the field is turned by it last. -/
theorem skew_skew (inside outside : ℝ) :
    skew outside (skew inside field) = skew (inside + outside) field := by
  funext position
  have hback : (position.rotateZ (-outside)).rotateZ (-inside) = position.rotateZ (-(inside + outside)) := by
    rw [Vec3.rotateZ_rotateZ, neg_add_rev]
  calc skew outside (skew inside field) position
      = ((field ((position.rotateZ (-outside)).rotateZ (-inside))).rotateZ inside).rotateZ outside := rfl
    _ = ((field (position.rotateZ (-(inside + outside)))).rotateZ inside).rotateZ outside := by rw [hback]
    _ = (field (position.rotateZ (-(inside + outside)))).rotateZ (inside + outside) :=
      Vec3.rotateZ_rotateZ _ _ _

@[simp] theorem skew_zero : skew 0 field = field := by
  funext position
  rw [skew, neg_zero, Vec3.rotateZ_zero, Vec3.rotateZ_zero]

theorem skew_neg_skew (angle : ℝ) : skew (-angle) (skew angle field) = field := by
  rw [skew_skew, add_neg_cancel, skew_zero]

theorem skew_two_pi : skew (2 * Real.pi) field = field := by
  have hback (position : Vec3 ℝ) : position.rotateZ (-(2 * Real.pi)) = position := by
    conv_lhs => rw [← position.rotateZ_two_pi]
    rw [Vec3.rotateZ_rotateZ, add_neg_cancel, Vec3.rotateZ_zero]
  funext position
  rw [skew, Vec3.rotateZ_two_pi, hback]

/-- A field inside skew fields, the angle of the innermost one first. -/
noncomputable def nested (angles : List ℝ) : FieldMap ℝ :=
  angles.foldl (fun inside angle => skew angle inside) field

theorem nested_eq_skew_sum (angles : List ℝ) : field.nested angles = skew angles.sum field := by
  induction angles generalizing field with
  | nil => rw [nested, List.foldl_nil, List.sum_nil, skew_zero]
  | cons angle angles ih =>
    calc field.nested (angle :: angles) = (skew angle field).nested angles := rfl
      _ = skew angles.sum (skew angle field) := ih (skew angle field)
      _ = skew (angle :: angles).sum field := by rw [skew_skew, List.sum_cons]

/-- The angles of skew fields add up: a skew field inside another one is the skew field of the sum of their
angles, no angle or a full turn leaves a field as it is, an angle undoes its opposite, and a nest of any depth
is the skew field of the sum of all its angles. -/
theorem skew_angles_add_up (field : FieldMap ℝ) :
    (∀ a b position, skew b (skew a field) position = skew (a + b) field position) ∧
    skew 0 field = field ∧
    (∀ a, skew (-a) (skew a field) = field) ∧
    skew (2 * Real.pi) field = field ∧
    ∀ angles, field.nested angles = skew angles.sum field :=
  ⟨fun a b position => congrFun (field.skew_skew a b) position, field.skew_zero, field.skew_neg_skew,
    field.skew_two_pi, field.nested_eq_skew_sum⟩

end FieldMap

end BeamTransport
