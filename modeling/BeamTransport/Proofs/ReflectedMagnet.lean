import BeamTransport.Proofs.FollowedField
import BeamTransport.Proofs.ReflectedIntegrator

/-!
# Magnets under reflections

The image of a magnet under a reflection has the rigidity with the sign of the charges and the geometry
with the sign of the horizontal axis. It is built into the image of its integrator wherever its field is
the image of its field (`Reflection.integrator_magnet`), which every kind of magnet grants to some
reflections (`Reflection.Suits`). There are three to look at: reversed charges
(`Magnet.opposite_charge_and_rigidity_track_alike`), left and right exchanged
(`Magnet.opposite_bends_mirror`), and up and down exchanged (`Magnet.midplane_kept`).
-/

namespace BeamTransport

/-! ## Geometry -/

theorem IsSign.fringeCorrection_mul {e : ℝ} (he : IsSign e) (radius poleFace integral halfGap : ℝ) :
    fringeCorrection (e * radius) (e * poleFace) integral halfGap =
      e * fringeCorrection radius poleFace integral halfGap := by
  unfold fringeCorrection
  simp only [he.significant_mul, Scalar.sin_real, Scalar.cos_real, he.sin_mul, he.cos_mul]
  split_ifs
  · have hsquare : e * Real.sin poleFace * (e * Real.sin poleFace) =
        Real.sin poleFace * Real.sin poleFace := by
      linear_combination Real.sin poleFace * Real.sin poleFace * he.mul_self
    rw [hsquare, mul_assoc e, he.div_mul]
  · rw [mul_zero]

namespace Reflection

variable (r : Reflection)

/-- The image of a geometry: the angle and the pole faces get the sign of the horizontal axis. -/
def geometry (g : BendGeometry ℝ) : BendGeometry ℝ :=
  { g with
    angle := r.horizontal * g.angle
    entranceFace := r.horizontal * g.entranceFace
    exitFace := r.horizontal * g.exitFace }

section geometry

variable (g : BendGeometry ℝ)

theorem isBent_geometry : (r.geometry g).isBent = g.isBent := by
  unfold BendGeometry.isBent geometry
  simp only [r.isSign_horizontal.significant_mul]

theorem curvature_geometry : (r.geometry g).curvature = r.horizontal * g.curvature := by
  unfold BendGeometry.curvature
  rw [isBent_geometry]
  split_ifs
  · exact mul_div_assoc _ _ _
  · exact (mul_zero _).symm

theorem field_geometry (rigidity : ℝ) :
    (r.geometry g).field (r.charge * rigidity) = r.charge * r.horizontal * g.field rigidity := by
  rw [BendGeometry.field, BendGeometry.field, curvature_geometry]
  ring

theorem radius_geometry : (r.geometry g).radius? = g.radius?.map (r.horizontal * ·) := by
  unfold BendGeometry.radius?
  rw [isBent_geometry]
  split_ifs
  · exact congrArg some (r.isSign_horizontal.div_mul g.angle g.arcLength)
  · rfl

theorem poleFace_geometry (face : Face) :
    (r.geometry g).poleFace face = r.horizontal * g.poleFace face := by
  cases face <;> rfl

theorem correction_geometry (face : Face) :
    (r.geometry g).correction face = r.horizontal * g.correction face := by
  unfold BendGeometry.correction
  rw [radius_geometry, poleFace_geometry]
  cases g.radius? with
  | none => exact (mul_zero _).symm
  | some radius => exact r.isSign_horizontal.fringeCorrection_mul radius _ _ _

end geometry

/-! ## Integrators of a geometry -/

section ofMagnet

variable (motion : Motion ℝ) (strengths : Strengths ℝ) (g : BendGeometry ℝ) (rigidity : ℝ)
  (context : Context ℝ)

theorem dipole_ofMagnet :
    Dipole.ofMagnet (r.motion motion) strengths (r.geometry g) (r.charge * rigidity) =
      r.dipole (.ofMagnet motion strengths g rigidity) := by
  unfold Dipole.ofMagnet dipole
  rw [field_geometry, curvature_geometry, frame_ofCurvature, mul_left_comm]
  rfl

theorem edge_ofMagnet (face : Face) :
    DipoleFringe.ofMagnet (r.motion motion) strengths (r.geometry g) face (r.charge * rigidity) context =
      r.edge (.ofMagnet motion strengths g face rigidity context) := by
  unfold DipoleFringe.ofMagnet edge
  rw [dipole_ofMagnet, poleFace_geometry, correction_geometry]

theorem matrix_ofMagnet :
    DipoleQuadrupole.ofMagnet (r.motion motion) strengths (r.geometry g) (r.charge * rigidity) context =
      r.matrix (.ofMagnet motion strengths g rigidity context) := by
  have hbackup := eq_fieldMap (r.carries_sector (g.field rigidity) (strengths.get .k1 * rigidity)
    g.curvature)
  unfold DipoleQuadrupole.ofMagnet Dipole.withoutGradient matrix
  simp only [dipole_ofMagnet, field_geometry, curvature_geometry, frame_ofCurvature,
    mul_left_comm (strengths.get .k1) r.charge, hbackup]

end ofMagnet

/-! ## Magnets -/

noncomputable def magnet (m : Magnet ℝ) : Magnet ℝ :=
  { m with
    rigidity := r.charge * m.rigidity
    geometry := r.geometry m.geometry }

/-- What the field of a magnet asks of a reflection. -/
def Suits (m : Magnet ℝ) : Prop :=
  match m.kind with
  | .solenoid | .skewQuadrupole | .skewSextupole | .skewOctupole | .skewDecapole =>
    r.horizontal = 1 ∧ r.vertical = 1
  | .sextupole | .octupole | .decapole => r.horizontal = 1
  | .multipole =>
    r.horizontal = 1 ∧ ∀ index, r.vertical * m.strengths.get (.skew index) = m.strengths.get (.skew index)
  | _ => True

section magnet

variable {r} {m : Magnet ℝ} (set : IntegratorSet) (motion : Motion ℝ) (context : Context ℝ)

theorem check_magnet (hcheck : m.check = .ok ()) : (r.magnet m).check = .ok () := by
  rw [Magnet.check_eq_ok_iff] at hcheck ⊢
  obtain ⟨hrigidity, hlength, hangle⟩ := hcheck
  refine ⟨mul_ne_zero r.isSign_charge.ne_zero hrigidity, hlength, ?_⟩
  intro hsignificant
  exact hangle ((r.isSign_horizontal.significant_mul _).mp hsignificant)

theorem coefficient_magnet (order : ℕ) :
    (r.magnet m).coefficient order = r.charge * m.coefficient order := by
  unfold Magnet.coefficient
  cases StrengthKey.normal? order with
  | none => exact (mul_zero _).symm
  | some key => exact mul_left_comm _ _ _

theorem multipole_ofStrengths (strengths : Strengths ℝ) (rigidity : ℝ)
    (hskew : ∀ index, r.vertical * strengths.get (.skew index) = strengths.get (.skew index)) :
    Multipole.ofStrengths strengths (r.charge * rigidity) =
      r.multipole (.ofStrengths strengths rigidity) := by
  unfold Multipole.ofStrengths multipole
  simp only [Multipole.mk.injEq]
  constructor
  · funext index
    exact mul_left_comm _ _ _
  · funext index
    show strengths.get (.skew index) * (r.charge * rigidity) =
      r.charge * r.vertical * (strengths.get (.skew index) * rigidity)
    linear_combination -(r.charge * rigidity) * hskew index

theorem carries_single (hh : r.horizontal = 1) (order : ℕ) (coefficient : ℝ) :
    r.Carries (Multipole.single order coefficient).field
      (Multipole.single order (r.charge * coefficient)).field := by
  have hfield := r.carries_multipole hh (.single order coefficient)
  rwa [multipole_single] at hfield

/-- The field of the image of a magnet is the image of its field. -/
theorem field_magnet (hsuits : r.Suits m) : (r.magnet m).field? = m.field?.map r.fieldMap := by
  have hcoefficient (order : ℕ) : (r.magnet m).coefficient order = r.charge * m.coefficient order :=
    coefficient_magnet order
  have hbend : (r.magnet m).geometry.field (r.magnet m).rigidity =
      r.charge * r.horizontal * m.geometry.field m.rigidity := r.field_geometry m.geometry m.rigidity
  have hcurvature : (r.magnet m).geometry.curvature = r.horizontal * m.geometry.curvature :=
    r.curvature_geometry m.geometry
  have hkind : (r.magnet m).kind = m.kind := rfl
  unfold Magnet.field?
  rw [hkind]
  simp only [hcoefficient, hbend, hcurvature]
  unfold Suits at hsuits
  cases hm : m.kind with
  | none => exact congrArg some (eq_fieldMap r.carries_uniform_zero)
  | dipole | dipoleFringe => exact congrArg some (eq_fieldMap (r.carries_dipole _))
  | dipoleQuadrupole => exact congrArg some (eq_fieldMap (r.carries_sector _ _ _))
  | quadrupole => exact congrArg some (eq_fieldMap (r.carries_quadrupole _))
  | sextupole | octupole | decapole =>
    rw [hm] at hsuits
    exact congrArg some (eq_fieldMap (carries_single hsuits _ _))
  | multipole =>
    rw [hm] at hsuits
    have hseries := multipole_ofStrengths m.strengths m.rigidity hsuits.2
    have hfield := r.carries_multipole hsuits.1 (.ofStrengths m.strengths m.rigidity)
    rw [← hseries] at hfield
    exact congrArg some (eq_fieldMap hfield)
  | solenoid =>
    rw [hm] at hsuits
    exact congrArg some (eq_fieldMap (r.carries_axial hsuits.1 hsuits.2 _))
  | skewQuadrupole =>
    rw [hm] at hsuits
    exact congrArg some (eq_fieldMap (r.carries_skew hsuits.1 hsuits.2 _ (r.carries_quadrupole _)))
  | skewSextupole | skewOctupole | skewDecapole =>
    rw [hm] at hsuits
    have hnormal := carries_single hsuits.1
    exact congrArg some (eq_fieldMap (r.carries_skew hsuits.1 hsuits.2 _ (hnormal _ _)))
  | muonSpoiler | rfCavity | rf | general => rfl

theorem integratorOf_magnet (hsuits : r.Suits m) (kind : IntegratorKind) :
    (r.magnet m).integratorOf (r.motion motion) context kind =
      (m.integratorOf motion context kind).map r.integrator := by
  cases kind with
  | drift => rfl
  | dipole =>
    have hdipole := r.dipole_ofMagnet motion m.strengths m.geometry m.rigidity
    exact congrArg (fun d => Except.ok (Integrator.dipole d)) hdipole
  | dipoleFringe =>
    have hedge := r.edge_ofMagnet motion m.strengths m.geometry m.rigidity context m.face
    exact congrArg (fun e => Except.ok (Integrator.dipoleFringe e)) hedge
  | dipoleQuadrupole =>
    have hmatrix := r.matrix_ofMagnet motion m.strengths m.geometry m.rigidity context
    exact congrArg (fun q => Except.ok (Integrator.dipoleQuadrupole q)) hmatrix
  | rungeKutta =>
    rw [Magnet.integratorOf, Magnet.integratorOf, Magnet.field, Magnet.field, field_magnet hsuits]
    cases m.field? with
    | none => rfl
    | some field => rfl

/-- The image of a magnet is built into the image of its integrator, and fails where the magnet fails. -/
theorem integrator_magnet (hcheck : m.check = .ok ()) (hsuits : r.Suits m) :
    (r.magnet m).integrator set (r.motion motion) context =
      (m.integrator set motion context).map r.integrator := by
  rw [Magnet.integrator, Magnet.integrator, hcheck, check_magnet hcheck]
  exact integratorOf_magnet motion context hsuits (set.integratorFor m.kind)

theorem exists_image (hcheck : m.check = .ok ()) (hsuits : r.Suits m) {i : Integrator ℝ}
    (hi : m.integrator set motion context = .ok i) : ∃ j,
    (r.magnet m).integrator set (r.motion motion) context = .ok j ∧ r.IsImage i j := by
  refine ⟨r.integrator i, ?_, r.isImage_integrator i⟩
  rw [integrator_magnet set motion context hcheck hsuits, hi]
  rfl

end magnet

end Reflection

end BeamTransport
