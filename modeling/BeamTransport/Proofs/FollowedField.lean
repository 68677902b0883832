import BeamTransport.Proofs.Field
import BeamTransport.Proofs.Magnet

/-!
# The field that an integrator follows

An integrator follows a field when its derivative is the motion of the charge in that field
(`Integrator.Follows`). `Magnet.followed?` is the field that each algorithm follows through a magnet;
so integrator sets agree on a magnet exactly where these fields do. For a bend with a gradient they
always do (`Magnet.sets_agree_on_dipole_quadrupole`). For a plain bend and for an edge, Runge-Kutta
follows the bending field alone and the other algorithms the gradient of the strength record too, so
sets of the two sorts agree only without a gradient or a charge (`Magnet.sets_agree_on_bend_iff`). For a
quadrupole the matrix follows the bend of the geometry too, and the other sets do not
(`Magnet.sets_agree_on_quadrupole_iff`).
-/

namespace BeamTransport

/-- The derivative of an integrator is the motion in a field. -/
def Integrator.Follows (i : Integrator ℝ) (motion : Motion ℝ) (field : FieldMap ℝ) : Prop :=
  ∀ y, i.derivative y = motion.derivative field y

theorem Motion.coupling_eq_zero_iff (motion : Motion ℝ) :
    motion.coupling = 0 ↔ motion.charge = 0 := by
  have hlight : (speedOfLight : ℝ) ≠ 0 := by norm_num [speedOfLight]
  rw [coupling, mul_eq_zero_iff_left hlight]

theorem Motion.derivative_forward (motion : Motion ℝ) (field : FieldMap ℝ) {position : Vec3 ℝ}
    {b : ℝ} (hfield : field position = ⟨0, b, 0⟩) :
    (motion.derivative field ⟨position, ⟨0, 0, 1⟩⟩).momentum = ⟨-(motion.coupling * b), 0, 0⟩ := by
  have hdirection : (⟨0, 0, 1⟩ : Vec3 ℝ).direction = ⟨0, 0, 1⟩ := by
    have hunit : (⟨0, 0, 1⟩ : Vec3 ℝ).dot ⟨0, 0, 1⟩ = 1 := by simp [Vec3.dot]
    have hscaled := Vec3.direction_smul hunit one_pos
    rwa [one_smul] at hscaled
  rw [derivative, hdirection, hfield]
  ext <;> simp [Vec3.cross]

/-! ## The whole field of a bend -/

namespace Dipole

variable (d : Dipole ℝ)

/-- The bending field and the field of the gradient. -/
noncomputable def wholeField : FieldMap ℝ := fun position =>
  d.fieldVector + d.gradientField position

theorem gradientField_of_not_significant (hgradient : ¬ Significant d.gradient)
    (position : Vec3 ℝ) : d.gradientField position = 0 := if_neg hgradient

theorem wholeField_of_not_significant (hgradient : ¬ Significant d.gradient) :
    d.wholeField = FieldMap.dipole d.field := by
  funext position
  rw [wholeField, d.gradientField_of_not_significant hgradient, add_zero]
  rfl

/-- A bend whose gradient is none or significant has the field of a sector. -/
theorem wholeField_eq_sector (hgradient : d.gradient = 0 ∨ Significant d.gradient) {curvature : ℝ}
    (hframe : d.frame = .ofCurvature curvature) :
    d.wholeField = FieldMap.sector d.field d.gradient curvature := by
  funext position
  rw [FieldMap.sector_eq, ← hframe]
  -- A bend drops a gradient that is not significant and a sector does not, so it has to be none.
  rcases hgradient with hnone | hgradient
  · rw [d.wholeField_of_not_significant (hnone ▸ not_significant_zero), hnone,
      FieldMap.orbitGradient_zero, add_zero]
  · rw [wholeField, gradientField, if_pos hgradient]
    rfl

theorem wholeField_start (hgradient : Significant d.gradient) {x : ℝ}
    (hside : 0 < 1 + d.frame.curvature * x) :
    d.wholeField ⟨x, 0, 0⟩ = ⟨0, d.field + d.gradient * x, 0⟩ := by
  rw [wholeField, gradientField, if_pos hgradient, FieldMap.orbitGradient,
    d.frame.locate_start hside]
  ext <;> simp [fieldVector]

/-- A charge notices every significant gradient. -/
theorem derivative_wholeField_eq_iff (motion : Motion ℝ) :
    (∀ y, motion.derivative d.wholeField y = motion.derivative (FieldMap.dipole d.field) y) ↔
      ¬ Significant d.gradient ∨ motion.charge = 0 := by
  constructor
  · intro hsame
    by_contra! hseen
    obtain ⟨hgradient, hcharge⟩ := hseen
    -- On the side of the orbit away from its centre the gradient adds to the horizontal force.
    set x : ℝ := Scalar.sign d.frame.curvature with hx
    have hside : 0 < 1 + d.frame.curvature * x := by
      rw [mul_comm, Scalar.sign_mul_self]
      positivity
    have hforce := congrArg (fun rate => rate.momentum.x) (hsame ⟨⟨x, 0, 0⟩, ⟨0, 0, 1⟩⟩)
    simp only [motion.derivative_forward d.wholeField (d.wholeField_start hgradient hside),
      motion.derivative_forward (FieldMap.dipole d.field) rfl] at hforce
    have hproduct : motion.coupling * (d.gradient * x) = 0 := by
      linear_combination -hforce
    have hx0 : x ≠ 0 := left_ne_zero_of_mul_eq_one (Scalar.sign_mul_sign d.frame.curvature)
    have hcoupling := mt motion.coupling_eq_zero_iff.mp hcharge
    exact mul_ne_zero hcoupling (mul_ne_zero hgradient.ne_zero hx0) hproduct
  · rintro (hgradient | hcharge) y
    · rw [d.wholeField_of_not_significant hgradient]
    · have hcoupling := motion.coupling_eq_zero_iff.mpr hcharge
      rw [Motion.derivative, Motion.derivative, hcoupling, zero_smul, zero_smul]

end Dipole

/-! ## The integrators of a magnet -/

namespace Magnet

variable {magnet : Magnet ℝ} (motion : Motion ℝ) (context : Context ℝ)

/-- The field that an algorithm follows through a magnet; only Runge-Kutta takes it from the field map
of the kind. -/
noncomputable def followed? (magnet : Magnet ℝ) (motion : Motion ℝ) :
    IntegratorKind → Option (FieldMap ℝ)
  | .drift => some (.uniform 0)
  | .dipole | .dipoleFringe =>
    some (Dipole.ofMagnet motion magnet.strengths magnet.geometry magnet.rigidity).wholeField
  | .dipoleQuadrupole =>
    some (.sector (magnet.geometry.field magnet.rigidity)
      (magnet.strengths.get .k1 * magnet.rigidity) magnet.geometry.curvature)
  | .rungeKutta => magnet.field?

theorem integratorOf_follows {kind : IntegratorKind} {field : FieldMap ℝ}
    (hfield : magnet.followed? motion kind = some field) : ∃ i,
    magnet.integratorOf motion context kind = .ok i ∧ i.Follows motion field := by
  cases kind with
  | drift =>
    obtain rfl := Option.some.inj hfield
    refine ⟨_, rfl, fun y => ?_⟩
    refine State.ext rfl ?_
    ext <;> simp [Integrator.derivative, State.driftDerivative, Motion.derivative,
      FieldMap.uniform, Vec3.cross]
  | dipole | dipoleFringe | dipoleQuadrupole =>
    obtain rfl := Option.some.inj hfield
    exact ⟨_, rfl, fun y => rfl⟩
  | rungeKutta =>
    have hmap : magnet.field = .ok field := by
      rw [Magnet.field, show magnet.field? = some field from hfield]
    exact ⟨.rungeKutta ⟨motion, field⟩, by rw [integratorOf, hmap]; rfl, fun y => rfl⟩

theorem integrator_follows (hcheck : magnet.check = .ok ()) {set : IntegratorSet}
    {field : FieldMap ℝ}
    (hfield : magnet.followed? motion (set.integratorFor magnet.kind) = some field) : ∃ i,
    magnet.integrator set motion context = .ok i ∧ i.Follows motion field := by
  obtain ⟨i, hi, hfollows⟩ := integratorOf_follows motion context hfield
  refine ⟨i, ?_, hfollows⟩
  rw [integrator, hcheck]
  exact hi

/-! ## Bends with a gradient -/

theorem followed?_dipoleQuadrupole (hkind : magnet.kind = .dipoleQuadrupole)
    (hgradient : magnet.strengths.get .k1 * magnet.rigidity = 0 ∨
      Significant (magnet.strengths.get .k1 * magnet.rigidity)) (profile : Profile) :
    magnet.followed? motion (profile.set.integratorFor magnet.kind) =
      some (.sector (magnet.geometry.field magnet.rigidity)
        (magnet.strengths.get .k1 * magnet.rigidity) magnet.geometry.curvature) := by
  have hdipole := (Dipole.ofMagnet motion magnet.strengths magnet.geometry
    magnet.rigidity).wholeField_eq_sector hgradient rfl
  have hmap : magnet.field? = some (.sector (magnet.geometry.field magnet.rigidity)
      (magnet.strengths.get .k1 * magnet.rigidity) magnet.geometry.curvature) := by
    rw [field?, hkind]
    rfl
  rw [hkind]
  cases profile with
  | geant4 => exact hmap
  | bdsimOne | bdsimTwo => exact congrArg some hdipole
  | bdsimMatrix => rfl

/-- The integrator set decides how a bend with a gradient is followed, not its field: all four sets
build an integrator for it, and any two of these have the same derivative at every state. -/
theorem sets_agree_on_dipole_quadrupole (magnet : Magnet ℝ)
    (hkind : magnet.kind = .dipoleQuadrupole) (hcheck : magnet.check = .ok ())
    (hgradient : magnet.strengths.get .k1 * magnet.rigidity = 0 ∨
      Significant (magnet.strengths.get .k1 * magnet.rigidity))
    (motion : Motion ℝ) (context : Context ℝ) (a b : Profile) : ∃ i j,
    magnet.integrator a.set motion context = .ok i ∧
      magnet.integrator b.set motion context = .ok j ∧
      ∀ y, i.derivative y = j.derivative y := by
  have hfollowed := followed?_dipoleQuadrupole motion hkind hgradient
  obtain ⟨i, hi, hfollowsA⟩ := integrator_follows motion context hcheck (hfollowed a)
  obtain ⟨j, hj, hfollowsB⟩ := integrator_follows motion context hcheck (hfollowed b)
  exact ⟨i, j, hi, hj, fun y => (hfollowsA y).trans (hfollowsB y).symm⟩

/-- A bend of negative curvature with a gradient, for a negative charge. -/
theorem sets_agree_on_tight_dipole_quadrupole :
    let magnet : Magnet ℝ :=
      ⟨.dipoleQuadrupole, -3, Strengths.empty.set .k1 4, ⟨2, -10, 1, 2, 1, 1⟩, .entrance⟩
    magnet.kind = .dipoleQuadrupole ∧ magnet.check = .ok () ∧
      Significant (magnet.strengths.get .k1 * magnet.rigidity) ∧ ∃ i j,
      magnet.integrator Profile.geant4.set ⟨-1⟩ .standard = .ok i ∧
        magnet.integrator Profile.bdsimTwo.set ⟨-1⟩ .standard = .ok j ∧
        ∀ y, i.derivative y = j.derivative y := by
  intro magnet
  have hcheck : magnet.check = .ok () := check_eq_ok_iff.mpr
    ⟨by norm_num [magnet], by norm_num [magnet],
      fun _ => significant_of_one_le (by norm_num [magnet])⟩
  have hgradient : Significant (magnet.strengths.get .k1 * magnet.rigidity) :=
    significant_of_one_le (by norm_num [magnet, Strengths.get_set])
  exact ⟨rfl, hcheck, hgradient,
    sets_agree_on_dipole_quadrupole magnet rfl hcheck (Or.inr hgradient) ⟨-1⟩ .standard .geant4
      .bdsimTwo⟩

/-! ## Plain bends and edges -/

/-- Through a plain bend or an edge, the set without algorithms of its own follows the bending field,
and the others the whole field. -/
theorem followed?_bend (hkind : magnet.kind = .dipole ∨ magnet.kind = .dipoleFringe)
    (profile : Profile) :
    magnet.followed? motion (profile.set.integratorFor magnet.kind) =
      some (if profile = .geant4 then FieldMap.dipole (magnet.geometry.field magnet.rigidity)
        else (Dipole.ofMagnet motion magnet.strengths magnet.geometry magnet.rigidity).wholeField) := by
  have hmap : magnet.field? = some (.dipole (magnet.geometry.field magnet.rigidity)) := by
    rcases hkind with hkind | hkind <;> rw [field?, hkind]
  rcases hkind with hkind | hkind
  · rw [hkind]
    cases profile with
    | geant4 => exact hmap
    | bdsimOne | bdsimTwo | bdsimMatrix => rfl
  · rw [hkind]
    cases profile with
    | geant4 => exact hmap
    | bdsimOne | bdsimTwo | bdsimMatrix => rfl

/-- Where one set follows a field of its own and the others share one, two sets agree exactly if
neither or both are that one, or the motion is the same in both fields. -/
theorem sets_agree_iff_of_followed (hcheck : magnet.check = .ok ()) {special : Profile}
    {own shared : FieldMap ℝ}
    (hfollowed : ∀ profile : Profile, magnet.followed? motion (profile.set.integratorFor magnet.kind) =
      some (if profile = special then own else shared)) (a b : Profile) : ∃ i j,
    magnet.integrator a.set motion context = .ok i ∧
      magnet.integrator b.set motion context = .ok j ∧
      ((∀ y, i.derivative y = j.derivative y) ↔
        (a = special ↔ b = special) ∨ ∀ y, motion.derivative own y = motion.derivative shared y) := by
  obtain ⟨i, hi, hfollowsA⟩ := integrator_follows motion context hcheck (hfollowed a)
  obtain ⟨j, hj, hfollowsB⟩ := integrator_follows motion context hcheck (hfollowed b)
  refine ⟨i, j, hi, hj, ?_⟩
  simp only [hfollowsA _, hfollowsB _]
  by_cases ha : a = special
  · by_cases hb : b = special
    · simp [ha, hb]
    · simp only [ha, hb, if_true, if_false, true_iff, false_or]
  · by_cases hb : b = special
    · simp only [ha, hb, if_true, if_false, iff_true, false_or]
      exact forall_congr' fun y => eq_comm
    · simp [ha, hb]

/-- Two integrator sets agree on a plain bend or an edge exactly if both follow its field map or
neither does, or there is nothing that tells the whole field from the bending field: no significant
gradient in the strength record, or no charge. -/
theorem sets_agree_on_bend_iff (magnet : Magnet ℝ)
    (hkind : magnet.kind = .dipole ∨ magnet.kind = .dipoleFringe) (hcheck : magnet.check = .ok ())
    (motion : Motion ℝ) (context : Context ℝ) (a b : Profile) : ∃ i j,
    magnet.integrator a.set motion context = .ok i ∧
      magnet.integrator b.set motion context = .ok j ∧
      ((∀ y, i.derivative y = j.derivative y) ↔
        (a = .geant4 ↔ b = .geant4) ∨
          ¬ Significant (magnet.strengths.get .k1 * magnet.rigidity) ∨ motion.charge = 0) := by
  have hnoticed : (∀ y, motion.derivative (FieldMap.dipole (magnet.geometry.field magnet.rigidity)) y =
      motion.derivative
        (Dipole.ofMagnet motion magnet.strengths magnet.geometry magnet.rigidity).wholeField y) ↔
      ¬ Significant (magnet.strengths.get .k1 * magnet.rigidity) ∨ motion.charge = 0 :=
    (forall_congr' fun _ => eq_comm).trans (Dipole.derivative_wholeField_eq_iff _ motion)
  obtain ⟨i, j, hi, hj, hagree⟩ := sets_agree_iff_of_followed motion context hcheck
    (followed?_bend motion hkind) a b
  exact ⟨i, j, hi, hj, hagree.trans (or_congr_right hnoticed)⟩

/-- An edge without a gradient in the strength record, for which all sets agree. -/
theorem sets_agree_on_bend_iff_edge :
    let magnet : Magnet ℝ := ⟨.dipoleFringe, -3, .empty, ⟨2, -10, 1, 2, 1, 1⟩, .exit⟩
    magnet.kind = .dipoleFringe ∧ magnet.check = .ok () ∧
      ¬ Significant (magnet.strengths.get .k1 * magnet.rigidity) ∧ ∃ i j,
      magnet.integrator Profile.geant4.set ⟨-1⟩ .standard = .ok i ∧
        magnet.integrator Profile.bdsimMatrix.set ⟨-1⟩ .standard = .ok j ∧
        ∀ y, i.derivative y = j.derivative y := by
  intro magnet
  have hcheck : magnet.check = .ok () := check_eq_ok_iff.mpr
    ⟨by norm_num [magnet], by norm_num [magnet],
      fun _ => significant_of_one_le (by norm_num [magnet])⟩
  have hgradient : ¬ Significant (magnet.strengths.get .k1 * magnet.rigidity) := by
    rw [Strengths.get_empty, zero_mul]
    exact not_significant_zero
  obtain ⟨i, j, hi, hj, hagree⟩ := sets_agree_on_bend_iff magnet (Or.inr rfl) hcheck ⟨-1⟩ .standard
    .geant4 .bdsimMatrix
  exact ⟨rfl, hcheck, hgradient, i, j, hi, hj, hagree.mpr (Or.inr (Or.inl hgradient))⟩

/-- Through a dipole that carries a gradient in its strength record, one set turns a particle off the
orbit twice as fast as another: Runge-Kutta leaves the gradient out. -/
theorem sets_differ_on_dipole_with_gradient :
    let magnet : Magnet ℝ :=
      ⟨.dipole, 1, Strengths.empty.set .k1 1, .sector 1 1, .entrance⟩
    let y : State ℝ := ⟨⟨1, 0, 0⟩, ⟨0, 0, 1⟩⟩
    magnet.check = .ok () ∧
      Significant (magnet.rigidity * magnet.geometry.curvature) ∧
      Significant (magnet.strengths.get .k1 * magnet.rigidity) ∧ ∃ i j,
      magnet.integrator Profile.geant4.set ⟨1⟩ .standard = .ok i ∧
        magnet.integrator Profile.bdsimTwo.set ⟨1⟩ .standard = .ok j ∧
        (i.derivative y).momentum = ⟨-speedOfLight, 0, 0⟩ ∧
        (j.derivative y).momentum = ⟨-(2 * speedOfLight), 0, 0⟩ ∧
        i.derivative y ≠ j.derivative y := by
  intro magnet y
  have hone : Significant (1 : ℝ) := significant_of_one_le (by norm_num)
  have hcheck : magnet.check = .ok () :=
    check_eq_ok_iff.mpr ⟨one_ne_zero, zero_le_one, fun _ => hone⟩
  have hcurvature : magnet.geometry.curvature = 1 := by
    rw [BendGeometry.curvature_of_isBent (BendGeometry.isBent_iff.mpr ⟨hone, hone⟩)]
    exact div_one 1
  have hfield : magnet.geometry.field magnet.rigidity = 1 := by
    rw [BendGeometry.field, hcurvature]
    exact one_mul 1
  have hgradient : magnet.strengths.get .k1 * magnet.rigidity = 1 := by
    norm_num [magnet, Strengths.get_set]
  set d := Dipole.ofMagnet ⟨1⟩ magnet.strengths magnet.geometry magnet.rigidity with hd
  have hframe : d.frame.curvature = 1 := by
    change (OrbitFrame.ofCurvature magnet.geometry.curvature).curvature = 1
    rw [hcurvature, OrbitFrame.curvature_ofCurvature hone]
  have hkind : magnet.kind = .dipole ∨ magnet.kind = .dipoleFringe := Or.inl rfl
  obtain ⟨i, hi, hfollowsA⟩ :=
    integrator_follows ⟨1⟩ .standard hcheck (followed?_bend ⟨1⟩ hkind .geant4)
  obtain ⟨j, hj, hfollowsB⟩ :=
    integrator_follows ⟨1⟩ .standard hcheck (followed?_bend ⟨1⟩ hkind .bdsimTwo)
  have hwhole : d.wholeField y.position = ⟨0, 2, 0⟩ := by
    have hstrength : d.field = 1 ∧ d.gradient = 1 := ⟨hfield, hgradient⟩
    have hstrong : Significant d.gradient := by
      rw [hstrength.2]
      exact hone
    have hside : 0 < 1 + d.frame.curvature * 1 := by
      rw [hframe]
      norm_num
    rw [show y.position = ⟨1, 0, 0⟩ from rfl, d.wholeField_start hstrong hside, hstrength.1,
      hstrength.2]
    norm_num
  have hslow : (i.derivative y).momentum = ⟨-speedOfLight, 0, 0⟩ := by
    rw [hfollowsA, if_pos rfl, hfield, Motion.derivative_forward _ _ rfl, Motion.coupling]
    norm_num
  have hfast : (j.derivative y).momentum = ⟨-(2 * speedOfLight), 0, 0⟩ := by
    rw [hfollowsB, if_neg (by decide), Motion.derivative_forward _ _ hwhole, Motion.coupling]
    norm_num [mul_comm]
  refine ⟨hcheck, ?_, ?_, i, j, hi, hj, hslow, hfast, ?_⟩
  · rw [hcurvature]
    exact (mul_one (1 : ℝ)).symm ▸ hone
  · rw [hgradient]
    exact hone
  · intro hsame
    have hx := congrArg Vec3.x (hslow.symm.trans ((congrArg State.momentum hsame).trans hfast))
    norm_num [speedOfLight] at hx

end Magnet

/-! ## Quadrupoles -/

/-- A charge on the axis notices every bending field. -/
theorem Motion.derivative_sector_eq_iff (motion : Motion ℝ) {base curvature : ℝ} (gradient : ℝ)
    (hbase : base = 0 ↔ curvature = 0) :
    (∀ y, motion.derivative (FieldMap.sector base gradient curvature) y =
        motion.derivative (FieldMap.quadrupole gradient) y) ↔
      curvature = 0 ∨ motion.charge = 0 := by
  constructor
  · intro hsame
    have haxis : FieldMap.quadrupole gradient ⟨0, 0, 0⟩ = ⟨0, 0, 0⟩ := by
      ext <;> simp [FieldMap.quadrupole]
    have hforce := congrArg (fun rate => rate.momentum.x) (hsame ⟨⟨0, 0, 0⟩, ⟨0, 0, 1⟩⟩)
    simp only [motion.derivative_forward _ (FieldMap.sector_start base gradient curvature),
      motion.derivative_forward _ haxis] at hforce
    have hproduct : motion.coupling * base = 0 := by
      linear_combination -hforce
    rcases mul_eq_zero.mp hproduct with hcoupling | hnone
    · exact Or.inr (motion.coupling_eq_zero_iff.mp hcoupling)
    · exact Or.inl (hbase.mp hnone)
  · rintro (hstraight | hcharge) y
    · rw [hbase.mpr hstraight, hstraight, FieldMap.sector_straight]
    · have hcoupling := motion.coupling_eq_zero_iff.mpr hcharge
      rw [derivative, derivative, hcoupling, zero_smul, zero_smul]

namespace Magnet

variable {magnet : Magnet ℝ} (motion : Motion ℝ) (context : Context ℝ)

/-- Through a quadrupole the set with matrices follows the sector of the whole geometry, and the others
the gradient alone. -/
theorem followed?_quadrupole (hkind : magnet.kind = .quadrupole) (profile : Profile) :
    magnet.followed? motion (profile.set.integratorFor magnet.kind) =
      some (if profile = .bdsimMatrix then
          FieldMap.sector (magnet.geometry.field magnet.rigidity)
            (magnet.strengths.get .k1 * magnet.rigidity) magnet.geometry.curvature
        else FieldMap.quadrupole (magnet.strengths.get .k1 * magnet.rigidity)) := by
  have hmap : magnet.field? = some (.quadrupole (magnet.strengths.get .k1 * magnet.rigidity)) := by
    rw [field?, hkind]
    rfl
  rw [hkind]
  cases profile with
  | geant4 | bdsimOne | bdsimTwo => exact hmap
  | bdsimMatrix => rfl

/-- Two integrator sets agree on a quadrupole exactly if both send it through a matrix or neither does,
or there is nothing that tells the sector of its geometry from its gradient: no bend angle, or no
charge. -/
theorem sets_agree_on_quadrupole_iff (magnet : Magnet ℝ) (hkind : magnet.kind = .quadrupole)
    (hcheck : magnet.check = .ok ()) (motion : Motion ℝ) (context : Context ℝ) (a b : Profile) : ∃ i j,
    magnet.integrator a.set motion context = .ok i ∧
      magnet.integrator b.set motion context = .ok j ∧
      ((∀ y, i.derivative y = j.derivative y) ↔
        (a = .bdsimMatrix ↔ b = .bdsimMatrix) ∨
          ¬ Significant magnet.geometry.angle ∨ motion.charge = 0) := by
  have hrigidity := (check_eq_ok_iff.mp hcheck).1
  have hnoticed := motion.derivative_sector_eq_iff (magnet.strengths.get .k1 * magnet.rigidity)
    (BendGeometry.field_eq_zero_iff (g := magnet.geometry) hrigidity)
  rw [BendGeometry.curvature_eq_zero_iff, isBent_iff_of_check hcheck] at hnoticed
  obtain ⟨i, j, hi, hj, hagree⟩ := sets_agree_iff_of_followed motion context hcheck
    (followed?_quadrupole motion hkind) a b
  exact ⟨i, j, hi, hj, hagree.trans (or_congr_right hnoticed)⟩

/-- A quadrupole without a bend angle, for which all sets agree. -/
theorem sets_agree_on_quadrupole_iff_straight :
    let magnet : Magnet ℝ :=
      ⟨.quadrupole, -3, Strengths.empty.set .k1 4, ⟨2, 0, 1, 2, 1, 1⟩, .entrance⟩
    magnet.kind = .quadrupole ∧ magnet.check = .ok () ∧ ¬ Significant magnet.geometry.angle ∧ ∃ i j,
      magnet.integrator Profile.bdsimTwo.set ⟨-1⟩ .standard = .ok i ∧
        magnet.integrator Profile.bdsimMatrix.set ⟨-1⟩ .standard = .ok j ∧
        ∀ y, i.derivative y = j.derivative y := by
  intro magnet
  have hangle : ¬ Significant magnet.geometry.angle := not_significant_zero
  have hcheck : magnet.check = .ok () := check_eq_ok_iff.mpr
    ⟨by norm_num [magnet], by norm_num [magnet], fun hbend => absurd hbend hangle⟩
  obtain ⟨i, j, hi, hj, hagree⟩ := sets_agree_on_quadrupole_iff magnet rfl hcheck ⟨-1⟩ .standard
    .bdsimTwo .bdsimMatrix
  exact ⟨rfl, hcheck, hangle, i, j, hi, hj, hagree.mpr (Or.inr (Or.inl hangle))⟩

/-- On the axis of a quadrupole whose geometry has a bend angle, a particle goes straight under one
set and is turned under another. -/
theorem sets_differ_on_bent_quadrupole :
    let magnet : Magnet ℝ :=
      ⟨.quadrupole, 1, Strengths.empty.set .k1 1, .sector 1 1, .entrance⟩
    let y : State ℝ := ⟨⟨0, 0, 0⟩, ⟨0, 0, 1⟩⟩
    magnet.check = .ok () ∧ Significant (magnet.strengths.get .k1 * magnet.rigidity) ∧ ∃ i j,
      magnet.integrator Profile.bdsimTwo.set ⟨1⟩ .standard = .ok i ∧
        magnet.integrator Profile.bdsimMatrix.set ⟨1⟩ .standard = .ok j ∧
        (i.derivative y).momentum = ⟨0, 0, 0⟩ ∧
        (j.derivative y).momentum = ⟨-speedOfLight, 0, 0⟩ ∧
        i.derivative y ≠ j.derivative y := by
  intro magnet y
  have hone : Significant (1 : ℝ) := significant_of_one_le (by norm_num)
  have hcheck : magnet.check = .ok () :=
    check_eq_ok_iff.mpr ⟨one_ne_zero, zero_le_one, fun _ => hone⟩
  have hfield : magnet.geometry.field magnet.rigidity = 1 := by
    rw [BendGeometry.field_of_isBent (BendGeometry.isBent_iff.mpr ⟨hone, hone⟩)]
    norm_num [magnet, BendGeometry.sector]
  have hgradient : magnet.strengths.get .k1 * magnet.rigidity = 1 := by
    norm_num [magnet, Strengths.get_set]
  obtain ⟨i, hi, hfollowsA⟩ :=
    integrator_follows ⟨1⟩ .standard hcheck (followed?_quadrupole ⟨1⟩ rfl .bdsimTwo)
  obtain ⟨j, hj, hfollowsB⟩ :=
    integrator_follows ⟨1⟩ .standard hcheck (followed?_quadrupole ⟨1⟩ rfl .bdsimMatrix)
  have hstraight : (i.derivative y).momentum = ⟨0, 0, 0⟩ := by
    have haxis : FieldMap.quadrupole (magnet.strengths.get .k1 * magnet.rigidity) y.position =
        ⟨0, 0, 0⟩ := by
      ext <;> simp [FieldMap.quadrupole, y]
    rw [hfollowsA, if_neg (by decide), Motion.derivative_forward _ _ haxis, mul_zero, neg_zero]
  have hturned : (j.derivative y).momentum = ⟨-speedOfLight, 0, 0⟩ := by
    rw [hfollowsB, if_pos rfl, Motion.derivative_forward _ _ (FieldMap.sector_start _ _ _), hfield,
      Motion.coupling]
    norm_num
  refine ⟨hcheck, ?_, i, j, hi, hj, hstraight, hturned, ?_⟩
  · rw [hgradient]
    exact hone
  · intro hsame
    have hx := congrArg Vec3.x (hstraight.symm.trans ((congrArg State.momentum hsame).trans hturned))
    norm_num [speedOfLight] at hx

end Magnet

end BeamTransport
