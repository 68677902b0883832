import BeamTransport.Proofs.ReflectedMagnet

/-!
# Reversed charges, mirrored bends and the midplane

Three reflections of magnets, with what they say about tracking. Reversing the charge of the particle and
the rigidity of the magnet changes nothing (`opposite_charge_and_rigidity_track_alike`). Exchanging left
and right turns a bend into the one to the other side and a path into its mirror image
(`opposite_bends_mirror`). Exchanging up and down keeps a magnet without skew strengths, so the particles
in its midplane stay there (`midplane_kept`).
-/

namespace BeamTransport

/-! ## States -/

/-- A state with left and right exchanged. -/
def State.mirrored (y : State ℝ) : State ℝ :=
  ⟨⟨-y.position.x, y.position.y, y.position.z⟩, ⟨-y.momentum.x, y.momentum.y, y.momentum.z⟩⟩

/-- A state with up and down exchanged. -/
def State.flipped (y : State ℝ) : State ℝ :=
  ⟨⟨y.position.x, -y.position.y, y.position.z⟩, ⟨y.momentum.x, -y.momentum.y, y.momentum.z⟩⟩

theorem State.flipped_eq_self_iff (y : State ℝ) :
    y.flipped = y ↔ y.position.y = 0 ∧ y.momentum.y = 0 := by
  constructor
  · intro hkept
    have hposition : -y.position.y = y.position.y := congrArg (fun z => z.position.y) hkept
    have hmomentum : -y.momentum.y = y.momentum.y := congrArg (fun z => z.momentum.y) hkept
    exact ⟨neg_eq_self.mp hposition, neg_eq_self.mp hmomentum⟩
  · rintro ⟨hposition, hmomentum⟩
    apply State.ext
    · exact Vec3.ext rfl (by rw [flipped, hposition, neg_zero]) rfl
    · exact Vec3.ext rfl (by rw [flipped, hmomentum, neg_zero]) rfl

/-- Whether a magnet is the same upside down: no skew field, none along the axis, and no skew strength in
a series of multipoles. -/
def Magnet.HasMidplane (magnet : Magnet ℝ) : Prop :=
  match magnet.kind with
  | .none | .dipole | .dipoleQuadrupole | .dipoleFringe | .quadrupole | .sextupole | .octupole
  | .decapole => True
  | .multipole => ∀ index, magnet.strengths.get (.skew index) = 0
  | _ => False

/-! ## Three reflections -/

namespace Reflection

/-- Positive charges for negative ones. -/
def charges : Reflection := ofSigns .one .one .neg_one

/-- Left for right. -/
def sides : Reflection := ofSigns .neg_one .one .one

/-- Up for down. -/
def upsideDown : Reflection := ofSigns .one .neg_one .one

theorem charges_state (y : State ℝ) : charges.state y = y := by
  have hmap := charges.map_of_axes rfl rfl
  exact State.ext (hmap y.position) (hmap y.momentum)

theorem sides_state (y : State ℝ) : sides.state y = y.mirrored := by
  simp [Symmetry.state, State.mirrored, sides, ofSigns]

theorem upsideDown_state (y : State ℝ) : upsideDown.state y = y.flipped := by
  simp [Symmetry.state, State.flipped, upsideDown, ofSigns]

theorem charges_step (s : Step ℝ) : charges.step s = s := by
  rw [Symmetry.step, charges_state, charges_state]

theorem sides_step (s : Step ℝ) : sides.step s = ⟨s.out.mirrored, s.error.mirrored⟩ := by
  rw [Symmetry.step, sides_state, sides_state]

theorem upsideDown_step (s : Step ℝ) : upsideDown.step s = ⟨s.out.flipped, s.error.flipped⟩ := by
  rw [Symmetry.step, upsideDown_state, upsideDown_state]

theorem charges_record : charges.record = id := by
  funext record
  rw [Symmetry.record, charges_state]
  rfl

theorem sides_record : sides.record = fun record =>
    ⟨record.state.mirrored, record.s, record.maxError⟩ := by
  funext record
  rw [Symmetry.record, sides_state]

theorem charges_motion (charge : ℝ) : charges.motion ⟨charge⟩ = ⟨-charge⟩ :=
  congrArg Motion.mk (neg_one_mul charge)

theorem sides_motion (motion : Motion ℝ) : sides.motion motion = motion :=
  congrArg Motion.mk (one_mul motion.charge)

theorem upsideDown_motion (motion : Motion ℝ) : upsideDown.motion motion = motion :=
  congrArg Motion.mk (one_mul motion.charge)

theorem charges_magnet (m : Magnet ℝ) :
    charges.magnet m = { m with rigidity := -m.rigidity } := by
  simp [magnet, geometry, charges, ofSigns]

theorem sides_magnet (m : Magnet ℝ) : sides.magnet m = { m with geometry := { m.geometry with
    angle := -m.geometry.angle
    entranceFace := -m.geometry.entranceFace
    exitFace := -m.geometry.exitFace } } := by
  simp [magnet, geometry, sides, ofSigns]

theorem upsideDown_magnet (m : Magnet ℝ) : upsideDown.magnet m = m := by
  simp [magnet, geometry, upsideDown, ofSigns]

theorem suits_charges (m : Magnet ℝ) : charges.Suits m := by
  have hskew (k : ℝ) : charges.vertical * k = k := one_mul k
  unfold Suits
  cases m.kind with
  | sextupole | octupole | decapole => exact rfl
  | multipole => exact ⟨rfl, fun index => hskew _⟩
  | solenoid | skewQuadrupole | skewSextupole | skewOctupole | skewDecapole => exact ⟨rfl, rfl⟩
  | _ => trivial

theorem suits_sides {m : Magnet ℝ}
    (hkind : m.kind = .dipole ∨ m.kind = .dipoleQuadrupole ∨ m.kind = .dipoleFringe) :
    sides.Suits m := by
  unfold Suits
  rcases hkind with hkind | hkind | hkind
  all_goals rw [hkind]; trivial

theorem suits_upsideDown {m : Magnet ℝ} (hmidplane : m.HasMidplane) : upsideDown.Suits m := by
  unfold Magnet.HasMidplane at hmidplane
  unfold Suits
  cases hkind : m.kind with
  | none | dipole | dipoleQuadrupole | dipoleFringe | quadrupole => trivial
  | sextupole | octupole | decapole => exact rfl
  | multipole =>
    rw [hkind] at hmidplane
    refine ⟨rfl, fun index => ?_⟩
    rw [hmidplane index, mul_zero]
  | _ =>
    rw [hkind] at hmidplane
    exact hmidplane.elim

end Reflection

namespace Magnet

/-! ## Reversed charges -/

/-- Neither a trajectory nor an error changes when both the charge of the particle and the rigidity of
the magnet are reversed: either the two magnets fail alike, for want of a field, or their integrators are
of one kind and move every state alike, with the same estimated error, over every run. -/
theorem opposite_charge_and_rigidity_track_alike (magnet : Magnet ℝ) (hcheck : magnet.check = .ok ())
    (set : IntegratorSet) (charge : ℝ) (context : Context ℝ) :
    let reversed : Magnet ℝ := { magnet with rigidity := -magnet.rigidity }
    (set.integratorFor magnet.kind = .rungeKutta ∧ magnet.field? = none ∧
      magnet.integrator set ⟨charge⟩ context = .error (.unsupportedField magnet.kind) ∧
      reversed.integrator set ⟨-charge⟩ context = .error (.unsupportedField magnet.kind)) ∨
    ∃ i j, magnet.integrator set ⟨charge⟩ context = .ok i ∧
      reversed.integrator set ⟨-charge⟩ context = .ok j ∧ j.kind = i.kind ∧
      (∀ y, j.derivative y = i.derivative y) ∧ (∀ y h, j.step y h = i.step y h) ∧
      ∀ y length n, j.track y length n = i.track y length n := by
  intro reversed
  have hsuits := Reflection.suits_charges magnet
  rcases exists_integrator_or set ⟨charge⟩ context hcheck with ⟨i, hi⟩ | ⟨hset, hnone, herror⟩
  · obtain ⟨j, hj, himage⟩ := Reflection.exists_image set ⟨charge⟩ context hcheck hsuits hi
    rw [Reflection.charges_magnet, Reflection.charges_motion] at hj
    refine Or.inr ⟨i, j, hi, hj, himage.kind, ?_, ?_, ?_⟩
    · intro y
      have hderivative := himage.derivative y
      rwa [Reflection.charges_state, Reflection.charges_state] at hderivative
    · intro y h
      have hstep := himage.step y h
      rwa [Reflection.charges_state, Reflection.charges_step] at hstep
    · intro y length n
      have htrack := himage.track Reflection.charges.maxAbs_state y length n
      rwa [Reflection.charges_state, Reflection.charges_record, List.map_id] at htrack
  · have hreversed := Reflection.integrator_magnet set ⟨charge⟩ context hcheck hsuits
    rw [Reflection.charges_magnet, Reflection.charges_motion, herror] at hreversed
    exact Or.inl ⟨hset, hnone, herror, hreversed⟩

/-- An edge with a fringe field and a gradient, and a positive charge against its rigidity. -/
theorem opposite_charge_and_rigidity_track_alike_edge :
    let magnet : Magnet ℝ :=
      ⟨.dipoleFringe, -3, Strengths.empty.set .k1 4, ⟨2, -10, 1, 2, 1, 1⟩, .exit⟩
    magnet.check = .ok () ∧ ∃ i j,
      magnet.integrator Profile.bdsimTwo.set ⟨2⟩ .standard = .ok i ∧
        ({ magnet with rigidity := -magnet.rigidity } : Magnet ℝ).integrator Profile.bdsimTwo.set ⟨-2⟩
          .standard = .ok j ∧ j.kind = i.kind ∧
        ∀ y length n, j.track y length n = i.track y length n := by
  intro magnet
  have hcheck : magnet.check = .ok () := check_eq_ok_iff.mpr
    ⟨by norm_num [magnet], by norm_num [magnet],
      fun _ => significant_of_one_le (by norm_num [magnet])⟩
  rcases opposite_charge_and_rigidity_track_alike magnet hcheck Profile.bdsimTwo.set 2 .standard with
    ⟨-, hnone, -⟩ | ⟨i, j, hi, hj, hkind, -, -, htrack⟩
  · exact nomatch hnone
  · exact ⟨hcheck, i, j, hi, hj, hkind, htrack⟩

/-! ## Left and right -/

/-- A bend to the left and the bend to the right that is its mirror image, pole faces included, move
mirror images of a state to mirror images of it, with the mirror image of the error; so do whole runs. -/
theorem opposite_bends_mirror (magnet : Magnet ℝ)
    (hkind : magnet.kind = .dipole ∨ magnet.kind = .dipoleQuadrupole ∨ magnet.kind = .dipoleFringe)
    (hcheck : magnet.check = .ok ()) (set : IntegratorSet) (motion : Motion ℝ) (context : Context ℝ) :
    let mirrored : Magnet ℝ := { magnet with geometry := { magnet.geometry with
      angle := -magnet.geometry.angle
      entranceFace := -magnet.geometry.entranceFace
      exitFace := -magnet.geometry.exitFace } }
    ∃ i j, magnet.integrator set motion context = .ok i ∧
      mirrored.integrator set motion context = .ok j ∧
      (∀ y, j.derivative y.mirrored = (i.derivative y).mirrored) ∧
      (∀ y h, j.step y.mirrored h = ⟨(i.step y h).out.mirrored, (i.step y h).error.mirrored⟩) ∧
      ∀ y length n, j.track y.mirrored length n = (i.track y length n).map fun record =>
        ⟨record.state.mirrored, record.s, record.maxError⟩ := by
  intro mirrored
  have hfield : magnet.field? ≠ none := by
    rcases hkind with hkind | hkind | hkind
    all_goals rw [field?, hkind]; exact Option.some_ne_none _
  obtain ⟨i, hi⟩ := exists_integrator set motion context hcheck hfield
  obtain ⟨j, hj, himage⟩ := Reflection.exists_image set motion context hcheck
    (Reflection.suits_sides hkind) hi
  rw [Reflection.sides_magnet, Reflection.sides_motion] at hj
  refine ⟨i, j, hi, hj, ?_, ?_, ?_⟩
  · intro y
    have hderivative := himage.derivative y
    rwa [Reflection.sides_state, Reflection.sides_state] at hderivative
  · intro y h
    have hstep := himage.step y h
    rwa [Reflection.sides_state, Reflection.sides_step] at hstep
  · intro y length n
    have htrack := himage.track Reflection.sides.maxAbs_state y length n
    rwa [Reflection.sides_state, Reflection.sides_record] at htrack

/-- An edge that turns the orbit by more than a whole turn, with rotated faces and a fringe field. -/
theorem opposite_bends_mirror_edge :
    let magnet : Magnet ℝ :=
      ⟨.dipoleFringe, -3, Strengths.empty.set .k1 4, ⟨2, 10, 1, 2, 1, 1⟩, .exit⟩
    let mirrored : Magnet ℝ :=
      ⟨.dipoleFringe, -3, Strengths.empty.set .k1 4, ⟨2, -10, -1, -2, 1, 1⟩, .exit⟩
    magnet.kind = .dipoleFringe ∧ magnet.check = .ok () ∧ ∃ i j,
      magnet.integrator Profile.bdsimTwo.set ⟨-1⟩ .standard = .ok i ∧
        mirrored.integrator Profile.bdsimTwo.set ⟨-1⟩ .standard = .ok j ∧
        ∀ y h, j.step y.mirrored h = ⟨(i.step y h).out.mirrored, (i.step y h).error.mirrored⟩ := by
  intro magnet mirrored
  have hcheck : magnet.check = .ok () := check_eq_ok_iff.mpr
    ⟨by norm_num [magnet], by norm_num [magnet],
      fun _ => significant_of_one_le (by norm_num [magnet])⟩
  obtain ⟨i, j, hi, hj, -, hstep, -⟩ := opposite_bends_mirror magnet (Or.inr (Or.inr rfl)) hcheck
    Profile.bdsimTwo.set ⟨-1⟩ .standard
  exact ⟨rfl, hcheck, i, j, hi, hj, hstep⟩

/-! ## Up and down -/

/-- In a magnet without skew strengths a step commutes with exchanging up and down, and a particle that
starts in the midplane, heading nowhere out of it, is in the midplane in every record of a run. -/
theorem midplane_kept (magnet : Magnet ℝ) (hmidplane : magnet.HasMidplane)
    (hcheck : magnet.check = .ok ()) (set : IntegratorSet) (motion : Motion ℝ) (context : Context ℝ) :
    ∃ i, magnet.integrator set motion context = .ok i ∧
      (∀ y, i.derivative y.flipped = (i.derivative y).flipped) ∧
      (∀ y h, i.step y.flipped h = ⟨(i.step y h).out.flipped, (i.step y h).error.flipped⟩) ∧
      ∀ y : State ℝ, y.position.y = 0 → y.momentum.y = 0 → ∀ length n,
        ∀ record ∈ i.track y length n, record.state.position.y = 0 ∧ record.state.momentum.y = 0 := by
  have hfield : magnet.field? ≠ none := by
    unfold HasMidplane at hmidplane
    unfold field?
    cases hkind : magnet.kind with
    | muonSpoiler | rfCavity | rf | general =>
      rw [hkind] at hmidplane
      exact hmidplane.elim
    | _ => exact Option.some_ne_none _
  obtain ⟨i, hi⟩ := exists_integrator set motion context hcheck hfield
  obtain ⟨j, hj, himage⟩ := Reflection.exists_image set motion context hcheck
    (Reflection.suits_upsideDown hmidplane) hi
  -- Upside down the magnet is the same, so its integrator is its own image.
  rw [Reflection.upsideDown_magnet, Reflection.upsideDown_motion, hi] at hj
  obtain rfl := Except.ok.inj hj
  refine ⟨i, hi, ?_, ?_, ?_⟩
  · intro y
    have hderivative := himage.derivative y
    rwa [Reflection.upsideDown_state, Reflection.upsideDown_state] at hderivative
  · intro y h
    have hstep := himage.step y h
    rwa [Reflection.upsideDown_state, Reflection.upsideDown_step] at hstep
  · intro y hposition hmomentum length n record hrecord
    have hy : Reflection.upsideDown.state y = y := by
      rw [Reflection.upsideDown_state]
      exact y.flipped_eq_self_iff.mpr ⟨hposition, hmomentum⟩
    have hstate := himage.track_fixed Reflection.upsideDown.maxAbs_state hy length n record hrecord
    rw [Reflection.upsideDown_state] at hstate
    exact record.state.flipped_eq_self_iff.mp hstate

/-- Three multipoles in one magnet, of which none is skew, for a particle off the axis. -/
theorem midplane_kept_multipole :
    let strengths : Strengths ℝ :=
      ((Strengths.empty.set .k1 4).set (.normal 2) (-5)).set (.normal 11) 6
    let magnet : Magnet ℝ := ⟨.multipole, -3, strengths, ⟨2, 0, 0, 0, 0, 0⟩, .entrance⟩
    magnet.HasMidplane ∧ magnet.check = .ok () ∧ ∃ i,
      magnet.integrator Profile.bdsimMatrix.set ⟨2⟩ .standard = .ok i ∧
        ∀ record ∈ i.track ⟨⟨1, 0, 0⟩, ⟨1, 0, 2⟩⟩ 2 5,
          record.state.position.y = 0 ∧ record.state.momentum.y = 0 := by
  intro strengths magnet
  have hmidplane : magnet.HasMidplane := by
    intro index
    simp [magnet, strengths, Strengths.get_set, StrengthKey.k1]
  have hcheck : magnet.check = .ok () := check_eq_ok_iff.mpr
    ⟨by norm_num [magnet], by norm_num [magnet], fun h => absurd h not_significant_zero⟩
  obtain ⟨i, hi, -, -, hrun⟩ := midplane_kept magnet hmidplane hcheck Profile.bdsimMatrix.set ⟨2⟩
    .standard
  exact ⟨hmidplane, hcheck, i, hi, hrun ⟨⟨1, 0, 0⟩, ⟨1, 0, 2⟩⟩ rfl rfl 2 5⟩

end Magnet

end BeamTransport
