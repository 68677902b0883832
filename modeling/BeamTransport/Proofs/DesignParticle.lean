import BeamTransport.CommandLine.Track
import BeamTransport.Proofs.Particle
import BeamTransport.Proofs.ReferenceOrbit

/-!
# The design particle of a command

A track command without a design rigidity takes that of the tracked particle, with the sign of its charge.
The coupling of the particle turns it back into the momentum of the particle, for either sign
(`coupling_mul_designRigidity`), so a bend guides the very particle that it is tracked with. From the axis
this particle follows the reference orbit, line by line, and as only its mass has a say in that, so does
any other particle of that mass (`design_particle_follows_orbit`).
-/

namespace BeamTransport

/-! ## Species and sets -/

namespace Species

variable {name : String} {species : Species ℝ}

theorem eq_of_ofName? (hname : ofName? name = some species) :
    species = proton ∨ species = electron ∨ species = positron := by
  unfold ofName? at hname
  split at hname
  · exact Or.inl (Option.some.inj hname).symm
  · exact Or.inl (Option.some.inj hname).symm
  · exact Or.inr (Or.inl (Option.some.inj hname).symm)
  · exact Or.inr (Or.inl (Option.some.inj hname).symm)
  · exact Or.inr (Or.inr (Option.some.inj hname).symm)
  · exact Or.inr (Or.inr (Option.some.inj hname).symm)
  · exact nomatch hname

theorem isSign_charge (hname : ofName? name = some species) : IsSign species.charge := by
  rcases eq_of_ofName? hname with rfl | rfl | rfl
  · exact .one
  · exact .neg_one
  · exact .one

theorem mass_pos (hname : ofName? name = some species) : 0 < species.mass := by
  rcases eq_of_ofName? hname with rfl | rfl | rfl
  · norm_num [proton]
  · norm_num [electron]
  · norm_num [positron]

theorem momentum_congr {other : Species ℝ} (hmass : other.mass = species.mass) (energy : ℝ) :
    other.momentum energy = species.momentum energy := by
  rw [momentum, hmass, momentum]

end Species

/-- Every set but one gives a bend to the helix. -/
theorem Profile.integratorFor_dipole {profile : Profile} (hprofile : profile ≠ .geant4) :
    profile.set.integratorFor .dipole = .dipole := by
  cases profile with
  | geant4 => exact absurd rfl hprofile
  | bdsimOne | bdsimTwo | bdsimMatrix => rfl

theorem Magnet.timeAt_congr {species other : Species ℝ} (hmass : other.mass = species.mass)
    (start : ParticleCoords ℝ) (s : ℝ) : timeAt other start s = timeAt species start s := by
  simp only [timeAt, Species.momentum_congr hmass]

namespace CommandLine.TrackArguments

variable {a : TrackArguments ℝ} {profile : Profile} {species : Species ℝ}

/-! ## The default rigidity -/

section rigidity

variable (hrigidity : a.rigidity = none)

include hrigidity

theorem designRigidity_eq : a.designRigidity species =
    Scalar.sign species.charge * (Motion.mk species.charge).rigidity (species.momentum a.energy) := by
  rw [designRigidity, hrigidity]
  rfl

/-- The default rigidity of a charged particle, coupled to its charge, is its momentum. -/
theorem coupling_mul_designRigidity (hcharge : species.charge ≠ 0) :
    (Motion.mk species.charge).coupling * a.designRigidity species = species.momentum a.energy := by
  have hlight := speedOfLight_pos
  have hmagnitude := abs_pos.mpr hcharge
  have hsign := Scalar.sign_mul_self species.charge
  rw [designRigidity_eq hrigidity, Motion.rigidity, Motion.coupling, Scalar.abs_real, abs_mul,
    abs_of_pos hlight]
  set p := species.momentum a.energy
  calc speedOfLight * species.charge
        * (Scalar.sign species.charge * (p / (speedOfLight * |species.charge|)))
      = Scalar.sign species.charge * species.charge * speedOfLight
          * (p / (speedOfLight * |species.charge|)) := by ring
    _ = |species.charge| * speedOfLight * (p / (speedOfLight * |species.charge|)) := by rw [hsign]
    _ = p := by field_simp

/-- The default rigidity of singly charged particles depends on their charge by its sign alone. -/
theorem abs_designRigidity (hcharge : IsSign species.charge) :
    |a.designRigidity species| = species.momentum a.energy / speedOfLight := by
  have hlight := speedOfLight_pos
  have hmomentum : 0 ≤ species.momentum a.energy := Species.momentum_nonneg
  have hcharged : species.charge * a.designRigidity species = species.momentum a.energy / speedOfLight := by
    rw [eq_div_iff hlight.ne', mul_comm, ← mul_assoc]
    exact coupling_mul_designRigidity hrigidity hcharge.ne_zero
  rw [← hcharge.abs_mul, hcharged, abs_of_nonneg (div_nonneg hmomentum hlight.le)]

end rigidity

/-! ## Plans -/

/-- The magnet of a command, of a kind, with strengths, for a species. -/
noncomputable def magnet (a : TrackArguments ℝ) (kind : FieldKind) (strengths : Strengths ℝ)
    (species : Species ℝ) : Magnet ℝ :=
  ⟨kind, a.designRigidity species, strengths, a.geometry, if a.atExit then .exit else .entrance⟩

/-- Arguments that are all in order make a plan. -/
theorem plan_eq {set : IntegratorSet} {kind : FieldKind} {strengths : Strengths ℝ}
    (hset : IntegratorSet.ofName (α := ℝ) a.set = .ok set)
    (hkind : FieldKind.ofName (α := ℝ) a.field = .ok kind) (hspecies : a.species = .ok species)
    (hstrengths : readStrengths a.strengths = .ok strengths) (hcontext : a.context.fault? = none) :
    a.plan = .ok ⟨a.magnet kind strengths species, set, species, a.start, a.steps, a.context⟩ := by
  have hchecked : a.context.checked = .ok a.context := by
    rw [Context.checked, hcontext]
  rw [plan, hset, hkind, hspecies, hstrengths, hchecked]
  rfl

/-! ## Runs along the orbit -/

/-- A command that tracks a particle above its rest mass through a bend without gradient, from the axis
and along it, by an algorithm other than Runge-Kutta, and that leaves the design rigidity to the particle.
-/
structure TracksDesignParticle (a : TrackArguments ℝ) (profile : Profile) (species : Species ℝ) :
    Prop where
  set : Profile.ofName? a.set = some profile
  helical : profile ≠ .geant4
  field : FieldKind.ofName? a.field = some .dipole
  particle : Species.ofName? a.particle = some species
  energy : species.mass < a.energy
  strengths : a.strengths = []
  rigidity : a.rigidity = none
  x : a.x = 0
  y : a.y = 0
  xp : a.xp = 0
  yp : a.yp = 0
  /-- A smallest radius, if one is given, is one that a context may have. -/
  minimumRadius : ∀ radius, a.minimumRadius = some radius → 0 ≤ radius
  length_pos : 0 < a.length
  length : Significant a.length
  angle : Significant a.angle
  curvature : Significant (a.angle / a.length)
  bending : Significant (a.designRigidity species * (a.angle / a.length))

/-- The line of a particle on the reference orbit, after a distance. -/
noncomputable def lineOnOrbit (a : TrackArguments ℝ) (species : Species ℝ) (s : ℝ) :
    ParticleCoords ℝ :=
  let c := a.angle / a.length
  { position := ⟨(Real.cos (c * s) - 1) / c, 0, Real.sin (c * s) / c⟩
    direction := ⟨-Real.sin (c * s), 0, Real.cos (c * s)⟩
    t := Magnet.timeAt species a.start s
    s
    totalEnergy := a.energy
    weight := 1 }

namespace TracksDesignParticle

variable (h : a.TracksDesignParticle profile species)

include h

theorem fault?_context : a.context.fault? = none := by
  have hradius : 0 ≤ a.context.minimumRadius := by
    cases hgiven : a.minimumRadius with
    | none => norm_num [context, hgiven, Context.standard]
    | some radius =>
      rw [context, hgiven]
      exact h.minimumRadius radius hgiven
  have hmargin : a.context.criterion.margin = 1 := rfl
  simp [Context.fault?, hmargin, not_lt.mpr hradius]

theorem toState_start : a.start.toState species = ⟨0, ⟨0, 0, species.momentum a.energy⟩⟩ := by
  have hdirection : (⟨0, 0, 1⟩ : Vec3 ℝ).direction = ⟨0, 0, 1⟩ := by
    have hunit : (⟨0, 0, 1⟩ : Vec3 ℝ).dot ⟨0, 0, 1⟩ = 1 := by norm_num [Vec3.dot]
    have hscaled := Vec3.direction_smul hunit one_pos
    rwa [one_smul] at hscaled
  have hstart : a.start.direction = ⟨0, 0, 1⟩ := by
    simp [start, h.xp, h.yp]
  rw [ParticleCoords.toState, hstart, hdirection]
  refine State.ext (Vec3.ext h.x h.y rfl) ?_
  ext <;> simp [start]

theorem isBent : a.geometry.isBent = true := BendGeometry.isBent_iff.mpr ⟨h.angle, h.length⟩

theorem momentum_pos : 0 < species.momentum a.energy :=
  Species.momentum_pos (Species.mass_pos h.particle).le h.energy

theorem coupled : (Motion.mk species.charge).coupling * a.designRigidity species =
    species.momentum a.energy :=
  coupling_mul_designRigidity h.rigidity (Species.isSign_charge h.particle).ne_zero

/-- Every step of the bend leads a particle of the default momentum along the reference orbit. -/
theorem step_onOrbit (s length : ℝ) :
    let c := a.angle / a.length
    let p := species.momentum a.energy
    ((Integrator.dipole (.ofMagnet ⟨species.charge⟩ .empty a.geometry
      (a.designRigidity species))).step (State.onOrbit c p s) length).out =
        State.onOrbit c p (s + length) := by
  intro c p
  have hcoupled := h.coupled
  have hmomentum : 0 < (Motion.mk species.charge).coupling * a.designRigidity species :=
    hcoupled ▸ h.momentum_pos
  have hguides := Dipole.guides_ofMagnet h.isBent h.curvature hmomentum h.bending .empty
  have hframe := curvature_frame_ofMagnet h.isBent h.curvature
  rw [hcoupled] at hguides
  have hstep := Dipole.step_onOrbit hguides s length
  have hc : c = (OrbitFrame.ofCurvature a.geometry.curvature).curvature := hframe.symm
  rw [hc]
  exact hstep

theorem ofState_onOrbit (s : ℝ) :
    ParticleCoords.ofState (State.onOrbit (a.angle / a.length) (species.momentum a.energy) s)
      (a.start.s + s) (Magnet.timeAt species a.start s) species a.start.weight =
        a.lineOnOrbit species s := by
  have hmass := (Species.mass_pos h.particle).le
  set frame : OrbitFrame ℝ := ⟨a.angle / a.length⟩
  have hmomentum := frame.onOrbit_momentum (p := species.momentum a.energy) s
  have hlength := frame.length_onOrbit_momentum h.momentum_pos.le s
  have hdirection : (species.momentum a.energy • frame.tangent s).direction = frame.tangent s :=
    Vec3.direction_smul (frame.tangent_dot_self s) h.momentum_pos
  have hpath : a.start.s + s = s := zero_add s
  rw [ParticleCoords.ofState, hlength, hmomentum, hdirection, hpath, frame.tangent_eq,
    Species.totalEnergy_momentum hmass h.energy.le]
  rfl

theorem integrator_eq (context : Context ℝ) :
    (a.magnet .dipole .empty species).integrator profile.set ⟨species.charge⟩ context = .ok
      (.dipole (.ofMagnet ⟨species.charge⟩ .empty a.geometry (a.designRigidity species))) := by
  have hcheck : (a.magnet .dipole .empty species).check = .ok () := Magnet.check_eq_ok_iff.mpr
    ⟨left_ne_zero_of_mul h.bending.ne_zero, h.length_pos.le, fun _ => h.length⟩
  rw [Magnet.integrator_of_check _ _ _ hcheck]
  have hhelix : profile.set.integratorFor (a.magnet .dipole .empty species).kind = .dipole :=
    Profile.integratorFor_dipole h.helical
  rw [hhelix]
  rfl

/-- The coordinates of a run along the orbit are the lines of its points. -/
theorem coords_onOrbit :
    ((Integrator.dipole (.ofMagnet ⟨species.charge⟩ .empty a.geometry (a.designRigidity species))).track
        ⟨0, ⟨0, 0, species.momentum a.energy⟩⟩ a.length a.steps).map (fun record =>
          ParticleCoords.ofState record.state (a.start.s + record.s)
            (Magnet.timeAt species a.start record.s) species a.start.weight) =
      (List.range a.steps).map fun k : ℕ => a.lineOnOrbit species ((k + 1) * a.length / a.steps) := by
  rw [← State.onOrbit_zero (a.angle / a.length)]
  refine List.ext_getElem? fun k => ?_
  by_cases hk : k < a.steps
  · obtain ⟨record, hget, hs, hstate⟩ := Integrator.record_onOrbit h.step_onOrbit a.length hk
    rw [List.getElem?_map, hget, Option.map_some, hstate, h.ofState_onOrbit, hs, List.getElem?_map,
      List.getElem?_range hk]
    rfl
  · simp [hk]

/-- The command prints its start and then the points of the orbit, one after each step. -/
theorem run_eq : a.run = .ok (a.start ::
    (List.range a.steps).map fun k : ℕ => a.lineOnOrbit species ((k + 1) * a.length / a.steps)) := by
  have hset : IntegratorSet.ofName (α := ℝ) a.set = .ok profile.set := by
    rw [IntegratorSet.ofName, Profile.ofName, h.set]
    rfl
  have hkind : FieldKind.ofName (α := ℝ) a.field = .ok .dipole := by
    rw [FieldKind.ofName, h.field]
  have hspecies : a.species = .ok species := by
    rw [TrackArguments.species, h.particle]
    exact if_neg (not_le.mpr h.energy)
  have hstrengths : readStrengths (α := ℝ) a.strengths = .ok .empty := by
    rw [h.strengths]
    rfl
  have hplan := plan_eq hset hkind hspecies hstrengths h.fault?_context
  have htrack := Magnet.track_of_integrator (h.integrator_eq a.context) a.start a.steps
  have hlength : (a.magnet .dipole .empty species).trackedLength a.context = a.length := rfl
  rw [h.toState_start, hlength, h.coords_onOrbit] at htrack
  rw [run, hplan]
  simp only [TrackPlan.track, bind, Except.bind, htrack]
  rfl

/-- Only the mass of the species matters, since the sign of its charge cancels. -/
theorem of_mass {name : String} {other : Species ℝ} (hname : Species.ofName? name = some other)
    (hmass : other.mass = species.mass) :
    ({ a with particle := name } : TrackArguments ℝ).TracksDesignParticle profile other where
  set := h.set
  helical := h.helical
  field := h.field
  particle := hname
  energy := hmass.trans_lt h.energy
  strengths := h.strengths
  rigidity := h.rigidity
  x := h.x
  y := h.y
  xp := h.xp
  yp := h.yp
  minimumRadius := h.minimumRadius
  length_pos := h.length_pos
  length := h.length
  angle := h.angle
  curvature := h.curvature
  bending := by
    have hown := abs_designRigidity h.rigidity (Species.isSign_charge h.particle)
    have hother := abs_designRigidity (a := { a with particle := name }) h.rigidity
      (Species.isSign_charge hname)
    refine (significant_congr ?_).mpr h.bending
    rw [abs_mul, abs_mul, hown, hother, Species.momentum_congr hmass]

end TracksDesignParticle

/-- A command that leaves the design rigidity to its particle, and starts it on the axis of a bend, prints
points of the reference orbit: position and direction of the point at the path of the step, with the energy
of the particle. Particles of one mass, as electrons and positrons, give the same lines. -/
theorem design_particle_follows_orbit (a : TrackArguments ℝ) (profile : Profile) (species : Species ℝ)
    (h : a.TracksDesignParticle profile species) :
    let c := a.angle / a.length
    ∃ lines, a.run = .ok lines ∧ lines.length = a.steps + 1 ∧
      (∀ i, 0 < i → i ≤ a.steps → ∃ line, lines[i]? = some line ∧
        let s := i * a.length / a.steps
        line.position = ⟨(Real.cos (c * s) - 1) / c, 0, Real.sin (c * s) / c⟩ ∧
          line.direction = ⟨-Real.sin (c * s), 0, Real.cos (c * s)⟩ ∧
          line.totalEnergy = a.energy ∧ line.s = s) ∧
      ∀ name other, Species.ofName? name = some other → other.mass = species.mass →
        ({ a with particle := name } : TrackArguments ℝ).run = .ok lines := by
  intro c
  refine ⟨_, h.run_eq, by simp, ?_, ?_⟩
  · intro i hpos hle
    obtain ⟨k, rfl⟩ := Nat.exists_eq_succ_of_ne_zero hpos.ne'
    have hk : k < a.steps := hle
    refine ⟨a.lineOnOrbit species ((k + 1) * a.length / a.steps), ?_, ?_⟩
    · rw [List.getElem?_cons_succ, List.getElem?_map, List.getElem?_range hk]
      rfl
    · rw [Nat.succ_eq_add_one, Nat.cast_succ]
      exact ⟨rfl, rfl, rfl, rfl⟩
  · intro name other hname hmass
    rw [(h.of_mass hname hmass).run_eq]
    have hline (s : ℝ) : ({ a with particle := name } : TrackArguments ℝ).lineOnOrbit other s =
        a.lineOnOrbit species s := by
      rw [lineOnOrbit, lineOnOrbit, Magnet.timeAt_congr hmass]
      rfl
    simp only [hline]
    rfl

/-- An electron through a tight bend to the other side, and a positron in its place. -/
theorem design_particle_follows_orbit_electron :
    let a : TrackArguments ℝ := { TrackArguments.standard with
      field := "Dipole", particle := "electron", angle := -10, length := 2, energy := 5, steps := 4,
      entranceFace := 1, fringeIntegral := 1, atExit := true, minimumRadius := some 3 }
    a.TracksDesignParticle .bdsimTwo .electron ∧ ∃ lines, a.run = .ok lines ∧ lines.length = 5 ∧
      (∃ line, lines[2]? = some line ∧
        line.position = ⟨(Real.cos (-5) - 1) / -5, 0, Real.sin (-5) / -5⟩ ∧
        line.direction = ⟨-Real.sin (-5), 0, Real.cos (-5)⟩ ∧ line.totalEnergy = 5 ∧ line.s = 1) ∧
      ({ a with particle := "positron" } : TrackArguments ℝ).run = .ok lines := by
  intro a
  have hlight := speedOfLight_pos
  have hcurvature : a.angle / a.length = -5 := by norm_num [a]
  have henergy : (Species.electron : Species ℝ).mass < a.energy := by norm_num [a, Species.electron]
  have hmomentum : 4 ≤ (Species.electron : Species ℝ).momentum a.energy := by
    rw [Species.momentum_eq_sqrt (by norm_num [Species.electron]) henergy.le]
    exact Real.le_sqrt_of_sq_le (by norm_num [a, Species.electron])
  have hrigidity : 1 ≤ |a.designRigidity .electron| := by
    rw [abs_designRigidity rfl .neg_one, le_div_iff₀ hlight]
    refine le_trans ?_ hmomentum
    norm_num [speedOfLight]
  have hradius (radius : ℝ) (hgiven : a.minimumRadius = some radius) : 0 ≤ radius := by
    rw [← Option.some.inj hgiven]
    norm_num
  have hbending : Significant (a.designRigidity .electron * (a.angle / a.length)) := by
    refine significant_of_one_le ?_
    rw [hcurvature, abs_mul]
    norm_num
    linarith
  have hdesign : a.TracksDesignParticle .bdsimTwo .electron :=
    { set := by cbv
      helical := by decide
      field := by cbv
      particle := rfl
      energy := henergy
      strengths := rfl
      rigidity := rfl
      x := rfl
      y := rfl
      xp := rfl
      yp := rfl
      minimumRadius := hradius
      length_pos := two_pos
      length := significant_of_one_le (by norm_num [a])
      angle := significant_of_one_le (by norm_num [a])
      curvature := significant_of_one_le (by norm_num [hcurvature])
      bending := hbending }
  obtain ⟨lines, hrun, hcount, hlines, hother⟩ := design_particle_follows_orbit a .bdsimTwo .electron
    hdesign
  obtain ⟨line, hget, hposition, hdirection, hkept, hs⟩ := hlines 2 (by norm_num) (by norm_num [a])
  have hpath : ((2 : ℕ) : ℝ) * a.length / a.steps = 1 := by norm_num [a]
  rw [hcurvature, hpath, mul_one] at hposition hdirection
  rw [hpath] at hs
  exact ⟨hdesign, lines, hrun, hcount, ⟨line, hget, hposition, hdirection, hkept, hs⟩,
    hother "positron" .positron rfl rfl⟩

end CommandLine.TrackArguments

end BeamTransport
