import BeamTransport.CommandLine.Command
import BeamTransport.Proofs.Naming
import BeamTransport.Proofs.Refusal

/-!
# Which fault of the arguments is reported

The track command makes nine checks of its arguments (`TrackCheck`). What a check finds is said of the
arguments alone, whether or not the checks before it pass (`TrackCheck.Fails`), and a fault is the first one
of a list of checks if those before it find none (`FirstFault`). A computation that examines some checks
goes on with a computation that examines some more (`Examines.bind`), so the command examines all of them in
their order (`track_reports_first_fault`).
-/

namespace BeamTransport

/-! ## Names and settings -/

theorem Species.ofName?_eq_none_iff {α : Type} [Scalar α] {name : String} :
    (Species.ofName? name : Option (Species α)) = none ↔
      name ∉ ["proton", "p", "electron", "e-", "positron", "e+"] := by
  fun_cases Species.ofName? (α := α) name <;> simp_all

theorem Context.settings_of_fault?_eq_none {α : Type} [Scalar α] {context : Context α}
    (hfault : context.fault? = none) :
    ¬ (!Scalar.isFinite context.minimumRadius || context.minimumRadius < 0) = true ∧
      ¬ (!Scalar.isFinite context.criterion.margin || context.criterion.margin ≤ 0) = true := by
  rw [fault?] at hfault
  split_ifs at hfault with hradius hmargin
  exact ⟨hradius, hmargin⟩

namespace CommandLine

/-! ## Checks -/

/-- What is examined of the arguments. -/
inductive TrackCheck where
  | set
  | field
  | particle
  /-- The energy is above the rest mass. -/
  | energy
  | strengths
  /-- The smallest radius is in range. -/
  | settings
  | rigidity
  | geometry
  /-- There is a field map, if one is needed. -/
  | support
deriving DecidableEq

/-- The checks in their order. -/
def TrackCheck.all : List TrackCheck :=
  [.set, .field, .particle, .energy, .strengths, .settings, .rigidity, .geometry, .support]

theorem TrackCheck.mem_all (check : TrackCheck) : check ∈ TrackCheck.all := by
  cases check <;> decide

variable {α : Type} [Scalar α] [Decimal.OfLiteral α]

/-- A check of the arguments fails, and what is reported then. A check that needs what another one finds
out, such as the species of a name, passes where there is nothing to be found. -/
inductive TrackCheck.Fails (a : TrackArguments α) : TrackCheck → TrackFault α → Prop
  | set (hdefault : a.set.toLower ≠ "default")
      (hname : ∀ profile : Profile, profile.name ≠ a.set.toLower) :
      Fails a .set (.config (.unknownIntegratorSet a.set))
  | field (hname : ∀ kind : FieldKind, kind.name ≠ a.field.toLower) :
      Fails a .field (.config (.unknownField a.field))
  | particle (hname : a.particle ∉ ["proton", "p", "electron", "e-", "positron", "e+"]) :
      Fails a .particle (.unknownParticle a.particle)
  | energy {species : Species α} (hspecies : Species.ofName? a.particle = some species)
      (henergy : a.energy ≤ species.mass) : Fails a .energy (.energyTooLow a.energy species)
  | strengths {fault : StrengthFault}
      (hfault : readStrengths a.strengths = (.error fault : Except StrengthFault (Strengths α))) :
      Fails a .strengths (.strength fault)
  | settings {radius : α} (hradius : a.minimumRadius = some radius)
      (hfault : Scalar.isFinite radius = false ∨ radius < 0) :
      Fails a .settings (.config (.setting (.minimumRadius radius)))
  | rigidity {species : Species α} (hspecies : Species.ofName? a.particle = some species)
      (hrigidity : Scalar.isFinite (a.designRigidity species) = false ∨
        (a.designRigidity species == 0) = true) :
      Fails a .rigidity (.config (.rigidity (a.designRigidity species)))
  | geometry {fault : GeometryFault α} (hfault : a.geometry.fault? = some fault) :
      Fails a .geometry (.config (.geometry fault))
  | support {profile : Profile} {kind : FieldKind} (hset : Profile.ofName? a.set = some profile)
      (hkind : FieldKind.ofName? a.field = some kind)
      (hassigned : profile.set.integratorFor kind = .rungeKutta)
      (hfield : kind = .muonSpoiler ∨ kind = .rfCavity ∨ kind = .rf ∨ kind = .general) :
      Fails a .support (.config (.unsupportedField kind))

/-- A fault is that of the first check of a list that fails. -/
def FirstFault (a : TrackArguments α) (checks : List TrackCheck) (fault : TrackFault α) : Prop :=
  ∃ before check after, checks = before ++ check :: after ∧
    (∀ earlier ∈ before, ∀ other, ¬ earlier.Fails a other) ∧ check.Fails a fault

/-- A computation fails with the fault of the first of some checks that fails. If none fails it succeeds,
with a result of which `post` holds. -/
def Examines (a : TrackArguments α) (checks : List TrackCheck) {β : Type} (post : β → Prop) :
    Except (TrackFault α) β → Prop
  | .ok value => (∀ check ∈ checks, ∀ fault, ¬ check.Fails a fault) ∧ post value
  | .error fault => FirstFault a checks fault

variable {a : TrackArguments α}

theorem TrackCheck.Fails.unique {check : TrackCheck} {fault other : TrackFault α}
    (hfault : check.Fails a fault) (hother : check.Fails a other) : fault = other := by
  cases hfault <;> cases hother <;> simp_all

theorem FirstFault.unique {checks : List TrackCheck} {fault other : TrackFault α}
    (hfault : FirstFault a checks fault) (hother : FirstFault a checks other) : fault = other := by
  obtain ⟨before, check, after, rfl, hbefore, hfails⟩ := hfault
  obtain ⟨before', check', after', hsplit, hbefore', hfails'⟩ := hother
  rcases List.append_eq_append_iff.mp hsplit with
    ⟨_ | ⟨c, between⟩, rfl, hrest⟩ | ⟨_ | ⟨c, between⟩, rfl, hrest⟩
  · cases hrest
    exact hfails.unique hfails'
  · cases hrest
    exact absurd hfails (hbefore' check (by simp) fault)
  · cases hrest
    exact hfails.unique hfails'
  · cases hrest
    exact absurd hfails' (hbefore check' (by simp) other)

namespace Examines

variable {β γ : Type} {check : TrackCheck} {checks more : List TrackCheck} {post : β → Prop}

theorem ok {value : β} (hvalue : post value) : Examines a [] post (.ok value) :=
  ⟨List.forall_mem_nil _, hvalue⟩

theorem fail {fault : TrackFault α} (hfails : check.Fails a fault) :
    Examines a (check :: more) post (.error fault) :=
  ⟨[], check, more, rfl, List.forall_mem_nil _, hfails⟩

/-- What examines some checks and goes on with what examines some more examines all of them. -/
theorem bind {post' : γ → Prop} {x : Except (TrackFault α) β} {next : β → Except (TrackFault α) γ}
    (hx : Examines a checks post x) (hnext : ∀ value, post value → Examines a more post' (next value)) :
    Examines a (checks ++ more) post' (x >>= next) := by
  cases x with
  | error fault =>
    obtain ⟨before, check, after, rfl, hbefore, hfails⟩ := hx
    exact ⟨before, check, after ++ more, by simp, hbefore, hfails⟩
  | ok value =>
    obtain ⟨hpass, hvalue⟩ := hx
    have hmore := hnext value hvalue
    show Examines a (checks ++ more) post' (next value)
    generalize next value = result at hmore ⊢
    cases result with
    | error fault =>
      obtain ⟨before, check, after, rfl, hbefore, hfails⟩ := hmore
      refine ⟨checks ++ before, check, after, (List.append_assoc ..).symm, ?_, hfails⟩
      exact List.forall_mem_append.mpr ⟨hpass, hbefore⟩
    | ok value => exact ⟨List.forall_mem_append.mpr ⟨hpass, hmore.1⟩, hmore.2⟩

/-- A check that passes may be put in front. -/
theorem pass (hpass : ∀ fault, ¬ check.Fails a fault) {x : Except (TrackFault α) β}
    (hx : Examines a more post x) : Examines a (check :: more) post x := by
  have hcheck : Examines a [check] (fun _ : Unit => True) (.ok ()) :=
    ⟨List.forall_mem_singleton.mpr hpass, trivial⟩
  exact hcheck.bind fun _ _ => hx

end Examines

/-! ## What is examined where -/

theorem examines_set : Examines a [.set]
    (fun set => ∃ profile, Profile.ofName? a.set = some profile ∧ set = profile.set)
    ((IntegratorSet.ofName a.set).mapError .config) := by
  rw [IntegratorSet.ofName, Profile.ofName]
  cases hprofile : Profile.ofName? a.set with
  | none =>
    obtain ⟨hdefault, hname⟩ := Profile.ofName?_eq_none_iff.mp hprofile
    exact .fail (.set hdefault hname)
  | some profile =>
    refine .pass (fun fault hfails => ?_) (.ok ⟨profile, rfl, rfl⟩)
    cases hfails with
    | set hdefault hname =>
      have hnone := Profile.ofName?_eq_none_iff.mpr ⟨hdefault, hname⟩
      exact nomatch hprofile.symm.trans hnone

theorem examines_field : Examines a [.field] (fun kind => FieldKind.ofName? a.field = some kind)
    ((FieldKind.ofName a.field).mapError .config) := by
  rw [FieldKind.ofName]
  cases hkind : FieldKind.ofName? a.field with
  | none => exact .fail (.field (FieldKind.ofName?_eq_none_iff.mp hkind))
  | some kind =>
    refine .pass (fun fault hfails => ?_) (.ok rfl)
    cases hfails with
    | field hname =>
      have hnone := FieldKind.ofName?_eq_none_iff.mpr hname
      exact nomatch hkind.symm.trans hnone

theorem examines_species : Examines a [.particle, .energy]
    (fun species => Species.ofName? a.particle = some species) a.species := by
  rw [TrackArguments.species]
  cases hspecies : (Species.ofName? a.particle : Option (Species α)) with
  | none => exact .fail (.particle (Species.ofName?_eq_none_iff.mp hspecies))
  | some species =>
    refine .pass (fun fault hfails => ?_) ?_
    · cases hfails with
      | particle hname =>
        have hnone : (Species.ofName? a.particle : Option (Species α)) = none :=
          Species.ofName?_eq_none_iff.mpr hname
        exact nomatch hspecies.symm.trans hnone
    by_cases henergy : a.energy ≤ species.mass
    · simp only [if_pos henergy]
      exact .fail (.energy hspecies henergy)
    · simp only [if_neg henergy]
      refine .pass (fun fault hfails => ?_) (.ok rfl)
      cases hfails with
      | energy hspecies' hlow =>
        obtain rfl := Option.some.inj (hspecies.symm.trans hspecies')
        exact henergy hlow

theorem examines_strengths : Examines a [.strengths] (fun _ : Strengths α => True)
    ((readStrengths a.strengths).mapError .strength) := by
  cases hread : (readStrengths a.strengths : Except StrengthFault (Strengths α)) with
  | error fault => exact .fail (.strengths hread)
  | ok strengths =>
    refine .pass (fun fault hfails => ?_) (.ok trivial)
    cases hfails with
    | strengths hfault => exact nomatch hread.symm.trans hfault

/-- The plan that arguments without fault describe. -/
structure Planned (a : TrackArguments α) (plan : TrackPlan α) : Prop where
  set : ∃ profile, Profile.ofName? a.set = some profile ∧ plan.set = profile.set
  kind : FieldKind.ofName? a.field = some plan.magnet.kind
  species : Species.ofName? a.particle = some plan.species
  rigidity : plan.magnet.rigidity = a.designRigidity plan.species
  geometry : plan.magnet.geometry = a.geometry
  start : plan.start = a.start
  steps : plan.steps = a.steps

namespace Planned

variable {plan : TrackPlan α} (hplan : Planned a plan)

include hplan

theorem hasNoRigidity_iff : plan.magnet.HasNoRigidity ↔ ∃ fault, TrackCheck.Fails a .rigidity fault := by
  rw [Magnet.HasNoRigidity, hplan.rigidity]
  constructor
  · exact fun hrigidity => ⟨_, .rigidity hplan.species hrigidity⟩
  · rintro ⟨fault, hfails⟩
    cases hfails with
    | rigidity hspecies hrigidity =>
      obtain rfl := Option.some.inj (hplan.species.symm.trans hspecies)
      exact hrigidity

theorem lacksField_iff : plan.magnet.LacksField plan.set ↔ ∃ fault, TrackCheck.Fails a .support fault := by
  obtain ⟨profile, hprofile, hset⟩ := hplan.set
  rw [Magnet.LacksField, hset]
  constructor
  · exact fun hlacks => ⟨_, .support hprofile hplan.kind hlacks.1 hlacks.2⟩
  · rintro ⟨fault, hfails⟩
    cases hfails with
    | support hprofile' hkind hassigned hfield =>
      obtain rfl := Option.some.inj (hprofile.symm.trans hprofile')
      obtain rfl := Option.some.inj (hplan.kind.symm.trans hkind)
      exact ⟨hassigned, hfield⟩

theorem not_fails_geometry (hgeometry : plan.magnet.geometry.fault? = none) (fault : TrackFault α) :
    ¬ TrackCheck.Fails a .geometry fault := by
  intro hfails
  cases hfails with
  | geometry hfault =>
    rw [hplan.geometry, hfault] at hgeometry
    exact nomatch hgeometry

/-- Carrying out a plan examines the magnet. -/
theorem examines_track : Examines a [.rigidity, .geometry, .support] (fun coords => coords.length = a.steps)
    (plan.track.mapError .config) := by
  have hresult := plan.magnet.outcome_integrator plan.set ⟨plan.species.charge⟩ plan.context
  rw [TrackPlan.track]
  generalize hi : plan.magnet.integrator plan.set ⟨plan.species.charge⟩ plan.context = result at hresult
  cases hresult with
  | rigidity hrigidity =>
    rw [Magnet.track_of_fault hi, hplan.rigidity]
    rw [Magnet.HasNoRigidity, hplan.rigidity] at hrigidity
    exact .fail (.rigidity hplan.species hrigidity)
  | geometry hrigidity hfault =>
    rw [Magnet.track_of_fault hi]
    rw [hplan.geometry] at hfault
    exact .pass (not_exists.mp (mt hplan.hasNoRigidity_iff.mpr hrigidity)) (.fail (.geometry hfault))
  | field hrigidity hgeometry hfield =>
    obtain ⟨profile, hprofile, hset⟩ := hplan.set
    rw [Magnet.track_of_fault hi]
    rw [Magnet.LacksField, hset] at hfield
    exact .pass (not_exists.mp (mt hplan.hasNoRigidity_iff.mpr hrigidity))
      (.pass (hplan.not_fails_geometry hgeometry) (.fail (.support hprofile hplan.kind hfield.1 hfield.2)))
  | built hrigidity hgeometry hfield =>
    rw [Magnet.track_of_integrator hi]
    refine .pass (not_exists.mp (mt hplan.hasNoRigidity_iff.mpr hrigidity))
      (.pass (hplan.not_fails_geometry hgeometry)
        (.pass (not_exists.mp (mt hplan.lacksField_iff.mpr hfield)) (.ok ?_)))
    rw [List.length_map, Integrator.length_track, hplan.steps]

end Planned

/-! ## The whole command -/

section

variable (hstandard : (Context.standard : Context α).fault? = none)

include hstandard

/-- Only a radius that is given can be at fault. -/
theorem examines_context : Examines a [.settings] (fun _ : Context α => True)
    (a.context.checked.mapError .config) := by
  obtain ⟨hdefault, hmargin⟩ := Context.settings_of_fault?_eq_none hstandard
  have hfault : a.context.fault? = if !Scalar.isFinite a.context.minimumRadius || a.context.minimumRadius < 0
      then some (.minimumRadius a.context.minimumRadius) else none := by
    rw [Context.fault?]
    exact ite_congr rfl (fun _ => rfl) fun _ => if_neg hmargin
  rw [Context.checked, hfault]
  cases hradius : a.minimumRadius with
  | none =>
    have hcontext : a.context.minimumRadius = Context.standard.minimumRadius := by
      rw [TrackArguments.context, hradius]
      rfl
    rw [hcontext, if_neg hdefault]
    refine .pass (fun fault hfails => ?_) (.ok trivial)
    cases hfails with
    | settings hgiven => exact nomatch hradius.symm.trans hgiven
  | some radius =>
    have hcontext : a.context.minimumRadius = radius := by
      rw [TrackArguments.context, hradius]
      rfl
    have hrange : (!Scalar.isFinite radius || radius < 0) = true ↔
        Scalar.isFinite radius = false ∨ radius < 0 := by
      rw [Bool.or_eq_true, Bool.not_eq_true', decide_eq_true_eq]
    rw [hcontext]
    by_cases hfaulty : Scalar.isFinite radius = false ∨ radius < 0
    · rw [if_pos (hrange.mpr hfaulty)]
      exact .fail (.settings hradius hfaulty)
    · rw [if_neg (mt hrange.mp hfaulty)]
      refine .pass (fun fault hfails => ?_) (.ok trivial)
      cases hfails with
      | settings hgiven hfails =>
        obtain rfl := Option.some.inj (hradius.symm.trans hgiven)
        exact hfaulty hfails

theorem examines_plan : Examines a [.set, .field, .particle, .energy, .strengths, .settings] (Planned a)
    a.plan := by
  rw [TrackArguments.plan]
  refine Examines.bind examines_set fun set hset => ?_
  refine Examines.bind examines_field fun kind hkind => ?_
  refine Examines.bind examines_species fun species hspecies => ?_
  refine Examines.bind examines_strengths fun strengths _ => ?_
  refine Examines.bind (examines_context hstandard) fun context _ => ?_
  exact .ok ⟨hset, hkind, hspecies, rfl, rfl, rfl, rfl⟩

theorem examines_run : Examines a TrackCheck.all
    (fun coords => ∃ later, coords = a.start :: later ∧ later.length = a.steps) a.run := by
  rw [TrackArguments.run]
  refine Examines.bind (examines_plan hstandard) fun plan hplan => ?_
  refine Examines.bind hplan.examines_track fun coords hcoords => ?_
  exact .ok ⟨coords, by rw [hplan.start], hcoords⟩

end

/-! ## Lines -/

end CommandLine

namespace Decimal

theorem newline_notMem_positionalText {digits : List Char} (hdigits : '\n' ∉ digits) (point : Int) :
    '\n' ∉ positionalText digits point false := by
  have htake (n : ℕ) : '\n' ∉ digits.take n := fun hmem => hdigits (List.mem_of_mem_take hmem)
  have hdrop (n : ℕ) : '\n' ∉ digits.drop n := fun hmem => hdigits (List.mem_of_mem_drop hmem)
  rw [positionalText]
  split_ifs <;> simp [hdigits, htake, hdrop]

/-- A number is written on one line. -/
theorem newline_notMem_text (value : Float) : '\n' ∉ (Style.plain.text value).toList := by
  have hdigits (n : ℕ) : '\n' ∉ Nat.toDigits 10 n := fun hmem =>
    absurd (Nat.isDigit_of_mem_toDigits (by decide) le_rfl hmem) (by decide)
  rw [Style.text]
  cases decode value with
  | nan => decide
  | infinite negative => cases negative <;> decide
  | finite negative significand exponent =>
    have hmagnitude : '\n' ∉ Style.plain.magnitude (shortest significand exponent) := by
      rw [Style.magnitude]
      split_ifs
      · decide
      · decide
      · exact newline_notMem_positionalText (hdigits _) _
    cases negative <;> simp [hmagnitude]

end Decimal

namespace CommandLine

/-- The coordinates of a particle are written on one line. -/
theorem newline_notMem_line (c : ParticleCoords Float) : '\n' ∉ c.text.toList := by
  have hstring (text : String) : toString text = text := rfl
  simp [ParticleCoords.text, LocalCoords.text, hstring, Decimal.newline_notMem_text]

/-- A text of lines has as many ends of line as lines. -/
theorem count_newline (coords : List (ParticleCoords Float)) :
    (String.join (coords.map fun c => c.text ++ "\n")).toList.count '\n' = coords.length := by
  induction coords with
  | nil => rfl
  | cons c coords ih =>
    have hline : (c.text ++ "\n").toList.count '\n' = 1 := by
      rw [String.toList_append, List.count_append, List.count_eq_zero.mpr (newline_notMem_line c)]
      rfl
    rw [String.toList_join] at ih ⊢
    rw [List.map_cons, List.flatMap_cons, List.count_append, hline, ih, List.length_cons, Nat.add_comm]

theorem run_track (a : TrackArguments Float) : (Command.track a).run =
    a.run.map fun coords => String.join (coords.map fun c => c.text ++ "\n") := by
  rw [Command.run]
  cases a.run <;> rfl

/-- The command fails exactly on the faults of its arguments, and the fault of the first check that fails is
the one reported. Otherwise it writes one line for the start and one for each step. -/
theorem track_reports_first_fault (a : TrackArguments Float) :
    (∀ fault, (Command.track a).run = .error fault ↔ FirstFault a TrackCheck.all fault) ∧
    ((∃ fault, (Command.track a).run = .error fault) ↔ ∃ check fault, TrackCheck.Fails a check fault) ∧
    ((¬ ∃ check fault, TrackCheck.Fails a check fault) →
      ∃ later : List (ParticleCoords Float), later.length = a.steps ∧
        (Command.track a).run = .ok (String.join ((a.start :: later).map fun c => c.text ++ "\n")) ∧
        (String.join ((a.start :: later).map fun c => c.text ++ "\n")).toList.count '\n' = 1 + a.steps) := by
  have hstandard : (Context.standard : Context Float).fault? = none :=
    Option.isNone_iff_eq_none.mp (by decide +kernel)
  have hexamines : Examines a _ _ a.run := examines_run hstandard
  rw [run_track]
  generalize a.run = result at hexamines ⊢
  cases result with
  | error reported =>
    have hfirst : FirstFault a TrackCheck.all reported := hexamines
    obtain ⟨-, check, -, -, -, hfails⟩ := hexamines
    have hsome : ∃ check fault, TrackCheck.Fails a check fault := ⟨check, reported, hfails⟩
    refine ⟨fun fault => ⟨fun hrun => ?_, fun hfault => ?_⟩, iff_of_true ⟨reported, rfl⟩ hsome,
      absurd hsome⟩
    · cases hrun
      exact hfirst
    · rw [hfirst.unique hfault]
      rfl
  | ok coords =>
    obtain ⟨hpass, later, rfl, hlength⟩ := hexamines
    have hnone : ¬ ∃ check fault, TrackCheck.Fails a check fault := by
      rintro ⟨check, fault, hfails⟩
      exact hpass check check.mem_all fault hfails
    refine ⟨fun fault => iff_of_false (fun hrun => nomatch hrun) ?_,
      iff_of_false (fun hrun => nomatch hrun) hnone, fun _ => ⟨later, hlength, rfl, ?_⟩⟩
    · rintro ⟨-, check, -, -, -, hfails⟩
      exact hnone ⟨check, fault, hfails⟩
    · rw [count_newline, List.length_cons, hlength, Nat.add_comm]

/-- Names and settings left as they are have no fault, and neither has an energy that is not below the rest
mass. -/
theorem passes_before_rigidity {a : TrackArguments Float} (hset : a.set = "default")
    (hfield : a.field = "dipole") (hparticle : a.particle = "proton")
    (henergy : ¬ a.energy ≤ (Species.proton : Species Float).mass)
    (hstrengths : a.strengths = []) (hradius : a.minimumRadius = none) :
    ∀ check ∈ [TrackCheck.set, .field, .particle, .energy, .strengths, .settings],
      ∀ fault, ¬ check.Fails a fault := by
  intro check hcheck fault hfails
  cases hfails with
  | set hdefault =>
    rw [hset] at hdefault
    exact hdefault (by decide +kernel)
  | field hname =>
    rw [hfield] at hname
    exact hname .dipole (by decide +kernel)
  | particle hname =>
    rw [hparticle] at hname
    exact hname (by decide)
  | energy hspecies hlow =>
    rw [hparticle] at hspecies
    cases hspecies
    exact henergy hlow
  | strengths hfault =>
    rw [hstrengths] at hfault
    exact nomatch hfault
  | settings hgiven => exact nomatch hradius.symm.trans hgiven
  | rigidity | geometry | support => simp at hcheck

/-- An energy that is no number is above every rest mass, and gives no rigidity; that the length is none
either is not found out. With an energy and a length the same arguments have no fault. -/
theorem track_reports_first_fault_without_energy :
    let blind : TrackArguments Float :=
      { TrackArguments.standard with energy := Double.notANumber, length := Double.notANumber }
    let short : TrackArguments Float := { TrackArguments.standard with steps := 3 }
    (Command.track blind).run = .error (.config (.rigidity (blind.designRigidity .proton))) ∧
      (¬ ∃ check fault, TrackCheck.Fails short check fault) ∧
      ∃ later : List (ParticleCoords Float), later.length = 3 ∧
        (Command.track short).run =
          .ok (String.join ((short.start :: later).map fun c => c.text ++ "\n")) := by
  intro blind short
  have hblind := passes_before_rigidity (a := blind) rfl rfl rfl (by decide +kernel) rfl rfl
  have hshort := passes_before_rigidity (a := short) rfl rfl rfl (by decide +kernel) rfl rfl
  have hnone : ¬ ∃ check fault, TrackCheck.Fails short check fault := by
    rintro ⟨check, fault, hfails⟩
    cases id hfails with
    | rigidity hspecies hrigidity =>
      cases hspecies
      revert hrigidity
      decide +kernel
    | geometry hfault =>
      have hgeometry : short.geometry.fault? = none := Option.isNone_iff_eq_none.mp (by decide +kernel)
      exact nomatch hgeometry.symm.trans hfault
    | support _ hkind _ hfield =>
      have hdipole : FieldKind.ofName? short.field = some .dipole := by decide +kernel
      obtain rfl := Option.some.inj (hdipole.symm.trans hkind)
      exact absurd hfield (by decide)
    | set | field | particle | energy | strengths | settings => exact hshort _ (by decide) _ hfails
  refine ⟨?_, hnone, ?_⟩
  · exact ((track_reports_first_fault blind).1 _).mpr
      ⟨_, .rigidity, [.geometry, .support], rfl, hblind, .rigidity rfl (by decide +kernel)⟩
  · obtain ⟨later, hlength, hrun, -⟩ := (track_reports_first_fault short).2.2 hnone
    exact ⟨later, hlength, hrun⟩

end CommandLine

end BeamTransport
