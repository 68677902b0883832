import BeamTransport.ConfigError
import BeamTransport.Proofs.StrengthRecord

/-!
# What names mean

Fields, integrators and integrator sets are read from their names in any mixture of capital and small ASCII
letters, and strength keys from theirs as they are written. All readers of names have one shape
(`ReadsNames`): a text either is a word that stands for one value, and is read as this value, or is refused
with a fault that carries the text as it was given (`names_mean_one_value`).
-/

namespace BeamTransport

/-! ## Readers -/

/-- A reader takes the texts that stand for a value to the value. It refuses every other text with the fault
that carries the text unchanged. A text stands for one value at most, and only words of ASCII letters and
digits stand for one. -/
structure ReadsNames {κ ε : Type} (read : String → Except ε κ) (fault : String → ε)
    (StandsFor : String → κ → Prop) : Prop where
  accepts : ∀ text value, read text = .ok value ↔ StandsFor text value
  refuses : ∀ text other, read text = .error other ↔ (∀ value, ¬ StandsFor text value) ∧ other = fault text
  unique : ∀ text value other, StandsFor text value → StandsFor text other → value = other
  words : ∀ text value, StandsFor text value → Text.IsWord text

section lookup

variable {κ ε : Type} {read : String → Except ε κ} {fault : String → ε}

/-- A reader that looks its text up, and has nothing else to report than what was not found. -/
theorem ReadsNames.of_lookup (lookup : String → Option κ) {StandsFor : String → κ → Prop}
    (hread : ∀ text, read text = (lookup text).elim (.error (fault text)) .ok)
    (hfound : ∀ text value, lookup text = some value ↔ StandsFor text value)
    (hwords : ∀ text value, StandsFor text value → Text.IsWord text) :
    ReadsNames read fault StandsFor where
  accepts text value := by
    rw [hread, ← hfound]
    cases lookup text <;> simp
  refuses text other := by
    simp only [hread, ← hfound]
    cases lookup text <;> simp [eq_comm]
  unique text value other hvalue hother := by
    rw [← hfound] at hvalue hother
    exact Option.some.inj (hvalue.symm.trans hother)
  words := hwords

variable {values : List κ} {name : κ → String} (hnaming : IsNaming values name)

include hnaming

theorem IsNaming.readsNames
    (hread : ∀ text, read text =
      (values.find? fun value => name value == text.toLower).elim (.error (fault text)) .ok) :
    ReadsNames read fault fun text value => Text.LowersTo text (name value) :=
  .of_lookup _ hread (fun _ _ => hnaming.find?_toLower_eq_some_iff)
    fun _ value hname => hname.isWord (hnaming.small value)

theorem IsNaming.readsNames_as_written
    (hread : ∀ text, read text =
      (values.find? fun value => name value == text).elim (.error (fault text)) .ok) :
    ReadsNames read fault fun text value => text = name value :=
  .of_lookup _ hread (fun _ _ => hnaming.find?_eq_some_iff.trans eq_comm)
    fun _ value hname => hname ▸ (hnaming.small value).lowersTo_self.isWord (hnaming.small value)

end lookup

/-! ## Integrator sets -/

/-- The texts that stand for an integrator set: its name, and for one of the sets `default` too. -/
def Profile.IsCalled (text : String) (profile : Profile) : Prop :=
  Text.LowersTo text profile.name ∨ Text.LowersTo text "default" ∧ profile = .bdsimTwo

theorem Profile.isWord_of_isCalled (text : String) (profile : Profile) (hcalled : profile.IsCalled text) :
    Text.IsWord text := by
  rcases hcalled with hname | ⟨hdefault, -⟩
  · exact hname.isWord (Profile.isNaming.small profile)
  · exact hdefault.isWord (by decide)

/-! ## What each reader reads -/

variable (α : Type)

theorem FieldKind.readsNames : ReadsNames (FieldKind.ofName (α := α)) .unknownField
    fun text kind => Text.LowersTo text kind.name := by
  refine isNaming.readsNames fun text => ?_
  rw [ofName, ofName?]
  cases List.find? _ _ <;> rfl

theorem IntegratorKind.readsNames : ReadsNames (IntegratorKind.ofName (α := α)) .unknownIntegrator
    fun text kind => Text.LowersTo text kind.name := by
  refine isNaming.readsNames fun text => ?_
  rw [ofName, ofName?]
  cases List.find? _ _ <;> rfl

theorem Profile.readsNames :
    ReadsNames (Profile.ofName (α := α)) .unknownIntegratorSet Profile.IsCalled := by
  refine .of_lookup ofName? (fun text => ?_) (fun _ _ => ofName?_eq_some_iff) isWord_of_isCalled
  rw [ofName]
  cases ofName? text <;> rfl

/-- A set is read as that of the profile that is read. -/
theorem IntegratorSet.readsNames : ReadsNames (IntegratorSet.ofName (α := α)) .unknownIntegratorSet
    fun text set => ∃ profile : Profile, profile.IsCalled text ∧ profile.set = set := by
  refine .of_lookup (fun text => (Profile.ofName? text).map Profile.set) (fun text => ?_)
    (fun text set => ?_) ?_
  · rw [ofName, Profile.ofName]
    cases Profile.ofName? text <;> rfl
  · simp only [Option.map_eq_some_iff, Profile.ofName?_eq_some_iff, Profile.IsCalled]
  · rintro text set ⟨profile, hcalled, -⟩
    exact profile.isWord_of_isCalled text hcalled

theorem StrengthKey.readsNames : ReadsNames StrengthKey.ofName .mk fun text key => text = key.name := by
  refine isNaming.readsNames_as_written fun text => ?_
  rw [ofName, ofName?]
  cases List.find? _ _ <;> rfl

/-- Each text that is read as a name means one value. A field and an integrator are read from their names in
any mixture of capital and small ASCII letters, an integrator set from its name or from `default`, and a
strength key from its very name. Every other text, such as one with a blank or a letter that is not ASCII, is
refused with a fault that carries it unchanged. The names that are printed are read back. -/
theorem names_mean_one_value :
    (ReadsNames (FieldKind.ofName (α := α)) .unknownField fun text kind => Text.LowersTo text kind.name) ∧
    (ReadsNames (IntegratorKind.ofName (α := α)) .unknownIntegrator fun text kind =>
      Text.LowersTo text kind.name) ∧
    (ReadsNames (Profile.ofName (α := α)) .unknownIntegratorSet fun text profile =>
      Text.LowersTo text profile.name ∨ Text.LowersTo text "default" ∧ profile = .bdsimTwo) ∧
    (ReadsNames (IntegratorSet.ofName (α := α)) .unknownIntegratorSet fun text set =>
      ∃ profile : Profile, (Text.LowersTo text profile.name ∨
        Text.LowersTo text "default" ∧ profile = .bdsimTwo) ∧ profile.set = set) ∧
    (ReadsNames StrengthKey.ofName .mk fun text key => text = key.name) ∧
    (∀ kind, FieldKind.ofName (α := α) kind.name = .ok kind) ∧
    (∀ kind, IntegratorKind.ofName (α := α) kind.name = .ok kind) ∧
    (∀ profile, Profile.ofName (α := α) profile.name = .ok profile) ∧
    (∀ profile : Profile, IntegratorSet.ofName (α := α) profile.name = .ok profile.set) ∧
    ∀ key, StrengthKey.ofName key.name = .ok key := by
  have hfield := FieldKind.readsNames α
  have hintegrator := IntegratorKind.readsNames α
  have hprofile := Profile.readsNames α
  have hset := IntegratorSet.readsNames α
  have hprinted (profile : Profile) : profile.IsCalled profile.name :=
    Or.inl (Profile.isNaming.small profile).lowersTo_self
  exact ⟨hfield, hintegrator, hprofile, hset, StrengthKey.readsNames,
    fun kind => (hfield.accepts _ _).mpr (FieldKind.isNaming.small kind).lowersTo_self,
    fun kind => (hintegrator.accepts _ _).mpr (IntegratorKind.isNaming.small kind).lowersTo_self,
    fun profile => (hprofile.accepts _ _).mpr (hprinted profile),
    fun profile => (hset.accepts _ _).mpr ⟨profile, hprinted profile, rfl⟩, StrengthKey.ofName_name⟩

example : IntegratorKind.ofName (α := Float) "ClassicalRK4" = .ok .rungeKutta := by cbv

/-- The sign of the kelvin is no ASCII letter, although its small form is one. -/
example : IntegratorKind.ofName (α := Float) "classicalr\u212A4" =
    .error (.unknownIntegrator "classicalr\u212A4") := by cbv

end BeamTransport
