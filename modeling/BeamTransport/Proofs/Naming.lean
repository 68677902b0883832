import BeamTransport.Integrator.Profile
import Mathlib

/-!
# Values found by their names

A value is looked up in the list of all values of its kind by a name that no other value has (`IsNaming`), so
the list gives for a name the value that bears it and no other (`IsNaming.find?_eq_some_iff`). The names of
fields, integrators and integrator sets are looked up under the text in small ASCII letters
(`Text.LowersTo`); one integrator set is found under `default` as well, which is no name.
-/

namespace BeamTransport

/-! ## Small letters -/

namespace Text

/-- A capital ASCII letter lowers to its small form, 32 places behind it, and any other character to
itself. -/
def CharLowersTo (c lowered : Char) : Prop :=
  if 'A' ≤ c ∧ c ≤ 'Z' then lowered.toNat = c.toNat + 32 else lowered = c

/-- A text lowers to another one, character by character. -/
def LowersTo (text lowered : String) : Prop := List.Forall₂ CharLowersTo text.toList lowered.toList

/-- A word of ASCII letters and digits. -/
def IsWord (text : String) : Prop := text ≠ "" ∧ ∀ c ∈ text.toList, c.isAlphanum = true

/-- A word of small ASCII letters and digits. -/
def IsSmallWord (text : String) : Prop :=
  text ≠ "" ∧ text.toList.all (fun c => c.isLower || c.isDigit) = true

instance (text : String) : Decidable (IsSmallWord text) :=
  inferInstanceAs (Decidable (text ≠ "" ∧ text.toList.all (fun c => c.isLower || c.isDigit) = true))

theorem isUpper_iff {c : Char} : c.isUpper = true ↔ 'A' ≤ c ∧ c ≤ 'Z' := decide_eq_true_iff

theorem toNat_toLower {c : Char} (hcapital : 'A' ≤ c ∧ c ≤ 'Z') : c.toLower.toNat = c.toNat + 32 := by
  have hlast : c.val.toNat ≤ 90 := UInt32.le_iff_toNat_le.mp hcapital.2
  have hlower : c.toLower.val = c.val + 32 := congrArg Char.val (dif_pos hcapital)
  have hshift : (32 : UInt32).toNat = 32 := rfl
  rw [← Char.toNat_val, hlower, UInt32.toNat_add, hshift, ← Char.toNat_val]
  exact Nat.mod_eq_of_lt (by omega)

theorem charLowersTo_iff {c lowered : Char} : CharLowersTo c lowered ↔ c.toLower = lowered := by
  unfold CharLowersTo
  split_ifs with hcapital
  · rw [← Char.toNat_inj, toNat_toLower hcapital, eq_comm]
  · rw [Char.toLower_eq_of_not_isUpper (isUpper_iff.not.mpr hcapital), eq_comm]

theorem lowersTo_iff {text lowered : String} : LowersTo text lowered ↔ text.toLower = lowered := by
  have hchar : CharLowersTo = fun c lowered => c.toLower = lowered :=
    funext₂ fun _ _ => propext charLowersTo_iff
  rw [LowersTo, hchar, ← String.toList_inj, String.toLower, String.toList_map, ← List.forall₂_eq_eq_eq,
    List.forall₂_map_left_iff]

namespace IsSmallWord

variable {text : String} (hsmall : IsSmallWord text)

include hsmall

theorem isLower_or_isDigit {c : Char} (hc : c ∈ text.toList) : c.isLower = true ∨ c.isDigit = true :=
  (Bool.or_eq_true _ _).mp (List.all_eq_true.mp hsmall.2 c hc)

theorem not_isUpper {c : Char} (hc : c ∈ text.toList) : ¬ c.isUpper = true := by
  rcases hsmall.isLower_or_isDigit hc with hlower | hdigit
  · exact Char.not_isUpper_of_isLower hlower
  · intro hupper
    rw [Char.isDigit, Bool.and_eq_true, decide_eq_true_eq, decide_eq_true_eq] at hdigit
    exact absurd (UInt32.le_trans (isUpper_iff.mp hupper).1 hdigit.2) (by decide)

/-- A word in small letters is its own lowered form. -/
theorem lowersTo_self : LowersTo text text :=
  List.forall₂_same.mpr fun _ hc => (if_neg (isUpper_iff.not.mp (hsmall.not_isUpper hc))).mpr rfl

end IsSmallWord

/-- What lowers to a word in small letters is a word. -/
theorem LowersTo.isWord {text lowered : String} (hlower : LowersTo text lowered)
    (hsmall : IsSmallWord lowered) : IsWord text := by
  rw [lowersTo_iff] at hlower
  subst hlower
  refine ⟨?_, fun c hc => ?_⟩
  · rintro rfl
    exact hsmall.1 (by simp [String.toLower])
  · have hmem : c.toLower ∈ text.toLower.toList := by
      rw [String.toLower, String.toList_map]
      exact List.mem_map_of_mem hc
    by_cases hupper : c.isUpper = true
    · simp [Char.isAlphanum, Char.isAlpha, hupper]
    · have hletter := hsmall.isLower_or_isDigit hmem
      rw [Char.toLower_eq_of_not_isUpper hupper] at hletter
      rcases hletter with hletter | hdigit
      · simp [Char.isAlphanum, Char.isAlpha, hletter]
      · simp [Char.isAlphanum, hdigit]

end Text

/-! ## Names in a list -/

/-- A list holds all values, and each has a name of its own, which is a word in small letters. -/
structure IsNaming {κ : Type} (values : List κ) (name : κ → String) : Prop where
  complete : ∀ value, value ∈ values
  distinct : (values.map name).Nodup
  small : ∀ value, Text.IsSmallWord (name value)

namespace IsNaming

variable {κ : Type} {values : List κ} {name : κ → String} (hnaming : IsNaming values name)
  {text : String} {value : κ}

include hnaming

theorem name_inj {other : κ} : name value = name other ↔ value = other :=
  ⟨fun hname => List.inj_on_of_nodup_map hnaming.distinct (hnaming.complete value) (hnaming.complete other)
    hname, congrArg name⟩

theorem find?_eq_none_iff :
    values.find? (fun value => name value == text) = none ↔ ∀ value, name value ≠ text := by
  simp [hnaming.complete]

theorem find?_eq_some_iff :
    values.find? (fun value => name value == text) = some value ↔ name value = text := by
  constructor
  · intro hfound
    simpa using List.find?_some hfound
  · rintro rfl
    cases hfound : values.find? (fun other => name other == name value) with
    | none => exact absurd rfl (hnaming.find?_eq_none_iff.mp hfound value)
    | some other =>
      have hname : name other = name value := by simpa using List.find?_some hfound
      rw [hnaming.name_inj.mp hname]

theorem find?_toLower_eq_some_iff :
    values.find? (fun value => name value == text.toLower) = some value ↔
      Text.LowersTo text (name value) := by
  rw [hnaming.find?_eq_some_iff, Text.lowersTo_iff, eq_comm]

end IsNaming

/-! ## The lists of names -/

theorem FieldKind.isNaming : IsNaming FieldKind.all FieldKind.name where
  complete kind := by cases kind <;> decide
  distinct := by decide
  small kind := by cases kind <;> decide

theorem IntegratorKind.isNaming : IsNaming IntegratorKind.all IntegratorKind.name where
  complete kind := by cases kind <;> decide
  distinct := by decide
  small kind := by cases kind <;> decide

theorem Profile.isNaming : IsNaming Profile.all Profile.name where
  complete profile := by cases profile <;> decide
  distinct := by decide
  small profile := by cases profile <;> decide

theorem FieldKind.ofName?_eq_none_iff {text : String} :
    FieldKind.ofName? text = Option.none ↔ ∀ kind : FieldKind, kind.name ≠ text.toLower :=
  FieldKind.isNaming.find?_eq_none_iff

namespace Profile

variable {text : String} {profile : Profile}

theorem name_ne_default (profile : Profile) : profile.name ≠ "default" := by
  cases profile <;> decide

theorem ofName?_eq_some_iff : ofName? text = some profile ↔
    Text.LowersTo text profile.name ∨ Text.LowersTo text "default" ∧ profile = .bdsimTwo := by
  rw [ofName?, Text.lowersTo_iff, Text.lowersTo_iff]
  by_cases hdefault : text.toLower = "default"
  · simp [hdefault, standard, profile.name_ne_default.symm, eq_comm (b := profile)]
  · simp [hdefault, isNaming.find?_eq_some_iff, eq_comm (b := profile.name)]

theorem ofName?_eq_none_iff : ofName? text = none ↔
    text.toLower ≠ "default" ∧ ∀ profile : Profile, profile.name ≠ text.toLower := by
  rw [ofName?]
  by_cases hdefault : text.toLower = "default"
  · simp [hdefault]
  · simp [hdefault, isNaming.find?_eq_none_iff]

end Profile

end BeamTransport
