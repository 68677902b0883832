import BeamTransport.Proofs.Naming
import BeamTransport.Strength.Record
import Mathlib.Data.List.Induction
import Mathlib.Logic.Function.Basic

/-!
# Strength records hold what was written last

Records are edited under keys or names, made anew from lists of names and values, and copied. The value
under a key is the one written last among the accepted edits that reach it through copies
(`get?_run`). An edit is refused by its first name that is no key, and a refused edit changes no record,
so that it may as well be left out (`run_filter`).
-/

namespace BeamTransport

/-! ## Names of keys -/

namespace StrengthKey

/-- The names of all keys in canonical order. -/
def names : List String := all.map name

theorem names_eq : names =
    ["k0", "k1", "k1s", "k2", "k2s", "k3", "k3s", "k4", "k4s", "k5", "k5s", "k6", "k6s",
      "k7", "k7s", "k8", "k8s", "k9", "k9s", "k10", "k10s", "k11", "k11s", "k12", "k12s"] := by
  decide

theorem mem_all (key : StrengthKey) : key ∈ all := by
  cases key with
  | normal order => revert order; decide
  | skew index => revert index; decide

theorem name_mem_names (key : StrengthKey) : key.name ∈ names := List.mem_map_of_mem (mem_all key)

theorem exists_of_mem_names {text : String} (htext : text ∈ names) :
    ∃ key : StrengthKey, key.name = text :=
  let ⟨key, _, hname⟩ := List.mem_map.mp htext
  ⟨key, hname⟩

theorem nodup_names : names.Nodup := by
  rw [names_eq]
  decide

theorem isSmallWord_name (key : StrengthKey) : Text.IsSmallWord key.name := by
  cases key with
  | normal order => revert order; decide
  | skew index => revert index; decide

theorem isNaming : IsNaming all name := ⟨mem_all, nodup_names, isSmallWord_name⟩

theorem name_inj {key other : StrengthKey} : key.name = other.name ↔ key = other := isNaming.name_inj

theorem ofName_name (key : StrengthKey) : ofName key.name = .ok key := by
  have hfound : ofName? key.name = some key := isNaming.find?_eq_some_iff.mpr rfl
  rw [ofName, hfound]

theorem ofName_of_notMem {text : String} (htext : text ∉ names) : ofName text = .error ⟨text⟩ := by
  have hnone : ofName? text = none := by
    refine isNaming.find?_eq_none_iff.mpr fun key hname => htext ?_
    rw [← hname]
    exact key.name_mem_names
  rw [ofName, hnone]

/-- The first of some names that is no key. -/
def unknown? (texts : List String) : Option String := texts.find? (· ∉ names)

theorem unknown?_eq_none_iff {texts : List String} :
    unknown? texts = none ↔ ∀ text ∈ texts, text ∈ names := by
  simp [unknown?]

theorem unknown?_cons_of_mem {text : String} (htext : text ∈ names) (texts : List String) :
    unknown? (text :: texts) = unknown? texts :=
  List.find?_cons_of_neg (by simpa using htext)

theorem unknown?_cons_of_notMem {text : String} (htext : text ∉ names) (texts : List String) :
    unknown? (text :: texts) = some text :=
  List.find?_cons_of_pos (by simpa using htext)

end StrengthKey

/-! ## Records made from names -/

namespace Strengths

variable {α : Type}

theorem setNamed_name (strengths : Strengths α) (key : StrengthKey) (value : α) :
    strengths.setNamed key.name value = .ok (strengths.set key value) := by
  rw [setNamed, StrengthKey.ofName_name]
  rfl

theorem setNamed_of_notMem (strengths : Strengths α) {text : String} (htext : text ∉ StrengthKey.names)
    (value : α) : strengths.setNamed text value = .error ⟨text⟩ := by
  rw [setNamed, StrengthKey.ofName_of_notMem htext]
  rfl

/-- The value under a key after a first write and some later ones. -/
theorem lookup_or_set (pairs : List (String × α)) (strengths : Strengths α) (written key : StrengthKey)
    (value : α) :
    (pairs.reverse.lookup key.name).or ((strengths.set written value).get? key) =
      (((written.name, value) :: pairs).reverse.lookup key.name).or (strengths.get? key) := by
  rw [List.reverse_cons, List.lookup_append, Option.or_assoc]
  congr 1
  by_cases hkey : key = written
  · simp [set, hkey]
  · have hname : key.name ≠ written.name := StrengthKey.name_inj.not.mpr hkey
    simp [set, hkey, List.lookup_cons, beq_false_of_ne hname]

theorem foldlM_setNamed (pairs : List (String × α)) (strengths : Strengths α) :
    pairs.foldlM (fun strengths pair => strengths.setNamed pair.1 pair.2) strengths =
      match StrengthKey.unknown? (pairs.map Prod.fst) with
      | some text => .error ⟨text⟩
      | none => .ok ⟨fun key => (pairs.reverse.lookup key.name).or (strengths.get? key)⟩ := by
  induction pairs generalizing strengths with
  | nil => rfl
  | cons pair pairs ih =>
    obtain ⟨text, value⟩ := pair
    rw [List.foldlM_cons, List.map_cons]
    by_cases htext : text ∈ StrengthKey.names
    · rw [StrengthKey.unknown?_cons_of_mem htext]
      obtain ⟨written, rfl⟩ := StrengthKey.exists_of_mem_names htext
      rw [setNamed_name]
      refine (ih _).trans ?_
      simp only [lookup_or_set]
    · rw [setNamed_of_notMem _ htext, StrengthKey.unknown?_cons_of_notMem htext]
      rfl

/-- A record is made if all names are keys, and holds the last value of each name. -/
theorem ofPairs_eq (pairs : List (String × α)) :
    ofPairs pairs =
      match StrengthKey.unknown? (pairs.map Prod.fst) with
      | some text => .error ⟨text⟩
      | none => .ok ⟨fun key => pairs.reverse.lookup key.name⟩ := by
  rw [ofPairs, foldlM_setNamed]
  simp only [empty, Option.or_none]

variable [Scalar α]

theorem beq_iff (strengths other : Strengths α) :
    (strengths == other) = true ↔ ∀ key, (strengths.get key == other.get key) = true := by
  refine List.all_eq_true.trans ?_
  exact ⟨fun hall key => hall key key.mem_all, fun hall key _ => hall key⟩

end Strengths

/-! ## Edits of records -/

/-- An edit of records that are told apart by `ι`. -/
inductive RecordEdit (ι α : Type) where
  | set (record : ι) (key : StrengthKey) (value : α)
  | setNamed (record : ι) (text : String) (value : α)
  /-- Replaces a record by the one of a list of names and values. -/
  | ofPairs (record : ι) (pairs : List (String × α))
  | copy (source target : ι)

namespace RecordEdit

variable {ι α : Type} [DecidableEq ι]

/-- The names that an edit gives, which are to be names of keys. -/
def texts : RecordEdit ι α → List String
  | .set .. | .copy .. => []
  | .setNamed _ text _ => [text]
  | .ofPairs _ pairs => pairs.map Prod.fst

/-- The records after an edit, unless it is refused. -/
def apply (records : ι → Strengths α) : RecordEdit ι α → Except InvalidKey (ι → Strengths α)
  | .set record key value =>
    return Function.update records record ((records record).set key value)
  | .setNamed record text value =>
    return Function.update records record (← (records record).setNamed text value)
  | .ofPairs record pairs => return Function.update records record (← Strengths.ofPairs pairs)
  | .copy source target => return Function.update records target (records source)

/-- The records after an edit; one that is refused leaves them as they are. -/
def step (records : ι → Strengths α) (edit : RecordEdit ι α) : ι → Strengths α :=
  match edit.apply records with
  | .ok edited => edited
  | .error _ => records

/-- The records after a sequence of edits of empty ones. -/
def run (edits : List (RecordEdit ι α)) : ι → Strengths α := edits.foldl step fun _ => .empty

/-- The value that was written last and reached a key of a record, found by going back over the edits, the
last one first. -/
def lastWrite? : List (RecordEdit ι α) → ι → StrengthKey → Option α
  | [], _, _ => none
  | .set target written value :: earlier, record, key =>
    if target = record ∧ written = key then some value else lastWrite? earlier record key
  | .setNamed target text value :: earlier, record, key =>
    if target = record ∧ text = key.name then some value else lastWrite? earlier record key
  | .ofPairs target pairs :: earlier, record, key =>
    if target = record ∧ ∀ pair ∈ pairs, pair.1 ∈ StrengthKey.names then pairs.reverse.lookup key.name
    else lastWrite? earlier record key
  | .copy source target :: earlier, record, key =>
    lastWrite? earlier (if target = record then source else record) key

/-- An edit is refused by its first name that is no key. -/
theorem apply_eq (records : ι → Strengths α) (edit : RecordEdit ι α) :
    edit.apply records =
      match StrengthKey.unknown? edit.texts with
      | some text => .error ⟨text⟩
      | none => .ok (edit.step records) := by
  cases edit with
  | set | copy => rfl
  | setNamed record text value =>
    by_cases htext : text ∈ StrengthKey.names
    · obtain ⟨key, rfl⟩ := StrengthKey.exists_of_mem_names htext
      rw [texts, StrengthKey.unknown?_cons_of_mem htext, step, apply, Strengths.setNamed_name]
      rfl
    · rw [texts, StrengthKey.unknown?_cons_of_notMem htext, apply,
        Strengths.setNamed_of_notMem _ htext]
      rfl
  | ofPairs record pairs =>
    rw [texts, step, apply, Strengths.ofPairs_eq]
    cases StrengthKey.unknown? (pairs.map Prod.fst) <;> rfl

theorem step_of_unknown (records : ι → Strengths α) (edit : RecordEdit ι α) {text : String}
    (htext : StrengthKey.unknown? edit.texts = some text) :
    edit.step records = records := by
  rw [step, apply_eq, htext]

/-! ## Sequences of edits -/

theorem run_append (edits : List (RecordEdit ι α)) (edit : RecordEdit ι α) :
    run (edits ++ [edit]) = edit.step (run edits) := by
  rw [run, List.foldl_append]
  rfl

/-- A refused edit may as well be left out. -/
theorem run_filter (edits : List (RecordEdit ι α)) :
    run (edits.filter fun edit => (StrengthKey.unknown? edit.texts).isNone) = run edits := by
  rw [run, List.foldl_filter, run]
  congr 1
  funext records edit
  cases htext : StrengthKey.unknown? edit.texts with
  | none => rfl
  | some text => exact (step_of_unknown records edit htext).symm

theorem get?_update_set (records : ι → Strengths α) (target record : ι) (written key : StrengthKey)
    (value : α) :
    (Function.update records target ((records target).set written value) record).get? key =
      if target = record ∧ written = key then some value else (records record).get? key := by
  rw [Function.update_apply]
  by_cases htarget : target = record
  · by_cases hkey : written = key
    · simp [htarget, hkey, Strengths.set]
    · simp [htarget, hkey, Ne.symm hkey, Strengths.set]
  · simp [htarget, Ne.symm htarget]

/-- What was written last before an edit, and the edit itself, tell what was written last after it. -/
theorem get?_step {records : ι → Strengths α} {earlier : List (RecordEdit ι α)}
    (hrecords : ∀ record key, (records record).get? key = lastWrite? earlier record key)
    (edit : RecordEdit ι α) (record : ι) (key : StrengthKey) :
    (edit.step records record).get? key = lastWrite? (edit :: earlier) record key := by
  cases edit with
  | set target written value =>
    rw [lastWrite?, ← hrecords]
    exact get?_update_set records target record written key value
  | setNamed target text value =>
    rw [lastWrite?, ← hrecords]
    by_cases htext : text ∈ StrengthKey.names
    · obtain ⟨written, rfl⟩ := StrengthKey.exists_of_mem_names htext
      simp only [step, apply, Strengths.setNamed_name, StrengthKey.name_inj]
      exact get?_update_set records target record written key value
    · have hname : text ≠ key.name := fun hname => htext (hname ▸ key.name_mem_names)
      have hunknown : StrengthKey.unknown? (texts (.setNamed target text value)) = some text :=
        StrengthKey.unknown?_cons_of_notMem htext []
      rw [step_of_unknown records _ hunknown, if_neg fun hboth => hname hboth.2]
  | ofPairs target pairs =>
    rw [lastWrite?, ← hrecords]
    cases hunknown : StrengthKey.unknown? (pairs.map Prod.fst) with
    | none =>
      have hpairs : ∀ pair ∈ pairs, pair.1 ∈ StrengthKey.names := fun pair hpair =>
        StrengthKey.unknown?_eq_none_iff.mp hunknown pair.1 (List.mem_map_of_mem hpair)
      have hstep : (RecordEdit.ofPairs target pairs).step records =
          Function.update records target ⟨fun key => pairs.reverse.lookup key.name⟩ := by
        rw [step, apply, Strengths.ofPairs_eq, hunknown]
        rfl
      rw [hstep, Function.update_apply]
      by_cases htarget : record = target
      · rw [if_pos htarget, if_pos ⟨htarget.symm, hpairs⟩]
      · rw [if_neg htarget, if_neg fun hboth => htarget hboth.1.symm]
    | some text =>
      have hpairs : ¬ ∀ pair ∈ pairs, pair.1 ∈ StrengthKey.names := fun hpairs => by
        have hnone : StrengthKey.unknown? (pairs.map Prod.fst) = none :=
          StrengthKey.unknown?_eq_none_iff.mpr (List.forall_mem_map.mpr hpairs)
        rw [hnone] at hunknown
        cases hunknown
      rw [step_of_unknown records (.ofPairs target pairs) hunknown, if_neg fun hboth => hpairs hboth.2]
  | copy source target =>
    have hstep : (RecordEdit.copy source target).step records =
        Function.update records target (records source) := rfl
    rw [hstep, Function.update_apply, lastWrite?, ← hrecords]
    by_cases htarget : record = target
    · simp [htarget]
    · simp [htarget, Ne.symm htarget]

/-- A record holds under each key what was written last. -/
theorem get?_run (edits : List (RecordEdit ι α)) (record : ι) (key : StrengthKey) :
    (run edits record).get? key = lastWrite? edits.reverse record key := by
  induction edits using List.reverseRecOn generalizing record key with
  | nil => rfl
  | append_singleton edits edit ih =>
    rw [run_append, List.reverse_append]
    exact get?_step ih edit record key

/-- The records after any sequence of edits hold under each key what was written last, or zero. An edit is
refused by its first name that is no key, and then changes nothing. Records are equal where all keys read
the same, and list and print their keys in canonical order. -/
theorem last_write_wins (edits : List (RecordEdit ι Float)) :
    let records := run edits
    (∀ record key,
      (records record).get key = (lastWrite? edits.reverse record key).getD 0.0 ∧
        (records record).isSet key = (lastWrite? edits.reverse record key).isSome) ∧
    (∀ edit : RecordEdit ι Float,
      match StrengthKey.unknown? edit.texts with
      | some text => edit.apply records = .error ⟨text⟩ ∧ run (edits ++ [edit]) = records
      | none => edit.apply records = .ok (run (edits ++ [edit]))) ∧
    run (edits.filter fun edit => (StrengthKey.unknown? edit.texts).isNone) = records ∧
    (∀ one other, (records one == records other) = true ↔
      ∀ key, ((records one).get key == (records other).get key) = true) ∧
    (∀ record,
      (records record).toList =
          StrengthKey.all.map (fun key => (key, (lastWrite? edits.reverse record key).getD 0.0)) ∧
        (records record).text = String.join (StrengthKey.all.map fun key =>
          key.name ++ ": " ++
            Decimal.Style.plain.text ((lastWrite? edits.reverse record key).getD 0.0) ++ "\n")) ∧
    StrengthKey.all.map StrengthKey.name =
      ["k0", "k1", "k1s", "k2", "k2s", "k3", "k3s", "k4", "k4s", "k5", "k5s", "k6", "k6s",
        "k7", "k7s", "k8", "k8s", "k9", "k9s", "k10", "k10s", "k11", "k11s", "k12", "k12s"] := by
  have hget (record : ι) (key : StrengthKey) :
      (run edits record).get key = (lastWrite? edits.reverse record key).getD 0.0 := by
    rw [Strengths.get, get?_run]
    rfl
  have hlist (record : ι) : (run edits record).toList =
      StrengthKey.all.map fun key => (key, (lastWrite? edits.reverse record key).getD 0.0) :=
    List.map_congr_left fun key _ => by rw [hget]
  refine ⟨fun record key => ⟨hget record key, ?_⟩, fun edit => ?_, ?_, fun one other => ?_,
    fun record => ⟨hlist record, ?_⟩, StrengthKey.names_eq⟩
  · rw [Strengths.isSet, get?_run]
  · have happly := edit.apply_eq (run edits)
    rw [run_append]
    cases htext : StrengthKey.unknown? edit.texts with
    | none => rwa [htext] at happly
    | some text =>
      rw [htext] at happly
      exact ⟨happly, step_of_unknown _ edit htext⟩
  · exact run_filter edits
  · exact (run edits one).beq_iff (run edits other)
  · rw [Strengths.text, hlist, List.map_map]
    rfl

example : run [.setNamed 0 "k1" 2.0, .copy 0 1, .setNamed 0 "k1" 3.0, .setNamed 1 "K1" 4.0] 1 =
    (Strengths.empty.set .k1 2.0 : Strengths Float) := rfl

end RecordEdit

end BeamTransport
