import BeamTransport.CommandLine.Strengths
import BeamTransport.Proofs.Literal
import BeamTransport.Proofs.StrengthRecord

/-!
# Strengths as options say what they say

A text assigns a value to a key if it has the form of an option (`Assigns`); otherwise it has one of three
faults (`IsFaulty`), each of which presupposes that the ones before it are absent. A list of texts is read
if all of them assign, into the record of the last value of each key, and is refused with the fault of its
first text that does not (`strengths_read_exactly`).
-/

namespace BeamTransport

/-! ## Texts between blanks -/

namespace Text

/-- What a text holds between the blanks at its ends. -/
def Trimmed (text middle : List Char) : Prop :=
  ∃ left right, text = left ++ (middle ++ right) ∧ (∀ c ∈ left, isBlank c = true) ∧
    (∀ c ∈ right, isBlank c = true) ∧ (∀ c ∈ middle.head?, isBlank c = false) ∧
    ∀ c ∈ middle.getLast?, isBlank c = false

theorem dropWhile_of_split {p : Char → Bool} {front rest : List Char} (hfront : ∀ c ∈ front, p c = true)
    (hrest : ∀ c ∈ rest.head?, p c = false) : (front ++ rest).dropWhile p = rest := by
  have hspan : (front ++ rest).span p = (front, rest) := span_eq_iff.mpr ⟨rfl, hfront, hrest⟩
  rw [List.span_eq_takeWhile_dropWhile] at hspan
  exact (Prod.mk.inj hspan).2

theorem trimmed_trim (text : List Char) : Trimmed text (trim text) := by
  obtain ⟨⟨left, rest⟩, hleft⟩ : ∃ split, text.span isBlank = split := ⟨_, rfl⟩
  obtain ⟨⟨right, middle⟩, hright⟩ : ∃ split, rest.reverse.span isBlank = split := ⟨_, rfl⟩
  obtain ⟨rfl, hleftBlank, hhead⟩ := span_eq_iff.mp hleft
  obtain ⟨hrest, hrightBlank, hlast⟩ := span_eq_iff.mp hright
  have htrim : trim (left ++ rest) = middle.reverse := by
    rw [trim, dropWhile_of_split hleftBlank hhead, hrest, dropWhile_of_split hrightBlank hlast]
  have hrest : rest = middle.reverse ++ right.reverse := by
    rw [← List.reverse_append, ← hrest, List.reverse_reverse]
  rw [htrim]
  refine ⟨left, right.reverse, by rw [hrest], hleftBlank, ?_, ?_, ?_⟩
  · exact fun c hc => hrightBlank c (List.mem_reverse.mp hc)
  · intro c hc
    refine hhead c ?_
    rw [hrest, List.head?_append, Option.mem_def.mp hc]
    rfl
  · rwa [List.getLast?_reverse]

theorem trimmed_iff {text middle : List Char} : Trimmed text middle ↔ trim text = middle := by
  constructor
  · rintro ⟨left, right, rfl, hleft, hright, hhead, hlast⟩
    cases middle with
    | nil =>
      have hblank : ∀ c ∈ left ++ right, isBlank c = true := fun c hc =>
        (List.mem_append.mp hc).elim (hleft c) (hright c)
      rw [List.nil_append, trim, List.dropWhile_eq_nil_iff.mpr hblank]
      rfl
    | cons c middle =>
      have hhead : ∀ c' ∈ (c :: middle ++ right).head?, isBlank c' = false := hhead
      have hlast : ∀ c' ∈ (c :: middle).reverse.head?, isBlank c' = false := by
        rwa [List.head?_reverse]
      have hright : ∀ c' ∈ right.reverse, isBlank c' = true := fun c' hc' =>
        hright c' (List.mem_reverse.mp hc')
      rw [trim, dropWhile_of_split hleft hhead, List.reverse_append, dropWhile_of_split hright hlast,
        List.reverse_reverse]
  · rintro rfl
    exact trimmed_trim text

end Text

theorem Strengths.get?_foldl_set {α : Type} (pairs : List (StrengthKey × α)) (strengths : Strengths α)
    (key : StrengthKey) :
    (pairs.foldl (fun strengths pair => strengths.set pair.1 pair.2) strengths).get? key =
      (pairs.reverse.lookup key).or (strengths.get? key) := by
  induction pairs generalizing strengths with
  | nil => rfl
  | cons pair pairs ih =>
    obtain ⟨written, value⟩ := pair
    rw [List.foldl_cons, ih, List.reverse_cons, List.lookup_append, Option.or_assoc]
    congr 1
    by_cases hkey : key = written
    · simp [set, hkey]
    · simp [set, hkey, List.lookup_cons, beq_false_of_ne hkey]

namespace CommandLine

open Decimal

/-! ## One option -/

theorem splitEquals?_append {key : List Char} (hkey : '=' ∉ key) (value : List Char) :
    splitEquals? (key ++ '=' :: value) = some (key, value) := by
  have hspan : (key ++ '=' :: value).span (· ≠ '=') = (key, '=' :: value) := by
    refine Text.span_eq_iff.mpr ⟨rfl, fun c hc => ?_, fun c hc => ?_⟩
    · exact decide_eq_true (ne_of_mem_of_not_mem hc hkey)
    · cases hc
      rfl
  rw [splitEquals?, hspan]

theorem splitEquals?_of_notMem {text : List Char} (htext : '=' ∉ text) : splitEquals? text = none := by
  have hspan : text.span (· ≠ '=') = (text, []) := by
    refine Text.span_eq_iff.mpr ⟨text.append_nil.symm, fun c hc => ?_, fun c hc => nomatch hc⟩
    exact decide_eq_true (ne_of_mem_of_not_mem hc htext)
  rw [splitEquals?, hspan]

/-- A text of the form `key=value`: in front of its first equals sign, between blanks, the name of a key, and
behind it, between blanks, the spelling of a literal. -/
def Assigns (text : String) (pair : StrengthKey × Float) : Prop :=
  ∃ before after number literal, text.toList = before ++ '=' :: after ∧ '=' ∉ before ∧
    Text.Trimmed before pair.1.name.toList ∧ Text.Trimmed after number ∧ Spelling number literal ∧
    pair.2 = literal.toDouble

/-- What is wrong with a text: it has no equals sign; or what stands behind the first one spells no literal;
or it does, and what stands in front is no name of a key. -/
inductive IsFaulty : String → StrengthFault → Prop
  | noEquals {text : String} (hequals : '=' ∉ text.toList) : IsFaulty text (.noEquals text)
  | notNumeric {text : String} {before after number : List Char}
      (hsplit : text.toList = before ++ '=' :: after) (hfirst : '=' ∉ before)
      (hafter : Text.Trimmed after number) (hnumber : ∀ literal, ¬ Spelling number literal) :
      IsFaulty text (.notNumeric text)
  | invalidKey {text name : String} {before after number : List Char} {literal : Literal}
      (hsplit : text.toList = before ++ '=' :: after) (hfirst : '=' ∉ before)
      (hafter : Text.Trimmed after number) (hnumber : Spelling number literal)
      (hbefore : Text.Trimmed before name.toList) (hname : name ∉ StrengthKey.names) :
      IsFaulty text (.invalidKey ⟨name⟩)

theorem read?_float (number : List Char) :
    Decimal.read? Float (String.ofList number) = (Literal.read? number).map Literal.toDouble := by
  rw [Decimal.read?, String.toList_ofList]
  cases Literal.read? number <;> rfl

theorem writeStrength_of_assigns (strengths : Strengths Float) {text : String} {pair : StrengthKey × Float}
    (hassigns : Assigns text pair) :
    writeStrength strengths text = .ok (strengths.set pair.1 pair.2) := by
  obtain ⟨key, value⟩ := pair
  obtain ⟨before, after, number, literal, hsplit, hfirst, hbefore, hafter, hspelling, rfl⟩ := hassigns
  rw [writeStrength, hsplit, splitEquals?_append hfirst]
  simp only [Text.trimmed_iff.mp hbefore, Text.trimmed_iff.mp hafter, read?_float,
    Literal.read?_eq_some_iff.mpr hspelling, Option.map_some, String.ofList_toList, Strengths.setNamed_name]
  rfl

theorem writeStrength_of_isFaulty (strengths : Strengths Float) {text : String} {fault : StrengthFault}
    (hfaulty : IsFaulty text fault) : writeStrength strengths text = .error fault := by
  cases hfaulty with
  | noEquals hequals =>
    rw [writeStrength, splitEquals?_of_notMem hequals]
  | notNumeric hsplit hfirst hafter hnumber =>
    have hread := Option.eq_none_iff_forall_ne_some.mpr fun literal =>
      mt Literal.read?_eq_some_iff.mp (hnumber literal)
    rw [writeStrength, hsplit, splitEquals?_append hfirst]
    simp only [Text.trimmed_iff.mp hafter, read?_float, hread, Option.map_none]
  | invalidKey hsplit hfirst hafter hnumber hbefore hname =>
    rw [writeStrength, hsplit, splitEquals?_append hfirst]
    simp only [Text.trimmed_iff.mp hbefore, Text.trimmed_iff.mp hafter, read?_float,
      Literal.read?_eq_some_iff.mpr hnumber, Option.map_some, String.ofList_toList,
      Strengths.setNamed_of_notMem _ hname]
    rfl

/-- Every text assigns or has a fault. -/
theorem assigns_or_isFaulty (text : String) :
    (∃ pair, Assigns text pair) ∨ ∃ fault, IsFaulty text fault := by
  by_cases hequals : '=' ∈ text.toList
  · obtain ⟨before, after, hsplit, hfirst⟩ := List.eq_append_cons_of_mem hequals
    have hafter := Text.trimmed_trim after
    have hbefore := Text.trimmed_trim before
    by_cases hnumber : ∃ literal, Spelling (Text.trim after) literal
    · obtain ⟨literal, hspelling⟩ := hnumber
      obtain ⟨name, hname⟩ : ∃ name : String, name.toList = Text.trim before :=
        ⟨_, String.toList_ofList⟩
      rw [← hname] at hbefore
      by_cases hkey : name ∈ StrengthKey.names
      · obtain ⟨key, rfl⟩ := StrengthKey.exists_of_mem_names hkey
        exact Or.inl ⟨(key, literal.toDouble), before, after, _, literal, hsplit, hfirst, hbefore, hafter,
          hspelling, rfl⟩
      · exact Or.inr ⟨_, .invalidKey hsplit hfirst hafter hspelling hbefore hkey⟩
    · exact Or.inr ⟨_, .notNumeric hsplit hfirst hafter (not_exists.mp hnumber)⟩
  · exact Or.inr ⟨_, .noEquals hequals⟩

/-! ## Lists of options -/

theorem foldlM_of_assigns {texts : List String} {pairs : List (StrengthKey × Float)}
    (hassigns : List.Forall₂ Assigns texts pairs) (strengths : Strengths Float) :
    texts.foldlM writeStrength strengths =
      .ok (pairs.foldl (fun strengths pair => strengths.set pair.1 pair.2) strengths) := by
  induction hassigns generalizing strengths with
  | nil => rfl
  | cons hassigns _ ih =>
    rw [List.foldlM_cons, writeStrength_of_assigns strengths hassigns]
    exact ih _

theorem exists_pairs_iff {texts : List String} :
    (∃ pairs, List.Forall₂ Assigns texts pairs) ↔ ∀ text ∈ texts, ∃ pair, Assigns text pair := by
  induction texts with
  | nil => exact iff_of_true ⟨[], .nil⟩ fun text htext => nomatch htext
  | cons text texts ih =>
    rw [List.forall_mem_cons, ← ih]
    constructor
    · rintro ⟨_, hpairs⟩
      obtain ⟨pair, pairs, hassigns, hpairs, -⟩ := List.forall₂_cons_left_iff.mp hpairs
      exact ⟨⟨pair, hassigns⟩, pairs, hpairs⟩
    · rintro ⟨⟨pair, hassigns⟩, pairs, hpairs⟩
      exact ⟨pair :: pairs, .cons hassigns hpairs⟩

/-- Either all texts of a list assign, or one of them is the first that does not. -/
theorem all_assign_or_first_isFaulty (texts : List String) :
    (∀ text ∈ texts, ∃ pair, Assigns text pair) ∨
      ∃ before text after fault, texts = before ++ text :: after ∧
        (∀ earlier ∈ before, ∃ pair, Assigns earlier pair) ∧ IsFaulty text fault := by
  induction texts with
  | nil => exact Or.inl fun text htext => nomatch htext
  | cons text texts ih =>
    rcases assigns_or_isFaulty text with hassigns | ⟨fault, hfaulty⟩
    · rcases ih with hall | ⟨before, text', after, fault, rfl, hbefore, hfaulty⟩
      · exact Or.inl (List.forall_mem_cons.mpr ⟨hassigns, hall⟩)
      · exact Or.inr ⟨text :: before, text', after, fault, rfl, List.forall_mem_cons.mpr ⟨hassigns, hbefore⟩,
          hfaulty⟩
    · exact Or.inr ⟨[], text, texts, fault, rfl, List.forall_mem_nil _, hfaulty⟩

theorem readStrengths_of_assigns {texts : List String} {pairs : List (StrengthKey × Float)}
    (hassigns : List.Forall₂ Assigns texts pairs) :
    readStrengths texts = .ok ⟨fun key => pairs.reverse.lookup key⟩ := by
  rw [readStrengths, foldlM_of_assigns hassigns]
  refine congrArg (fun get? => Except.ok (Strengths.mk get?)) (funext fun key => ?_)
  rw [Strengths.get?_foldl_set]
  exact Option.or_none

theorem readStrengths_of_isFaulty {before after : List String} {text : String} {fault : StrengthFault}
    (hbefore : ∀ earlier ∈ before, ∃ pair, Assigns earlier pair) (hfaulty : IsFaulty text fault) :
    readStrengths (before ++ text :: after) = (.error fault : Except StrengthFault (Strengths Float)) := by
  obtain ⟨pairs, hpairs⟩ := exists_pairs_iff.mpr hbefore
  rw [readStrengths, List.foldlM_append, foldlM_of_assigns hpairs]
  simp only [List.foldlM_cons, writeStrength_of_isFaulty _ hfaulty]
  rfl

/-- A list of texts is read exactly if all of them assign a value to a key, and the record then holds for
each key the value of the last text that assigns to it, and nothing else. Otherwise the fault of the first
text that does not is reported. -/
theorem strengths_read_exactly (texts : List String) :
    ((∃ strengths : Strengths Float, readStrengths texts = .ok strengths) ↔
      ∀ text ∈ texts, ∃ pair, Assigns text pair) ∧
    (∀ strengths : Strengths Float, readStrengths texts = .ok strengths ↔
      ∃ pairs, List.Forall₂ Assigns texts pairs ∧ ∀ key, strengths.get? key = pairs.reverse.lookup key) ∧
    (∀ fault, readStrengths texts = (.error fault : Except StrengthFault (Strengths Float)) ↔
      ∃ before text after, texts = before ++ text :: after ∧
        (∀ earlier ∈ before, ∃ pair, Assigns earlier pair) ∧ IsFaulty text fault) ∧
    StrengthKey.names =
      ["k0", "k1", "k1s", "k2", "k2s", "k3", "k3s", "k4", "k4s", "k5", "k5s", "k6", "k6s",
        "k7", "k7s", "k8", "k8s", "k9", "k9s", "k10", "k10s", "k11", "k11s", "k12", "k12s"] := by
  have hall : (∃ strengths : Strengths Float, readStrengths texts = .ok strengths) →
      ∀ text ∈ texts, ∃ pair, Assigns text pair := by
    rintro ⟨strengths, hread⟩
    rcases all_assign_or_first_isFaulty texts with
      hall | ⟨before, text, after, fault, rfl, hbefore, hfaulty⟩
    · exact hall
    · rw [readStrengths_of_isFaulty hbefore hfaulty] at hread
      exact nomatch hread
  refine ⟨⟨hall, fun hassigns => ?_⟩, fun strengths => ⟨fun hread => ?_, ?_⟩,
    fun fault => ⟨fun hread => ?_, ?_⟩, StrengthKey.names_eq⟩
  · obtain ⟨pairs, hpairs⟩ := exists_pairs_iff.mpr hassigns
    exact ⟨_, readStrengths_of_assigns hpairs⟩
  · obtain ⟨pairs, hpairs⟩ := exists_pairs_iff.mpr (hall ⟨strengths, hread⟩)
    rw [readStrengths_of_assigns hpairs] at hread
    cases hread
    exact ⟨pairs, hpairs, fun _ => rfl⟩
  · rintro ⟨pairs, hpairs, hget⟩
    rw [readStrengths_of_assigns hpairs]
    exact congrArg (fun get? => Except.ok (Strengths.mk get?)) (funext fun key => (hget key).symm)
  · rcases all_assign_or_first_isFaulty texts with
      hassigns | ⟨before, text, after, fault', rfl, hbefore, hfaulty⟩
    · obtain ⟨pairs, hpairs⟩ := exists_pairs_iff.mpr hassigns
      rw [readStrengths_of_assigns hpairs] at hread
      exact nomatch hread
    · rw [readStrengths_of_isFaulty hbefore hfaulty] at hread
      cases hread
      exact ⟨before, text, after, rfl, hbefore, hfaulty⟩
  · rintro ⟨before, text, after, rfl, hbefore, hfaulty⟩
    exact readStrengths_of_isFaulty hbefore hfaulty

/-- A key that is written twice, and a list with two faulty texts, the first of which has a value with an
equals sign. -/
theorem strengths_read_exactly_twice :
    (∃ strengths : Strengths Float, readStrengths [" k1 =+.5E1", "k1= Infinity"] = .ok strengths ∧
      strengths.get? .k1 = some (Literal.infinite false).toDouble ∧ strengths.get? (.skew 0) = none) ∧
    readStrengths ["k1= Infinity", "k2=1=2", "k3"] =
      (.error (.notNumeric "k2=1=2") : Except StrengthFault (Strengths Float)) := by
  have hfive : Assigns " k1 =+.5E1" (.k1, (Literal.finite false 5 0).toDouble) := by
    refine ⟨" k1 ".toList, "+.5E1".toList, "+.5E1".toList, .finite false 5 0, rfl, by decide, ?_, ?_, ?_,
      rfl⟩
    · exact Text.trimmed_iff.mpr (by decide)
    · exact Text.trimmed_iff.mpr (by decide)
    · exact Literal.read?_eq_some_iff.mp (by decide)
  have hinfinity : Assigns "k1= Infinity" (.k1, (Literal.infinite false).toDouble) := by
    refine ⟨"k1".toList, " Infinity".toList, "Infinity".toList, .infinite false, rfl, by decide, ?_, ?_, ?_,
      rfl⟩
    · exact Text.trimmed_iff.mpr (by decide)
    · exact Text.trimmed_iff.mpr (by decide)
    · exact Literal.read?_eq_some_iff.mp (by decide)
  have hfaulty : IsFaulty "k2=1=2" (.notNumeric "k2=1=2") := by
    have hsplit : "k2=1=2".toList = "k2".toList ++ '=' :: "1=2".toList := rfl
    have hread : Literal.read? "1=2".toList = none := by decide
    refine .notNumeric hsplit (by decide) (Text.trimmed_trim _) fun literal hspelling => ?_
    rw [← Literal.read?_eq_some_iff] at hspelling
    exact Option.some_ne_none literal (hspelling.symm.trans hread)
  constructor
  · obtain ⟨-, hrecord, -⟩ := strengths_read_exactly [" k1 =+.5E1", "k1= Infinity"]
    have hpairs := List.Forall₂.cons hfive (.cons hinfinity .nil)
    exact ⟨_, (hrecord ⟨_⟩).mpr ⟨_, hpairs, fun _ => rfl⟩, rfl, rfl⟩
  · obtain ⟨-, -, hfault, -⟩ := strengths_read_exactly ["k1= Infinity", "k2=1=2", "k3"]
    exact (hfault _).mpr
      ⟨["k1= Infinity"], _, ["k3"], rfl, List.forall_mem_singleton.mpr ⟨_, hinfinity⟩, hfaulty⟩

end CommandLine

end BeamTransport
