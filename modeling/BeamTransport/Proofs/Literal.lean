import BeamTransport.Decimal.Literal
import Mathlib.Data.List.TakeDrop
import Mathlib.Data.List.TakeWhile

/-!
# What reads as a number

The grammar of decimal literals as relations between a text and what it spells: `Sign`, `Exponent`, `Mantissa`
and `Spelling`. A text is read exactly if it is a spelling, and as the literal that it spells
(`Literal.read?_eq_some_iff`), so no text spells two literals.
-/

namespace BeamTransport

/-- A text is split behind the longest part in front whose characters are all in a class. -/
theorem Text.span_eq_iff {p : Char → Bool} {text front rest : List Char} :
    text.span p = (front, rest) ↔
      text = front ++ rest ∧ (∀ c ∈ front, p c = true) ∧ ∀ c ∈ rest.head?, p c = false := by
  rw [List.span_eq_takeWhile_dropWhile, Prod.mk.injEq]
  constructor
  · rintro ⟨rfl, rfl⟩
    refine ⟨List.takeWhile_append_dropWhile.symm, fun c => List.mem_takeWhile_imp, fun c hc => ?_⟩
    have hnot := List.head?_dropWhile_not p text
    rwa [Option.mem_def.mp hc] at hnot
  · rintro ⟨rfl, hfront, hrest⟩
    rw [List.takeWhile_append_of_pos hfront, List.dropWhile_append_of_pos hfront]
    cases rest with
    | nil => simp
    | cons c rest => simp [hrest c rfl]

namespace Decimal

/-! ## The grammar -/

def AllDigits (text : List Char) : Prop := ∀ c ∈ text, c.isDigit = true

/-- The spellings of a sign; none stands for a positive one. -/
inductive Sign : List Char → Bool → Prop
  | none : Sign [] false
  | plus : Sign ['+'] false
  | minus : Sign ['-'] true

/-- The spellings of an exponent; none stands for zero. -/
inductive Exponent : List Char → Int → Prop
  | none : Exponent [] 0
  | scientific {letter : Char} {sign digits : List Char} {negative : Bool}
      (hletter : letter = 'e' ∨ letter = 'E') (hsign : Sign sign negative) (hsome : digits ≠ [])
      (hdigits : AllDigits digits) :
      Exponent (letter :: (sign ++ digits))
        (if negative then -(digitsValue digits : Int) else digitsValue digits)

/-- The spellings of the digits in front of a point and of those behind it: a point needs digits on one
side. -/
inductive Mantissa : List Char → List Char → List Char → Prop
  | whole {whole : List Char} (hsome : whole ≠ []) (hwhole : AllDigits whole) : Mantissa whole whole []
  | point {whole fraction : List Char} (hsome : whole ≠ [] ∨ fraction ≠ []) (hwhole : AllDigits whole)
      (hfraction : AllDigits fraction) : Mantissa (whole ++ '.' :: fraction) whole fraction

/-- The spellings of a literal. The words are spelt in any case. -/
inductive Spelling : List Char → Literal → Prop
  | infinite {sign word : List Char} {negative : Bool} (hsign : Sign sign negative)
      (hword : String.ofList (word.map Char.toLower) = "inf" ∨
        String.ofList (word.map Char.toLower) = "infinity") :
      Spelling (sign ++ word) (.infinite negative)
  | nan {sign word : List Char} {negative : Bool} (hsign : Sign sign negative)
      (hword : String.ofList (word.map Char.toLower) = "nan") : Spelling (sign ++ word) .nan
  | finite {sign mantissa whole fraction tail : List Char} {negative : Bool} {exponent : Int}
      (hsign : Sign sign negative) (hmantissa : Mantissa mantissa whole fraction)
      (htail : Exponent tail exponent) :
      Spelling (sign ++ (mantissa ++ tail))
        (.finite negative (digitsValue (whole ++ fraction)) (exponent - fraction.length))

/-! ## Digits and signs -/

theorem readDigits?_eq_some_iff {text : List Char} {n : Nat} :
    readDigits? text = some n ↔ text ≠ [] ∧ AllDigits text ∧ digitsValue text = n := by
  rw [readDigits?]
  by_cases hempty : text = []
  · simp [hempty]
  by_cases hdigits : AllDigits text
  · have hall : text.all Char.isDigit = true := List.all_eq_true.mpr hdigits
    simp [hempty, hdigits, hall]
  · have hall : text.all Char.isDigit = false :=
      Bool.eq_false_iff.mpr (mt List.all_eq_true.mp hdigits)
    simp [hdigits, hall]

/-- A text that begins with no sign. -/
def Unsigned (text : List Char) : Prop := ∀ c ∈ text.head?, c ≠ '-' ∧ c ≠ '+'

theorem readSign_append {sign rest : List Char} {negative : Bool} (hsign : Sign sign negative)
    (hrest : Unsigned rest) : readSign (sign ++ rest) = (negative, rest) := by
  cases hsign with
  | plus | minus => rfl
  | none =>
    rw [List.nil_append]
    cases rest with
    | nil => rfl
    | cons c rest =>
      obtain ⟨hminus, hplus⟩ := hrest c rfl
      simp [readSign, hminus, hplus]

theorem exists_of_readSign {text rest : List Char} {negative : Bool}
    (hread : readSign text = (negative, rest)) : ∃ sign, Sign sign negative ∧ text = sign ++ rest := by
  fun_cases readSign text with
  | case1 tail =>
    cases hread
    exact ⟨_, .minus, rfl⟩
  | case2 tail =>
    cases hread
    exact ⟨_, .plus, rfl⟩
  | case3 =>
    rw [readSign.eq_3 text ‹_› ‹_›] at hread
    cases hread
    exact ⟨_, .none, rfl⟩

theorem unsigned_of_allDigits {text : List Char} (hsome : text ≠ []) (hdigits : AllDigits text)
    (rest : List Char) : Unsigned (text ++ rest) := by
  obtain ⟨c, text, rfl⟩ := List.exists_cons_of_ne_nil hsome
  rintro _ ⟨⟩
  have hdigit := hdigits c List.mem_cons_self
  constructor
  all_goals
    rintro rfl
    exact absurd hdigit (by decide)

/-! ## Exponents -/

theorem readExponent?_cons {letter : Char} (hletter : letter = 'e' ∨ letter = 'E') {rest digits : List Char}
    {negative : Bool} (hsign : readSign rest = (negative, digits)) :
    readExponent? (letter :: rest) =
      (readDigits? digits).map fun n : Nat => if negative then -(n : Int) else n := by
  rw [readExponent?, if_pos hletter, hsign]
  cases hread : readDigits? digits <;> simp only [hread] <;> rfl

theorem readExponent?_eq_some_iff {text : List Char} {exponent : Int} :
    readExponent? text = some exponent ↔ Exponent text exponent := by
  constructor
  · intro hread
    cases text with
    | nil =>
      cases hread
      exact .none
    | cons letter rest =>
      by_cases hletter : letter = 'e' ∨ letter = 'E'
      · obtain ⟨⟨negative, digits⟩, hsplit⟩ : ∃ split, readSign rest = split := ⟨_, rfl⟩
        obtain ⟨sign, hsign, rfl⟩ := exists_of_readSign hsplit
        rw [readExponent?_cons hletter hsplit] at hread
        obtain ⟨n, hn, rfl⟩ := Option.map_eq_some_iff.mp hread
        obtain ⟨hsome, hdigits, rfl⟩ := readDigits?_eq_some_iff.mp hn
        exact .scientific hletter hsign hsome hdigits
      · rw [readExponent?, if_neg hletter] at hread
        exact nomatch hread
  · intro hspelt
    cases hspelt with
    | none => rfl
    | @scientific letter sign digits negative hletter hsign hsome hdigits =>
      have hunsigned : Unsigned digits := by
        simpa using unsigned_of_allDigits hsome hdigits []
      rw [readExponent?_cons hletter (readSign_append hsign hunsigned)]
      exact Option.map_eq_some_iff.mpr ⟨_, readDigits?_eq_some_iff.mpr ⟨hsome, hdigits, rfl⟩, rfl⟩

/-- An exponent begins with no digit and no point. -/
theorem head_of_exponent {tail : List Char} {exponent : Int} (htail : Exponent tail exponent) :
    ∀ c ∈ tail.head?, c.isDigit = false ∧ c ≠ '.' := by
  cases htail with
  | none => exact fun c hc => nomatch hc
  | scientific hletter =>
    rintro _ ⟨⟩
    rcases hletter with rfl | rfl <;> decide

/-! ## Numbers -/

/-- What is read of a number whose digits, with a point among them, are known. -/
theorem readMagnitude?_append {mantissa whole fraction tail : List Char} {exponent : Int}
    (negative : Bool) (hmantissa : Mantissa mantissa whole fraction) (htail : Exponent tail exponent) :
    readMagnitude? negative (mantissa ++ tail) =
      some (.finite negative (digitsValue (whole ++ fraction)) (exponent - fraction.length)) := by
  have hhead := head_of_exponent htail
  have hread := readExponent?_eq_some_iff.mpr htail
  cases hmantissa with
  | whole hsome hwhole =>
    have hspan : (mantissa ++ tail).span Char.isDigit = (mantissa, tail) :=
      Text.span_eq_iff.mpr ⟨rfl, hwhole, fun c hc => (hhead c hc).1⟩
    have hpoint : ∀ rest, tail ≠ '.' :: rest := by
      rintro rest rfl
      exact (hhead '.' rfl).2 rfl
    have hnonempty : ¬ (mantissa.isEmpty && true) = true := by simpa using hsome
    rw [readMagnitude?, hspan]
    -- `hpoint` takes the branch without a point
    simp only [hread]
    exact if_neg hnonempty
  | point hsome hwhole hfraction =>
    have hspan : (whole ++ '.' :: (fraction ++ tail)).span Char.isDigit =
        (whole, '.' :: (fraction ++ tail)) :=
      Text.span_eq_iff.mpr ⟨rfl, hwhole, fun c hc => by cases hc; rfl⟩
    have hspan' : (fraction ++ tail).span Char.isDigit = (fraction, tail) :=
      Text.span_eq_iff.mpr ⟨rfl, hfraction, fun c hc => (hhead c hc).1⟩
    have hnonempty : ¬ (whole.isEmpty && fraction.isEmpty) = true := by
      simpa using not_and_of_not_or_not hsome
    rw [List.append_assoc, List.cons_append, readMagnitude?, hspan]
    simp only [hspan', if_neg hnonempty, hread]
    rfl

/-- What is read behind the digits of a number. -/
theorem exists_exponent {negative : Bool} {whole fraction tail : List Char} {literal : Literal}
    (hread : (if (whole.isEmpty && fraction.isEmpty) = true then none
      else (readExponent? tail).map fun exponent =>
        Literal.finite negative (digitsValue (whole ++ fraction)) (exponent - fraction.length)) =
          some literal) :
    (whole ≠ [] ∨ fraction ≠ []) ∧ ∃ exponent, Exponent tail exponent ∧
      literal = .finite negative (digitsValue (whole ++ fraction)) (exponent - fraction.length) := by
  by_cases hempty : (whole.isEmpty && fraction.isEmpty) = true
  · rw [if_pos hempty] at hread
    exact nomatch hread
  · rw [if_neg hempty] at hread
    obtain ⟨exponent, hexponent, rfl⟩ := Option.map_eq_some_iff.mp hread
    have hsome : whole ≠ [] ∨ fraction ≠ [] := by simpa [imp_iff_not_or] using hempty
    exact ⟨hsome, exponent, readExponent?_eq_some_iff.mp hexponent, rfl⟩

theorem exists_of_readMagnitude? {negative : Bool} {text : List Char} {literal : Literal}
    (hread : readMagnitude? negative text = some literal) :
    ∃ mantissa whole fraction tail exponent, Mantissa mantissa whole fraction ∧ Exponent tail exponent ∧
      text = mantissa ++ tail ∧
      literal = .finite negative (digitsValue (whole ++ fraction)) (exponent - fraction.length) := by
  obtain ⟨⟨whole, rest⟩, hspan⟩ : ∃ split, text.span Char.isDigit = split := ⟨_, rfl⟩
  obtain ⟨rfl, hwhole, -⟩ := Text.span_eq_iff.mp hspan
  rw [readMagnitude?, hspan] at hread
  dsimp only at hread
  split at hread
  · rename_i rest
    obtain ⟨⟨fraction, tail⟩, hspan'⟩ : ∃ split, rest.span Char.isDigit = split := ⟨_, rfl⟩
    obtain ⟨rfl, hfraction, -⟩ := Text.span_eq_iff.mp hspan'
    rw [hspan'] at hread
    obtain ⟨hsome, exponent, hexponent, rfl⟩ := exists_exponent hread
    exact ⟨_, whole, fraction, tail, exponent, .point hsome hwhole hfraction, hexponent, by simp, rfl⟩
  · obtain ⟨hsome, exponent, hexponent, rfl⟩ := exists_exponent hread
    have hwholeSome : whole ≠ [] := hsome.resolve_right fun hnil => hnil rfl
    exact ⟨_, whole, [], rest, exponent, .whole hwholeSome hwhole, hexponent, rfl, rfl⟩

/-! ## Literals -/

theorem toLower_of_isDigit {c : Char} (hdigit : c.isDigit = true) : c.toLower = c := by
  rw [Char.isDigit, Bool.and_eq_true, decide_eq_true_eq, decide_eq_true_eq] at hdigit
  refine dif_neg fun hupper => ?_
  exact absurd (UInt32.le_trans hupper.1 hdigit.2) (by decide)

/-- A number begins with a digit or a point. -/
theorem head_of_mantissa {mantissa whole fraction : List Char}
    (hmantissa : Mantissa mantissa whole fraction) :
    ∃ c others, mantissa = c :: others ∧ (c.isDigit = true ∨ c = '.') := by
  cases hmantissa with
  | whole hsome hwhole =>
    obtain ⟨c, others, rfl⟩ := List.exists_cons_of_ne_nil hsome
    exact ⟨c, others, rfl, Or.inl (hwhole c List.mem_cons_self)⟩
  | point hsome hwhole hfraction =>
    cases whole with
    | nil => exact ⟨'.', fraction, rfl, Or.inr rfl⟩
    | cons c whole => exact ⟨c, _, rfl, Or.inl (hwhole c List.mem_cons_self)⟩

theorem unsigned_of_mantissa {mantissa whole fraction : List Char}
    (hmantissa : Mantissa mantissa whole fraction) (rest : List Char) : Unsigned (mantissa ++ rest) := by
  obtain ⟨c, others, rfl, hc⟩ := head_of_mantissa hmantissa
  rintro _ ⟨⟩
  constructor
  all_goals
    rintro rfl
    exact absurd hc (by decide)

/-- A number is no word. -/
theorem word_ne_of_mantissa {mantissa whole fraction : List Char}
    (hmantissa : Mantissa mantissa whole fraction) (rest : List Char) {word : String} {first : Char}
    {others : List Char} (hword : word.toList = first :: others) (hdigit : first.isDigit = false)
    (hpoint : first ≠ '.') : String.ofList ((mantissa ++ rest).map Char.toLower) ≠ word := by
  rintro rfl
  obtain ⟨c, tail, rfl, hc⟩ := head_of_mantissa hmantissa
  rw [String.toList_ofList, List.cons_append, List.map_cons] at hword
  obtain ⟨rfl, -⟩ := List.cons.inj hword
  rcases hc with hc | rfl
  · rw [toLower_of_isDigit hc, hc] at hdigit
    exact nomatch hdigit
  · exact hpoint rfl

/-- A word begins with no sign. -/
theorem unsigned_of_word {text : List Char} {word : String} {first : Char} {others : List Char}
    (htext : String.ofList (text.map Char.toLower) = word) (hword : word.toList = first :: others)
    (hminus : first ≠ '-') (hplus : first ≠ '+') : Unsigned text := by
  subst htext
  rw [String.toList_ofList] at hword
  obtain ⟨c, tail, rfl, hc, -⟩ := List.map_eq_cons_iff.mp hword
  rintro _ ⟨⟩
  constructor
  · rintro rfl
    exact hminus hc.symm
  · rintro rfl
    exact hplus hc.symm

/-- A text is read exactly if it is a spelling, and as what it spells. -/
theorem Literal.read?_eq_some_iff {text : List Char} {literal : Literal} :
    Literal.read? text = some literal ↔ Spelling text literal := by
  constructor
  · intro hread
    obtain ⟨⟨negative, rest⟩, hsplit⟩ : ∃ split, readSign text = split := ⟨_, rfl⟩
    obtain ⟨sign, hsign, rfl⟩ := exists_of_readSign hsplit
    rw [Literal.read?, hsplit] at hread
    dsimp only at hread
    split_ifs at hread with hinfinite hnan
    · cases hread
      exact .infinite hsign hinfinite
    · cases hread
      exact .nan hsign hnan
    · obtain ⟨mantissa, whole, fraction, tail, exponent, hmantissa, htail, rfl, rfl⟩ :=
        exists_of_readMagnitude? hread
      exact .finite hsign hmantissa htail
  · intro hspelt
    have hinf : "inf".toList = ['i', 'n', 'f'] := rfl
    have hinfinity : "infinity".toList = ['i', 'n', 'f', 'i', 'n', 'i', 't', 'y'] := rfl
    have hnan : "nan".toList = ['n', 'a', 'n'] := rfl
    cases hspelt with
    | @infinite sign word negative hsign hword =>
      have hunsigned : Unsigned word := by
        rcases hword with hword | hword
        · exact unsigned_of_word hword hinf (by decide) (by decide)
        · exact unsigned_of_word hword hinfinity (by decide) (by decide)
      rw [Literal.read?, readSign_append hsign hunsigned]
      exact if_pos hword
    | @nan sign word negative hsign hword =>
      have hunsigned := unsigned_of_word hword hnan (by decide) (by decide)
      rw [Literal.read?, readSign_append hsign hunsigned]
      simp only [hword]
      rfl
    | @finite sign mantissa whole fraction tail negative exponent hsign hmantissa htail =>
      have hneInf := word_ne_of_mantissa hmantissa tail hinf (by decide) (by decide)
      have hneInfinity := word_ne_of_mantissa hmantissa tail hinfinity (by decide) (by decide)
      have hneNan := word_ne_of_mantissa hmantissa tail hnan (by decide) (by decide)
      rw [Literal.read?, readSign_append hsign (unsigned_of_mantissa hmantissa tail)]
      dsimp only
      rw [if_neg (not_or.mpr ⟨hneInf, hneInfinity⟩), if_neg hneNan]
      exact readMagnitude?_append negative hmantissa htail

end Decimal

end BeamTransport
