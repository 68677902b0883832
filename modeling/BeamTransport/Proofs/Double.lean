import BeamTransport.Scalar.Double
import Mathlib

/-!
# The order of doubles

Doubles compare as the values that their bits unpack to. What is not a number compares with nothing, and of
two numbers, infinite ones included, the one is below the other or not above it (`Double.not_lt_iff`): numbers
have places on a line (`Double.le_iff_place`). The magnitude of a number is a number (`Double.isNaN_abs`).
-/

namespace BeamTransport.Double

open Float.Model (Format UnpackedFloat)
open Float.Model.UnpackedFloat

/-! ## Comparison -/

theorem compare_swap (a b : UnpackedFloat) : b.compare a = (a.compare b).map Ordering.swap := by
  cases a with
  | notANumber => cases b <;> rfl
  | infinity s =>
    cases b with
    | infinity t => cases s <;> cases t <;> rfl
    | _ => cases s <;> rfl
  | zero s =>
    cases b with
    | infinity t => cases t <;> rfl
    | finite t m e hm => cases t <;> rfl
    | _ => rfl
  | finite s m e hm =>
    cases b with
    | infinity t => cases t <;> rfl
    | zero t => cases s <;> rfl
    | notANumber => rfl
    | finite t n f hn =>
      have hswap : (compare f e).then (compare n m) = ((compare e f).then (compare m n)).swap := by
        rw [Ordering.swap_then, Int.compare_swap, Nat.compare_swap]
      cases s <;> cases t <;> simp [UnpackedFloat.compare, hswap]

theorem exists_compare {a b : UnpackedFloat} (ha : a.isNaN = false) (hb : b.isNaN = false) :
    ∃ order, a.compare b = some order := by
  rw [← Option.isSome_iff_exists]
  cases a with
  | notANumber => exact absurd ha (by decide)
  | infinity s =>
    cases b with
    | notANumber => exact absurd hb (by decide)
    | _ => cases s <;> rfl
  | zero s =>
    cases b with
    | notANumber => exact absurd hb (by decide)
    | zero t => rfl
    | infinity t => cases t <;> rfl
    | finite t n f hn => cases t <;> rfl
  | finite s m e hm =>
    cases b with
    | notANumber => exact absurd hb (by decide)
    | infinity t => cases t <;> rfl
    | zero t => cases s <;> rfl
    | finite t n f hn => cases s <;> cases t <;> rfl

theorem lt_iff (a b : Float) : a < b ↔ a.toModel.unpack.compare b.toModel.unpack = some .lt := by
  change decide ((a.toModel.unpack.compare b.toModel.unpack == some .lt) = true) = true ↔ _
  rw [decide_eq_true_iff, beq_iff_eq]

theorem le_iff (a b : Float) :
    a ≤ b ↔ (a.toModel.unpack.compare b.toModel.unpack).any (·.isLE) = true := by
  change decide (Option.any _ _ = true) = true ↔ _
  rw [decide_eq_true_iff]

/-- Numbers are in a total order. -/
theorem not_lt_iff {a b : Float} (ha : a.isNaN = false) (hb : b.isNaN = false) :
    ¬ a < b ↔ b ≤ a := by
  obtain ⟨order, horder⟩ := exists_compare (a := a.toModel.unpack) (b := b.toModel.unpack) ha hb
  rw [lt_iff, le_iff, compare_swap a.toModel.unpack, horder]
  cases order <;> decide

theorem beq_iff (a b : Float) :
    (a == b) = true ↔ a.toModel.unpack.compare b.toModel.unpack = some .eq := by
  change (a.toModel.unpack.compare b.toModel.unpack == some .eq) = true ↔ _
  rw [beq_iff_eq]

/-! ## Places -/

/-- The place of a number on the line, lexicographically: on which side of zero it is, with the infinite
ones outermost, then its exponent and its mantissa, which count downwards below zero. -/
def place : UnpackedFloat → ℤ ×ₗ ℤ ×ₗ ℤ
  | .infinity .negative => toLex (-2, toLex (0, 0))
  | .finite .negative m e _ => toLex (-1, toLex (-e, -m))
  | .zero _ | .notANumber => toLex (0, toLex (0, 0))
  | .finite .positive m e _ => toLex (1, toLex (e, m))
  | .infinity .positive => toLex (2, toLex (0, 0))

theorem isLE_then_compare_iff (m n : ℕ) (e f : ℤ) :
    ((compare e f).then (compare m n)).isLE = true ↔ e < f ∨ e = f ∧ m ≤ n := by
  rw [Ordering.isLE_then_iff_or, compare_lt_iff_lt, compare_eq_iff_eq, Nat.isLE_compare]

theorem isLE_compare_finite_iff (s t : Sign) {m n : ℕ} (e f : ℤ) (hm : 0 < m) (hn : 0 < n) :
    ((finite s m e hm).compare (finite t n f hn)).any (·.isLE) = true ↔
      place (finite s m e hm) ≤ place (finite t n f hn) := by
  cases s
  · cases t
    · have hswap : ((compare e f).then (compare m n)).swap = (compare f e).then (compare n m) := by
        rw [Ordering.swap_then, Int.compare_swap, Nat.compare_swap]
      simp [UnpackedFloat.compare, place, Prod.Lex.toLex_le_toLex, hswap, isLE_then_compare_iff,
        @eq_comm ℤ f e]
    · simp [UnpackedFloat.compare, place, Prod.Lex.toLex_le_toLex]
  · cases t
    · simp [UnpackedFloat.compare, place, Prod.Lex.toLex_le_toLex]
    · simp [UnpackedFloat.compare, place, Prod.Lex.toLex_le_toLex, isLE_then_compare_iff]

theorem isLE_compare_iff {a b : UnpackedFloat} (ha : a.isNaN = false) (hb : b.isNaN = false) :
    (a.compare b).any (·.isLE) = true ↔ place a ≤ place b := by
  cases a with
  | notANumber => exact absurd ha (by decide)
  | finite s m e hm =>
    cases b with
    | notANumber => exact absurd hb (by decide)
    | finite t n f hn => exact isLE_compare_finite_iff s t e f hm hn
    | _ t => cases s <;> cases t <;> simp [UnpackedFloat.compare, place, Prod.Lex.toLex_le_toLex]
  | _ s =>
    cases b with
    | notANumber => exact absurd hb (by decide)
    | _ t =>
      cases s <;> cases t <;> simp [UnpackedFloat.compare, place, Prod.Lex.toLex_le_toLex, compare]

/-- Numbers are in the order of their places. -/
theorem le_iff_place {a b : Float} (ha : a.isNaN = false) (hb : b.isNaN = false) :
    a ≤ b ↔ place a.toModel.unpack ≤ place b.toModel.unpack := by
  rw [le_iff]
  exact isLE_compare_iff ha hb

/-! ## Numbers -/

theorem isNaN_iff {a : Float} : a.isNaN = true ↔ a.toModel.unpack = .notANumber := by
  change UnpackedFloat.isNaN a.toModel.unpack = true ↔ _
  cases a.toModel.unpack <;> simp [UnpackedFloat.isNaN]

theorem beq_self {a : Float} (ha : a.isNaN = false) : (a == a) = true := by
  rw [beq_iff]
  cases hunpacked : a.toModel.unpack with
  | notANumber => exact absurd (isNaN_iff.mpr hunpacked) (Bool.eq_false_iff.mp ha)
  | finite s m e hm => cases s <;> simp [UnpackedFloat.compare, Ordering.then]
  | _ s => cases s <;> rfl

/-- What is no number is below nothing and above nothing. -/
theorem isNaN_of_le {a b : Float} (hab : a ≤ b) : a.isNaN = false ∧ b.isNaN = false := by
  rw [le_iff] at hab
  refine ⟨Bool.eq_false_iff.mpr fun ha => ?_, Bool.eq_false_iff.mpr fun hb => ?_⟩
  · rw [isNaN_iff.mp ha] at hab
    exact absurd hab (by simp [UnpackedFloat.compare])
  · rw [isNaN_iff.mp hb, compare_swap] at hab
    exact absurd hab (by simp [UnpackedFloat.compare])

theorem le_trans {a b c : Float} (hab : a ≤ b) (hbc : b ≤ c) : a ≤ c := by
  obtain ⟨ha, hb⟩ := isNaN_of_le hab
  obtain ⟨-, hc⟩ := isNaN_of_le hbc
  rw [le_iff_place ha hb] at hab
  rw [le_iff_place hb hc] at hbc
  rw [le_iff_place ha hc]
  exact hab.trans hbc

theorem le_of_not_le {a b : Float} (ha : a.isNaN = false) (hb : b.isNaN = false) (hab : ¬ a ≤ b) :
    b ≤ a := by
  rw [le_iff_place ha hb, not_le] at hab
  exact (le_iff_place hb ha).mpr hab.le

theorem le_infinity {a : Float} (ha : a.isNaN = false) : a ≤ infinity := by
  rw [le_iff_place ha (by decide +kernel)]
  have htop : infinity.toModel.unpack = .infinity .positive := by rfl
  rw [htop]
  cases a.toModel.unpack with
  | notANumber => simp [place, Prod.Lex.toLex_le_toLex]
  | _ s => cases s <;> simp [place, Prod.Lex.toLex_le_toLex]

theorem isNaN_of_isFinite {a : Float} (ha : a.isFinite = true) : a.isNaN = false := by
  refine Bool.eq_false_iff.mpr fun hnan => ?_
  change UnpackedFloat.isFinite a.toModel.unpack = true at ha
  rw [isNaN_iff.mp hnan] at ha
  exact absurd ha (by decide)

theorem packedInfinity_ne_packedNaN (s : Sign) :
    packedInfinity .binary64 s ≠ packedNaN .binary64 := by
  cases s <;> decide

theorem packComponents_ne_packedNaN {exponent : BitVec Format.binary64.exponentBits}
    (hexponent : exponent ≠ -1) (s : Sign)
    (mantissa : BitVec Format.binary64.mantissaBitsWithoutImplicit) :
    packComponents .binary64 s exponent mantissa ≠ packedNaN .binary64 := by
  intro heq
  have hsame := congrArg unpackExponent heq
  rw [packedNaN, unpackExponent_packComponents, unpackExponent_packComponents] at hsame
  exact hexponent hsame

/-- Packing rounds a number to a number. -/
theorem pack_ne_packedNaN {a : UnpackedFloat} (ha : a.isNaN = false) :
    pack .binary64 a ≠ packedNaN .binary64 := by
  cases a with
  | notANumber => exact absurd ha (by decide)
  | infinity s => exact packedInfinity_ne_packedNaN s
  | zero s => cases s <;> decide
  | finite s m e hm =>
    rw [pack]
    dsimp only
    split_ifs with hoverflow hnormal
    · exact packedInfinity_ne_packedNaN s
    · refine packComponents_ne_packedNaN ?_ s _
      intro heq
      have hvalue := congrArg BitVec.toNat heq
      rw [BitVec.toNat_ofNat, Nat.mod_eq_of_lt (by omega)] at hvalue
      change _ = 2047 at hvalue
      have hbound : Format.binary64.exponentBits = 11 := rfl
      omega
    · exact packComponents_ne_packedNaN (by decide) s _

theorem scalar_abs (a : Float) : Scalar.abs a = a.abs := rfl

theorem isNaN_abs {a : Float} (ha : a.isNaN = false) : a.abs.isNaN = false := by
  rw [Bool.eq_false_iff, ne_eq]
  intro hnan
  have hpacked := (isNaN_unpack_iff_of_valid valid_pack).mp hnan
  refine pack_ne_packedNaN ?_ hpacked
  cases hunpacked : a.toModel.unpack with
  | notANumber => exact absurd (isNaN_iff.mpr hunpacked) (Bool.eq_false_iff.mp ha)
  | _ => rfl

theorem isNaN_abs_eq (a : Float) : a.abs.isNaN = a.isNaN := by
  cases ha : a.isNaN with
  | false => exact isNaN_abs ha
  | true =>
    refine (isNaN_unpack_iff_of_valid valid_pack).mpr ?_
    rw [isNaN_iff.mp ha]
    rfl

/-! ## The larger of two numbers -/

/-- The larger of a number and something that may be none is a number. -/
theorem isNaN_max {a : Float} (ha : a.isNaN = false) (b : Float) : (Scalar.max a b).isNaN = false := by
  unfold Scalar.max
  by_cases hab : a ≤ b
  · rw [if_pos hab]
    exact (isNaN_of_le hab).2
  · rw [if_neg hab, if_pos (beq_self ha)]
    exact ha

/-- A bound on the larger of a number and something that may be none says nothing about the latter unless it
is a number. -/
theorem max_le_iff {a : Float} (ha : a.isNaN = false) (b bound : Float) :
    Scalar.max a b ≤ bound ↔ a ≤ bound ∧ (b.isNaN = true ∨ b ≤ bound) := by
  unfold Scalar.max
  by_cases hab : a ≤ b
  · rw [if_pos hab]
    obtain ⟨-, hb⟩ := isNaN_of_le hab
    exact ⟨fun hbound => ⟨le_trans hab hbound, Or.inr hbound⟩,
      fun hbounds => hbounds.2.resolve_left (Bool.eq_false_iff.mp hb)⟩
  · rw [if_neg hab, if_pos (beq_self ha)]
    refine ⟨fun hbound => ⟨hbound, ?_⟩, And.left⟩
    cases hb : b.isNaN with
    | true => exact Or.inl rfl
    | false => exact Or.inr (le_trans (le_of_not_le ha hb hab) hbound)

/-! ## The resolution -/

theorem isNaN_resolution : (Scalar.resolution : Float).isNaN = false := by decide +kernel

example : (Scalar.resolution : Float).toBits = 0x3CB0000000000000 := by decide +kernel

theorem not_significant_iff {a : Float} (ha : a.isFinite = true) :
    ¬ Significant a ↔ Scalar.abs a ≤ Scalar.resolution :=
  not_lt_iff isNaN_resolution (isNaN_abs (isNaN_of_isFinite ha))

end BeamTransport.Double
