import BeamTransport.Magnet
import BeamTransport.Proofs.StrengthRecord
import BeamTransport.Proofs.Vec3

/-!
# The field of a multipole is a complex power series

Across the axis of a magnet a position is the complex number `x + i y`, and a field is `B_y + i B_x`. From
order to order the sum of a multipole goes on to the next power of the position over its factorial, and
adds this power times the complex coefficient of the order (`Multipole.Sum.power_next`,
`Multipole.Sum.total_next`). So the field is the power series of the coefficients
(`Multipole.asField_field`). A kind of magnet with a normal multipole of one order has the field of the
record that holds the strength of this order alone (`Magnet.multipole_series`).
-/

open Finset Nat

namespace BeamTransport

namespace Vec3

/-- A position across the axis of the magnet as the complex number `x + i y`. -/
def asPoint (a : Vec3 ℝ) : ℂ := ⟨a.x, a.y⟩

/-- A field across the axis of the magnet as the complex number `B_y + i B_x`. -/
def asField (b : Vec3 ℝ) : ℂ := ⟨b.y, b.x⟩

theorem eq_of_asField {b b' : Vec3 ℝ} (hfield : b.asField = b'.asField) (hz : b.z = b'.z) : b = b' :=
  Vec3.ext (congrArg Complex.im hfield) (congrArg Complex.re hfield) hz

end Vec3

/-! ## The series -/

namespace Multipole

/-- The complex coefficient of an order. -/
def complex (m : Multipole ℝ) (index : Fin 12) : ℂ := ⟨m.normal index, m.skew index⟩

/-- What an order adds to the series at a point. -/
noncomputable def term (m : Multipole ℝ) (point : ℂ) (index : Fin 12) : ℂ :=
  m.complex index / (index.val + 1)! * point ^ (index.val + 1)

namespace Sum

/-- The power reached. -/
def power (sum : Sum ℝ) : ℂ := ⟨sum.re, sum.im⟩

/-- The series summed so far. -/
def total (sum : Sum ℝ) : ℂ := ⟨sum.vertical, sum.horizontal⟩

variable (m : Multipole ℝ) (x y : ℝ) (sum : Sum ℝ) (index : Fin 12)

theorem power_next :
    (sum.next m x y index).power = sum.power * ⟨x, y⟩ / ((index.val + 1 : ℕ) : ℂ) := by
  apply Complex.ext
  · rw [Complex.div_natCast_re, Complex.mul_re]
    rfl
  · rw [Complex.div_natCast_im, Complex.mul_im]
    rfl

theorem total_next :
    (sum.next m x y index).total =
      sum.total + m.complex index * (sum.next m x y index).power := by
  apply Complex.ext
  · rw [Complex.add_re, Complex.mul_re]
    rfl
  · rw [Complex.add_im, Complex.mul_im]
    rfl

end Sum

variable (m : Multipole ℝ)

/-- The first orders of a series. -/
def upTo {n : ℕ} (hn : n ≤ 12) : List (Fin 12) := (List.finRange n).map (Fin.castLE hn)

theorem upTo_succ {n : ℕ} (hn : n + 1 ≤ 12) :
    upTo hn = upTo (Nat.le_of_succ_le hn) ++ [⟨n, hn⟩] := by
  rw [upTo, List.finRange_succ_last, List.map_append, List.map_map]
  rfl

theorem upTo_all : upTo le_rfl = List.finRange 12 := List.map_id _

/-- After its first orders a sum has reached the power of the last one, and the series up to it. -/
theorem sum_upTo (x y : ℝ) {n : ℕ} (hn : n ≤ 12) :
    let sum := (upTo hn).foldl (Sum.next m x y) .start
    sum.power = ⟨x, y⟩ ^ n / (n ! : ℂ) ∧ sum.total = ((upTo hn).map (m.term ⟨x, y⟩)).sum := by
  induction n with
  | zero =>
    refine ⟨?_, rfl⟩
    rw [pow_zero, Nat.factorial_zero, Nat.cast_one, div_one]
    rfl
  | succ n ih =>
    obtain ⟨hpower, htotal⟩ := ih (Nat.le_of_succ_le hn)
    have hnext : (Sum.next m x y ((upTo (Nat.le_of_succ_le hn)).foldl (Sum.next m x y) .start)
        ⟨n, hn⟩).power = ⟨x, y⟩ ^ (n + 1) / ((n + 1)! : ℂ) := by
      rw [Sum.power_next, hpower, pow_succ, Nat.factorial_succ, Nat.cast_mul, div_mul_eq_mul_div, div_div,
        mul_comm (n ! : ℂ)]
    rw [upTo_succ hn, List.foldl_append, List.map_append, List.sum_append]
    refine ⟨hnext, ?_⟩
    rw [List.foldl_cons, List.foldl_nil, Sum.total_next, htotal, hnext, List.map_singleton,
      List.sum_singleton, term, mul_div_assoc', div_mul_eq_mul_div]

theorem asField_field (position : Vec3 ℝ) :
    (m.field position).asField = ∑ index, m.term position.asPoint index := by
  obtain ⟨-, htotal⟩ := m.sum_upTo position.x position.y le_rfl
  rw [upTo_all] at htotal
  rw [← List.sum_ofFn, List.ofFn_eq_map]
  exact htotal

/-- A single coefficient leaves one power. -/
theorem asField_single (index : Fin 12) (coefficient : ℝ) (position : Vec3 ℝ) :
    ((single (index.val + 1) coefficient).field position).asField =
      coefficient / (index.val + 1)! * position.asPoint ^ (index.val + 1) := by
  have hcomplex (other : Fin 12) :
      (single (index.val + 1) coefficient).complex other =
        if other = index then (coefficient : ℂ) else 0 := by
    simp only [complex, single, Nat.add_right_cancel_iff, Fin.val_inj]
    split_ifs <;> rfl
  rw [asField_field, Finset.sum_eq_single_of_mem index (Finset.mem_univ index)]
  · rw [term, hcomplex, if_pos rfl]
  · intro other _ hother
    rw [term, hcomplex, if_neg hother, zero_div, zero_mul]

end Multipole

theorem FieldMap.quadrupole_eq_single (gradient : ℝ) :
    quadrupole gradient = (Multipole.single 1 gradient).field := by
  funext position
  have hsingle : ((Multipole.single 1 gradient).field position).asField = gradient * position.asPoint := by
    simpa using Multipole.asField_single 0 gradient position
  refine Vec3.eq_of_asField (.trans ?_ hsingle.symm) rfl
  apply Complex.ext
  · rw [Complex.re_ofReal_mul]
    rfl
  · rw [Complex.im_ofReal_mul]
    rfl

/-! ## Strengths and coefficients -/

namespace Strengths

theorem getNamed_name (strengths : Strengths ℝ) (key : StrengthKey) :
    strengths.getNamed key.name = .ok (strengths.get key) := by
  rw [getNamed, StrengthKey.ofName_name]
  rfl

/-- All strengths but one are zero. -/
def OnlyUnder (strengths : Strengths ℝ) (key : StrengthKey) : Prop :=
  ∀ other, other ≠ key → strengths.get other = 0

theorem onlyUnder_set (key : StrengthKey) (value : ℝ) : (empty.set key value).OnlyUnder key := by
  intro other hother
  rw [get_set, if_neg hother, get_empty]

end Strengths

theorem Multipole.ofStrengths_of_onlyUnder_normal {strengths : Strengths ℝ} {index : Fin 12}
    (honly : strengths.OnlyUnder (.normal index.succ)) (rigidity : ℝ) :
    ofStrengths strengths rigidity =
      single (index.val + 1) (strengths.get (.normal index.succ) * rigidity) := by
  rw [ofStrengths, single, mk.injEq]
  constructor
  · funext other
    by_cases hother : other = index
    · rw [hother, if_pos rfl]
    · have hkey : StrengthKey.normal other.succ ≠ .normal index.succ := by simpa using hother
      rw [honly _ hkey, zero_mul, if_neg (by simpa [Fin.val_inj] using hother)]
  · funext other
    rw [honly _ (by simp), zero_mul]

/-! ## Kinds with one multipole -/

/-- The order of the only multipole of a kind, less one. -/
def FieldKind.normalIndex? : FieldKind → Option (Fin 12)
  | .quadrupole => some 0
  | .sextupole => some 1
  | .octupole => some 2
  | .decapole => some 3
  | _ => Option.none

theorem Magnet.field?_of_normalIndex {magnet : Magnet ℝ} {index : Fin 12}
    (hkind : magnet.kind.normalIndex? = some index) :
    magnet.field? = some (Multipole.single (index.val + 1)
      (magnet.strengths.get (.normal index.succ) * magnet.rigidity)).field := by
  obtain ⟨kind, rigidity, strengths, geometry, face⟩ := magnet
  cases kind <;> cases hkind
  case quadrupole => exact congrArg some (FieldMap.quadrupole_eq_single _)
  case sextupole | octupole | decapole => rfl

/-- The field of twelve normal and twelve skew coefficients is their complex power series, with the
factorials of the orders. For a strength record the coefficients are the strengths under the names of the
orders, times the rigidity. Hence a quadrupole, a sextupole, an octupole and a decapole have the field of a
multipole with the same record, if this holds no strength but that of their order. -/
theorem Multipole.field_is_power_series :
    (∀ (m : Multipole ℝ) (position : Vec3 ℝ),
        (⟨(m.field position).y, (m.field position).x⟩ : ℂ) =
            ∑ index : Fin 12, (⟨m.normal index, m.skew index⟩ : ℂ) / (index.val + 1)! *
              (⟨position.x, position.y⟩ : ℂ) ^ (index.val + 1) ∧
          (m.field position).z = 0) ∧
      (∀ (strengths : Strengths ℝ) (rigidity : ℝ) (index : Fin 12), ∃ k ks,
        strengths.getNamed ("k" ++ toString (index.val + 1)) = .ok k ∧
          strengths.getNamed ("k" ++ toString (index.val + 1) ++ "s") = .ok ks ∧
          (ofStrengths strengths rigidity).normal index = rigidity * k ∧
          (ofStrengths strengths rigidity).skew index = rigidity * ks) ∧
      ∀ (magnet : Magnet ℝ) (index : Fin 12), magnet.kind.normalIndex? = some index →
        magnet.strengths.OnlyUnder (.normal index.succ) →
        ∃ field, magnet.field = .ok field ∧ { magnet with kind := .multipole }.field = .ok field := by
  refine ⟨fun m position => ⟨m.asField_field position, rfl⟩, ?_, ?_⟩
  · intro strengths rigidity index
    exact ⟨_, _, strengths.getNamed_name (.normal index.succ), strengths.getNamed_name (.skew index),
      mul_comm _ _, mul_comm _ _⟩
  · intro magnet index hkind honly
    refine ⟨_, ?_, rfl⟩
    rw [Magnet.field, Magnet.field?_of_normalIndex hkind, ← ofStrengths_of_onlyUnder_normal honly]

/-- An octupole of negative rigidity, whose record holds only the strength of the third order. -/
theorem Multipole.field_is_power_series_octupole :
    let magnet : Magnet ℝ := ⟨.octupole, -2, Strengths.empty.set (.normal 3) 5, .sector 1 1, .entrance⟩
    magnet.kind.normalIndex? = some 2 ∧ magnet.strengths.OnlyUnder (.normal 3) ∧
      ∃ field, magnet.field = .ok field ∧ { magnet with kind := .multipole }.field = .ok field := by
  intro magnet
  have honly : magnet.strengths.OnlyUnder (.normal 3) := Strengths.onlyUnder_set _ _
  exact ⟨rfl, honly, field_is_power_series.2.2 magnet 2 rfl honly⟩

end BeamTransport
