import BeamTransport.Proofs.MultipoleSeries
import BeamTransport.Proofs.Rotation

/-!
# Skew multipoles are turned normal ones

A turn about the axis of a magnet multiplies positions by a phase and fields by the opposite one. The power
of an order takes the phase of the position once for each factor, and the field once more, so a turned
multipole is a multipole again, each coefficient multiplied by the phase of one angle more than its order
(`Multipole.skew_field`). A quarter turn shared out over these angles makes a normal coefficient a skew one,
of the opposite sign (`Multipole.turned_single`). So the skew kinds of magnet have the fields of multipoles
that hold the opposite strength under the skew name (`Magnet.skew_is_opposite_multipole`).
-/

open Nat

namespace BeamTransport

theorem exp_mul_I_mul (angle : ℝ) (z : ℂ) : Complex.exp (angle * Complex.I) * z =
    ⟨Real.cos angle * z.re - Real.sin angle * z.im, Real.cos angle * z.im + Real.sin angle * z.re⟩ := by
  apply Complex.ext
  · rw [Complex.mul_re, Complex.exp_ofReal_mul_I_re, Complex.exp_ofReal_mul_I_im]
  · rw [Complex.mul_im, Complex.exp_ofReal_mul_I_re, Complex.exp_ofReal_mul_I_im]

namespace Vec3

variable (a : Vec3 ℝ) (angle : ℝ)

theorem asPoint_rotateZ :
    (a.rotateZ angle).asPoint = Complex.exp (angle * Complex.I) * a.asPoint := by
  rw [rotateZ_eq, exp_mul_I_mul]
  apply Complex.ext <;> simp only [asPoint] <;> ring

theorem asField_rotateZ :
    (a.rotateZ angle).asField = Complex.exp ((-angle : ℝ) * Complex.I) * a.asField := by
  rw [rotateZ_eq, exp_mul_I_mul, Real.cos_neg, Real.sin_neg]
  apply Complex.ext <;> simp only [asField] <;> ring

end Vec3

namespace Multipole

/-! ## A turned multipole -/

section turned

variable (m : Multipole ℝ) (angle : ℝ)

/-- The coefficients turned by an angle: those of an order by one angle more than the order. -/
noncomputable def turned : Multipole ℝ where
  normal index := m.normal index * Real.cos ((index.val + 2 : ℕ) * angle)
    + m.skew index * Real.sin ((index.val + 2 : ℕ) * angle)
  skew index := m.skew index * Real.cos ((index.val + 2 : ℕ) * angle)
    - m.normal index * Real.sin ((index.val + 2 : ℕ) * angle)

theorem complex_turned (index : Fin 12) : (m.turned angle).complex index =
    Complex.exp ((-((index.val + 2 : ℕ) * angle) : ℝ) * Complex.I) * m.complex index := by
  rw [exp_mul_I_mul, Real.cos_neg, Real.sin_neg]
  apply Complex.ext <;> simp only [complex, turned] <;> ring

/-- The position brings one phase for each factor of its power, and the field one more. -/
theorem term_turned (point : ℂ) (index : Fin 12) : (m.turned angle).term point index =
    Complex.exp ((-angle : ℝ) * Complex.I) *
      m.term (Complex.exp ((-angle : ℝ) * Complex.I) * point) index := by
  have hphase : Complex.exp ((-((index.val + 2 : ℕ) * angle) : ℝ) * Complex.I) =
      Complex.exp ((-angle : ℝ) * Complex.I) *
        Complex.exp ((-angle : ℝ) * Complex.I) ^ (index.val + 1) := by
    rw [← Complex.exp_nat_mul, ← Complex.exp_add]
    congr 1
    push_cast
    ring
  rw [term, term, complex_turned, hphase, mul_pow]
  ring

/-- A multipole turned about the axis of the magnet is a multipole. -/
theorem skew_field : FieldMap.skew angle m.field = (m.turned angle).field := by
  funext position
  refine Vec3.eq_of_asField ?_ ?_
  · rw [FieldMap.skew, Vec3.asField_rotateZ, asField_field, asField_field, Vec3.asPoint_rotateZ,
      Finset.mul_sum]
    exact Finset.sum_congr rfl fun index _ => (m.term_turned angle _ index).symm
  · rw [FieldMap.skew, Vec3.rotateZ_eq]
    rfl

end turned

/-! ## The skew partner of a normal multipole -/

/-- One skew coefficient; an order outside the series leaves no field. -/
noncomputable def singleSkew (order : ℕ) (coefficient : ℝ) : Multipole ℝ where
  normal _ := 0
  skew index := if index.val + 1 = order then coefficient else 0

/-- The angle of the skew partner is a quarter turn shared out over one angle more than the order. -/
theorem add_two_mul_skewAngle (index : Fin 12) :
    (index.val + 2 : ℕ) * skewAngle (index.val + 1) = Real.pi / 2 := by
  have hangle : (skewAngle (index.val + 1) : ℝ) = Real.pi / (2 * (((index.val + 1 : ℕ) : ℝ) + 1)) := rfl
  rw [hangle]
  push_cast
  field_simp
  ring

theorem turned_single (order : ℕ) (coefficient : ℝ) :
    (single order coefficient).turned (skewAngle order) = singleSkew order (-coefficient) := by
  rw [turned, single, singleSkew, mk.injEq]
  dsimp only
  constructor
  · funext index
    by_cases horder : index.val + 1 = order
    · rw [if_pos horder, ← horder, add_two_mul_skewAngle, Real.cos_pi_div_two, mul_zero, zero_mul, add_zero]
    · rw [if_neg horder, zero_mul, zero_mul, add_zero]
  · funext index
    by_cases horder : index.val + 1 = order
    · rw [if_pos horder, if_pos horder, ← horder, add_two_mul_skewAngle, Real.sin_pi_div_two, zero_mul,
        mul_one, zero_sub]
    · rw [if_neg horder, if_neg horder, zero_mul, zero_mul, sub_zero]

theorem ofStrengths_of_onlyUnder_skew {strengths : Strengths ℝ} {index : Fin 12}
    (honly : strengths.OnlyUnder (.skew index)) (rigidity : ℝ) :
    ofStrengths strengths rigidity =
      singleSkew (index.val + 1) (strengths.get (.skew index) * rigidity) := by
  rw [ofStrengths, singleSkew, mk.injEq]
  constructor
  · funext other
    rw [honly _ (by simp), zero_mul]
  · funext other
    by_cases hother : other = index
    · rw [hother, if_pos rfl]
    · have hkey : StrengthKey.skew other ≠ .skew index := by simpa using hother
      rw [honly _ hkey, zero_mul, if_neg (by simpa [Fin.val_inj] using hother)]

end Multipole

/-! ## Skew kinds -/

namespace FieldKind

/-- The kind whose field a skew kind turns. -/
def normalPartner? : FieldKind → Option FieldKind
  | .skewQuadrupole => some .quadrupole
  | .skewSextupole => some .sextupole
  | .skewOctupole => some .octupole
  | .skewDecapole => some .decapole
  | _ => Option.none

/-- The order of the only multipole of a skew kind, less one. -/
def skewIndex? (kind : FieldKind) : Option (Fin 12) := kind.normalPartner?.bind normalIndex?

end FieldKind

namespace Magnet

theorem field?_of_skewIndex {magnet : Magnet ℝ} {index : Fin 12}
    (hkind : magnet.kind.skewIndex? = some index) :
    magnet.field? = some (FieldMap.skew (skewAngle (index.val + 1))
      (Multipole.single (index.val + 1)
        (magnet.strengths.get (.normal index.succ) * magnet.rigidity)).field) := by
  obtain ⟨kind, rigidity, strengths, geometry, face⟩ := magnet
  cases kind <;> cases hkind
  case skewQuadrupole =>
    exact congrArg (fun field => some (FieldMap.skew (skewAngle 1) field))
      (FieldMap.quadrupole_eq_single _)
  case skewSextupole | skewOctupole | skewDecapole => rfl

/-- A normal coefficient of any order, turned by the angle of its skew partner, has the field of the
opposite skew coefficient. So a skew magnet has the field of a multipole of the same rigidity that holds no
strength but the opposite one under the skew name of its order, whatever their geometries. -/
theorem skew_is_opposite_multipole :
    (∀ (order : ℕ) (coefficient : ℝ) (position : Vec3 ℝ),
        FieldMap.skew (skewAngle order) (Multipole.single order coefficient).field position =
          (Multipole.singleSkew order (-coefficient)).field position) ∧
      ∀ (skewed multipole : Magnet ℝ) (index : Fin 12), skewed.kind.skewIndex? = some index →
        multipole.kind = .multipole → multipole.rigidity = skewed.rigidity →
        multipole.strengths.get (.skew index) = -skewed.strengths.get (.normal index.succ) →
        multipole.strengths.OnlyUnder (.skew index) →
        ∃ field, skewed.field = .ok field ∧ multipole.field = .ok field := by
  constructor
  · intro order coefficient position
    rw [Multipole.skew_field, Multipole.turned_single]
  · intro skewed multipole index hskewed hkind hrigidity hopposite honly
    have hplain : multipole.field? =
        some (Multipole.ofStrengths multipole.strengths multipole.rigidity).field := by
      rw [field?, hkind]
    refine ⟨_, ?_, by rw [field, hplain]⟩
    rw [field, field?_of_skewIndex hskewed, Multipole.skew_field, Multipole.turned_single,
      Multipole.ofStrengths_of_onlyUnder_skew honly, hopposite, hrigidity, neg_mul]

/-- A bent skew sextupole of negative rigidity with further strengths, and a straight multipole. -/
theorem skew_is_opposite_multipole_sextupole :
    let skewed : Magnet ℝ :=
      ⟨.skewSextupole, -2, (Strengths.empty.set (.normal 2) 5).set .k1 3, .sector 1 1, .entrance⟩
    let multipole : Magnet ℝ :=
      ⟨.multipole, -2, Strengths.empty.set (.skew 1) (-5), .sector 3 0, .exit⟩
    skewed.kind.skewIndex? = some 1 ∧ multipole.kind = .multipole ∧
      multipole.rigidity = skewed.rigidity ∧
      multipole.strengths.get (.skew 1) = -skewed.strengths.get (.normal 2) ∧
      multipole.strengths.OnlyUnder (.skew 1) ∧
      ∃ field, skewed.field = .ok field ∧ multipole.field = .ok field := by
  intro skewed multipole
  have honly : multipole.strengths.OnlyUnder (.skew 1) := Strengths.onlyUnder_set _ _
  have hopposite : multipole.strengths.get (.skew 1) = -skewed.strengths.get (.normal 2) := by
    simp [multipole, skewed, Strengths.get_set, StrengthKey.k1]
  exact ⟨rfl, rfl, rfl, hopposite, honly,
    skew_is_opposite_multipole.2 skewed multipole 1 rfl rfl rfl hopposite honly⟩

end Magnet

end BeamTransport
