import BeamTransport.Proofs.Derivative
import BeamTransport.Proofs.Turn

/-!
# Vectors and states as normed spaces

Vectors and states over the reals are normed by their largest component, so that the calculus of normed
spaces applies to paths of them. The operations on vectors are smooth, those that divide by a length where
it is not zero. `State.hasDeriv_iff` says that a state changes at a rate as all its components do, and
`State.hasOrder_of_isBigO` that it is small as all of them are.
-/

open Asymptotics Filter Topology

namespace BeamTransport

variable {E : Type*} [NormedAddCommGroup E] [NormedSpace ℝ E] {n : WithTop ℕ∞} {e : E}

/-! ## Vectors -/

namespace Vec3

/-- The components of a vector. -/
noncomputable def coordinates : Vec3 ℝ ≃ₗ[ℝ] ℝ × ℝ × ℝ where
  toFun a := (a.x, a.y, a.z)
  invFun c := ⟨c.1, c.2.1, c.2.2⟩
  map_add' _ _ := rfl
  map_smul' _ _ := rfl

noncomputable instance : NormedAddCommGroup (Vec3 ℝ) :=
  .induced _ _ coordinates coordinates.injective

noncomputable instance : NormedSpace ℝ (Vec3 ℝ) := .induced ℝ _ _ coordinates

/-- A vector is as long in the largest-component norm as its components are. -/
noncomputable def isometry : Vec3 ℝ ≃ₗᵢ[ℝ] ℝ × ℝ × ℝ := ⟨coordinates, fun _ => rfl⟩

theorem norm_eq (a : Vec3 ℝ) : ‖a‖ = max |a.x| (max |a.y| |a.z|) := rfl

@[fun_prop]
theorem contDiff_x : ContDiff ℝ n (fun a : Vec3 ℝ => a.x) := contDiff_fst.comp isometry.contDiff

@[fun_prop]
theorem contDiff_y : ContDiff ℝ n (fun a : Vec3 ℝ => a.y) :=
  (contDiff_fst.comp contDiff_snd).comp isometry.contDiff

@[fun_prop]
theorem contDiff_z : ContDiff ℝ n (fun a : Vec3 ℝ => a.z) :=
  (contDiff_snd.comp contDiff_snd).comp isometry.contDiff

@[fun_prop]
theorem contDiffAt_mk {x y z : E → ℝ} (hx : ContDiffAt ℝ n x e) (hy : ContDiffAt ℝ n y e)
    (hz : ContDiffAt ℝ n z e) : ContDiffAt ℝ n (fun e => (⟨x e, y e, z e⟩ : Vec3 ℝ)) e :=
  isometry.symm.contDiff.contDiffAt.comp e (hx.prodMk (hy.prodMk hz))

theorem hasDeriv_iff {path : ℝ → Vec3 ℝ} {rate : Vec3 ℝ} {h : ℝ} :
    HasDeriv path rate h ↔ HasDerivAt path rate h := by
  constructor
  · intro hpath
    have hcoordinates := hpath.x.prodMk (hpath.y.prodMk hpath.z)
    exact (isometry.symm.toContinuousLinearEquiv.toContinuousLinearMap.hasFDerivAt).comp_hasDerivAt h
      hcoordinates
  · intro hpath
    have hcoordinates :=
      (isometry.toContinuousLinearEquiv.toContinuousLinearMap.hasFDerivAt).comp_hasDerivAt h hpath
    have hyz := (ContinuousLinearMap.snd ℝ ℝ (ℝ × ℝ)).hasFDerivAt.comp_hasDerivAt h hcoordinates
    exact ⟨(ContinuousLinearMap.fst ℝ ℝ (ℝ × ℝ)).hasFDerivAt.comp_hasDerivAt h hcoordinates,
      (ContinuousLinearMap.fst ℝ ℝ ℝ).hasFDerivAt.comp_hasDerivAt h hyz,
      (ContinuousLinearMap.snd ℝ ℝ ℝ).hasFDerivAt.comp_hasDerivAt h hyz⟩

/-! ### Operations -/

variable {a b axis : E → Vec3 ℝ} {angle : E → ℝ}

@[fun_prop]
theorem contDiffAt_dot (ha : ContDiffAt ℝ n a e) (hb : ContDiffAt ℝ n b e) :
    ContDiffAt ℝ n (fun e => (a e).dot (b e)) e := by
  unfold dot
  fun_prop

@[fun_prop]
theorem contDiffAt_cross (ha : ContDiffAt ℝ n a e) (hb : ContDiffAt ℝ n b e) :
    ContDiffAt ℝ n (fun e => (a e).cross (b e)) e := by
  unfold cross
  fun_prop

@[fun_prop]
theorem contDiffAt_along (ha : ContDiffAt ℝ n a e) (haxis : ContDiffAt ℝ n axis e) :
    ContDiffAt ℝ n (fun e => (a e).along (axis e)) e := by
  unfold along
  fun_prop

@[fun_prop]
theorem contDiffAt_turnAcross (ha : ContDiffAt ℝ n a e) (haxis : ContDiffAt ℝ n axis e)
    (hangle : ContDiffAt ℝ n angle e) :
    ContDiffAt ℝ n (fun e => (a e).turnAcross (axis e) (angle e)) e := by
  simp only [turnAcross_eq, across]
  fun_prop

@[fun_prop]
theorem contDiffAt_turn (ha : ContDiffAt ℝ n a e) (haxis : ContDiffAt ℝ n axis e)
    (hangle : ContDiffAt ℝ n angle e) :
    ContDiffAt ℝ n (fun e => (a e).turn (axis e) (angle e)) e := by
  simp only [turn_eq]
  fun_prop

@[fun_prop]
theorem contDiffAt_rotateZ (angle : ℝ) (ha : ContDiffAt ℝ n a e) :
    ContDiffAt ℝ n (fun e => (a e).rotateZ angle) e := by
  unfold rotateZ
  fun_prop

theorem contDiffAt_length (ha : ContDiffAt ℝ n a e) (hne : a e ≠ 0) :
    ContDiffAt ℝ n (fun e => (a e).length) e := by
  have hdot : (a e).dot (a e) ≠ 0 := fun hzero => hne (eq_zero_of_dot_self hzero)
  simp only [length_eq_sqrt]
  exact ContDiffAt.sqrt (by fun_prop) hdot

/-- A vector over its length varies smoothly with the vector, as long as that is not zero. -/
theorem contDiffAt_div_length (ha : ContDiffAt ℝ n a e) (hne : a e ≠ 0) :
    ContDiffAt ℝ n (fun e => a e / (a e).length) e := by
  have hlength := ((a e).length_pos_iff.mpr hne).ne'
  simp only [div_eq_smul]
  exact ((contDiffAt_length ha hne).inv hlength).smul ha

theorem contDiffAt_direction (ha : ContDiffAt ℝ n a e) (hne : a e ≠ 0) :
    ContDiffAt ℝ n (fun e => (a e).direction) e := by
  refine (contDiffAt_div_length ha hne).congr_of_eventuallyEq ?_
  filter_upwards [ha.continuousAt.eventually_ne hne] with t ht
  exact direction_of_ne_zero ht

@[fun_prop]
theorem continuous_length : Continuous (length : Vec3 ℝ → ℝ) := by
  have hdot : ContDiff ℝ 0 fun a : Vec3 ℝ => a.dot a := contDiff_iff_contDiffAt.mpr fun _ => by fun_prop
  exact Real.continuous_sqrt.comp hdot.continuous

end Vec3

/-! ## States -/

namespace State

instance : Neg (State ℝ) := ⟨fun a => ⟨-a.position, -a.momentum⟩⟩

noncomputable instance : AddCommGroup (State ℝ) where
  add_assoc _ _ _ := State.ext (add_assoc _ _ _) (add_assoc _ _ _)
  zero_add _ := State.ext (zero_add _) (zero_add _)
  add_zero _ := State.ext (add_zero _) (add_zero _)
  add_comm _ _ := State.ext (add_comm _ _) (add_comm _ _)
  neg_add_cancel _ := State.ext (neg_add_cancel _) (neg_add_cancel _)
  sub_eq_add_neg _ _ := State.ext (sub_eq_add_neg _ _) (sub_eq_add_neg _ _)
  nsmul := nsmulRec
  zsmul := zsmulRec

noncomputable instance : Module ℝ (State ℝ) where
  one_smul _ := State.ext (one_smul _ _) (one_smul _ _)
  mul_smul _ _ _ := State.ext (mul_smul _ _ _) (mul_smul _ _ _)
  smul_zero _ := State.ext (smul_zero _) (smul_zero _)
  smul_add _ _ _ := State.ext (smul_add _ _ _) (smul_add _ _ _)
  add_smul _ _ _ := State.ext (add_smul _ _ _) (add_smul _ _ _)
  zero_smul _ := State.ext (zero_smul _ _) (zero_smul _ _)

/-- The position and the momentum of a state. -/
noncomputable def parts : State ℝ ≃ₗ[ℝ] Vec3 ℝ × Vec3 ℝ where
  toFun a := (a.position, a.momentum)
  invFun c := ⟨c.1, c.2⟩
  map_add' _ _ := rfl
  map_smul' _ _ := rfl

noncomputable instance : NormedAddCommGroup (State ℝ) := .induced _ _ parts parts.injective

noncomputable instance : NormedSpace ℝ (State ℝ) := .induced ℝ _ _ parts

/-- A state is as large as its position and its momentum are. -/
noncomputable def isometry : State ℝ ≃ₗᵢ[ℝ] Vec3 ℝ × Vec3 ℝ := ⟨parts, fun _ => rfl⟩

theorem norm_eq (a : State ℝ) : ‖a‖ = max ‖a.position‖ ‖a.momentum‖ := rfl

@[fun_prop]
theorem contDiff_position : ContDiff ℝ n (fun a : State ℝ => a.position) :=
  contDiff_fst.comp isometry.contDiff

@[fun_prop]
theorem contDiff_momentum : ContDiff ℝ n (fun a : State ℝ => a.momentum) :=
  contDiff_snd.comp isometry.contDiff

@[fun_prop]
theorem contDiffAt_mk {position momentum : E → Vec3 ℝ} (hposition : ContDiffAt ℝ n position e)
    (hmomentum : ContDiffAt ℝ n momentum e) :
    ContDiffAt ℝ n (fun e => (⟨position e, momentum e⟩ : State ℝ)) e :=
  isometry.symm.contDiff.contDiffAt.comp e (hposition.prodMk hmomentum)

theorem hasDeriv_iff {path : ℝ → State ℝ} {rate : State ℝ} {h : ℝ} :
    HasDeriv path rate h ↔ HasDerivAt path rate h := by
  constructor
  · intro hpath
    have hparts := (Vec3.hasDeriv_iff.mp hpath.position).prodMk (Vec3.hasDeriv_iff.mp hpath.momentum)
    exact (isometry.symm.toContinuousLinearEquiv.toContinuousLinearMap.hasFDerivAt).comp_hasDerivAt h
      hparts
  · intro hpath
    have hparts :=
      (isometry.toContinuousLinearEquiv.toContinuousLinearMap.hasFDerivAt).comp_hasDerivAt h hpath
    exact ⟨Vec3.hasDeriv_iff.mpr
        ((ContinuousLinearMap.fst ℝ (Vec3 ℝ) (Vec3 ℝ)).hasFDerivAt.comp_hasDerivAt h hparts),
      Vec3.hasDeriv_iff.mpr
        ((ContinuousLinearMap.snd ℝ (Vec3 ℝ) (Vec3 ℝ)).hasFDerivAt.comp_hasDerivAt h hparts)⟩

/-! ### Small paths -/

/-- A path of states is small to some order: for short lengths each component is at most a multiple of
that power of the length. -/
def HasOrder (path : ℝ → State ℝ) (order : ℕ) : Prop :=
  ∃ C reach : ℝ, 0 < reach ∧
    ∀ h, |h| ≤ reach → ∀ component ∈ (path h).components, |component| ≤ C * |h| ^ order

theorem abs_le_norm {a : State ℝ} : ∀ component ∈ a.components, |component| ≤ ‖a‖ := by
  have hposition : ‖a.position‖ ≤ ‖a‖ := le_max_left _ _
  have hmomentum : ‖a.momentum‖ ≤ ‖a‖ := le_max_right _ _
  simp only [Vec3.norm_eq, max_le_iff] at hposition hmomentum
  simp [components, hposition, hmomentum]

theorem hasOrder_of_isBigO {path : ℝ → State ℝ} {order : ℕ}
    (hpath : path =O[𝓝 0] fun h => h ^ order) : HasOrder path order := by
  obtain ⟨C, hC⟩ := hpath.bound
  obtain ⟨reach, hreach, hnear⟩ := Metric.eventually_nhds_iff.mp hC
  refine ⟨C, reach / 2, half_pos hreach, ?_⟩
  intro h hshort component hmem
  have hclose : dist h 0 < reach := by
    rw [Real.dist_0_eq_abs]
    linarith
  have hbound := hnear hclose
  rw [norm_pow, Real.norm_eq_abs] at hbound
  exact (abs_le_norm component hmem).trans hbound

end State

end BeamTransport
