import BeamTransport.Proofs.Space

/-!
# Orders of smallness

An error of a step depends on where along a path the step starts and on how long it is. It is of an order
when it is at most a multiple of that power of the length, near the start of the path and for short steps
alike (`OfOrder`). Orders add up as errors are integrated (`ofOrder_of_hasDerivAt`), so a Taylor
polynomial misses a smooth path by one order more than its degree (`ofOrder_taylor`), and a smooth map
passes errors on: in first order as they are (`OfOrder.map_sub`), and in second order by its derivative
(`OfOrder.map_add`).
-/

open Asymptotics Filter Topology

namespace BeamTransport

variable {E F : Type*} [NormedAddCommGroup E] [NormedAddCommGroup F]

theorem tendsto_end : Tendsto (fun z : ℝ × ℝ => z.1 + z.2) (𝓝 0) (𝓝 0) := by
  simpa using (by fun_prop : Continuous fun z : ℝ × ℝ => z.1 + z.2).tendsto 0

theorem tendsto_half : Tendsto (fun z : ℝ × ℝ => 0.5 * z.2) (𝓝 0) (𝓝 0) := by
  simpa using (by fun_prop : Continuous fun z : ℝ × ℝ => 0.5 * z.2).tendsto 0

/-- An error over the starting points `z.1` and the lengths `z.2` is at most a multiple of a power of the
length, near the origin. -/
def OfOrder (error : ℝ × ℝ → E) (n : ℕ) : Prop := error =O[𝓝 0] fun z => z.2 ^ n

namespace OfOrder

variable {g k : ℝ × ℝ → E} {m n : ℕ}

theorem add (hg : OfOrder g n) (hk : OfOrder k n) : OfOrder (fun z => g z + k z) n := IsBigO.add hg hk

theorem sub (hg : OfOrder g n) (hk : OfOrder k n) : OfOrder (fun z => g z - k z) n := IsBigO.sub hg hk

theorem neg (hg : OfOrder g n) : OfOrder (fun z => -g z) n := IsBigO.neg_left hg

theorem of_tendsto {a : E} (hg : Tendsto g (𝓝 0) (𝓝 a)) : OfOrder g 0 := by
  simpa only [OfOrder, pow_zero] using hg.isBigO_one ℝ

theorem mono (hg : OfOrder g n) (hmn : m ≤ n) : OfOrder g m := by
  have hsmall : (fun z : ℝ × ℝ => z.2 ^ n) =O[𝓝 0] fun z => z.2 ^ m := by
    have hbounded : (fun z : ℝ × ℝ => z.2 ^ (n - m)) =O[𝓝 0] fun _ => (1 : ℝ) :=
      (by fun_prop : Continuous fun z : ℝ × ℝ => z.2 ^ (n - m)).continuousAt.tendsto.isBigO_one ℝ
    refine ((isBigO_refl (fun z : ℝ × ℝ => z.2 ^ m) (𝓝 0)).mul hbounded).congr ?_ ?_
    · intro z
      rw [← pow_add, Nat.add_sub_cancel' hmn]
    · intro z
      rw [mul_one]
  exact IsBigO.trans hg hsmall

theorem tendsto_zero (hg : OfOrder g n) (hn : n ≠ 0) : Tendsto g (𝓝 0) (𝓝 0) := by
  refine IsBigO.trans_tendsto hg ?_
  have hpower : Continuous fun z : ℝ × ℝ => z.2 ^ n := by fun_prop
  simpa [hn] using hpower.tendsto 0

/-- An error over half the length, from starts that are near when the step is. -/
theorem halfFrom (hg : OfOrder g n) {start : ℝ × ℝ → ℝ} (hstart : Tendsto start (𝓝 0) (𝓝 0)) :
    OfOrder (fun z => g (start z, 0.5 * z.2)) n := by
  refine (IsBigO.comp_tendsto hg (hstart.prodMk_nhds tendsto_half)).trans ?_
  simp only [Function.comp_def, mul_pow]
  exact (isBigO_refl _ _).const_mul_left _

theorem half (hg : OfOrder g n) : OfOrder (fun z => g (z.1, 0.5 * z.2)) n :=
  hg.halfFrom continuous_fst.continuousAt

/-- The error of steps from one start. -/
theorem fromStart (hg : OfOrder g n) : (fun h => g (0, h)) =O[𝓝 0] fun h => h ^ n := by
  have hstart : Tendsto (fun h : ℝ => ((0 : ℝ), h)) (𝓝 0) (𝓝 0) :=
    (by fun_prop : Continuous fun h : ℝ => ((0 : ℝ), h)).tendsto 0
  exact IsBigO.comp_tendsto hg hstart

variable [NormedSpace ℝ E] [NormedSpace ℝ F]

theorem const_smul (c : ℝ) (hg : OfOrder g n) : OfOrder (fun z => c • g z) n :=
  IsBigO.const_smul_left hg c

theorem mul_length (hg : OfOrder g n) (c : ℝ) : OfOrder (fun z => (c * z.2) • g z) (n + 1) := by
  have hfactor : (fun z : ℝ × ℝ => c * z.2) =O[𝓝 0] fun z => z.2 :=
    (isBigO_refl _ _).const_mul_left c
  refine (hfactor.smul hg).congr_right fun z => ?_
  rw [smul_eq_mul, pow_succ']

theorem term (hg : ContinuousAt g 0) (c : ℝ) (n : ℕ) : OfOrder (fun z => (c * z.2 ^ n) • g z) n := by
  have hfactor : (fun z : ℝ × ℝ => c * z.2 ^ n) =O[𝓝 0] fun z => z.2 ^ n :=
    (isBigO_refl _ _).const_mul_left c
  refine (hfactor.smul (hg.tendsto.isBigO_one ℝ)).congr_right fun z => ?_
  rw [smul_eq_mul, mul_one]

/-! ## Smooth maps -/

variable {p q : ℝ × ℝ → E} {x : E} {f : E → F}

/-- A smooth map passes errors on. -/
theorem map_sub (hf : ContDiffAt ℝ 1 f x) (hp : Tendsto p (𝓝 0) (𝓝 x)) (hq : Tendsto q (𝓝 0) (𝓝 x))
    (hpq : OfOrder (fun z => p z - q z) n) : OfOrder (fun z => f (p z) - f (q z)) n := by
  obtain ⟨K, s, hs, hlipschitz⟩ := hf.exists_lipschitzOnWith
  refine IsBigO.trans (.of_bound K ?_) hpq
  filter_upwards [hp hs, hq hs] with z hpz hqz
  exact hlipschitz.norm_sub_le hpz hqz

theorem apply {A : ℝ × ℝ → E →L[ℝ] F} (hA : OfOrder A m) (hg : OfOrder g n) :
    OfOrder (fun z => A z (g z)) (m + n) := by
  refine (IsBigO.of_bound 1 (.of_forall fun z => ?_)).trans ((IsBigO.norm_left hA).mul (IsBigO.norm_left hg))
    |>.congr_right fun z => (pow_add _ _ _).symm
  simpa using (A z).le_opNorm (g z)

/-- A smooth map passes errors on by its derivative, up to their square. -/
theorem map_add (hf : ContDiffAt ℝ 2 f x) (hp : Tendsto p (𝓝 0) (𝓝 x)) (hg : OfOrder g n) (hn : n ≠ 0) :
    OfOrder (fun z => f (p z + g z) - f (p z) - fderiv ℝ f (p z) (g z)) (n + n) := by
  have hderiv : ContDiffAt ℝ 1 (fderiv ℝ f) x := hf.fderiv_right (by norm_num)
  obtain ⟨K, s, hs, hlipschitz⟩ := hderiv.exists_lipschitzOnWith
  have hdiff : ∀ᶠ a in 𝓝 x, DifferentiableAt ℝ f a :=
    (hf.eventually (by decide)).mono fun a ha => ha.differentiableAt (by norm_num)
  obtain ⟨r, hr, hball⟩ := Metric.eventually_nhds_iff_ball.mp (hdiff.and hs)
  have hend : Tendsto (fun z => p z + g z) (𝓝 0) (𝓝 x) := by
    simpa using hp.add (hg.tendsto_zero hn)
  have hsquare : (fun z => ‖g z‖ * ‖g z‖) =O[𝓝 0] fun z => z.2 ^ (n + n) :=
    ((IsBigO.norm_left hg).mul (IsBigO.norm_left hg)).congr_right fun z => (pow_add _ _ _).symm
  refine IsBigO.trans (.of_bound K ?_) hsquare
  filter_upwards [hp (Metric.ball_mem_nhds x hr), hend (Metric.ball_mem_nhds x hr)] with z hpz hendz
  -- On the segment the derivative differs from that at its start by no more than the error does.
  have hsegment : segment ℝ (p z) (p z + g z) ⊆ Metric.ball x r :=
    (convex_ball x r).segment_subset hpz hendz
  have hbound : ∀ a ∈ segment ℝ (p z) (p z + g z), ‖fderiv ℝ f a - fderiv ℝ f (p z)‖ ≤ K * ‖g z‖ := by
    intro a ha
    refine (hlipschitz.norm_sub_le (hball a (hsegment ha)).2 (hball _ hpz).2).trans ?_
    refine mul_le_mul_of_nonneg_left ?_ K.2
    obtain ⟨t, ht, rfl⟩ := segment_eq_image_lineMap ℝ (p z) (p z + g z) ▸ ha
    rw [AffineMap.lineMap_apply, vsub_eq_sub, vadd_eq_add, add_sub_cancel_right, add_sub_cancel_left,
      norm_smul, Real.norm_eq_abs, abs_of_nonneg ht.1]
    exact mul_le_of_le_one_left (norm_nonneg _) ht.2
  have hmean := (convex_segment (p z) (p z + g z)).norm_image_sub_le_of_norm_fderiv_le'
    (fun a ha => (hball a (hsegment ha)).1) hbound (left_mem_segment ℝ _ _) (right_mem_segment ℝ _ _)
  simpa [mul_assoc] using hmean

end OfOrder

/-! ## Taylor polynomials -/

variable [NormedSpace ℝ E]

/-- What starts at zero and changes at a rate of an order is of the next order. -/
theorem ofOrder_of_hasDerivAt {g k : ℝ × ℝ → E} {n : ℕ}
    (hderiv : ∀ᶠ z in 𝓝 0, HasDerivAt (fun s => g (z.1, s)) (k z) z.2) (hzero : ∀ t, g (t, 0) = 0)
    (hk : OfOrder k n) : OfOrder g (n + 1) := by
  obtain ⟨C, hC, hbound⟩ := IsBigO.exists_nonneg hk
  obtain ⟨r, hr, hball⟩ := Metric.eventually_nhds_iff_ball.mp (hderiv.and hbound.bound)
  refine .of_bound C ?_
  filter_upwards [Metric.ball_mem_nhds (0 : ℝ × ℝ) hr] with ⟨t, h⟩ hz
  have hshorter (s : ℝ) (hs : s ∈ Set.uIcc 0 h) : |s| ≤ |h| := by
    simpa using Set.abs_sub_left_of_mem_uIcc hs
  have hmem (s : ℝ) (hs : s ∈ Set.uIcc 0 h) : (t, s) ∈ Metric.ball (0 : ℝ × ℝ) r := by
    rw [mem_ball_zero_iff, Prod.norm_mk, max_lt_iff] at hz ⊢
    exact ⟨hz.1, lt_of_le_of_lt (hshorter s hs) hz.2⟩
  have hrate (s : ℝ) (hs : s ∈ Set.uIcc 0 h) : ‖k (t, s)‖ ≤ C * |h| ^ n := by
    have hshort := hshorter s hs
    refine (hball _ (hmem s hs)).2.trans ?_
    rw [norm_pow, Real.norm_eq_abs]
    gcongr
  have hchange (s : ℝ) (hs : s ∈ Set.uIcc 0 h) :
      HasDerivWithinAt (fun s => g (t, s)) (k (t, s)) (Set.uIcc 0 h) s :=
    (hball _ (hmem s hs)).1.hasDerivWithinAt
  have hmean := (convex_uIcc (0 : ℝ) h).norm_image_sub_le_of_norm_hasDerivWithin_le hchange hrate
    Set.left_mem_uIcc Set.right_mem_uIcc
  simpa [hzero, pow_succ, mul_assoc] using hmean

/-- By how much the Taylor polynomial of a path at a point misses it a length further. -/
noncomputable def taylorMiss (path : ℝ → E) (n : ℕ) (z : ℝ × ℝ) : E :=
  path (z.1 + z.2) - taylorWithinEval path n Set.univ z.1 (z.1 + z.2)

theorem taylorMiss_eq (path : ℝ → E) (n : ℕ) (z : ℝ × ℝ) : taylorMiss path n z = path (z.1 + z.2) -
    ∑ k ∈ Finset.range (n + 1), ((k.factorial : ℝ)⁻¹ * z.2 ^ k) • iteratedDeriv k path z.1 := by
  simp only [taylorMiss, taylor_within_apply, iteratedDerivWithin_univ, add_sub_cancel_left]

theorem taylorMiss_zero (path : ℝ → E) (z : ℝ × ℝ) :
    taylorMiss path 0 z = path (z.1 + z.2) - path z.1 := by
  rw [taylorMiss, taylor_within_zero_eval]

theorem taylorMiss_start (path : ℝ → E) (n : ℕ) (t : ℝ) : taylorMiss path n (t, 0) = 0 := by
  simp [taylorMiss]

theorem contDiffAt_deriv {path : ℝ → E} {n : ℕ} {t : ℝ} (hpath : ContDiffAt ℝ (n + 1) path t) :
    ContDiffAt ℝ n (deriv path) t := by
  have hfderiv : ContDiffAt ℝ n (fderiv ℝ path) t := hpath.fderiv_right le_rfl
  exact hfderiv.clm_apply contDiffAt_const

theorem eventually_hasDerivAt_end {path : ℝ → E} {n : ℕ} (hpath : ContDiffAt ℝ (n + 1) path 0) :
    ∀ᶠ z in 𝓝 (0 : ℝ × ℝ), HasDerivAt (fun s => path (z.1 + s)) (deriv path (z.1 + z.2)) z.2 := by
  have hdiff : ∀ᶠ t in 𝓝 (0 : ℝ), DifferentiableAt ℝ path t :=
    (hpath.eventually (by simp)).mono fun t ht => ht.differentiableAt (by simp)
  filter_upwards [tendsto_end hdiff] with z hz
  exact hz.hasDerivAt.comp_const_add z.1 z.2

/-- A Taylor polynomial misses a smooth path by one order more than its degree. -/
theorem ofOrder_taylor {path : ℝ → E} {n : ℕ} (hpath : ContDiffAt ℝ (n + 1) path 0) :
    OfOrder (taylorMiss path n) (n + 1) := by
  induction n generalizing path with
  | zero =>
    have hrate : Tendsto (fun z : ℝ × ℝ => deriv path (z.1 + z.2)) (𝓝 0) (𝓝 (deriv path 0)) :=
      (contDiffAt_deriv hpath).continuousAt.tendsto.comp tendsto_end
    refine ofOrder_of_hasDerivAt ?_ (taylorMiss_start path 0) (.of_tendsto hrate)
    filter_upwards [eventually_hasDerivAt_end hpath] with z hz
    simpa only [taylorMiss_zero] using hz.sub_const _
  | succ n ih =>
    have hderiv : ContDiffAt ℝ (n + 1) (deriv path) 0 := by
      exact_mod_cast contDiffAt_deriv hpath
    refine ofOrder_of_hasDerivAt ?_ (taylorMiss_start path (n + 1)) (ih hderiv)
    filter_upwards [eventually_hasDerivAt_end hpath] with z hz
    have hpolynomial : HasDerivAt (taylorWithinEval path (n + 1) Set.univ z.1)
        (taylorWithinEval (deriv path) n Set.univ z.1 (z.1 + z.2)) (z.1 + z.2) := by
      rw [← derivWithin_univ]
      exact hasDerivAt_taylorWithinEval_succ path n
    exact hz.sub (hpolynomial.comp_const_add z.1 z.2)

end BeamTransport
