import BeamTransport.Proofs.Order
import BeamTransport.Proofs.RungeKutta
import BeamTransport.Proofs.Smoothness

/-!
# Runge-Kutta steps are of fourth order

Each stage of a step misses the path that it follows, half way or at the end (`secondMiss`, `thirdMiss`,
`fourthMiss`). The misses are known up to fourth order from the derivatives of the path and the slope of the
rate, and with the weights of the step they nearly cancel (`SmoothMotion.ofOrder_misses`). What is left of
the weighted rates are those on the path in the proportions of Simpson's rule, so a step misses any smooth
motion in fifth order (`SmoothMotion.ofOrder_singleStep`). The helix in a uniform field is such a motion
(`helix_to_fourth_order`).
-/

open Asymptotics Filter Topology

namespace BeamTransport.RungeKutta

variable (r : RungeKutta ℝ) (y : State ℝ) (h : ℝ)

/-! ## The rates of a step -/

/-- The change along the path at the second stage of a step. -/
noncomputable def secondRate : State ℝ := r.derivative (y + (0.5 * h) • r.derivative y)

/-- The change along the path at the third stage of a step. -/
noncomputable def thirdRate : State ℝ := r.derivative (y + (0.5 * h) • r.secondRate y h)

/-- The change along the path at the fourth stage of a step. -/
noncomputable def fourthRate : State ℝ := r.derivative (y + h • r.thirdRate y h)

theorem step_error : ((Integrator.rungeKutta r).step y h).error =
    ((Integrator.rungeKutta r).step y h).out - r.singleStep y (r.derivative y) h := rfl

theorem singleStep_eq : r.singleStep y (r.derivative y) h =
    y + (h / 6) • (r.derivative y + (2 : ℝ) • r.secondRate y h + (2 : ℝ) • r.thirdRate y h
      + r.fourthRate y h) := rfl

@[simp] theorem singleStep_zero : r.singleStep y (r.derivative y) 0 = y := by
  rw [singleStep_eq, zero_div, zero_smul, add_zero]

/-- Over no length all stages are the state itself. -/
theorem rates_zero : r.secondRate y 0 = r.derivative y ∧ r.thirdRate y 0 = r.derivative y ∧
    r.fourthRate y 0 = r.derivative y := by
  simp only [secondRate, thirdRate, fourthRate, mul_zero, zero_smul, add_zero, and_self]

/-! ## Paths and their derivatives -/

/-- The derivatives of a path where a step starts. -/
noncomputable def jet (path : ℝ → State ℝ) (k : ℕ) (z : ℝ × ℝ) : State ℝ := iteratedDeriv k path z.1

theorem jet_zero (path : ℝ → State ℝ) (z : ℝ × ℝ) : jet path 0 z = path z.1 := by
  rw [jet, iteratedDeriv_zero]

theorem path_middle (path : ℝ → State ℝ) (z : ℝ × ℝ) : path (z.1 + 0.5 * z.2) =
    jet path 0 z + (1 / 2 * z.2) • jet path 1 z + (1 / 8 * z.2 ^ 2) • jet path 2 z
      + (1 / 48 * z.2 ^ 3) • jet path 3 z + taylorMiss path 3 (z.1, 0.5 * z.2) := by
  simp only [taylorMiss_eq, Finset.sum_range_succ, Finset.sum_range_zero, Nat.factorial, jet]
  push_cast
  module

theorem path_end (path : ℝ → State ℝ) (z : ℝ × ℝ) : path (z.1 + z.2) =
    jet path 0 z + z.2 • jet path 1 z + (1 / 2 * z.2 ^ 2) • jet path 2 z
      + (1 / 6 * z.2 ^ 3) • jet path 3 z + (1 / 24 * z.2 ^ 4) • jet path 4 z + taylorMiss path 4 z := by
  simp only [taylorMiss_eq, Finset.sum_range_succ, Finset.sum_range_zero, Nat.factorial, jet]
  push_cast
  module

/-- A smooth path that moves as a method says, where the method's change along the path is smooth about
its start. -/
structure SmoothMotion (path : ℝ → State ℝ) : Prop where
  smooth : ContDiff ℝ 5 path
  rate : ∀ t, HasDerivAt path (r.derivative (path t)) t
  smoothRate : ContDiffAt ℝ 2 r.derivative (path 0)

/-- The derivative of a method's change along the path, where a step starts. -/
noncomputable def slope (path : ℝ → State ℝ) (z : ℝ × ℝ) : State ℝ →L[ℝ] State ℝ :=
  fderiv ℝ r.derivative (path z.1)

/-! ## Stages of a step -/

/-- By how much the second stage of a step misses the path half way. -/
noncomputable def secondMiss (path : ℝ → State ℝ) (z : ℝ × ℝ) : State ℝ :=
  path z.1 + (0.5 * z.2) • r.derivative (path z.1) - path (z.1 + 0.5 * z.2)

/-- By how much the third stage of a step misses the path half way. -/
noncomputable def thirdMiss (path : ℝ → State ℝ) (z : ℝ × ℝ) : State ℝ :=
  path z.1 + (0.5 * z.2) • r.secondRate (path z.1) z.2 - path (z.1 + 0.5 * z.2)

/-- By how much the fourth stage of a step misses the path at the end. -/
noncomputable def fourthMiss (path : ℝ → State ℝ) (z : ℝ × ℝ) : State ℝ :=
  path z.1 + z.2 • r.thirdRate (path z.1) z.2 - path (z.1 + z.2)

theorem secondRate_eq (path : ℝ → State ℝ) (z : ℝ × ℝ) : r.secondRate (path z.1) z.2 =
    r.derivative (path (z.1 + 0.5 * z.2) + r.secondMiss path z) := by
  rw [secondMiss, add_sub_cancel, secondRate]

theorem thirdRate_eq (path : ℝ → State ℝ) (z : ℝ × ℝ) : r.thirdRate (path z.1) z.2 =
    r.derivative (path (z.1 + 0.5 * z.2) + r.thirdMiss path z) := by
  rw [thirdMiss, add_sub_cancel, thirdRate]

theorem fourthRate_eq (path : ℝ → State ℝ) (z : ℝ × ℝ) : r.fourthRate (path z.1) z.2 =
    r.derivative (path (z.1 + z.2) + r.fourthMiss path z) := by
  rw [fourthMiss, add_sub_cancel, fourthRate]

namespace SmoothMotion

variable {r} {path : ℝ → State ℝ} (hpath : r.SmoothMotion path)

include hpath

theorem deriv_eq : deriv path = fun t => r.derivative (path t) := funext fun t => (hpath.rate t).deriv

theorem jet_one (z : ℝ × ℝ) : jet path 1 z = r.derivative (path z.1) := by
  rw [jet, iteratedDeriv_one, hpath.deriv_eq]

theorem iteratedDeriv_rate (k : ℕ) (t : ℝ) :
    iteratedDeriv k (fun t => r.derivative (path t)) t = iteratedDeriv (k + 1) path t := by
  rw [iteratedDeriv_succ', hpath.deriv_eq]

theorem rate_middle (z : ℝ × ℝ) : r.derivative (path (z.1 + 0.5 * z.2)) =
    jet path 1 z + (1 / 2 * z.2) • jet path 2 z + (1 / 8 * z.2 ^ 2) • jet path 3 z
      + (1 / 48 * z.2 ^ 3) • jet path 4 z
      + taylorMiss (fun t => r.derivative (path t)) 3 (z.1, 0.5 * z.2) := by
  simp only [taylorMiss_eq, Finset.sum_range_succ, Finset.sum_range_zero, Nat.factorial, jet,
    hpath.iteratedDeriv_rate]
  push_cast
  module

theorem rate_end (z : ℝ × ℝ) : r.derivative (path (z.1 + z.2)) =
    jet path 1 z + z.2 • jet path 2 z + (1 / 2 * z.2 ^ 2) • jet path 3 z
      + (1 / 6 * z.2 ^ 3) • jet path 4 z + taylorMiss (fun t => r.derivative (path t)) 3 z := by
  simp only [taylorMiss_eq, Finset.sum_range_succ, Finset.sum_range_zero, Nat.factorial, jet,
    hpath.iteratedDeriv_rate]
  push_cast
  module

theorem continuousAt_jet {k : ℕ} (hk : k ≤ 5) : ContinuousAt (jet path k) 0 := by
  have hcontinuous := hpath.smooth.continuous_iteratedDeriv k (by exact_mod_cast hk)
  exact (hcontinuous.comp continuous_fst).continuousAt

theorem ofOrder_taylor {n : ℕ} (hn : n ≤ 4) : OfOrder (taylorMiss path n) (n + 1) :=
  BeamTransport.ofOrder_taylor (hpath.smooth.of_le (by exact_mod_cast Nat.succ_le_succ hn)).contDiffAt

theorem ofOrder_taylor_rate : OfOrder (taylorMiss (fun t => r.derivative (path t)) 3) 4 := by
  have hderiv : ContDiff ℝ 4 (deriv path) := (contDiff_succ_iff_deriv (n := 4).mp hpath.smooth).2.2
  rw [← hpath.deriv_eq]
  exact BeamTransport.ofOrder_taylor hderiv.contDiffAt

/-- Simpson's rule: the rates at the start, in the middle and at the end give the path in fourth order. -/
theorem ofOrder_simpson : OfOrder (fun z => path (z.1 + z.2) - path z.1
    - (z.2 / 6) • (r.derivative (path z.1) + (4 : ℝ) • r.derivative (path (z.1 + 0.5 * z.2))
      + r.derivative (path (z.1 + z.2)))) 5 := by
  have hpathEnd := hpath.ofOrder_taylor (le_refl 4)
  have hmiddle := hpath.ofOrder_taylor_rate.half.mul_length (2 / 3)
  have hend := hpath.ofOrder_taylor_rate.mul_length (1 / 6)
  refine ((hpathEnd.sub hmiddle).sub hend).congr_left fun z => ?_
  rw [← hpath.jet_one, hpath.rate_middle, hpath.rate_end, path_end path, jet_zero]
  module

/-! ## Rates near the path -/

theorem tendsto_start : Tendsto (fun z : ℝ × ℝ => path z.1) (𝓝 0) (𝓝 (path 0)) :=
  (hpath.smooth.continuous.comp continuous_fst).tendsto 0

theorem ofOrder_middle_sub : OfOrder (fun z => path (z.1 + 0.5 * z.2) - path z.1) 1 :=
  (hpath.ofOrder_taylor (Nat.zero_le 4)).half.congr_left fun _ => taylorMiss_zero path _

theorem ofOrder_end_sub : OfOrder (fun z => path (z.1 + z.2) - path z.1) 1 :=
  (hpath.ofOrder_taylor (Nat.zero_le 4)).congr_left fun _ => taylorMiss_zero path _

theorem contDiffAt_fderiv : ContDiffAt ℝ 1 (fderiv ℝ r.derivative) (path 0) :=
  hpath.smoothRate.fderiv_right (by norm_num)

theorem continuousAt_slope : ContinuousAt (r.slope path) 0 :=
  hpath.contDiffAt_fderiv.continuousAt.tendsto.comp hpath.tendsto_start

section near

variable {point g k : ℝ × ℝ → State ℝ} {n : ℕ} (hpoint : OfOrder (fun z => point z - path z.1) 1)

include hpoint

theorem tendsto_near : Tendsto point (𝓝 0) (𝓝 (path 0)) := by
  simpa using (hpoint.tendsto_zero one_ne_zero).add hpath.tendsto_start

theorem ofOrder_slope_near (hg : OfOrder g n) :
    OfOrder (fun z => fderiv ℝ r.derivative (point z) (g z) - r.slope path z (g z)) (n + 1) := by
  have hslope := OfOrder.map_sub hpath.contDiffAt_fderiv (hpath.tendsto_near hpoint) hpath.tendsto_start hpoint
  rw [add_comm]
  exact hslope.apply hg

/-- Close to the path the rate passes an error on by the slope where the step starts. -/
theorem ofOrder_rate_near (hg : OfOrder g n) (hn : 1 ≤ n) :
    OfOrder (fun z => r.derivative (point z + g z) - r.derivative (point z) - r.slope path z (g z))
      (n + 1) := by
  have hrate := (OfOrder.map_add hpath.smoothRate (hpath.tendsto_near hpoint) hg (by omega)).mono
    (Nat.add_le_add_left hn n)
  refine (hrate.add (hpath.ofOrder_slope_near hpoint hg)).congr_left fun z => ?_
  abel

/-- Two errors that nearly cancel do so in the rates as well. -/
theorem ofOrder_rates_near (hg : OfOrder g 2) (hk : OfOrder k 2) (hgk : OfOrder (fun z => g z + k z) 3) :
    OfOrder (fun z => r.derivative (point z + g z) + r.derivative (point z + k z)
      - (2 : ℝ) • r.derivative (point z) - r.slope path z (g z + k z)) 4 := by
  have hnear := hpath.tendsto_near hpoint
  have hrateG := OfOrder.map_add hpath.smoothRate hnear hg two_ne_zero
  have hrateK := OfOrder.map_add hpath.smoothRate hnear hk two_ne_zero
  refine ((hrateG.add hrateK).add (hpath.ofOrder_slope_near hpoint hgk)).congr_left fun z => ?_
  rw [map_add]
  module

end near

theorem ofOrder_slope {g : ℝ × ℝ → State ℝ} {n : ℕ} (hg : OfOrder g n) :
    OfOrder (fun z => r.slope path z (g z)) n := by
  simpa using (OfOrder.of_tendsto hpath.continuousAt_slope.tendsto).apply hg

theorem continuousAt_slope_jet {k : ℕ} (hk : k ≤ 5) :
    ContinuousAt (fun z => r.slope path z (jet path k z)) 0 :=
  hpath.continuousAt_slope.clm_apply (hpath.continuousAt_jet hk)

/-! ## The stages of a step -/

section middle

variable {g : ℝ × ℝ → State ℝ} {c : ℝ} (hg : OfOrder (fun z => g z - (c * z.2 ^ 2) • jet path 2 z) 3)

include hg

theorem miss_small : OfOrder g 2 := by
  have hsecond := OfOrder.term (hpath.continuousAt_jet (k := 2) (by norm_num)) c 2
  refine ((hg.mono (m := 2) (by norm_num)).add hsecond).congr_left fun z => ?_
  exact sub_add_cancel _ _

/-- The rate near the middle of a step, at a point that misses the path by a multiple of its second
derivative. -/
theorem ofOrder_rate_middle : OfOrder (fun z => r.derivative (path (z.1 + 0.5 * z.2) + g z)
    - (jet path 1 z + (1 / 2 * z.2) • jet path 2 z + (1 / 8 * z.2 ^ 2) • jet path 3 z
      + (c * z.2 ^ 2) • r.slope path z (jet path 2 z))) 3 := by
  have hnear := hpath.ofOrder_rate_near hpath.ofOrder_middle_sub (hpath.miss_small hg) one_le_two
  have hslope := hpath.ofOrder_slope hg
  have hfourth := OfOrder.term (hpath.continuousAt_jet (k := 4) (by norm_num)) (1 / 48) 3
  have htaylor := hpath.ofOrder_taylor_rate.half.mono (m := 3) (by norm_num)
  refine (((hnear.add hslope).add hfourth).add htaylor).congr_left fun z => ?_
  rw [hpath.rate_middle, map_sub, map_smul]
  module

end middle

theorem ofOrder_secondMiss : OfOrder (fun z => r.secondMiss path z
    - ((-(1 / 8) * z.2 ^ 2) • jet path 2 z - (1 / 48 * z.2 ^ 3) • jet path 3 z)) 4 := by
  refine (hpath.ofOrder_taylor (n := 3) (by norm_num)).half.neg.congr_left fun z => ?_
  rw [secondMiss, path_middle path, ← hpath.jet_one, jet_zero]
  module

theorem secondMiss_leading :
    OfOrder (fun z => r.secondMiss path z - (-(1 / 8) * z.2 ^ 2) • jet path 2 z) 3 := by
  have hthird := OfOrder.term (hpath.continuousAt_jet (k := 3) (by norm_num)) (1 / 48) 3
  refine ((hpath.ofOrder_secondMiss.mono (m := 3) (by norm_num)).sub hthird).congr_left fun z => ?_
  module

theorem ofOrder_thirdMiss : OfOrder (fun z => r.thirdMiss path z
    - ((1 / 8 * z.2 ^ 2) • jet path 2 z + (1 / 24 * z.2 ^ 3) • jet path 3 z
      - (1 / 16 * z.2 ^ 3) • r.slope path z (jet path 2 z))) 4 := by
  have hrate := (hpath.ofOrder_rate_middle hpath.secondMiss_leading).mul_length 0.5
  refine (hpath.ofOrder_secondMiss.add hrate).congr_left fun z => ?_
  rw [← secondRate_eq, thirdMiss, secondMiss, ← hpath.jet_one]
  module

theorem thirdMiss_leading :
    OfOrder (fun z => r.thirdMiss path z - (1 / 8 * z.2 ^ 2) • jet path 2 z) 3 := by
  have hthird := OfOrder.term (hpath.continuousAt_jet (k := 3) (by norm_num)) (1 / 24) 3
  have hslope := OfOrder.term (hpath.continuousAt_slope_jet (k := 2) (by norm_num)) (1 / 16) 3
  have hmiss := hpath.ofOrder_thirdMiss.mono (m := 3) (by norm_num)
  refine ((hmiss.add hthird).sub hslope).congr_left fun z => ?_
  module

theorem ofOrder_fourthMiss : OfOrder (fun z => r.fourthMiss path z
    - ((1 / 8 * z.2 ^ 3) • r.slope path z (jet path 2 z) - (1 / 24 * z.2 ^ 3) • jet path 3 z)) 4 := by
  have hrate := (hpath.ofOrder_rate_middle hpath.thirdMiss_leading).mul_length 1
  have hfourth := OfOrder.term (hpath.continuousAt_jet (k := 4) (by norm_num)) (1 / 24) 4
  have htaylor := (hpath.ofOrder_taylor (le_refl 4)).mono (m := 4) (by norm_num)
  refine ((hrate.sub hfourth).sub htaylor).congr_left fun z => ?_
  rw [← thirdRate_eq, fourthMiss, path_end path, jet_zero]
  module

theorem fourthMiss_small : OfOrder (r.fourthMiss path) 3 := by
  have hthird := OfOrder.term (hpath.continuousAt_jet (k := 3) (by norm_num)) (1 / 24) 3
  have hslope := OfOrder.term (hpath.continuousAt_slope_jet (k := 2) (by norm_num)) (1 / 8) 3
  have hmiss := hpath.ofOrder_fourthMiss.mono (m := 3) (by norm_num)
  refine ((hmiss.sub hthird).add hslope).congr_left fun z => ?_
  module

/-- The misses of the stages nearly cancel, weighted as the step weights the rates. -/
theorem ofOrder_misses : OfOrder (fun z =>
    (2 : ℝ) • (r.secondMiss path z + r.thirdMiss path z) + r.fourthMiss path z) 4 := by
  have hmiddle := (hpath.ofOrder_secondMiss.add hpath.ofOrder_thirdMiss).const_smul 2
  refine (hmiddle.add hpath.ofOrder_fourthMiss).congr_left fun z => ?_
  module

theorem ofOrder_misses_middle :
    OfOrder (fun z => r.secondMiss path z + r.thirdMiss path z) 3 := by
  refine (hpath.secondMiss_leading.add hpath.thirdMiss_leading).congr_left fun z => ?_
  module

/-- The weighted rates of the stages are those of Simpson's rule. -/
theorem ofOrder_rates : OfOrder (fun z => (2 : ℝ) • r.secondRate (path z.1) z.2
    + (2 : ℝ) • r.thirdRate (path z.1) z.2 + r.fourthRate (path z.1) z.2
    - ((4 : ℝ) • r.derivative (path (z.1 + 0.5 * z.2)) + r.derivative (path (z.1 + z.2)))) 4 := by
  have hsecond := hpath.miss_small hpath.secondMiss_leading
  have hthird := hpath.miss_small hpath.thirdMiss_leading
  have hmiddle := (hpath.ofOrder_rates_near hpath.ofOrder_middle_sub hsecond hthird
    hpath.ofOrder_misses_middle).const_smul 2
  have hend := hpath.ofOrder_rate_near hpath.ofOrder_end_sub hpath.fourthMiss_small (by norm_num)
  have hslope := hpath.ofOrder_slope hpath.ofOrder_misses
  refine ((hmiddle.add hend).add hslope).congr_left fun z => ?_
  rw [← secondRate_eq, ← thirdRate_eq, ← fourthRate_eq]
  simp only [map_add, map_smul]
  module

/-- A step along a path misses it in fifth order. -/
theorem ofOrder_singleStep : OfOrder (fun z =>
    r.singleStep (path z.1) (r.derivative (path z.1)) z.2 - path (z.1 + z.2)) 5 := by
  have hrates := hpath.ofOrder_rates.mul_length (1 / 6)
  refine (hrates.sub hpath.ofOrder_simpson).congr_left fun z => ?_
  rw [singleStep_eq]
  module

end SmoothMotion

/-! ## Two half steps -/

section smooth

variable {r y} {n : WithTop ℕ∞} (hrate : ContDiffAt ℝ n r.derivative y)

include hrate

theorem contDiffAt_rates : ContDiffAt ℝ n (fun x : State ℝ × ℝ => r.derivative x.1
    + (2 : ℝ) • r.secondRate x.1 x.2 + (2 : ℝ) • r.thirdRate x.1 x.2 + r.fourthRate x.1 x.2) (y, 0) := by
  -- At length zero every stage is the state itself.
  have hstage {rate : State ℝ × ℝ → State ℝ} {length : State ℝ × ℝ → ℝ}
      (hlength : ContDiffAt ℝ n length (y, 0)) (hzero : length (y, 0) = 0)
      (hr : ContDiffAt ℝ n rate (y, 0)) :
      ContDiffAt ℝ n (fun x => r.derivative (x.1 + length x • rate x)) (y, 0) := by
    refine ContDiffAt.comp (y, 0) ?_ (contDiffAt_fst.add (hlength.smul hr))
    rw [hzero, zero_smul, add_zero]
    exact hrate
  have hhalf : ContDiffAt ℝ n (fun x : State ℝ × ℝ => 0.5 * x.2) (y, 0) := by fun_prop
  have hfirst : ContDiffAt ℝ n (fun x : State ℝ × ℝ => r.derivative x.1) (y, 0) :=
    ContDiffAt.comp (y, 0) hrate contDiffAt_fst
  have hsecond : ContDiffAt ℝ n (fun x : State ℝ × ℝ => r.secondRate x.1 x.2) (y, 0) :=
    hstage hhalf (mul_zero _) hfirst
  have hthird : ContDiffAt ℝ n (fun x : State ℝ × ℝ => r.thirdRate x.1 x.2) (y, 0) :=
    hstage hhalf (mul_zero _) hsecond
  have hfourth : ContDiffAt ℝ n (fun x : State ℝ × ℝ => r.fourthRate x.1 x.2) (y, 0) :=
    hstage contDiffAt_snd rfl hthird
  exact ((hfirst.add (hsecond.const_smul 2)).add (hthird.const_smul 2)).add hfourth

theorem contDiffAt_singleStep :
    ContDiffAt ℝ n (fun x : State ℝ × ℝ => r.singleStep x.1 (r.derivative x.1) x.2) (y, 0) :=
  contDiffAt_fst.add ((contDiffAt_snd.div_const 6).smul (contDiffAt_rates hrate))

end smooth

namespace SmoothMotion

variable {r} {path : ℝ → State ℝ} (hpath : r.SmoothMotion path)

include hpath

/-- Two half steps along a path miss it in fifth order, as one whole step does. -/
theorem ofOrder_halves : OfOrder (fun z =>
    r.singleStep (r.middle (path z.1) z.2) (r.derivative (r.middle (path z.1) z.2)) (0.5 * z.2)
      - path (z.1 + z.2)) 5 := by
  have hsmooth := contDiffAt_singleStep (hpath.smoothRate.of_le one_le_two)
  have hmiddle : Tendsto (fun z : ℝ × ℝ => z.1 + 0.5 * z.2) (𝓝 0) (𝓝 0) := by
    simpa using (by fun_prop : Continuous fun z : ℝ × ℝ => z.1 + 0.5 * z.2).tendsto 0
  have hon : Tendsto (fun z : ℝ × ℝ => (path (z.1 + 0.5 * z.2), 0.5 * z.2)) (𝓝 0) (𝓝 (path 0, 0)) :=
    ((hpath.smooth.continuous.tendsto 0).comp hmiddle).prodMk_nhds tendsto_half
  have hmiss : OfOrder (fun z => (r.middle (path z.1) z.2, 0.5 * z.2)
      - (path (z.1 + 0.5 * z.2), 0.5 * z.2)) 5 := by
    simp only [Prod.mk_sub_mk, sub_self]
    exact IsBigO.prod_left hpath.ofOrder_singleStep.half (isBigO_zero _ _)
  have hoff : Tendsto (fun z : ℝ × ℝ => (r.middle (path z.1) z.2, 0.5 * z.2)) (𝓝 0) (𝓝 (path 0, 0)) := by
    simpa using (hmiss.tendsto_zero (by norm_num)).add hon
  -- The miss of the first half step is passed on by the second, which adds its own.
  have hfirst := OfOrder.map_sub hsmooth hoff hon hmiss
  have hsecond := hpath.ofOrder_singleStep.halfFrom hmiddle
  refine (hfirst.add hsecond).congr_left fun z => ?_
  have hend : z.1 + 0.5 * z.2 + 0.5 * z.2 = z.1 + z.2 := by ring
  rw [hend]
  abel

end SmoothMotion

/-! ## The helix -/

theorem smoothMotion_helix (motion : Motion ℝ) {b : Vec3 ℝ} {y : State ℝ} (hb : Significant b.length)
    (hp : y.momentum ≠ 0)
    (hkappa : motion.curvature b.length y.momentum.length = 0 ∨
      Significant (motion.curvature b.length y.momentum.length)) :
    (RungeKutta.mk motion (.uniform b)).SmoothMotion (motion.helix y b) where
  smooth := contDiff_iff_contDiffAt.mpr fun t => motion.contDiffAt_helix b contDiffAt_const contDiffAt_id
    ((y.momentum.length_pos_iff.mpr hp).ne') fun _ => rfl
  rate t := State.hasDeriv_iff.mp ⟨Motion.hasDeriv_helix_position hb hp hkappa t,
    Motion.hasDeriv_helix_momentum hb hp t⟩
  smoothRate := by
    rw [motion.helix_zero]
    exact motion.contDiffAt_derivative contDiffAt_const hp

/-- A Runge-Kutta step through a uniform field agrees with the helix to fourth order: over a short length
the single step, and the two half steps that make up a whole one, miss the helix in fifth order, and so
the estimated error is of fifth order too. -/
theorem helix_to_fourth_order (motion : Motion ℝ) (b : Vec3 ℝ) (y : State ℝ) (hb : Significant b.length)
    (hp : y.momentum ≠ 0)
    (hkappa : motion.curvature b.length y.momentum.length = 0 ∨
      Significant (motion.curvature b.length y.momentum.length)) :
    let r : RungeKutta ℝ := ⟨motion, .uniform b⟩
    State.HasOrder (fun h => r.singleStep y (r.derivative y) h - motion.helix y b h) 5 ∧
      State.HasOrder (fun h => ((Integrator.rungeKutta r).step y h).out - motion.helix y b h) 5 ∧
      State.HasOrder (fun h => ((Integrator.rungeKutta r).step y h).error) 5 := by
  intro r
  have hmotion := smoothMotion_helix motion hb hp hkappa
  have hsingle := hmotion.ofOrder_singleStep.fromStart
  have hhalves := hmotion.ofOrder_halves.fromStart
  simp only [motion.helix_zero, zero_add] at hsingle hhalves
  refine ⟨State.hasOrder_of_isBigO hsingle, State.hasOrder_of_isBigO ?_, State.hasOrder_of_isBigO ?_⟩
  · refine hhalves.congr_left fun h => ?_
    rw [step_out]
  · refine (hhalves.sub hsingle).congr_left fun h => ?_
    rw [step_error, step_out]
    abel

/-- A double charge, in a field and with a momentum that are askew to each other and to the axes. -/
theorem helix_to_fourth_order_askew :
    let motion : Motion ℝ := ⟨2⟩
    let b : Vec3 ℝ := ⟨20, -10, 20⟩
    let y : State ℝ := ⟨⟨1, -2, 3⟩, ⟨-6, 3, 2⟩⟩
    Significant b.length ∧ y.momentum ≠ 0 ∧
      Significant (motion.curvature b.length y.momentum.length) ∧
      let r : RungeKutta ℝ := ⟨motion, .uniform b⟩
      State.HasOrder (fun h => r.singleStep y (r.derivative y) h - motion.helix y b h) 5 ∧
      State.HasOrder (fun h => ((Integrator.rungeKutta r).step y h).out - motion.helix y b h) 5 ∧
      State.HasOrder (fun h => ((Integrator.rungeKutta r).step y h).error) 5 := by
  intro motion b y
  have hb : b.length = 30 := Vec3.length_of_dot_self (by norm_num) (by norm_num [b, Vec3.dot])
  have hp : y.momentum.length = 7 :=
    Vec3.length_of_dot_self (by norm_num) (by norm_num [y, Vec3.dot])
  have hbent : Significant b.length := significant_of_one_le (by norm_num [hb])
  have hmoving : y.momentum ≠ 0 := by
    rw [← Vec3.length_pos_iff, hp]
    norm_num
  have hkappa : Significant (motion.curvature b.length y.momentum.length) := by
    rw [hb, hp, Motion.curvature, Motion.coupling, speedOfLight]
    exact significant_of_one_le (by norm_num [motion])
  exact ⟨hbent, hmoving, hkappa, helix_to_fourth_order motion b y hbent hmoving (Or.inr hkappa)⟩

end BeamTransport.RungeKutta
