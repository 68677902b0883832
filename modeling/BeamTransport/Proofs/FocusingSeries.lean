import BeamTransport.Proofs.LinearMotion

/-!
# The focusing functions on both sides of their threshold

The focusing functions solve `u'' = source - omega2 u` from given values at the start (`IsSolution`). Their
power series cut after some terms misses them, for phases up to one and either sign of the focusing, by at
most twice the next term (`Focusing.Solves.cosine_misses`): the equation makes the cosine of one term more
out of the dispersion, and what the cosine misses adds up along the way to what the sine and the dispersion
miss. Below the threshold two terms are taken, and above it the closed forms
(`Focusing.accurate_across_threshold`).
-/

open Finset
open scoped Nat

namespace BeamTransport

/-! ## Solutions -/

/-- A function of the distance solves `u'' = source - omega2 u`, with a value and a slope at the start. -/
def IsSolution (omega2 source value slope : ℝ) (u : ℝ → ℝ) : Prop :=
  ∃ u', Oscillates omega2 source u u' ∧ u 0 = value ∧ u' 0 = slope

/-- There is one solution for each value and slope. -/
theorem isSolution_iff {omega2 source value slope : ℝ} {u : ℝ → ℝ} :
    IsSolution omega2 source value slope u ↔ u = fun s =>
      value * (Focusing.closed omega2 s).cosine + slope * (Focusing.closed omega2 s).sine +
        source * (Focusing.closed omega2 s).dispersion := by
  have hclosed := Focusing.solves_closed omega2
  constructor
  · rintro ⟨u', hu, rfl, rfl⟩
    exact funext fun s => (hu.eq_focusing hclosed s).1
  · rintro rfl
    exact ⟨_, hclosed.oscillates source value slope, by simp [hclosed.start], by simp [hclosed.start]⟩

/-! ## Integrals of powers -/

theorem hasDerivAt_power (n : ℕ) (t : ℝ) :
    HasDerivAt (fun t : ℝ => t ^ (n + 1) / (n + 1)!) (t ^ n / n !) t := by
  refine ((hasDerivAt_pow (n + 1) t).div_const _).congr_deriv ?_
  rw [Nat.factorial_succ]
  push_cast
  field_simp

section rate

variable {g rate : ℝ → ℝ} {k r t : ℝ} {n : ℕ} (hg : ∀ t, HasDerivAt g (rate t) t) (hstart : g 0 = 0)
  (hrate : ∀ t, |t| ≤ r → |rate t| ≤ k * (|t| ^ n / n !))

include hg hstart hrate

theorem abs_le_of_rate_of_nonneg (hpos : 0 ≤ t) (ht : t ≤ r) :
    |g t| ≤ k * (t ^ (n + 1) / (n + 1)!) := by
  refine image_norm_le_of_norm_deriv_right_le_deriv_boundary (a := 0) (b := t)
    (fun x _ => (hg x).continuousAt.continuousWithinAt) (fun x _ => (hg x).hasDerivWithinAt)
    (by simp [hstart]) (fun x => (hasDerivAt_power n x).const_mul k) (fun x hx => ?_)
    (Set.right_mem_Icc.mpr hpos)
  have habs : |x| = x := abs_of_nonneg hx.1
  have hbound := hrate x (habs.le.trans (hx.2.le.trans ht))
  rwa [habs] at hbound

/-- What starts at zero is bounded by the integral of a power if its rate is bounded by the power. -/
theorem abs_le_of_rate (ht : |t| ≤ r) : |g t| ≤ k * (|t| ^ (n + 1) / (n + 1)!) := by
  rcases le_total 0 t with hpos | hneg
  · rw [abs_of_nonneg hpos] at ht ⊢
    exact abs_le_of_rate_of_nonneg hg hstart hrate hpos ht
  · have hback (x : ℝ) : HasDerivAt (fun x => g (-x)) (-rate (-x)) x :=
      ((hg (-x)).comp x (hasDerivAt_neg x)).congr_deriv (mul_neg_one _)
    have hrateback (x : ℝ) (hx : |x| ≤ r) : |-rate (-x)| ≤ k * (|x| ^ n / n !) := by
      rw [abs_neg, ← abs_neg x]
      exact hrate (-x) (by rwa [abs_neg])
    rw [abs_of_nonpos hneg] at ht ⊢
    have hbound := abs_le_of_rate_of_nonneg hback (by rwa [neg_zero]) hrateback (neg_nonneg.mpr hneg) ht
    rwa [neg_neg] at hbound

end rate

namespace Focusing

/-! ## Series -/

/-- The power series of the focusing functions after some terms. -/
noncomputable def cut (omega2 : ℝ) (n : ℕ) (s : ℝ) : Focusing ℝ where
  cosine := ∑ j ∈ range n, (-omega2) ^ j * (s ^ (2 * j) / (2 * j)!)
  sine := ∑ j ∈ range n, (-omega2) ^ j * (s ^ (2 * j + 1) / (2 * j + 1)!)
  dispersion := ∑ j ∈ range n, (-omega2) ^ j * (s ^ (2 * j + 2) / (2 * j + 2)!)

variable (omega2 : ℝ) (n : ℕ) (s : ℝ)

/-- The equation gives the next term. -/
theorem cut_cosine_succ : (cut omega2 (n + 1) s).cosine = 1 - omega2 * (cut omega2 n s).dispersion := by
  simp only [cut]
  rw [sum_range_succ', mul_sum, add_comm, sub_eq_add_neg, ← sum_neg_distrib]
  refine congrArg₂ (· + ·) (by simp) (sum_congr rfl fun j _ => ?_)
  rw [pow_succ, mul_add_one]
  ring

theorem cut_sine_start : (cut omega2 n 0).sine = 0 := by simp [cut]

theorem cut_dispersion_start : (cut omega2 n 0).dispersion = 0 := by simp [cut]

theorem hasDerivAt_cut_sine :
    HasDerivAt (fun t => (cut omega2 n t).sine) (cut omega2 n s).cosine s := by
  simp only [cut]
  exact .fun_sum fun j _ => (hasDerivAt_power (2 * j) s).const_mul _

theorem hasDerivAt_cut_dispersion :
    HasDerivAt (fun t => (cut omega2 n t).dispersion) (cut omega2 n s).sine s := by
  simp only [cut]
  exact .fun_sum fun j _ => (hasDerivAt_power (2 * j + 1) s).const_mul _

/-- Below the threshold two terms are taken. -/
theorem series_eq_cut : series (omega2 * s * s) s = cut omega2 2 s := by
  simp only [series, cut, sum_range_succ, sum_range_zero, Nat.factorial]
  norm_num
  refine ⟨?_, ?_, ?_⟩ <;> ring

/-! ## What a cut series misses -/

variable {omega2 n} {f : ℝ → Focusing ℝ} {k r : ℝ} {m : ℕ}

/-- What the cosine misses adds up along the way. -/
theorem Solves.sine_misses (hf : Solves omega2 f)
    (hcosine : ∀ t, |t| ≤ r → |(f t).cosine - (cut omega2 n t).cosine| ≤ k * (|t| ^ m / m !))
    (t : ℝ) (ht : |t| ≤ r) :
    |(f t).sine - (cut omega2 n t).sine| ≤ k * (|t| ^ (m + 1) / (m + 1)!) := by
  have hrate (t : ℝ) : HasDerivAt (fun t => (f t).sine - (cut omega2 n t).sine)
      ((f t).cosine - (cut omega2 n t).cosine) t := (hf.sine t).sub (hasDerivAt_cut_sine omega2 n t)
  have hstart : (f 0).sine - (cut omega2 n 0).sine = 0 := by rw [hf.start, cut_sine_start, sub_zero]
  exact abs_le_of_rate hrate hstart hcosine ht

theorem Solves.dispersion_misses (hf : Solves omega2 f)
    (hcosine : ∀ t, |t| ≤ r → |(f t).cosine - (cut omega2 n t).cosine| ≤ k * (|t| ^ m / m !))
    (t : ℝ) (ht : |t| ≤ r) :
    |(f t).dispersion - (cut omega2 n t).dispersion| ≤ k * (|t| ^ (m + 2) / (m + 2)!) := by
  have hrate (t : ℝ) : HasDerivAt (fun t => (f t).dispersion - (cut omega2 n t).dispersion)
      ((f t).sine - (cut omega2 n t).sine) t := (hf.dispersion t).sub (hasDerivAt_cut_dispersion omega2 n t)
  have hstart : (f 0).dispersion - (cut omega2 n 0).dispersion = 0 := by
    rw [hf.start, cut_dispersion_start, sub_zero]
  exact abs_le_of_rate hrate hstart (hf.sine_misses hcosine) ht

theorem Solves.cosine_misses (hf : Solves omega2 f) (hbound : ∀ t, |t| ≤ r → |(f t).cosine| ≤ 2) (n : ℕ) :
    ∀ t, |t| ≤ r → |(f t).cosine - (cut omega2 n t).cosine| ≤
      2 * |omega2| ^ n * (|t| ^ (2 * n) / (2 * n)!) := by
  -- On the number of terms: what the dispersion misses, times the focusing, the cosine of one term more
  -- misses.
  induction n with
  | zero =>
    intro t ht
    simpa [cut] using hbound t ht
  | succ n ih =>
    intro t ht
    have hdispersion := hf.dispersion_misses ih t ht
    have hmiss : (f t).cosine - (cut omega2 (n + 1) t).cosine =
        -omega2 * ((f t).dispersion - (cut omega2 n t).dispersion) := by
      rw [cut_cosine_succ]
      linear_combination hf.cosine_add t
    calc |(f t).cosine - (cut omega2 (n + 1) t).cosine|
        = |omega2| * |(f t).dispersion - (cut omega2 n t).dispersion| := by rw [hmiss, abs_mul, abs_neg]
      _ ≤ |omega2| * (2 * |omega2| ^ n * (|t| ^ (2 * n + 2) / (2 * n + 2)!)) := by gcongr
      _ = 2 * |omega2| ^ (n + 1) * (|t| ^ (2 * (n + 1)) / (2 * (n + 1)).factorial) := by
        rw [pow_succ, mul_add_one]
        ring

/-! ## The exact functions -/

theorem Solves.cosine_sq_add (hf : Solves omega2 f) (s : ℝ) :
    (f s).cosine ^ 2 + omega2 * (f s).sine ^ 2 = 1 := by
  have hconstant := eq_start_of_hasDerivAt_zero (fun t =>
    (((hf.cosine t).pow 2).add (((hf.sine t).pow 2).const_mul omega2)).congr_deriv (by ring)) s
  simpa [hf.start] using hconstant

/-- A phase up to one leaves the cosine bounded, whatever the sign of the focusing. -/
theorem abs_cosine_closed_le_two {s : ℝ} (hphase : |omega2 * s * s| ≤ 1) :
    |(closed omega2 s).cosine| ≤ 2 := by
  unfold closed
  split_ifs with hfocused hdefocused
  · rw [focused_eq]
    exact (Real.abs_cos_le_one _).trans one_le_two
  · have hsquare : (Real.sqrt (-omega2) * s) ^ 2 ≤ 1 := by
      rw [mul_pow, Real.sq_sqrt (neg_nonneg.mpr hdefocused.le)]
      linarith [neg_abs_le (omega2 * s * s)]
    rw [defocused_eq]
    dsimp only
    rw [abs_of_pos (Real.cosh_pos _)]
    calc Real.cosh (Real.sqrt (-omega2) * s) ≤ Real.exp ((Real.sqrt (-omega2) * s) ^ 2 / 2) :=
          Real.cosh_le_exp_half_sq _
      _ ≤ Real.exp (1 / 2) := by gcongr
      _ ≤ 1 / (1 - 1 / 2) := Real.exp_bound_div_one_sub_of_interval (by norm_num) (by norm_num)
      _ = 2 := by norm_num
  · simp

/-! ## The two terms that are taken -/

theorem series_misses {s : ℝ} (hphase : |omega2 * s * s| ≤ 1) :
    let phase2 := omega2 * s * s
    |(series phase2 s).cosine - (closed omega2 s).cosine| ≤ phase2 ^ 2 / 12 ∧
      |(series phase2 s).sine - (closed omega2 s).sine| ≤ phase2 ^ 2 / 60 * |s| ∧
      |(series phase2 s).dispersion - (closed omega2 s).dispersion| ≤ phase2 ^ 2 / 360 * s ^ 2 := by
  intro phase2
  have hclosed := solves_closed omega2
  have hbound (t : ℝ) (ht : |t| ≤ |s|) : |(closed omega2 t).cosine| ≤ 2 := by
    refine abs_cosine_closed_le_two (le_trans ?_ hphase)
    simp only [abs_mul]
    gcongr
  have hcosine := hclosed.cosine_misses hbound 2
  have hsq : omega2 ^ 2 * |s| ^ 4 = phase2 ^ 2 := by
    rw [Even.pow_abs (by decide)]
    ring
  rw [series_eq_cut, abs_sub_comm, abs_sub_comm _ (closed omega2 s).sine,
    abs_sub_comm _ (closed omega2 s).dispersion]
  refine ⟨(hcosine s le_rfl).trans_eq ?_, (hclosed.sine_misses hcosine s le_rfl).trans_eq ?_,
    (hclosed.dispersion_misses hcosine s le_rfl).trans_eq ?_⟩
  · norm_num [Nat.factorial]
    linear_combination (1 / 12 : ℝ) * hsq
  · norm_num [Nat.factorial]
    linear_combination (1 / 60 : ℝ) * |s| * hsq
  · norm_num [Nat.factorial]
    rw [← sq_abs s]
    linear_combination (1 / 360 : ℝ) * |s| ^ 2 * hsq

theorem series_sq_add (omega2 s : ℝ) :
    let phase2 := omega2 * s * s
    (series phase2 s).cosine ^ 2 + omega2 * (series phase2 s).sine ^ 2 - 1 =
      phase2 ^ 2 * (phase2 / 36 - 1 / 12) := by
  simp only [series]
  ring

theorem series_accurate {s : ℝ} (hshort : |omega2 * s * s| < seriesThreshold) :
    let f := series (omega2 * s * s) s
    |f.cosine - (closed omega2 s).cosine| ≤ 1e-17 ∧ |f.sine - (closed omega2 s).sine| ≤ 1e-17 * |s| ∧
      |f.dispersion - (closed omega2 s).dispersion| ≤ 1e-17 * s ^ 2 ∧
      |f.cosine ^ 2 + omega2 * f.sine ^ 2 - 1| ≤ 1e-16 := by
  have hthreshold : |omega2 * s * s| < 1e-8 := by simpa only [seriesThreshold] using hshort
  have hone : |omega2 * s * s| ≤ 1 := by linarith
  obtain ⟨hcosine, hsine, hdispersion⟩ := series_misses hone
  have hsum := series_sq_add omega2 s
  set phase2 := omega2 * s * s
  have hsq : phase2 ^ 2 ≤ 1e-16 := by
    rw [← sq_abs]
    nlinarith [abs_nonneg phase2]
  have hfactor : |phase2 / 36 - 1 / 12| ≤ 1 := by
    rw [abs_le] at hone ⊢
    constructor <;> linarith
  refine ⟨hcosine.trans (by linarith), hsine.trans ?_, hdispersion.trans ?_, ?_⟩
  · gcongr
    linarith
  · gcongr
    linarith
  · rw [hsum, abs_mul, abs_sq]
    exact (mul_le_of_le_one_right (sq_nonneg phase2) hfactor).trans hsq

/-- The focusing functions are accurate on both sides of their threshold. Where the phase reaches it they are
the solutions themselves, and below it they miss them by bounds that are the same for either sign of the
focusing. -/
theorem accurate_across_threshold (omega2 : ℝ) :
    ∃ cosine sine dispersion : ℝ → ℝ,
      (∀ u, IsSolution omega2 0 1 0 u ↔ u = cosine) ∧
      (∀ u, IsSolution omega2 0 0 1 u ↔ u = sine) ∧
      (∀ u, IsSolution omega2 1 0 0 u ↔ u = dispersion) ∧
      ∀ s,
        let f := after omega2 s
        if seriesThreshold ≤ |omega2 * s ^ 2| then
          f = ⟨cosine s, sine s, dispersion s⟩ ∧
            f.cosine ^ 2 + omega2 * f.sine ^ 2 = 1 ∧ omega2 * f.dispersion = 1 - f.cosine
        else
          |f.cosine - cosine s| ≤ 1e-17 ∧ |f.sine - sine s| ≤ 1e-17 * |s| ∧
            |f.dispersion - dispersion s| ≤ 1e-17 * s ^ 2 ∧
            |f.cosine ^ 2 + omega2 * f.sine ^ 2 - 1| ≤ 1e-16 := by
  refine ⟨fun s => (closed omega2 s).cosine, fun s => (closed omega2 s).sine,
    fun s => (closed omega2 s).dispersion, fun u => ?_, fun u => ?_, fun u => ?_, fun s => ?_⟩
  · simp [isSolution_iff]
  · simp [isSolution_iff]
  · simp [isSolution_iff]
  intro f
  have hclosed := solves_closed omega2
  rw [show omega2 * s ^ 2 = omega2 * s * s by ring]
  split_ifs with hphase
  · have hf : f = closed omega2 s := after_eq_closed (Or.inr hphase)
    rw [hf]
    exact ⟨rfl, hclosed.cosine_sq_add s, by linear_combination hclosed.cosine_add s⟩
  · have hshort : |omega2 * s * s| < seriesThreshold := not_le.mp hphase
    have hf : f = series (omega2 * s * s) s := if_pos hshort
    rw [hf]
    exact series_accurate hshort

end Focusing

end BeamTransport
