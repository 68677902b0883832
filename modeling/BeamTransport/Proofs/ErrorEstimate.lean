import BeamTransport.Proofs.Order
import BeamTransport.Proofs.Reversal
import BeamTransport.Proofs.Smoothness

/-!
# The error estimate of a bend is of third order

The estimate is the difference between two half steps and a whole one. Over the lengths of two steps, one
after the other, where they lead varies smoothly; a step over no length leads nowhere, so a first step alone
leads where a second one alone does; and a step back undoes a step. These symmetries make the second
derivatives agree along the ways to the two half steps and to the whole one
(`Composed.curvature_halves`), so nothing of first or second order is left of the difference
(`Composed.isBigO_halves`).
-/

open Asymptotics Filter Topology

namespace BeamTransport

variable {E : Type*} [NormedAddCommGroup E] [NormedSpace ℝ E]

/-! ## Along a line of lengths -/

theorem hasDerivAt_line {f : ℝ × ℝ → E} {v : ℝ × ℝ} {h : ℝ} (hf : DifferentiableAt ℝ f (h • v)) :
    HasDerivAt (fun h : ℝ => f (h • v)) (fderiv ℝ f (h • v) v) h := by
  have hline : HasDerivAt (fun h : ℝ => h • v) v h := by
    simpa using (hasDerivAt_id h).smul_const v
  exact hf.hasFDerivAt.comp_hasDerivAt h hline

theorem hasDerivAt_line_start {f : ℝ × ℝ → E} (hf : DifferentiableAt ℝ f 0) (v : ℝ × ℝ) :
    HasDerivAt (fun h : ℝ => f (h • v)) (fderiv ℝ f 0 v) 0 := by
  simpa using hasDerivAt_line (f := f) (v := v) (h := 0) (by rwa [zero_smul])

section line

variable {f : ℝ × ℝ → E}

theorem eventually_hasDerivAt_line (hf : ContDiffAt ℝ 3 f 0) (v : ℝ × ℝ) :
    ∀ᶠ h in 𝓝 (0 : ℝ), HasDerivAt (fun h => f (h • v)) (fderiv ℝ f (h • v) v) h := by
  have hline : Tendsto (fun h : ℝ => h • v) (𝓝 0) (𝓝 0) := by
    simpa using (by fun_prop : Continuous fun h : ℝ => h • v).tendsto 0
  filter_upwards [hline.eventually (hf.eventually (by decide))] with h hh
  exact hasDerivAt_line (hh.differentiableAt (by decide))

theorem deriv_line (hf : ContDiffAt ℝ 3 f 0) (v : ℝ × ℝ) :
    deriv (fun h : ℝ => f (h • v)) 0 = fderiv ℝ f 0 v :=
  (hasDerivAt_line_start (hf.differentiableAt (by decide)) v).deriv

theorem deriv_deriv_line (hf : ContDiffAt ℝ 3 f 0) (v : ℝ × ℝ) :
    deriv (deriv fun h : ℝ => f (h • v)) 0 = fderiv ℝ (fderiv ℝ f) 0 v v := by
  have hfderiv : ContDiffAt ℝ 2 (fderiv ℝ f) 0 := hf.fderiv_right (by norm_num)
  have hslope := hasDerivAt_line_start (hfderiv.differentiableAt (by decide)) v
  have hrate : HasDerivAt (fun h : ℝ => fderiv ℝ f (h • v) v) (fderiv ℝ (fderiv ℝ f) 0 v v) 0 := by
    simpa using hslope.clm_apply (hasDerivAt_const 0 v)
  have hnear : deriv (fun h : ℝ => f (h • v)) =ᶠ[𝓝 0] fun h => fderiv ℝ f (h • v) v :=
    (eventually_hasDerivAt_line hf v).mono fun h hh => hh.deriv
  rw [hnear.deriv_eq]
  exact hrate.deriv

/-- Along a line, the second-order polynomial of the derivatives at its start. -/
theorem isBigO_line (hf : ContDiffAt ℝ 3 f 0) (v : ℝ × ℝ) :
    (fun h : ℝ => f (h • v)
      - (f 0 + h • fderiv ℝ f 0 v + (1 / 2 * h ^ 2) • fderiv ℝ (fderiv ℝ f) 0 v v)) =O[𝓝 0]
        fun h => h ^ 3 := by
  have hline : ContDiffAt ℝ ((2 : ℕ) + 1) (fun h : ℝ => f (h • v)) 0 := by
    refine ContDiffAt.comp 0 ?_ (by fun_prop)
    rw [zero_smul]
    exact hf.of_le (by norm_num)
  refine (ofOrder_taylor hline).fromStart.congr_left fun h => ?_
  simp only [taylorMiss_eq, Finset.sum_range_succ, Finset.sum_range_zero, Nat.factorial, zero_add,
    iteratedDeriv_zero, iteratedDeriv_one, iteratedDeriv_succ (n := 1), deriv_line hf, deriv_deriv_line hf,
    zero_smul]
  push_cast
  module

end line

/-! ## One step after another -/

/-- Where a smooth transport leads over one length after another: over the second length alone as over the
first one alone, and back to the start over opposite ones. -/
structure Composed (f : ℝ × ℝ → E) : Prop where
  smooth : ContDiffAt ℝ 3 f 0
  alone (h : ℝ) : f (h, 0) = f (0, h)
  back (h : ℝ) : f (-h, h) = f 0

namespace Composed

variable {f : ℝ × ℝ → E} (hf : Composed f)

include hf

theorem line_alone : (fun h : ℝ => f (h • (1, 0))) = fun h : ℝ => f (h • (0, 1)) := by
  funext h
  simpa using hf.alone h

theorem slope_alone : fderiv ℝ f 0 (1, 0) = fderiv ℝ f 0 (0, 1) := by
  rw [← deriv_line hf.smooth, ← deriv_line hf.smooth, hf.line_alone]

theorem curvature_alone :
    fderiv ℝ (fderiv ℝ f) 0 (1, 0) (1, 0) = fderiv ℝ (fderiv ℝ f) 0 (0, 1) (0, 1) := by
  rw [← deriv_deriv_line hf.smooth, ← deriv_deriv_line hf.smooth, hf.line_alone]

theorem curvature_back : fderiv ℝ (fderiv ℝ f) 0 (-1, 1) (-1, 1) = 0 := by
  have hsame : (fun h : ℝ => f (h • (-1, 1))) = fun _ => f 0 := by
    funext h
    simpa using hf.back h
  rw [← deriv_deriv_line hf.smooth, hsame]
  simp

theorem slope_halves : fderiv ℝ f 0 (0.5, 0.5) = fderiv ℝ f 0 (1, 0) := by
  have hsplit : ((0.5, 0.5) : ℝ × ℝ) = (0.5 : ℝ) • ((1, 0) + (0, 1)) := by simp
  rw [hsplit, map_smul, map_add, ← hf.slope_alone]
  module

/-- The mixed derivatives are as large as the others, since a step back undoes a step. -/
theorem curvature_halves :
    fderiv ℝ (fderiv ℝ f) 0 (0.5, 0.5) (0.5, 0.5) = fderiv ℝ (fderiv ℝ f) 0 (1, 0) (1, 0) := by
  have halone := hf.curvature_alone
  have hback := hf.curvature_back
  have hsplit : ((0.5, 0.5) : ℝ × ℝ) = (0.5 : ℝ) • ((1, 0) + (0, 1)) := by simp
  have hopposite : ((-1, 1) : ℝ × ℝ) = (0, 1) - (1, 0) := by simp
  rw [hopposite] at hback
  rw [hsplit]
  simp only [map_smul, map_add, map_sub, smul_apply, add_apply, sub_apply, ← halone] at hback ⊢
  set along := fderiv ℝ (fderiv ℝ f) 0 (1, 0) (1, 0)
  set mixed := fderiv ℝ (fderiv ℝ f) 0 (1, 0) (0, 1)
  set mixed' := fderiv ℝ (fderiv ℝ f) 0 (0, 1) (1, 0)
  have hmixed : mixed + mixed' = (2 : ℝ) • along := by
    rw [← sub_eq_zero, ← neg_eq_zero, ← hback]
    module
  calc
    _ = (0.25 : ℝ) • ((2 : ℝ) • along + (mixed + mixed')) := by module
    _ = along := by
      rw [hmixed]
      module

/-- Two half steps and a whole one differ in third order. -/
theorem isBigO_halves : (fun h : ℝ => f (0.5 * h, 0.5 * h) - f (0, h)) =O[𝓝 0] fun h => h ^ 3 := by
  have hdifference := (isBigO_line hf.smooth (0.5, 0.5)).sub (isBigO_line hf.smooth (1, 0))
  refine hdifference.congr_left fun h => ?_
  have hhalves : h • ((0.5, 0.5) : ℝ × ℝ) = (0.5 * h, 0.5 * h) := by
    simp [mul_comm]
  have hwhole : h • ((1, 0) : ℝ × ℝ) = (h, 0) := by simp
  rw [hhalves, hwhole, hf.alone, hf.slope_halves, hf.curvature_halves, sub_sub_sub_cancel_right]

end Composed

/-! ## Steps of a bend -/

namespace Dipole

variable (d : Dipole ℝ) {y : State ℝ}

theorem composed_advance (hp : y.momentum ≠ 0)
    (hcentre : Significant d.gradient → ¬ d.frame.AtCentre y.position)
    (hlimit : (d.gradientField y.position).length ≠ Scalar.resolution) :
    Composed fun z => d.advance (d.advance y z.2) z.1 where
  smooth := by
    have hlength := (Vec3.length_pos_iff _).mpr hp |>.ne'
    have hfirst := d.contDiffAt_advance (n := 3) (e := (0 : ℝ × ℝ)) (contDiffAt_const (c := y))
      contDiffAt_snd rfl hlength (fun _ => rfl) hcentre hlimit
    refine d.contDiffAt_advance hfirst contDiffAt_fst rfl hlength (fun _ => d.length_advance _ _) ?_ ?_
    · simpa [d.advance_zero] using hcentre
    · simpa [d.advance_zero] using hlimit
  alone h := by
    simp only [d.advance_zero]
  back h := by
    simp only [d.advance_neg_advance, d.advance_zero, Prod.fst_zero, Prod.snd_zero]

/-- Far off the orbit the field of a gradient is strong. -/
theorem length_gradientField_far_off :
    ((⟨⟨-1⟩, -3, 2, 1, 1, ⟨1⟩⟩ : Dipole ℝ).gradientField ⟨3, -4, 0⟩).length = 10 := by
  refine Vec3.length_of_dot_self (by norm_num) ?_
  rw [gradientField, if_pos (significant_of_one_le (by norm_num)),
    FieldMap.orbitGradient_start _ _ (by norm_num)]
  norm_num [Vec3.dot]

end Dipole

namespace Integrator

/-- The error estimate of a bend, whatever its field, its gradient and the charge, is of third order in the
length of the step: at every state of a moving particle off the centre of the orbit where the field of
the gradient is not just at the limit. -/
theorem dipole_error_of_third_order (d : Dipole ℝ) (y dydx : State ℝ) (hp : y.momentum ≠ 0)
    (hcentre : ¬ d.frame.AtCentre y.position)
    (hlimit : (d.gradientField y.position).length ≠ Scalar.resolution) :
    State.HasOrder (fun h => ((dipole d).stepWith y dydx h).error) 3 := by
  have hhalves := (d.composed_advance hp (fun _ => hcentre) hlimit).isBigO_halves
  refine State.hasOrder_of_isBigO ?_
  by_cases hzero : d.isZero = true
  · have herror (h : ℝ) : ((dipole d).stepWith y dydx h).error = 0 := by
      rw [stepWith, Dipole.step, if_pos hzero, Step.exact]
    simp only [herror]
    exact isBigO_zero _ _
  · refine hhalves.congr_left fun h => ?_
    simp only [d.advance_zero, stepWith, Dipole.step, if_neg hzero, Step.comparing]

/-- A particle far off the orbit of a bend with a gradient, where the field of the gradient is strong and
askew. -/
theorem dipole_error_of_third_order_far_off :
    let d : Dipole ℝ := ⟨⟨-1⟩, -3, 2, 1, 1, ⟨1⟩⟩
    let y : State ℝ := ⟨⟨3, -4, 0⟩, ⟨1, -2, 2⟩⟩
    y.momentum ≠ 0 ∧ ¬ d.frame.AtCentre y.position ∧
      (d.gradientField y.position).length ≠ Scalar.resolution ∧
      State.HasOrder (fun h => ((dipole d).stepWith y 0 h).error) 3 := by
  intro d y
  have hmoving : y.momentum ≠ 0 := fun hrest => by
    simpa [y] using congrArg Vec3.x hrest
  have hcentre : ¬ d.frame.AtCentre y.position := by
    rintro ⟨-, hx, -⟩
    norm_num [d, y] at hx
  have hlength : (d.gradientField y.position).length = 10 := Dipole.length_gradientField_far_off
  have hlimit : (d.gradientField y.position).length ≠ Scalar.resolution := by
    rw [hlength, Scalar.resolution]
    norm_num
  exact ⟨hmoving, hcentre, hlimit, dipole_error_of_third_order d y 0 hmoving hcentre hlimit⟩

end Integrator

end BeamTransport
