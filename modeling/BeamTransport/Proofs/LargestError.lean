import BeamTransport.Proofs.Double
import BeamTransport.Reference
import BeamTransport.Tracking

/-!
# What the largest component of a state hides

The largest magnitude among the components of a state passes over those that are no numbers, while a bound on
each component is broken by them. So the two agree on the states whose components are all numbers, and on no
others (`State.maxAbs_bounds_iff`). This is so for the reported error of a step, which need not show that the
step has diverged, and for the comparison of two states (`largest_error_hides_what_is_no_number`).
-/

namespace BeamTransport

namespace State

/-- Every component is within a bound. -/
def Within (y : State Float) (bound : Float) : Prop := ∀ c ∈ y.components, c.abs ≤ bound

/-- Every component is a number, though it may be infinite. -/
def IsNumeric (y : State Float) : Prop := ∀ c ∈ y.components, c.isNaN = false

instance (y : State Float) (bound : Float) : Decidable (y.Within bound) :=
  inferInstanceAs (Decidable (∀ c ∈ y.components, _))

instance (y : State Float) : Decidable y.IsNumeric :=
  inferInstanceAs (Decidable (∀ c ∈ y.components, _))

/-- The largest magnitude found so far and that of a further list are within a bound if all numbers are. -/
theorem foldl_max_le_iff (components : List Float) {largest : Float} (hlargest : largest.isNaN = false)
    (bound : Float) :
    components.foldl (fun largest c => Scalar.max largest (Scalar.abs c)) largest ≤ bound ↔
      largest ≤ bound ∧ ∀ c ∈ components, c.isNaN = true ∨ c.abs ≤ bound := by
  induction components generalizing largest with
  | nil => simp
  | cons c components ih =>
    rw [List.foldl_cons, ih (Double.isNaN_max hlargest _), Double.max_le_iff hlargest, and_assoc,
      List.forall_mem_cons, Double.scalar_abs, Double.isNaN_abs_eq]

variable {y : State Float} {bound : Float}

theorem maxAbs_le_iff (hbound : 0.0 ≤ bound) :
    y.maxAbs ≤ bound ↔ ∀ c ∈ y.components, c.isNaN = true ∨ c.abs ≤ bound :=
  (foldl_max_le_iff y.components (by decide +kernel) bound).trans (and_iff_right hbound)

theorem isNumeric_of_within (hwithin : y.Within bound) : y.IsNumeric := fun c hc => by
  rw [← Double.isNaN_abs_eq c]
  exact (Double.isNaN_of_le (hwithin c hc)).1

theorem maxAbs_le_iff_within (hnumeric : y.IsNumeric) (hbound : 0.0 ≤ bound) :
    y.maxAbs ≤ bound ↔ y.Within bound := by
  rw [maxAbs_le_iff hbound]
  refine forall₂_congr fun c hc => ?_
  rw [hnumeric c hc]
  simp

theorem maxAbs_le_infinity (y : State Float) : y.maxAbs ≤ Double.infinity := by
  refine (maxAbs_le_iff (by decide +kernel)).mpr fun c _ => ?_
  cases hc : c.isNaN with
  | true => exact Or.inl rfl
  | false => exact Or.inr (Double.le_infinity (Double.isNaN_abs hc))

/-- The largest component bounds all of them exactly if they are all numbers. -/
theorem maxAbs_bounds_iff (y : State Float) :
    (∀ bound, 0.0 ≤ bound → (y.maxAbs ≤ bound ↔ y.Within bound)) ↔ y.IsNumeric := by
  refine ⟨fun hbounds => ?_, fun hnumeric bound hbound => maxAbs_le_iff_within hnumeric hbound⟩
  exact isNumeric_of_within ((hbounds Double.infinity (by decide +kernel)).mp y.maxAbs_le_infinity)

end State

/-- Two states agree within one tolerance for all components if their difference is within it. -/
theorem Reference.closeState_iff (a b : State Float) (tolerance : Float) :
    closeState a b tolerance tolerance = true ↔ (a - b).Within tolerance := by
  simp [closeState, close, State.Within, State.components, Double.scalar_abs, and_assoc]

/-- The reported error of a step is within a tolerance if all components of the estimate are that are numbers,
so it stands for all components of exactly those estimates that hold nothing else; and so does the largest
difference of two states, against a comparison by components, of their difference. -/
theorem largest_error_hides_what_is_no_number (step : Step Float) (a b : State Float) :
    ((∀ tolerance, 0.0 ≤ tolerance → (step.maxError ≤ tolerance ↔
        ∀ c ∈ step.error.components, c.isNaN = true ∨ c.abs ≤ tolerance)) ∧
      ((∀ tolerance, 0.0 ≤ tolerance →
        (step.maxError ≤ tolerance ↔ ∀ c ∈ step.error.components, c.abs ≤ tolerance)) ↔
          ∀ c ∈ step.error.components, c.isNaN = false)) ∧
    (∀ tolerance, 0.0 ≤ tolerance → (Reference.maxDifference a b ≤ tolerance ↔
        ∀ c ∈ (a - b).components, c.isNaN = true ∨ c.abs ≤ tolerance)) ∧
      ((∀ tolerance, 0.0 ≤ tolerance → (Reference.maxDifference a b ≤ tolerance ↔
        Reference.closeState a b tolerance tolerance = true)) ↔
          ∀ c ∈ (a - b).components, c.isNaN = false) := by
  simp only [Reference.closeState_iff]
  exact ⟨⟨fun _ => State.maxAbs_le_iff, step.error.maxAbs_bounds_iff⟩, fun _ => State.maxAbs_le_iff,
    (a - b).maxAbs_bounds_iff⟩

/-- A step whose estimate holds the smallest double and an infinite one, one that has lost a component, and
two states equally far beyond all numbers. -/
theorem largest_error_hides_what_is_no_number_far :
    let infinite : Step Float := ⟨0, ⟨⟨-Double.infinity, 5e-324, -0.0⟩, 0⟩⟩
    let blind : Step Float := ⟨0, ⟨⟨Double.notANumber, 5e-324, -2.0⟩, 0⟩⟩
    let far : State Float := ⟨⟨Double.infinity, 0, 0⟩, 0⟩
    0.0 ≤ (2.0 : Float) ∧ 0.0 ≤ Double.infinity ∧
      ¬ infinite.maxError ≤ 2.0 ∧ infinite.maxError ≤ Double.infinity ∧
      blind.maxError ≤ 2.0 ∧
      (¬ ∀ tolerance, 0.0 ≤ tolerance →
        (blind.maxError ≤ tolerance ↔ ∀ c ∈ blind.error.components, c.abs ≤ tolerance)) ∧
      Reference.maxDifference far far ≤ 0.0 ∧
      ¬ ∀ tolerance, 0.0 ≤ tolerance → (Reference.maxDifference far far ≤ tolerance ↔
        Reference.closeState far far tolerance tolerance = true) := by
  intro infinite blind far
  have htwo : 0.0 ≤ (2.0 : Float) := by decide +kernel
  have htop : 0.0 ≤ Double.infinity := by decide +kernel
  obtain ⟨⟨hinfinite, -⟩, -⟩ := largest_error_hides_what_is_no_number infinite far far
  obtain ⟨⟨hblind, hblindAll⟩, hfar, hfarAll⟩ := largest_error_hides_what_is_no_number blind far far
  refine ⟨htwo, htop, mt (hinfinite 2.0 htwo).mp ?_, (hinfinite _ htop).mpr ?_, (hblind 2.0 htwo).mpr ?_,
    mt hblindAll.mp ?_, (hfar 0.0 ?_).mpr ?_, mt hfarAll.mp ?_⟩
  all_goals decide +kernel

/-- A particle far from the axis of an extremely strong lens: its momentum is lost in a step that reports an
error below an eighth, and a step from where it ends reports none. -/
theorem diverged_step_reports_small_error :
    let lens : Integrator Float := .rungeKutta ⟨⟨1⟩, .quadrupole 1e308⟩
    let step := lens.step ⟨⟨10, 10, 0⟩, ⟨0, 0, 1⟩⟩ 1
    let next := lens.step step.out 1
    0.0 ≤ (0.125 : Float) ∧ step.maxError ≤ 0.125 ∧ (¬ ∀ c ∈ step.error.components, c.abs ≤ 0.125) ∧
      next.maxError ≤ 0.0 ∧ (¬ ∀ c ∈ next.error.components, c.abs ≤ 0.0) ∧
      Reference.maxDifference step.out step.out ≤ 0.125 ∧
      Reference.closeState step.out step.out 0.125 0.125 = false := by
  decide +kernel

end BeamTransport
