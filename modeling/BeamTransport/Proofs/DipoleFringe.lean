import BeamTransport.Integrator.DipoleFringe
import BeamTransport.Proofs.Frame

/-!
# Edge kicks without effects

The kick and the step of an edge over a known thin length, as plain case distinctions, and the step that
asks for the length in terms of the one that knows it (`stepM_eq`).
-/

namespace BeamTransport.DipoleFringe

section steps

variable {α : Type} [Scalar α] (edge : DipoleFringe α) (state : State α) (h : α)

theorem step_of_significant (hfield : Significant edge.body.field) :
    edge.step state h = edge.body.step (edge.kick state h) h := by
  rw [step, stepM, if_pos hfield]
  rfl

theorem step_of_not_significant (hfield : ¬ Significant edge.body.field) :
    edge.step state h = .exact (state.drift h) := by
  rw [step, stepM, if_neg hfield]
  rfl

/-- Whether an edge gives no kick to a particle, because it is at rest or moves backward. -/
def spares : Bool :=
  state.momentum.length == 0 || (edge.body.frame.ofLocal state).ps ≤ 0

/-- Whether a step kicks: an edge with a field does, unless it spares the particle. -/
def Kicks : Prop := Significant edge.body.field ∧ ¬ edge.spares state

instance : Decidable (edge.Kicks state) := inferInstanceAs (Decidable (_ ∧ _))

theorem kick_of_spares (hspares : edge.spares state) : edge.kick state h = state :=
  congrArg Id.run (if_pos hspares)

theorem kick_of_not_spares (hspares : ¬ edge.spares state) :
    edge.kick state h =
      ⟨state.position, (edge.body.frame.toLocal (edge.kicked (edge.body.frame.ofLocal state)
        state.momentum.length (kickFraction edge.thin.value h))).momentum⟩ :=
  congrArg Id.run (if_neg hspares)

variable {m : Type → Type} [Monad m] (askThin : m α)

theorem kickM_of_spares (hspares : edge.spares state) :
    edge.kickM askThin state h = pure (edge.kick state h) := by
  rw [kick_of_spares edge state h hspares]
  exact if_pos hspares

theorem kickM_of_not_spares (hspares : ¬ edge.spares state) :
    edge.kickM askThin state h = do return { edge with thin := .fixed (← askThin) }.kick state h := by
  simp only [fun thin => kick_of_not_spares { edge with thin := .fixed thin } state h hspares]
  exact if_neg hspares

variable [LawfulMonad m]

/-- A step that kicks asks for the thin length, once; any other step does without. -/
theorem stepM_eq : edge.stepM askThin state h =
    if edge.Kicks state then do return { edge with thin := .fixed (← askThin) }.step state h
    else pure (edge.step state h) := by
  by_cases hfield : Significant edge.body.field
  · rw [stepM, if_pos hfield, step_of_significant edge state h hfield]
    by_cases hspares : edge.spares state
    · have hkicks : ¬ edge.Kicks state := fun hkicks => hkicks.2 hspares
      rw [if_neg hkicks, kickM_of_spares edge state h askThin hspares, pure_bind]
    · have hkicks : edge.Kicks state := ⟨hfield, hspares⟩
      rw [if_pos hkicks, kickM_of_not_spares edge state h askThin hspares, bind_assoc]
      refine bind_congr fun thin => ?_
      rw [pure_bind, step_of_significant { edge with thin := .fixed thin } state h hfield]
  · have hkicks : ¬ edge.Kicks state := fun hkicks => hfield hkicks.1
    rw [if_neg hkicks, stepM, if_neg hfield, step_of_not_significant edge state h hfield]

end steps

section reals

variable (edge : DipoleFringe ℝ) (state : State ℝ) (h : ℝ)

theorem spares_iff :
    edge.spares state ↔ state.momentum = 0 ∨ (edge.body.frame.ofLocal state).ps ≤ 0 := by
  rw [spares, Bool.or_eq_true, beq_iff_eq, decide_eq_true_iff, Vec3.length_eq_zero_iff]

theorem kick_of_not_forward
    (hstate : state.momentum = 0 ∨ (edge.body.frame.ofLocal state).ps ≤ 0) :
    edge.kick state h = state :=
  edge.kick_of_spares state h ((edge.spares_iff state).mpr hstate)

/-- A particle moving forward keeps its position and takes the momentum of the kicked coordinates. -/
theorem kick_of_forward (hmoving : state.momentum ≠ 0)
    (hforward : 0 < (edge.body.frame.ofLocal state).ps) :
    edge.kick state h =
      ⟨state.position, (edge.body.frame.toLocal (edge.kicked (edge.body.frame.ofLocal state)
        state.momentum.length (kickFraction edge.thin.value h))).momentum⟩ := by
  refine edge.kick_of_not_spares state h fun hspares => ?_
  exact ((edge.spares_iff state).mp hspares).elim hmoving hforward.not_ge

end reals

end BeamTransport.DipoleFringe
