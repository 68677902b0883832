import BeamTransport.Magnet
import BeamTransport.Proofs.DipoleFringe

/-!
# A thin length is asked for once, where it is needed

Contexts and edges share the length of thin elements. A use of the shared length answers what the same use
answers without effects over the length as it stands, and it leaves the length as it is, or known where
the use needs it (`Use.run_eq`). As a known length stays known, a sequence of uses asks at most once, for
the first use that needs an answer, and all uses read this answer (`asked_once_where_needed`).
-/

namespace BeamTransport

theorem Magnet.trackedLengthM_eq {α : Type} {m : Type → Type} [Monad m] (askThin : m α)
    (magnet : Magnet α) :
    magnet.trackedLengthM askThin =
      if magnet.kind = .dipoleFringe then askThin else pure magnet.geometry.arcLength := by
  unfold trackedLengthM
  split
  · rename_i hkind
    rw [if_pos hkind]
  · rename_i hkind
    rw [if_neg hkind]

namespace ThinLength

/-! ## Lengths that were asked for -/

section asking

variable {α : Type} (thin : ThinLength α)

/-- The length after some uses, asked for or not. -/
def after (asked : Bool) : ThinLength α := if asked then (get.run thin).2 else thin

theorem get_run_get : (get.run (get.run thin).2).2 = (get.run thin).2 := by
  obtain ⟨answers, calls, known?⟩ := thin
  cases known? <;> rfl

theorem run_get : get.run thin = (thin.value, thin.after true) := Prod.ext thin.get_fst rfl

theorem after_after (first second : Bool) :
    (thin.after first).after second = thin.after (first || second) := by
  cases first
  · rfl
  · cases second
    · rfl
    · exact thin.get_run_get

theorem value_after (asked : Bool) : (thin.after asked).value = thin.value := by
  cases asked
  · rfl
  · exact thin.value_get

theorem after_fixed (length : α) (asked : Bool) : (fixed length).after asked = fixed length := by
  cases asked <;> rfl

theorem after_onDemand (answers : Nat → α) (asked : Bool) :
    (onDemand answers).after asked =
      if asked then ⟨answers, 1, some (answers 0)⟩ else ⟨answers, 0, none⟩ := by
  cases asked <;> rfl

end asking

/-! ## Uses of a shared length -/

/-- A use of the length that contexts and edges share. -/
inductive Use where
  | get
  | isResolved
  | text
  /-- The path length of a magnet in a context with the shared length. -/
  | trackedLength (magnet : Magnet Float)
  /-- An edge for a context with the shared length. -/
  | edgeOf (motion : Motion Float) (strengths : Strengths Float) (geometry : BendGeometry Float)
      (face : Face) (rigidity : Float) (context : Context Float)
  /-- The integrator of a magnet for a context with the shared length. -/
  | integratorOf (magnet : Magnet Float) (set : IntegratorSet) (motion : Motion Float)
      (context : Context Float)
  /-- A step of an edge that has the shared length. -/
  | step (edge : DipoleFringe Float) (state : State Float) (h : Float)

/-- What a use answers. -/
inductive Answer where
  | length (length : Float)
  | isResolved (resolved : Bool)
  | text (text : String)
  | edge (edge : DipoleFringe Float)
  | integrator (integrator : Except (ConfigError Float) (Integrator Float))
  | step (step : Step Float)

namespace Use

/-- Runs a use on the shared length. -/
def run : Use → StateM (ThinLength Float) Answer
  | .get => return .length (← ThinLength.get)
  | .isResolved => return .isResolved (← MonadState.get).isResolved
  | .text => return .text (← MonadState.get).text
  | .trackedLength magnet => return .length (← magnet.trackedLengthM ThinLength.get)
  | .edgeOf motion strengths geometry face rigidity context => do
    let thin ← MonadState.get
    return .edge (.ofMagnet motion strengths geometry face rigidity { context with thin })
  | .integratorOf magnet set motion context => do
    let thin ← MonadState.get
    return .integrator (magnet.integrator set motion { context with thin })
  | .step edge state h => return .step (← edge.stepM ThinLength.get state h)

/-- Whether a use needs the length: to give it, as the path length of an edge, or for a kick. -/
def Needs : Use → Prop
  | .get => True
  | .trackedLength magnet => magnet.kind = .dipoleFringe
  | .step edge state _ => edge.Kicks state
  | .isResolved | .text | .edgeOf .. | .integratorOf .. => False

instance : DecidablePred Needs
  | .get => inferInstanceAs (Decidable True)
  | .trackedLength _ => inferInstanceAs (Decidable (_ = _))
  | .step edge state _ => inferInstanceAs (Decidable (edge.Kicks state))
  | .isResolved | .text | .edgeOf .. | .integratorOf .. => inferInstanceAs (Decidable False)

/-- What a use answers when the shared length is as given, without asking for it. -/
def answer (thin : ThinLength Float) : Use → Answer
  | .get => .length thin.value
  | .isResolved => .isResolved thin.isResolved
  | .text => .text thin.text
  | .trackedLength magnet =>
    .length (if magnet.kind = .dipoleFringe then thin.value else magnet.geometry.arcLength)
  | .edgeOf motion strengths geometry face rigidity context =>
    .edge (.ofMagnet motion strengths geometry face rigidity { context with thin })
  | .integratorOf magnet set motion context =>
    .integrator (magnet.integrator set motion { context with thin })
  | .step edge state h => .step ({ edge with thin := .fixed thin.value }.step state h)

/-- A step without a kick does not depend on the thin length. -/
theorem step_of_not_kicks {edge : DipoleFringe Float} {state : State Float}
    (hkicks : ¬ edge.Kicks state) (thin : ThinLength Float) (h : Float) :
    { edge with thin }.step state h = edge.step state h := by
  by_cases hfield : Significant edge.body.field
  · have hspares : edge.spares state := by_contra fun hspares => hkicks ⟨hfield, hspares⟩
    rw [edge.step_of_significant state h hfield, edge.kick_of_spares state h hspares,
      DipoleFringe.step_of_significant { edge with thin } state h hfield,
      DipoleFringe.kick_of_spares { edge with thin } state h hspares]
  · rw [edge.step_of_not_significant state h hfield,
      DipoleFringe.step_of_not_significant { edge with thin } state h hfield]

/-- A use answers by the length as it stands, and asks for it where it needs to. -/
theorem run_eq (use : Use) (thin : ThinLength Float) :
    use.run.run thin = (use.answer thin, thin.after (decide use.Needs)) := by
  cases use with
  | isResolved | text | edgeOf | integratorOf => rfl
  | get =>
    rw [run, StateT.run_bind, run_get]
    rfl
  | trackedLength magnet =>
    rw [run, StateT.run_bind, Magnet.trackedLengthM_eq, answer]
    by_cases hedge : magnet.kind = .dipoleFringe
    · rw [if_pos hedge, if_pos hedge, run_get, decide_eq_true (p := (trackedLength magnet).Needs) hedge]
      rfl
    · rw [if_neg hedge, if_neg hedge, decide_eq_false (p := (trackedLength magnet).Needs) hedge]
      rfl
  | step edge state h =>
    rw [run, StateT.run_bind, DipoleFringe.stepM_eq, answer]
    by_cases hkicks : edge.Kicks state
    · rw [if_pos hkicks, StateT.run_bind, run_get, decide_eq_true (p := (step edge state h).Needs) hkicks]
      rfl
    · rw [if_neg hkicks, step_of_not_kicks hkicks (.fixed thin.value),
        decide_eq_false (p := (step edge state h).Needs) hkicks]
      rfl

end Use

/-! ## Sequences of uses -/

/-- Runs uses one after another on the shared length. -/
def runAll (uses : List Use) : StateM (ThinLength Float) (List Answer) := uses.mapM Use.run

theorem runAll_cons (use : Use) (uses : List Use) (thin : ThinLength Float) :
    (runAll (use :: uses)).run thin =
      (use.answer thin :: ((runAll uses).run (thin.after (decide use.Needs))).1,
        ((runAll uses).run (thin.after (decide use.Needs))).2) := by
  rw [runAll, List.mapM_cons, StateT.run_bind, use.run_eq]
  rfl

/-- A sequence of uses asks for the length if one of them needs it. -/
theorem length_after_runAll (uses : List Use) (thin : ThinLength Float) :
    ((runAll uses).run thin).2 = thin.after (decide (∃ use ∈ uses, use.Needs)) := by
  induction uses generalizing thin with
  | nil =>
    simp only [List.not_mem_nil, false_and, exists_false, decide_false]
    rfl
  | cons use uses ih =>
    rw [runAll_cons, ih, after_after, ← Bool.decide_or]
    simp only [List.exists_mem_cons_iff]

/-- Every use of a sequence answers by the length that the uses before it leave. -/
theorem answers_of_runAll (uses : List Use) (thin : ThinLength Float) (k : Nat) :
    ((runAll uses).run thin).1[k]? =
      uses[k]?.map (·.answer ((runAll (uses.take k)).run thin).2) := by
  induction uses generalizing thin k with
  | nil => rfl
  | cons use uses ih =>
    cases k with
    | zero => rw [runAll_cons]; rfl
    | succ k =>
      rw [runAll_cons, List.getElem?_cons_succ, ih, List.take_succ_cons, runAll_cons]
      rfl

/-- However a sequence of uses shares a length, it is asked for at most once, by the first use that needs
it: `isResolved` tells whether that has happened, and every use answers by the first answer. A length
fixed from the start is known and never asked for. -/
theorem asked_once_where_needed (answers : Nat → Float) (length : Float) (uses : List Use) :
    (∀ k, let thin := ((runAll (uses.take k)).run (onDemand answers)).2
      thin.calls = (if ∃ use ∈ uses.take k, use.Needs then 1 else 0) ∧
      (thin.isResolved = true ↔ ∃ use ∈ uses.take k, use.Needs) ∧
      thin.value = answers 0 ∧
      ((runAll uses).run (onDemand answers)).1[k]? = uses[k]?.map (·.answer thin)) ∧
    (runAll uses).run (fixed length) = (uses.map (·.answer (fixed length)), fixed length) ∧
    (fixed length).isResolved = true ∧ (fixed length).calls = 0 := by
  refine ⟨fun k => ?_, ?_, rfl, rfl⟩
  · have hthin := length_after_runAll (uses.take k) (onDemand answers)
    rw [after_onDemand] at hthin
    refine ⟨?_, ?_, ?_, answers_of_runAll uses _ k⟩
    · rw [hthin]
      split_ifs <;> simp_all
    · rw [hthin]
      split_ifs <;> simp_all [isResolved]
    · rw [length_after_runAll, value_after]
      rfl
  · have hthin (uses : List Use) := length_after_runAll uses (fixed length)
    simp only [after_fixed] at hthin
    refine Prod.ext (List.ext_getElem? fun k => ?_) (hthin uses)
    rw [answers_of_runAll, hthin, List.getElem?_map]

example (answers : Nat → Float) :
    ((runAll [.isResolved, .get, .isResolved, .get]).run (onDemand answers)).1 =
      [.isResolved false, .length (answers 0), .isResolved true, .length (answers 0)] := rfl

end ThinLength

end BeamTransport
