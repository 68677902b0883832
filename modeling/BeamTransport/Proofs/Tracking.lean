import BeamTransport.Proofs.Scalar
import BeamTransport.Tracking

/-!
# Runs of equal steps

The records of a run are the iterates of one step. `getElem?_track` and `getLast?_track` give each
record and the last one, `states_track` the states on the way, `states_records_scanl` the same where
each step is ruled by a share, and `after_induction` and `forall_mem_track` carry over to a run what
every step preserves.
-/

namespace BeamTransport.Integrator

variable (i : Integrator ℝ) (h : ℝ)

/-- The state after a number of steps of length `h`. -/
noncomputable def after (state : State ℝ) (k : ℕ) : State ℝ :=
  (fun y => (i.step y h).out)^[k] state

theorem after_succ (state : State ℝ) (k : ℕ) :
    i.after h state (k + 1) = (i.step (i.after h state k) h).out :=
  Function.iterate_succ_apply' _ k state

theorem after_step (state : State ℝ) (k : ℕ) :
    i.after h (i.step state h).out k = i.after h state (k + 1) :=
  (Function.iterate_succ_apply _ k state).symm

theorem getElem?_records (n k : ℕ) (state : State ℝ) (s : ℝ) (hk : k < n) :
    (i.records h n state s)[k]? =
      some ⟨i.after h state (k + 1), s + (k + 1) * h, (i.step (i.after h state k) h).maxError⟩ := by
  induction n generalizing k state s with
  | zero => omega
  | succ n ih =>
    rw [records]
    cases k with
    | zero =>
      rw [List.getElem?_cons_zero, after_succ, Nat.cast_zero, zero_add, one_mul]
      rfl
    | succ k =>
      rw [List.getElem?_cons_succ, ih k _ _ (by omega), after_step, after_step]
      congr 2
      push_cast
      ring

/-- The records of a run, the first after one step. -/
theorem getElem?_track (initial : State ℝ) (length : ℝ) (n k : ℕ) (hk : k < n) :
    (i.track initial length n)[k]? =
      some ⟨i.after (length / n) initial (k + 1), (k + 1) * length / n,
        (i.step (i.after (length / n) initial k) (length / n)).maxError⟩ := by
  rw [track, Scalar.ofNat_real, i.getElem?_records _ n k initial 0 hk, zero_add, mul_div_assoc]

theorem getLast?_track (initial : State ℝ) (length : ℝ) {n : ℕ} (hn : 0 < n) :
    (i.track initial length n).getLast? =
      some ⟨i.after (length / n) initial n, length,
        (i.step (i.after (length / n) initial (n - 1)) (length / n)).maxError⟩ := by
  have hn0 : (n : ℝ) ≠ 0 := Nat.cast_ne_zero.mpr hn.ne'
  rw [List.getLast?_eq_getElem?, length_track, i.getElem?_track initial length n (n - 1) (by omega),
    Nat.sub_add_cancel hn, Nat.cast_sub hn, Nat.cast_one, sub_add_cancel,
    mul_div_cancel_left₀ _ hn0]

/-- The states that a run visits, its start included. -/
theorem states_track (initial : State ℝ) (length : ℝ) (n : ℕ) :
    initial :: (i.track initial length n).map (·.state) =
      (List.range (n + 1)).map (i.after (length / n) initial) := by
  rw [List.range_succ_eq_map, List.map_cons, List.map_map]
  refine congrArg₂ _ rfl (List.ext_getElem? fun k => ?_)
  by_cases hk : k < n
  · rw [List.getElem?_map, i.getElem?_track initial length n k hk]
    simp [hk]
  · simp [hk]

/-- Where every step does to a state what a share of something does, the states of a run are those that
equal shares lead to one after the other. -/
theorem states_records_scanl {β : Type} {i : Integrator ℝ} {h : ℝ} {f : State ℝ → β → State ℝ}
    {share : β} (hstep : ∀ y, (i.step y h).out = f y share) (n : ℕ) (state : State ℝ) (s : ℝ) :
    state :: (i.records h n state s).map (·.state) = (List.replicate n share).scanl f state := by
  induction n generalizing state s with
  | zero => rfl
  | succ n ih => rw [List.replicate_succ, List.scanl_cons, records, List.map_cons, ← hstep state, ih]

/-! ## Invariants of a run -/

variable {i h}

theorem after_induction {P : State ℝ → Prop} (hstep : ∀ y, P y → P (i.step y h).out)
    {state : State ℝ} (hstate : P state) (k : ℕ) : P (i.after h state k) := by
  induction k with
  | zero => exact hstate
  | succ k ih =>
    rw [after_succ]
    exact hstep _ ih

/-- What every step preserves holds in every record of a run. -/
theorem forall_mem_track {P : State ℝ → Prop} (hstep : ∀ y h, P y → P (i.step y h).out)
    {initial : State ℝ} (hinitial : P initial) (length : ℝ) (n : ℕ) :
    ∀ r ∈ i.track initial length n, P r.state := by
  intro r hr
  obtain ⟨k, hget⟩ := List.mem_iff_getElem?.mp hr
  have hk : k < n := by
    have hlt := (List.getElem?_eq_some_iff.mp hget).1
    rwa [length_track] at hlt
  rw [i.getElem?_track initial length n k hk] at hget
  rw [← Option.some.inj hget]
  exact after_induction (fun y => hstep y _) hinitial _

end BeamTransport.Integrator
