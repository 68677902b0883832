import BeamTransport.Proofs.Tracking
import BeamTransport.Proofs.Vec3
import BeamTransport.Reference

/-!
# Two Runge-Kutta transports are one method

The reference transport divides a momentum by its length where the integrator takes its direction, so the
two take one derivative as long as the particle moves (`RungeKutta.derivative_eq_reference`). A step of the
integrator leads through two half steps, each of which is one step of the reference; the full step only
serves the estimate of the error. Hence a run ends where twice as many reference steps lead, if the
particle moves at every stage of its half steps (`RungeKutta.run_ends_at_reference`).
-/

namespace BeamTransport.RungeKutta

variable (r : RungeKutta ℝ) (y : State ℝ) (h : ℝ)

/-! ## Stages -/

/-- The states at which a fourth-order step takes the change along the path. -/
noncomputable def stages : List (State ℝ) :=
  let k1 := r.derivative y
  let k2 := r.derivative (y + (0.5 * h) • k1)
  let k3 := r.derivative (y + (0.5 * h) • k2)
  [y, y + (0.5 * h) • k1, y + (0.5 * h) • k2, y + h • k3]

/-- The particle is at rest at no stage of a fourth-order step. -/
def Moves : Prop := ∀ stage ∈ r.stages y h, stage.momentum ≠ 0

/-- The state between the two half steps of a step. -/
noncomputable def middle : State ℝ := r.singleStep y (r.derivative y) (0.5 * h)

/-- The particle is at rest at no stage of the two half steps of a step. -/
def MovesThrough : Prop := r.Moves y (0.5 * h) ∧ r.Moves (r.middle y h) (0.5 * h)

/-! ## One step -/

variable {r y h}

theorem derivative_eq_reference (hmoving : y.momentum ≠ 0) :
    r.derivative y = Reference.derivative r.motion.coupling r.field y := by
  rw [derivative, Motion.derivative, Reference.derivative, Vec3.direction_of_ne_zero hmoving]

theorem singleStep_eq_reference (hmoves : r.Moves y h) :
    r.singleStep y (r.derivative y) h =
      Reference.rungeKuttaStep r.motion.coupling r.field h y := by
  simp only [Moves, stages, List.forall_mem_cons] at hmoves
  obtain ⟨hfirst, hsecond, hthird, hfourth, -⟩ := hmoves
  rw [Reference.rungeKuttaStep, ← derivative_eq_reference hfirst,
    ← derivative_eq_reference hsecond, ← derivative_eq_reference hthird,
    ← derivative_eq_reference hfourth]
  rfl

theorem step_out (r : RungeKutta ℝ) (y : State ℝ) (h : ℝ) :
    ((Integrator.rungeKutta r).step y h).out =
      r.singleStep (r.middle y h) (r.derivative (r.middle y h)) (0.5 * h) := by
  simp only [Integrator.step, Integrator.stepWith, Integrator.derivative, step, Step.comparing, middle]

/-- A step is two reference steps of half its length. -/
theorem step_eq_reference (hmoves : r.MovesThrough y h) :
    ((Integrator.rungeKutta r).step y h).out =
      Reference.rungeKuttaStep r.motion.coupling r.field (0.5 * h)
        (Reference.rungeKuttaStep r.motion.coupling r.field (0.5 * h) y) := by
  rw [step_out, singleStep_eq_reference hmoves.2, middle, singleStep_eq_reference hmoves.1]

/-! ## Runs -/

theorem after_eq_reference (n : ℕ)
    (hmoves : ∀ k < n, r.MovesThrough ((Integrator.rungeKutta r).after h y k) h) :
    (Integrator.rungeKutta r).after h y n =
      (Reference.rungeKuttaStep r.motion.coupling r.field (0.5 * h))^[2 * n] y := by
  induction n with
  | zero => rfl
  | succ n ih =>
    have hstart := ih fun k hk => hmoves k (hk.trans n.lt_succ_self)
    rw [Integrator.after_succ, step_eq_reference (hmoves n n.lt_succ_self), hstart, mul_add, mul_one,
      Function.iterate_succ_apply', Function.iterate_succ_apply']

theorem reference_eq_iterate (coupling : ℝ) (field : FieldMap ℝ) (y : State ℝ) (length : ℝ) (n : ℕ) :
    Reference.rungeKutta coupling field y length n =
      (Reference.rungeKuttaStep coupling field (length / n))^[n] y := by
  rw [Reference.rungeKutta, List.foldl_const, List.length_range]
  rfl

/-- The last record of a run holds the state that twice as many reference steps lead to over its length,
through any field and for any charge, if the particle is nowhere at rest on the way. -/
theorem run_ends_at_reference (motion : Motion ℝ) (field : FieldMap ℝ) (y : State ℝ) (length : ℝ)
    {n : ℕ} (hn : 0 < n)
    (hmoves : ∀ k < n, (RungeKutta.mk motion field).MovesThrough
      ((Integrator.rungeKutta ⟨motion, field⟩).after (length / n) y k) (length / n)) :
    ((Integrator.rungeKutta ⟨motion, field⟩).track y length n).getLast?.map (·.state) =
      some (Reference.rungeKutta motion.coupling field y length (2 * n)) := by
  have hhalf : 0.5 * (length / n) = length / ((2 * n : ℕ) : ℝ) := by
    push_cast
    ring
  rw [Integrator.getLast?_track _ _ _ hn, Option.map_some, after_eq_reference n hmoves,
    reference_eq_iterate, hhalf]

/-! ## Along the axis of a solenoid -/

section axial

variable {b : ℝ} (hfield : r.field = .uniform ⟨0, 0, b⟩)

include hfield

theorem derivative_momentum_z (y : State ℝ) : (r.derivative y).momentum.z = 0 := by
  rw [derivative, Motion.derivative, hfield]
  simp [FieldMap.uniform, Vec3.cross]

theorem singleStep_momentum_z (y : State ℝ) (h : ℝ) :
    (r.singleStep y (r.derivative y) h).momentum.z = y.momentum.z := by
  simp [singleStep, derivative_momentum_z hfield]

/-- A particle that moves along the field moves at every stage. -/
theorem moves_of_axial (hmoving : y.momentum.z ≠ 0) : r.Moves y h := by
  have hstage (t : ℝ) (z : State ℝ) : (y + t • r.derivative z).momentum ≠ 0 := by
    intro hrest
    have hz := congrArg Vec3.z hrest
    simp only [State.add_momentum, State.smul_momentum, Vec3.add_z, Vec3.smul_z,
      derivative_momentum_z hfield, mul_zero, add_zero, Vec3.zero_z] at hz
    exact hmoving hz
  have hstart : y.momentum ≠ 0 := fun hrest => hmoving (congrArg Vec3.z hrest)
  simp only [Moves, stages, List.forall_mem_cons]
  exact ⟨hstart, hstage _ _, hstage _ _, hstage _ _, List.forall_mem_nil _⟩

theorem movesThrough_of_axial (hmoving : y.momentum.z ≠ 0) : r.MovesThrough y h := by
  refine ⟨moves_of_axial hfield hmoving, moves_of_axial hfield ?_⟩
  rwa [middle, singleStep_momentum_z hfield]

theorem after_momentum_z (k : ℕ) :
    ((Integrator.rungeKutta r).after h y k).momentum.z = y.momentum.z := by
  refine Integrator.after_induction (P := fun z => z.momentum.z = y.momentum.z) ?_ rfl k
  intro z hz
  rw [step_out, singleStep_momentum_z hfield, middle, singleStep_momentum_z hfield, hz]

end axial

/-- A negative charge off the axis of a solenoid and askew to it, backwards in three steps. -/
theorem run_ends_at_reference_solenoid :
    let motion : Motion ℝ := ⟨-1⟩
    let field : FieldMap ℝ := .uniform ⟨0, 0, 2⟩
    let y : State ℝ := ⟨⟨1, -2, 3⟩, ⟨3, -1, 4⟩⟩
    (∀ k < 3, (RungeKutta.mk motion field).MovesThrough
        ((Integrator.rungeKutta ⟨motion, field⟩).after (-5 / (3 : ℕ)) y k) (-5 / (3 : ℕ))) ∧
      ((Integrator.rungeKutta ⟨motion, field⟩).track y (-5) 3).getLast?.map (·.state) =
        some (Reference.rungeKutta motion.coupling field y (-5) 6) := by
  intro motion field y
  have hmoves : ∀ k < 3, (RungeKutta.mk motion field).MovesThrough
      ((Integrator.rungeKutta ⟨motion, field⟩).after (-5 / (3 : ℕ)) y k) (-5 / (3 : ℕ)) := by
    intro k _
    refine movesThrough_of_axial rfl ?_
    rw [after_momentum_z rfl]
    norm_num [y]
  exact ⟨hmoves, run_ends_at_reference motion field y (-5) three_pos hmoves⟩

end BeamTransport.RungeKutta
