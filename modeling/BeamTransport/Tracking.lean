import BeamTransport.Magnet
import BeamTransport.Particle

/-!
# Tracking

A path through a magnet is covered in equal steps, and the state is recorded after each of them.
`Integrator.track` does this for a state and any integrator, `Magnet.track` for a particle and a
magnet.
-/

namespace BeamTransport

/-- The state after one step. -/
@[ext]
structure Record (α : Type) where
  state : State α
  /-- Path length since the start. -/
  s : α
  /-- Largest estimated error of the step. -/
  maxError : α

namespace Integrator

variable {α : Type} [Scalar α]

/-- The records of a number of steps of length `h`, from a state that has covered the path `s`. -/
def records (integrator : Integrator α) (h : α) : Nat → State α → α → List (Record α)
  | 0, _, _ => []
  | n + 1, state, s =>
    let step := integrator.step state h
    ⟨step.out, s + h, step.maxError⟩ :: records integrator h n step.out (s + h)

@[simp] theorem length_records (integrator : Integrator α) (h : α) (n : Nat) (state : State α)
    (s : α) : (integrator.records h n state s).length = n := by
  induction n generalizing state s with
  | zero => rfl
  | succ n ih => simp [records, ih]

/-- The records of a path length covered in a number of equal steps. -/
def track (integrator : Integrator α) (initial : State α) (length : α) (steps : Nat) :
    List (Record α) :=
  integrator.records (length / Scalar.ofNat steps) steps initial 0

@[simp] theorem length_track (integrator : Integrator α) (initial : State α) (length : α)
    (steps : Nat) : (integrator.track initial length steps).length = steps :=
  integrator.length_records ..

end Integrator

namespace Magnet

variable {α : Type} [Scalar α]

/-- Time after a path length from the start; a particle at rest stays at its time. Transport keeps
the momentum and with it the speed. -/
def timeAt (species : Species α) (start : ParticleCoords α) (s : α) : α :=
  let beta := species.momentum start.totalEnergy / start.totalEnergy
  let speed := beta * speedOfLight
  if 0 < speed then start.t + s / speed else start.t

/-- The coordinates of a particle after each of a number of equal steps through a magnet. -/
def track (magnet : Magnet α) (set : IntegratorSet) (species : Species α)
    (start : ParticleCoords α) (steps : Nat) (context : Context α) :
    Except (ConfigError α) (List (ParticleCoords α)) := do
  let integrator ← magnet.integrator set ⟨species.charge⟩ context
  let records := integrator.track (start.toState species) (magnet.trackedLength context) steps
  return records.map fun record =>
    .ofState record.state (start.s + record.s) (timeAt species start record.s) species start.weight

end Magnet

end BeamTransport
