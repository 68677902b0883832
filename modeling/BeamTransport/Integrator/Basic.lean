import BeamTransport.Field.Basic
import BeamTransport.Integrator.Kind

/-!
# Steps and drifts

A step through a magnet gives the outgoing state and an estimate of its error. The simplest one is
the drift, straight along the direction of motion.
-/

namespace BeamTransport

/-- The result of one step. -/
@[ext]
structure Step (α : Type) where
  out : State α
  /-- Estimated error of each component. -/
  error : State α

namespace Step

variable {α : Type} [Scalar α]

/-- A step that is exact within its model. -/
def exact (out : State α) : Step α := ⟨out, 0⟩

/-- A step whose error is judged by its difference from a coarser result. -/
def comparing (out coarse : State α) : Step α := ⟨out, out - coarse⟩

/-- Largest magnitude among the estimated errors. -/
def maxError (step : Step α) : α := step.error.maxAbs

end Step

variable {α : Type} [Scalar α]

/-- Straight motion over a path length. -/
def State.drift (state : State α) (h : α) : State α :=
  ⟨state.position + h • state.momentum.direction, state.momentum⟩

/-- Change of a state along a straight path. -/
def State.driftDerivative (state : State α) : State α := ⟨state.momentum.direction, 0⟩

end BeamTransport
