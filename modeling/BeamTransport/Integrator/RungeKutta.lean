import BeamTransport.Integrator.Basic

/-!
# Runge-Kutta steps

The classical fourth-order step over any field. A step is made of two half steps, and its error is
judged by one full step.
-/

namespace BeamTransport

/-- Runge-Kutta transport of one charge through a field. -/
structure RungeKutta (α : Type) where
  motion : Motion α
  field : FieldMap α

namespace RungeKutta

variable {α : Type} [Scalar α]

def derivative (r : RungeKutta α) (state : State α) : State α := r.motion.derivative r.field state

/-- One fourth-order step from a state with a given change along the path. -/
def singleStep (r : RungeKutta α) (y k1 : State α) (h : α) : State α :=
  let k2 := r.derivative (y + (0.5 * h) • k1)
  let k3 := r.derivative (y + (0.5 * h) • k2)
  let k4 := r.derivative (y + h • k3)
  y + (h / 6) • (k1 + (2 : α) • k2 + (2 : α) • k3 + k4)

/-- Two half steps, compared with a full one. -/
def step (r : RungeKutta α) (y dydx : State α) (h : α) : Step α :=
  let middle := r.singleStep y dydx (0.5 * h)
  .comparing (r.singleStep middle (r.derivative middle) (0.5 * h)) (r.singleStep y dydx h)

end RungeKutta

end BeamTransport
