import BeamTransport.Integrator.DipoleFringe
import BeamTransport.Integrator.DipoleQuadrupole

/-!
# Integrators

An integrator is one of the five algorithms together with the magnet it was made for. All of them
give the change of a state along the path and a step over a path length.
-/

namespace BeamTransport

/-- An algorithm with its magnet. -/
inductive Integrator (α : Type) where
  | drift
  | dipole (magnet : Dipole α)
  | dipoleQuadrupole (magnet : DipoleQuadrupole α)
  | dipoleFringe (magnet : DipoleFringe α)
  | rungeKutta (method : RungeKutta α)

namespace Integrator

variable {α : Type} [Scalar α]

def kind : Integrator α → IntegratorKind
  | .drift => .drift
  | .dipole _ => .dipole
  | .dipoleQuadrupole _ => .dipoleQuadrupole
  | .dipoleFringe _ => .dipoleFringe
  | .rungeKutta _ => .rungeKutta

def derivative : Integrator α → State α → State α
  | .drift, state => state.driftDerivative
  | .dipole magnet, state => magnet.derivative state
  | .dipoleQuadrupole magnet, state => magnet.derivative state
  | .dipoleFringe magnet, state => magnet.derivative state
  | .rungeKutta method, state => method.derivative state

/-- A step over a path length from a state with a given change along the path. -/
def stepWith : Integrator α → State α → State α → α → Step α
  | .drift, state, _, h => .exact (state.drift h)
  | .dipole magnet, state, _, h => magnet.step state h
  | .dipoleQuadrupole magnet, state, dydx, h => magnet.step state dydx h
  | .dipoleFringe magnet, state, _, h => magnet.step state h
  | .rungeKutta method, state, dydx, h => method.step state dydx h

def step (integrator : Integrator α) (state : State α) (h : α) : Step α :=
  integrator.stepWith state (integrator.derivative state) h

end Integrator

end BeamTransport
