import BeamTransport.Motion

/-!
# Reference transport

Straight motion and Runge-Kutta steps written out a second time, without unit vectors of zero length
and without error estimates, and the comparisons that hold an integrator against them.
-/

namespace BeamTransport.Reference

variable {α : Type} [Scalar α]

/-- Whether two numbers differ by at most a tolerance. -/
def close (a b tolerance : α) : Bool := Scalar.abs (a - b) ≤ tolerance

/-- Whether two vectors differ by at most a tolerance in their most different component. -/
def closeVec (a b : Vec3 α) (tolerance : α) : Bool := (a - b).maxAbs ≤ tolerance

/-- Whether two states differ by at most a tolerance for positions and one for momenta. -/
def closeState (a b : State α) (positionTolerance momentumTolerance : α) : Bool :=
  close a.position.x b.position.x positionTolerance
    && close a.position.y b.position.y positionTolerance
    && close a.position.z b.position.z positionTolerance
    && close a.momentum.x b.momentum.x momentumTolerance
    && close a.momentum.y b.momentum.y momentumTolerance
    && close a.momentum.z b.momentum.z momentumTolerance

/-- Largest difference between components of two states. -/
def maxDifference (a b : State α) : α := (a - b).maxAbs

def drift (y : State α) (h : α) : State α :=
  ⟨y.position + (h • y.momentum) / y.momentum.length, y.momentum⟩

/-- Change of a state along the path in a field, for a given coupling. -/
def derivative (coupling : α) (field : FieldMap α) (y : State α) : State α :=
  let u := y.momentum / y.momentum.length
  ⟨u, coupling • u.cross (field y.position)⟩

def rungeKuttaStep (coupling : α) (field : FieldMap α) (h : α) (y : State α) : State α :=
  let k1 := derivative coupling field y
  let k2 := derivative coupling field (y + (0.5 * h) • k1)
  let k3 := derivative coupling field (y + (0.5 * h) • k2)
  let k4 := derivative coupling field (y + h • k3)
  y + (h / 6) • (k1 + (2 : α) • k2 + (2 : α) • k3 + k4)

/-- A path length covered in a number of equal Runge-Kutta steps. -/
def rungeKutta (coupling : α) (field : FieldMap α) (y : State α) (h : α) (steps : Nat) : State α :=
  (List.range steps).foldl
    (fun y _ => rungeKuttaStep coupling field (h / Scalar.ofNat steps) y) y

end BeamTransport.Reference
