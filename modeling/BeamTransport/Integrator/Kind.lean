/-!
# Kinds of integrator

The algorithms that carry a particle through a magnet, and their names. Names are read without
regard to the case of ASCII letters.
-/

namespace BeamTransport

/-- An algorithm for transport through a field. -/
inductive IntegratorKind where
  /-- Straight motion. -/
  | drift
  /-- Exact helix through a bending field. -/
  | dipole
  /-- Linear matrix of a bend with a gradient. -/
  | dipoleQuadrupole
  /-- Edge kick before a helix. -/
  | dipoleFringe
  /-- Classical fourth-order Runge-Kutta over any field. -/
  | rungeKutta
deriving DecidableEq

namespace IntegratorKind

def all : List IntegratorKind := [.drift, .dipole, .dipoleQuadrupole, .dipoleFringe, .rungeKutta]

def name : IntegratorKind → String
  | .drift => "drift"
  | .dipole => "dipole"
  | .dipoleQuadrupole => "dipolequadrupole"
  | .dipoleFringe => "dipolefringe"
  | .rungeKutta => "classicalrk4"

def ofName? (name : String) : Option IntegratorKind :=
  all.find? (·.name == name.toLower)

end IntegratorKind

end BeamTransport
