import BeamTransport.Field.Kind
import BeamTransport.Integrator.Kind

/-!
# Integrator sets

An integrator set assigns an algorithm to every kind of magnet. There are four named profiles, each
of which starts from Runge-Kutta everywhere and gives bends and, in one of them, quadrupoles an
algorithm of their own. An element without a field is treated like a general one.
-/

namespace BeamTransport

/-- The named integrator sets. -/
inductive Profile where
  /-- Runge-Kutta everywhere. -/
  | geant4
  /-- Helix in every bend. -/
  | bdsimOne
  /-- Helix in bends, edge kicks at their ends. -/
  | bdsimTwo
  /-- Matrices in quadrupoles and bends with a gradient. -/
  | bdsimMatrix
deriving DecidableEq

/-- An algorithm for every kind of magnet. -/
structure IntegratorSet where
  /-- The profile whose name the set carries. -/
  profile : Profile
  /-- The algorithm assigned to a category of fields. -/
  assigned : FieldKind → IntegratorKind

namespace IntegratorSet

/-- The algorithm that serves a kind of magnet. -/
def integratorFor (set : IntegratorSet) : FieldKind → IntegratorKind
  | .none => set.assigned .general
  | kind => set.assigned kind

/-- Sets are equal when they carry the same name and serve every kind alike. -/
instance : BEq IntegratorSet :=
  ⟨fun a b => a.profile == b.profile &&
    FieldKind.all.all fun kind => a.integratorFor kind == b.integratorFor kind⟩

end IntegratorSet

namespace Profile

def all : List Profile := [.geant4, .bdsimOne, .bdsimTwo, .bdsimMatrix]

def name : Profile → String
  | .geant4 => "geant4"
  | .bdsimOne => "bdsimone"
  | .bdsimTwo => "bdsimtwo"
  | .bdsimMatrix => "bdsimmatrix"

/-- The profile that the name `default` stands for. -/
def standard : Profile := .bdsimTwo

def ofName? (name : String) : Option Profile :=
  if name.toLower == "default" then some standard else all.find? (·.name == name.toLower)

def assigned : Profile → FieldKind → IntegratorKind
  | .bdsimOne, .dipole | .bdsimOne, .dipoleQuadrupole | .bdsimOne, .dipoleFringe => .dipole
  | .bdsimTwo, .dipole | .bdsimTwo, .dipoleQuadrupole => .dipole
  | .bdsimTwo, .dipoleFringe => .dipoleFringe
  | .bdsimMatrix, .dipole => .dipole
  | .bdsimMatrix, .dipoleQuadrupole | .bdsimMatrix, .quadrupole => .dipoleQuadrupole
  | .bdsimMatrix, .dipoleFringe => .dipoleFringe
  | _, _ => .rungeKutta

def set (profile : Profile) : IntegratorSet := ⟨profile, profile.assigned⟩

end Profile

/-- A text filled up with blanks to a width. -/
def padRight (width : Nat) (text : String) : String :=
  text ++ String.ofList (List.replicate (width - text.length) ' ')

/-- The name of a set, then one line per kind of magnet with the algorithm that serves it. -/
def IntegratorSet.text (set : IntegratorSet) : String :=
  set.profile.name ++ "\n" ++ String.join (FieldKind.all.map fun kind =>
    "  " ++ padRight 16 kind.name ++ " " ++ (set.integratorFor kind).name ++ "\n")

end BeamTransport
