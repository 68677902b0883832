/-!
# Kinds of magnet

The categories of field that an element of a beam line may carry, and their names. Names are read
without regard to the case of ASCII letters.
-/

namespace BeamTransport

/-- The category of field attached to an element. -/
inductive FieldKind where
  | none
  | solenoid
  | dipole
  | dipoleQuadrupole
  | dipoleFringe
  | quadrupole
  | sextupole
  | octupole
  | decapole
  | multipole
  | muonSpoiler
  | rfCavity
  | rf
  | general
  | skewQuadrupole
  | skewSextupole
  | skewOctupole
  | skewDecapole
deriving DecidableEq

namespace FieldKind

def all : List FieldKind :=
  [.none, .solenoid, .dipole, .dipoleQuadrupole, .dipoleFringe, .quadrupole, .sextupole, .octupole,
    .decapole, .multipole, .muonSpoiler, .rfCavity, .rf, .general, .skewQuadrupole, .skewSextupole,
    .skewOctupole, .skewDecapole]

def name : FieldKind → String
  | .none => "none"
  | .solenoid => "solenoid"
  | .dipole => "dipole"
  | .dipoleQuadrupole => "dipolequadrupole"
  | .dipoleFringe => "dipolefringe"
  | .quadrupole => "quadrupole"
  | .sextupole => "sextupole"
  | .octupole => "octupole"
  | .decapole => "decapole"
  | .multipole => "multipole"
  | .muonSpoiler => "muonspoiler"
  | .rfCavity => "rfcavity"
  | .rf => "rf"
  | .general => "general"
  | .skewQuadrupole => "skewquadrupole"
  | .skewSextupole => "skewsextupole"
  | .skewOctupole => "skewoctupole"
  | .skewDecapole => "skewdecapole"

/-- The kind of a name. -/
def ofName? (name : String) : Option FieldKind :=
  all.find? (·.name == name.toLower)

end FieldKind

end BeamTransport
