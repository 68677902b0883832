import BeamTransport.CommandLine.Strengths
import BeamTransport.Tracking

/-!
# The track command

Tracks one particle through one magnet. The arguments are first made into a plan: which magnet,
which particle, which start. A plan is then carried out. The design rigidity is that of the tracked
particle unless it is given.
-/

namespace BeamTransport.CommandLine

structure TrackArguments (α : Type) where
  field : String
  set : String
  length : α
  angle : α
  /-- Strengths as `key=value`. -/
  strengths : List String
  entranceFace : α
  exitFace : α
  fringeIntegral : α
  halfGap : α
  atExit : Bool
  particle : String
  energy : α
  /-- Design rigidity, if given. -/
  rigidity : Option α
  steps : Nat
  x : α
  y : α
  xp : α
  yp : α
  minimumRadius : Option α
  /-- Whether the smallest radius itself is a violation. -/
  inclusive : Bool
  /-- Length of thin elements, if given. -/
  thinLength : Option α

inductive TrackFault (α : Type) where
  | config (error : ConfigError α)
  | unknownParticle (name : String)
  | energyTooLow (energy : α) (species : Species α)
  | strength (fault : StrengthFault)

def TrackFault.message : TrackFault Float → String
  | .config error => error.message
  | .unknownParticle name => s!"unknown particle \"{name}\""
  | .energyTooLow energy species =>
    s!"total energy {Decimal.Style.plain.text energy} GeV is not above the {species.name} " ++
      s!"rest mass {Decimal.Style.plain.text species.mass} GeV"
  | .strength fault => fault.message

/-- All that is needed to track a particle. -/
structure TrackPlan (α : Type) where
  magnet : Magnet α
  set : IntegratorSet
  species : Species α
  start : ParticleCoords α
  steps : Nat
  context : Context α

/-- The coordinates after each step of a plan. -/
def TrackPlan.track {α : Type} [Scalar α] (plan : TrackPlan α) :
    Except (ConfigError α) (List (ParticleCoords α)) :=
  plan.magnet.track plan.set plan.species plan.start plan.steps plan.context

namespace TrackArguments

variable {α : Type} [Scalar α]

def standard : TrackArguments α where
  field := "dipole"
  set := "default"
  length := 1
  angle := 0
  strengths := []
  entranceFace := 0
  exitFace := 0
  fringeIntegral := 0
  halfGap := 0
  atExit := false
  particle := "proton"
  energy := Scalar.ofNat 10
  rigidity := none
  steps := 10
  x := 0
  y := 0
  xp := 0
  yp := 0
  minimumRadius := none
  inclusive := false
  thinLength := none

def geometry (a : TrackArguments α) : BendGeometry α where
  arcLength := a.length
  angle := a.angle
  entranceFace := a.entranceFace
  exitFace := a.exitFace
  fringeIntegral := a.fringeIntegral
  halfGap := a.halfGap

def context (a : TrackArguments α) : Context α where
  minimumRadius := a.minimumRadius.getD Context.standard.minimumRadius
  criterion :=
    { ParaxialCriterion.standard with
      comparison := if a.inclusive then .inclusive else .strict }
  thin := (a.thinLength.map .fixed).getD Context.standard.thin

/-- The species of a name, if the energy is above its rest mass. -/
def species (a : TrackArguments α) : Except (TrackFault α) (Species α) :=
  match Species.ofName? a.particle with
  | none => .error (.unknownParticle a.particle)
  | some species =>
    if a.energy ≤ species.mass then .error (.energyTooLow a.energy species) else .ok species

/-- The design rigidity: the one given, or that of the particle, with the sign of its charge. -/
def designRigidity (a : TrackArguments α) (species : Species α) : α :=
  a.rigidity.getD <|
    Scalar.sign species.charge
      * (Motion.mk species.charge).rigidity (species.momentum a.energy)

def start (a : TrackArguments α) : ParticleCoords α :=
  let norm := Scalar.sqrt (1 + a.xp * a.xp + a.yp * a.yp)
  { position := ⟨a.x, a.y, 0⟩
    direction := ⟨a.xp / norm, a.yp / norm, 1 / norm⟩
    t := 0
    s := 0
    totalEnergy := a.energy
    weight := 1 }

/-- The plan that the arguments describe. They are examined in the order set, field, particle,
energy, strengths, settings; the magnet itself is checked when the plan is carried out. -/
def plan [Decimal.OfLiteral α] (a : TrackArguments α) : Except (TrackFault α) (TrackPlan α) := do
  let set ← (IntegratorSet.ofName a.set).mapError .config
  let kind ← (FieldKind.ofName a.field).mapError .config
  let species ← a.species
  let strengths ← (readStrengths a.strengths).mapError .strength
  let context ← a.context.checked.mapError .config
  let magnet : Magnet α :=
    { kind, strengths
      rigidity := a.designRigidity species
      geometry := a.geometry
      face := if a.atExit then .exit else .entrance }
  return { magnet, set, species, context, start := a.start, steps := a.steps }

/-- The coordinates at the start and after each step. -/
def run [Decimal.OfLiteral α] (a : TrackArguments α) :
    Except (TrackFault α) (List (ParticleCoords α)) := do
  let plan ← a.plan
  let coords ← plan.track.mapError .config
  return plan.start :: coords

end TrackArguments

end BeamTransport.CommandLine
