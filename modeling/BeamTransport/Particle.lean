import BeamTransport.Decimal.Style
import BeamTransport.Scalar.Double
import BeamTransport.State

/-!
# Particles

The species that can be tracked, and the coordinates in which particles are handed over: position
and unit direction, time, path length, total energy and weight. Coordinates become a state by the
momentum that belongs to the energy, and come back from one.
-/

namespace BeamTransport

structure Species (α : Type) where
  name : String
  /-- Rest mass in GeV. -/
  mass : α
  /-- Charge in elementary charges. -/
  charge : α

namespace Species

variable {α : Type} [Scalar α]

def proton : Species α := ⟨"proton", 0.93827208816, 1⟩

def electron : Species α := ⟨"e-", 0.000510998950, -1⟩

def positron : Species α := ⟨"e+", 0.000510998950, 1⟩

/-- The species of a name, read exactly as it is written. -/
def ofName? (name : String) : Option (Species α) :=
  match name with
  | "proton" | "p" => some proton
  | "electron" | "e-" => some electron
  | "positron" | "e+" => some positron
  | _ => none

/-- Momentum that belongs to a total energy; none up to the rest mass. -/
def momentum (species : Species α) (totalEnergy : α) : α :=
  Scalar.sqrt (Scalar.max (totalEnergy * totalEnergy - species.mass * species.mass) 0)

/-- Total energy that belongs to a momentum. -/
def totalEnergy (species : Species α) (momentum : α) : α :=
  Scalar.sqrt (momentum * momentum + species.mass * species.mass)

end Species

/-- Position, direction and time of a particle in the local frame. -/
@[ext]
structure LocalCoords (α : Type) where
  position : Vec3 α
  direction : Vec3 α
  /-- Time in nanoseconds. -/
  t : α

/-- All coordinates of a particle. -/
@[ext]
structure ParticleCoords (α : Type) extends LocalCoords α where
  s : α
  /-- Total energy in GeV. -/
  totalEnergy : α
  weight : α

/-- The local coordinates on one line. -/
def LocalCoords.text (c : LocalCoords Float) : String :=
  let n := Decimal.Style.plain.text
  s!"x: {n c.position.x} y: {n c.position.y} z: {n c.position.z} " ++
    s!"xp: {n c.direction.x} yp: {n c.direction.y} zp: {n c.direction.z} t: {n c.t}"

/-- All coordinates on one line. -/
def ParticleCoords.text (c : ParticleCoords Float) : String :=
  let n := Decimal.Style.plain.text
  c.toLocalCoords.text ++ s!" s: {n c.s} E: {n c.totalEnergy} w: {n c.weight}"

namespace ParticleCoords

variable {α : Type} [Scalar α]

/-- The state of a particle: its direction, scaled to the momentum that belongs to its energy. -/
def toState (c : ParticleCoords α) (species : Species α) : State α :=
  ⟨c.position, species.momentum c.totalEnergy • c.direction.direction⟩

/-- The coordinates of a state. -/
def ofState (state : State α) (s t : α) (species : Species α) (weight : α) : ParticleCoords α where
  position := state.position
  direction := state.momentum.direction
  t := t
  s := s
  totalEnergy := species.totalEnergy state.momentum.length
  weight := weight

end ParticleCoords

end BeamTransport
