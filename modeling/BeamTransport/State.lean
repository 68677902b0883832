import BeamTransport.Vec3

/-!
# Phase-space states

A particle in the local frame of a magnet is a position and a momentum. States add, subtract and
scale componentwise, so a change of state along the path is a state as well.
-/

namespace BeamTransport

/-- Position in metres and momentum in GeV/c, both in the local frame. -/
@[ext]
structure State (α : Type) where
  position : Vec3 α
  /-- Where it is heading, with the magnitude of its momentum. -/
  momentum : Vec3 α

namespace State

variable {α : Type} [Scalar α]

instance : Zero (State α) := ⟨⟨0, 0⟩⟩

instance : Add (State α) := ⟨fun a b => ⟨a.position + b.position, a.momentum + b.momentum⟩⟩

instance : Sub (State α) := ⟨fun a b => ⟨a.position - b.position, a.momentum - b.momentum⟩⟩

instance : SMul α (State α) := ⟨fun k a => ⟨k • a.position, k • a.momentum⟩⟩

@[simp] theorem zero_position : (0 : State α).position = 0 := rfl

@[simp] theorem zero_momentum : (0 : State α).momentum = 0 := rfl

@[simp] theorem add_position (a b : State α) : (a + b).position = a.position + b.position := rfl

@[simp] theorem add_momentum (a b : State α) : (a + b).momentum = a.momentum + b.momentum := rfl

@[simp] theorem sub_position (a b : State α) : (a - b).position = a.position - b.position := rfl

@[simp] theorem sub_momentum (a b : State α) : (a - b).momentum = a.momentum - b.momentum := rfl

@[simp] theorem smul_position (k : α) (a : State α) : (k • a).position = k • a.position := rfl

@[simp] theorem smul_momentum (k : α) (a : State α) : (k • a).momentum = k • a.momentum := rfl

def components (a : State α) : List α :=
  [a.position.x, a.position.y, a.position.z, a.momentum.x, a.momentum.y, a.momentum.z]

/-- Largest magnitude among the six components; components that are not numbers are passed over. -/
def maxAbs (a : State α) : α :=
  a.components.foldl (fun largest component => Scalar.max largest (Scalar.abs component)) 0

end State

end BeamTransport
