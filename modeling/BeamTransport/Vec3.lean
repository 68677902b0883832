import BeamTransport.Scalar.Basic

/-!
# Vectors in the local frame of a magnet

Componentwise arithmetic, the scalar and vector products, the unit vector of a direction and the
rotation about the third axis. The order of the sums is part of each definition, since doubles
round after every operation.
-/

namespace BeamTransport

/-- A vector with components along the local axes. -/
@[ext]
structure Vec3 (α : Type) where
  /-- Component along the horizontal axis. -/
  x : α
  /-- Component along the vertical axis. -/
  y : α
  /-- Component along the axis of the magnet. -/
  z : α

namespace Vec3

variable {α : Type} [Scalar α]

instance : Zero (Vec3 α) := ⟨⟨0, 0, 0⟩⟩

instance : Add (Vec3 α) := ⟨fun a b => ⟨a.x + b.x, a.y + b.y, a.z + b.z⟩⟩

instance : Sub (Vec3 α) := ⟨fun a b => ⟨a.x - b.x, a.y - b.y, a.z - b.z⟩⟩

instance : SMul α (Vec3 α) := ⟨fun k a => ⟨k * a.x, k * a.y, k * a.z⟩⟩

instance : HDiv (Vec3 α) α (Vec3 α) := ⟨fun a k => ⟨a.x / k, a.y / k, a.z / k⟩⟩

/-! ## Components -/

@[simp] theorem zero_x : (0 : Vec3 α).x = 0 := rfl

@[simp] theorem zero_y : (0 : Vec3 α).y = 0 := rfl

@[simp] theorem zero_z : (0 : Vec3 α).z = 0 := rfl

@[simp] theorem add_x (a b : Vec3 α) : (a + b).x = a.x + b.x := rfl

@[simp] theorem add_y (a b : Vec3 α) : (a + b).y = a.y + b.y := rfl

@[simp] theorem add_z (a b : Vec3 α) : (a + b).z = a.z + b.z := rfl

@[simp] theorem sub_x (a b : Vec3 α) : (a - b).x = a.x - b.x := rfl

@[simp] theorem sub_y (a b : Vec3 α) : (a - b).y = a.y - b.y := rfl

@[simp] theorem sub_z (a b : Vec3 α) : (a - b).z = a.z - b.z := rfl

@[simp] theorem smul_x (k : α) (a : Vec3 α) : (k • a).x = k * a.x := rfl

@[simp] theorem smul_y (k : α) (a : Vec3 α) : (k • a).y = k * a.y := rfl

@[simp] theorem smul_z (k : α) (a : Vec3 α) : (k • a).z = k * a.z := rfl

@[simp] theorem div_x (a : Vec3 α) (k : α) : (a / k).x = a.x / k := rfl

@[simp] theorem div_y (a : Vec3 α) (k : α) : (a / k).y = a.y / k := rfl

@[simp] theorem div_z (a : Vec3 α) (k : α) : (a / k).z = a.z / k := rfl

/-! ## Products and directions -/

def dot (a b : Vec3 α) : α := a.x * b.x + a.y * b.y + a.z * b.z

def cross (a b : Vec3 α) : Vec3 α :=
  ⟨a.y * b.z - b.y * a.z, a.z * b.x - b.z * a.x, a.x * b.y - b.x * a.y⟩

def length (a : Vec3 α) : α := Scalar.sqrt (a.dot a)

/-- Unit vector of the same direction. A vector whose length has no positive finite reciprocal has
no direction and gives zero. -/
def direction (a : Vec3 α) : Vec3 α :=
  let reciprocal := 1 / a.length
  if Scalar.isFinite reciprocal ∧ 0 < reciprocal then reciprocal • a else 0

def maxAbs (a : Vec3 α) : α :=
  Scalar.max (Scalar.abs a.x) (Scalar.max (Scalar.abs a.y) (Scalar.abs a.z))

/-- Rotation about the third axis, as the sum of the turned axes weighted by the components. -/
def rotateZ (angle : α) (a : Vec3 α) : Vec3 α :=
  let sin := Scalar.sin angle
  let cos := Scalar.cos angle
  a.x • (⟨cos, sin, 0⟩ : Vec3 α) + a.y • (⟨-sin, cos, 0⟩ : Vec3 α) + a.z • (⟨0, 0, 1⟩ : Vec3 α)

end Vec3

end BeamTransport
