import BeamTransport.State

/-!
# Coordinates along the reference orbit

The reference orbit of a magnet is an arc of constant curvature through the origin of the local
frame, tangent there to the third axis, with its centre on the first axis; without curvature it is
the third axis itself. A particle is described against it by the offsets from the nearest point of
the orbit, the distance of that point along the orbit, and the momentum along the normal, the
vertical and the tangent of the orbit there.
-/

namespace BeamTransport

/-- A position relative to the reference orbit. -/
@[ext]
structure OrbitPoint (α : Type) where
  x : α
  y : α
  s : α

/-- A position and a momentum relative to the reference orbit. -/
@[ext]
structure OrbitCoords (α : Type) extends OrbitPoint α where
  px : α
  py : α
  ps : α

namespace OrbitCoords

variable {α : Type} [Scalar α]

/-- Coordinates from the slopes against the orbit tangent and the magnitude of the momentum. -/
def ofSlopes (point : OrbitPoint α) (xp yp momentum : α) : OrbitCoords α :=
  let ps := momentum / Scalar.sqrt (1 + xp * xp + yp * yp)
  { point with px := xp * ps, py := yp * ps, ps }

def momentum (c : OrbitCoords α) : α := Scalar.sqrt (c.px * c.px + c.py * c.py + c.ps * c.ps)

def xp (c : OrbitCoords α) : α := c.px / c.ps

def yp (c : OrbitCoords α) : α := c.py / c.ps

/-- Share of the momentum that points along the orbit; zero for a particle at rest. -/
def forwardCosine (c : OrbitCoords α) : α :=
  if 0 < c.momentum then c.ps / c.momentum else 0

def amplitude (c : OrbitCoords α) : α := Scalar.hypot c.x c.y

end OrbitCoords

/-- The frame that moves along a reference orbit of constant curvature. -/
structure OrbitFrame (α : Type) where
  /-- Signed curvature of the orbit; a positive one bends to negative `x`. -/
  curvature : α

namespace OrbitFrame

variable {α : Type} [Scalar α]

/-- The frame of a curvature; one that is not significant counts as none. -/
def ofCurvature (curvature : α) : OrbitFrame α :=
  ⟨if Significant curvature then curvature else 0⟩

def isStraight (frame : OrbitFrame α) : Bool := frame.curvature == 0

/-- Angle that the orbit has turned after a distance. -/
def angle (frame : OrbitFrame α) (s : α) : α := frame.curvature * s

def tangent (frame : OrbitFrame α) (s : α) : Vec3 α :=
  ⟨-Scalar.sin (frame.angle s), 0, Scalar.cos (frame.angle s)⟩

def normal (frame : OrbitFrame α) (s : α) : Vec3 α :=
  ⟨Scalar.cos (frame.angle s), 0, Scalar.sin (frame.angle s)⟩

/-- The orbit coordinates of a local position. On a bent orbit they are polar coordinates about the
centre of curvature. -/
def locate (frame : OrbitFrame α) (position : Vec3 α) : OrbitPoint α :=
  if frame.isStraight then ⟨position.x, position.y, position.z⟩
  else
    let inverse := 1 / frame.curvature
    let sign := Scalar.sign frame.curvature
    let u := position.x + inverse
    let radius := Scalar.hypot u position.z
    let phi := Scalar.atan2 (sign * position.z) (sign * u)
    ⟨sign * radius - inverse, position.y, phi / frame.curvature⟩

/-- The orbit coordinates of a local state. -/
def ofLocal (frame : OrbitFrame α) (state : State α) : OrbitCoords α :=
  let point := frame.locate state.position
  { point with
    px := state.momentum.dot (frame.normal point.s)
    py := state.momentum.y
    ps := state.momentum.dot (frame.tangent point.s) }

/-- The local state of orbit coordinates. -/
def toLocal (frame : OrbitFrame α) (c : OrbitCoords α) : State α :=
  let normal := frame.normal c.s
  let momentum := c.px • normal + (⟨0, c.py, 0⟩ : Vec3 α) + c.ps • frame.tangent c.s
  if frame.isStraight then ⟨⟨c.x, c.y, c.s⟩, momentum⟩
  else
    let inverse := 1 / frame.curvature
    ⟨(⟨-inverse, c.y, 0⟩ : Vec3 α) + (inverse + c.x) • normal, momentum⟩

end OrbitFrame

end BeamTransport
