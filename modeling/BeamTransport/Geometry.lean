import BeamTransport.Decimal.Style
import BeamTransport.Scalar.Double

/-!
# Bend geometry

The arc of a bending magnet, the rotation of its pole faces and the extent of its fringe field. A
magnet is bent when both its length and its angle are significant; all else follows from their
ratio. Nothing here divides by a quantity that is not significant, apart from the cosine of a pole
face.
-/

namespace BeamTransport

/-- The end of a magnet that a fringe field belongs to. -/
inductive Face where
  | entrance
  | exit
deriving DecidableEq

/-- Correction of vertical focusing for a fringe field of finite extent, at a pole face of a bend of
the given radius. There is none without a fringe integral, a gap or a radius. -/
def fringeCorrection {α : Type} [Scalar α] (radius poleFace fringeIntegral halfGap : α) : α :=
  if Significant fringeIntegral ∧ Significant halfGap ∧ Significant radius then
    let sin := Scalar.sin poleFace
    2 * fringeIntegral * halfGap * (1 + sin * sin) / (radius * Scalar.cos poleFace)
  else 0

/-- Whether a fringe correction is so large against its pole face that a warning is due. -/
def exceedsPoleFace {α : Type} [Scalar α] (correction poleFace : α) : Bool :=
  Scalar.abs poleFace < Scalar.abs correction && Significant poleFace

/-- Arc length, bend angle and pole faces of a magnet. -/
structure BendGeometry (α : Type) where
  /-- Length of the reference orbit in metres. -/
  arcLength : α
  /-- Signed angle that the orbit turns by. -/
  angle : α
  entranceFace : α
  exitFace : α
  fringeIntegral : α
  /-- Half of the gap between the poles in metres. -/
  halfGap : α

inductive GeometryParameter where
  | arcLength
  | angle
  | entranceFace
  | exitFace
  | fringeIntegral
  | halfGap
deriving DecidableEq

/-- The parameters in the order in which they are examined. -/
def GeometryParameter.all : List GeometryParameter :=
  [.arcLength, .angle, .entranceFace, .exitFace, .fringeIntegral, .halfGap]

def GeometryParameter.name : GeometryParameter → String
  | .arcLength => "arc length"
  | .angle => "angle"
  | .entranceFace => "entrance pole face"
  | .exitFace => "exit pole face"
  | .fringeIntegral => "fringe integral"
  | .halfGap => "half gap"

/-- What makes a geometry impossible. -/
inductive GeometryFault (α : Type) where
  | notFinite (parameter : GeometryParameter) (value : α)
  | negativeLength (length : α)
  /-- A bend angle without a length to turn over. -/
  | angleWithoutLength (angle : α)

def GeometryFault.message : GeometryFault Float → String
  | .notFinite parameter value =>
    s!"{parameter.name} is not finite ({Decimal.Style.plain.text value})"
  | .negativeLength length => s!"negative arc length {Decimal.Style.plain.text length}"
  | .angleWithoutLength angle =>
    s!"bend angle {Decimal.Style.plain.text angle} on a zero length element"

namespace BendGeometry

variable {α : Type} [Scalar α]

/-- A sector bend: no rotated pole faces and no fringe field. -/
def sector (arcLength angle : α) : BendGeometry α := ⟨arcLength, angle, 0, 0, 0, 0⟩

def parameter (g : BendGeometry α) : GeometryParameter → α
  | .arcLength => g.arcLength
  | .angle => g.angle
  | .entranceFace => g.entranceFace
  | .exitFace => g.exitFace
  | .fringeIntegral => g.fringeIntegral
  | .halfGap => g.halfGap

/-- The first fault of a geometry: a parameter that is not finite, a negative length, an angle
without length. -/
def fault? (g : BendGeometry α) : Option (GeometryFault α) :=
  match GeometryParameter.all.find? fun p => !Scalar.isFinite (g.parameter p) with
  | some p => some (.notFinite p (g.parameter p))
  | none =>
    if g.arcLength < 0 then some (.negativeLength g.arcLength)
    else if Significant g.angle ∧ ¬ Significant g.arcLength then some (.angleWithoutLength g.angle)
    else none

/-- Whether the reference orbit turns. -/
def isBent (g : BendGeometry α) : Bool := Significant g.angle ∧ Significant g.arcLength

/-- Signed curvature of the reference orbit. -/
def curvature (g : BendGeometry α) : α := if g.isBent then g.angle / g.arcLength else 0

/-- Signed bending radius; a straight magnet has none. -/
def radius? (g : BendGeometry α) : Option α :=
  if g.isBent then some (g.arcLength / g.angle) else none

/-- Straight distance between the ends of the reference orbit, with the sign of the length. -/
def chordLength (g : BendGeometry α) : α :=
  if g.isBent then 2 * g.arcLength * Scalar.sin (0.5 * g.angle) / g.angle else g.arcLength

/-- Vertical field that keeps a particle of the given rigidity on the reference orbit. -/
def field (g : BendGeometry α) (rigidity : α) : α := rigidity * g.curvature

def poleFace (g : BendGeometry α) : Face → α
  | .entrance => g.entranceFace
  | .exit => g.exitFace

/-- Fringe correction at one end; a straight magnet has none. -/
def correction (g : BendGeometry α) (face : Face) : α :=
  match g.radius? with
  | some radius => fringeCorrection radius (g.poleFace face) g.fringeIntegral g.halfGap
  | none => 0

def correctionExceeds (g : BendGeometry α) (face : Face) : Bool :=
  exceedsPoleFace (g.correction face) (g.poleFace face)

end BendGeometry

end BeamTransport
