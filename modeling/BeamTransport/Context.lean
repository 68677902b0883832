import BeamTransport.Scalar.Double
import BeamTransport.ThinLength

/-!
# Tracking context

The settings of a run: below which radius of curvature and beyond which angle to the orbit the
linear matrix is abandoned, and the length of thin elements. A context is checked once, before it is
used.
-/

namespace BeamTransport

/-- How a radius is held against its limit. -/
inductive Comparison where
  /-- The limit itself is still accepted. -/
  | strict
  /-- The limit itself is a violation. -/
  | inclusive
deriving DecidableEq

/-- Whether a radius violates a limit. No radius at all stands for a path without curvature, which
violates an inclusive limit only if that is infinite too. -/
def Comparison.violated {α : Type} [Scalar α] : Comparison → Option α → α → Bool
  | .strict, some radius, limit => radius < limit
  | .inclusive, some radius, limit => radius ≤ limit
  | .strict, none, _ => false
  | .inclusive, none, limit => !Scalar.isFinite limit && 0 < limit

/-- When a particle is close enough to the orbit for the linear matrix. -/
structure ParaxialCriterion (α : Type) where
  /-- Smallest share of the momentum along the orbit. -/
  forwardCosine : α
  /-- Factor on the smallest radius of curvature. -/
  margin : α
  comparison : Comparison

namespace ParaxialCriterion

variable {α : Type} [Scalar α]

def standard : ParaxialCriterion α := ⟨0.9, 1, .strict⟩

/-- Whether a particle of the given share of forward momentum and radius of curvature passes. -/
def accepts (c : ParaxialCriterion α) (forwardCosine : α) (radius : Option α)
    (minimumRadius : α) : Bool :=
  !(forwardCosine < c.forwardCosine) && !c.comparison.violated radius (minimumRadius * c.margin)

end ParaxialCriterion

/-- A setting that no context may have. -/
inductive SettingFault (α : Type) where
  | minimumRadius (value : α)
  | margin (value : α)

def SettingFault.message : SettingFault Float → String
  | .minimumRadius value =>
    s!"minimum radius of curvature {Decimal.Style.plain.text value} must be finite and non-negative"
  | .margin value => s!"paraxial margin {Decimal.Style.plain.text value} must be positive"

structure Context (α : Type) where
  minimumRadius : α
  criterion : ParaxialCriterion α
  thin : ThinLength α

namespace Context

variable {α : Type} [Scalar α]

def standard : Context α := ⟨0.05, .standard, .fixed 1e-6⟩

/-- The first faulty setting. The length of thin elements is never at fault. -/
def fault? (context : Context α) : Option (SettingFault α) :=
  if !Scalar.isFinite context.minimumRadius || context.minimumRadius < 0 then
    some (.minimumRadius context.minimumRadius)
  else if !Scalar.isFinite context.criterion.margin || context.criterion.margin ≤ 0 then
    some (.margin context.criterion.margin)
  else none

end Context

end BeamTransport
