import BeamTransport.Context
import BeamTransport.Integrator.Dipole

/-!
# Edge kicks

A rotated pole face deflects a particle in proportion to its offset from the reference orbit. The
edge is a thin element: a step shorter than its length gives the matching share of the kick, and is
followed by transport through the body of the bend. Offsets and slopes are those against the
reference orbit of the bend.

The length of thin elements is asked for only where a kick is due, so the kick and the step are
written over any monad in which it can be asked for; without effects they are `kick` and `step`.
-/

namespace BeamTransport

/-- The edge of a bending magnet, with the body behind it. -/
structure DipoleFringe (α : Type) where
  body : Dipole α
  poleFace : α
  /-- Correction of vertical focusing for the extent of the fringe field. -/
  correction : α
  thin : ThinLength α

namespace DipoleFringe

variable {α : Type} [Scalar α] {m : Type → Type} [Monad m]

/-- One edge of the bend of a geometry. -/
def ofMagnet (motion : Motion α) (strengths : Strengths α) (geometry : BendGeometry α) (face : Face)
    (rigidity : α) (context : Context α) : DipoleFringe α where
  body := .ofMagnet motion strengths geometry rigidity
  poleFace := geometry.poleFace face
  correction := geometry.correction face
  thin := context.thin

/-- Share of the kick that a step over a path length gives; without a positive thin length every
step gives all of it. -/
def kickFraction (thin h : α) : α := if 0 < thin then Scalar.min (h / thin) 1 else 1

/-- Orbit coordinates behind a share of the kick. The horizontal kick follows the pole face, the
vertical one the pole face less the fringe correction. -/
def kicked (edge : DipoleFringe α) (c : OrbitCoords α) (p fraction : α) : OrbitCoords α :=
  let kappa := edge.body.motion.curvature edge.body.field p
  let xp := c.xp + fraction * kappa * Scalar.tan edge.poleFace * c.x
  let yp := c.yp - fraction * kappa * Scalar.tan (edge.poleFace - edge.correction) * c.y
  .ofSlopes c.toOrbitPoint xp yp p

/-- The kick of a step, where the thin length is asked for only if the particle moves forward. Its
position stays, and its momentum keeps its magnitude. -/
def kickM (askThin : m α) (edge : DipoleFringe α) (state : State α) (h : α) : m (State α) := do
  let p := state.momentum.length
  let c := edge.body.frame.ofLocal state
  if p == 0 || c.ps ≤ 0 then return state
  let fraction := kickFraction (← askThin) h
  return ⟨state.position, (edge.body.frame.toLocal (edge.kicked c p fraction)).momentum⟩

/-- The kick, then the body; without a significant field, an exact drift. -/
def stepM (askThin : m α) (edge : DipoleFringe α) (state : State α) (h : α) : m (Step α) := do
  if Significant edge.body.field then
    return edge.body.step (← edge.kickM askThin state h) h
  else
    return .exact (state.drift h)

/-- The kick of a step. -/
def kick (edge : DipoleFringe α) (state : State α) (h : α) : State α :=
  Id.run (edge.kickM (pure edge.thin.value) state h)

/-- The kick, then the body. -/
def step (edge : DipoleFringe α) (state : State α) (h : α) : Step α :=
  Id.run (edge.stepM (pure edge.thin.value) state h)

/-- Change of a state along the path, that of the body. -/
def derivative (edge : DipoleFringe α) (state : State α) : State α := edge.body.derivative state

end DipoleFringe

end BeamTransport
