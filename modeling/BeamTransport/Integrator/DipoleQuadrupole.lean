import BeamTransport.Context
import BeamTransport.Integrator.Dipole
import BeamTransport.Integrator.RungeKutta

/-!
# Linear matrices for bends with a gradient

Close to the reference orbit the motion is linear in the offsets and slopes:

    x'' = c (1 - r) - (r k1 + (2 r - 1) c ^ 2) x
    y'' = r k1 y

with the orbit curvature `c`, the quadrupole strength `k1`, and the design momentum over the actual
one as `r`. The solutions over a distance along the orbit are linear combinations of the focusing
functions. Particles too far from the orbit are left to Runge-Kutta steps over the same field.
-/

namespace BeamTransport

variable {α : Type} [Scalar α]

/-- The solutions of `u'' = -omega2 u`, starting as a cosine and as a sine, and of
`u'' = 1 - omega2 u`, starting at rest. -/
structure Focusing (α : Type) where
  /-- The solution with value one and slope zero. -/
  cosine : α
  /-- The solution with value zero and slope one. -/
  sine : α
  /-- The driven solution with value and slope zero. -/
  dispersion : α

namespace Focusing

/-- Phases whose square is below this one are served by the series. -/
def seriesThreshold : α := 1e-8

/-- The solutions for a short distance, two terms of each series. -/
def series (phase2 s : α) : Focusing α :=
  ⟨1 - 0.5 * phase2, s * (1 - phase2 / 6), 0.5 * s * s * (1 - phase2 / 12)⟩

/-- The solutions under a force towards the orbit. -/
def focused (omega2 s : α) : Focusing α :=
  let omega := Scalar.sqrt omega2
  let half := Scalar.sin (0.5 * (omega * s))
  ⟨Scalar.cos (omega * s), Scalar.sin (omega * s) / omega, 2 * half * half / omega2⟩

/-- The solutions under a force away from the orbit. -/
def defocused (omega2 s : α) : Focusing α :=
  let omega := Scalar.sqrt (-omega2)
  let half := Scalar.sinh (0.5 * (omega * s))
  ⟨Scalar.cosh (omega * s), Scalar.sinh (omega * s) / omega, -2 * half * half / omega2⟩

/-- The solutions after a distance. -/
def after (omega2 s : α) : Focusing α :=
  if Scalar.abs (omega2 * s * s) < seriesThreshold then series (omega2 * s * s) s
  else if 0 < omega2 then focused omega2 s
  else defocused omega2 s

end Focusing

/-- Offsets and slopes across the orbit. -/
structure Transverse (α : Type) where
  x : α
  xp : α
  y : α
  yp : α

/-- A bend with a gradient, for particles near its reference orbit. -/
structure DipoleQuadrupole (α : Type) where
  motion : Motion α
  /-- The bend without its gradient. -/
  bend : Dipole α
  /-- Runge-Kutta transport over the full field. -/
  backup : RungeKutta α
  frame : OrbitFrame α
  rigidity : α
  k1 : α
  field : α
  gradient : α
  minimumRadius : α
  criterion : ParaxialCriterion α

namespace DipoleQuadrupole

/-- The bend of a geometry with the quadrupole strength of a record, at a design rigidity. -/
def ofMagnet (motion : Motion α) (strengths : Strengths α) (geometry : BendGeometry α)
    (rigidity : α) (context : Context α) : DipoleQuadrupole α :=
  let k1 := strengths.get .k1
  let field := geometry.field rigidity
  let gradient := k1 * rigidity
  { motion, rigidity, k1, field, gradient
    bend := .withoutGradient motion geometry rigidity
    backup := ⟨motion, FieldMap.sector field gradient geometry.curvature⟩
    frame := .ofCurvature geometry.curvature
    minimumRadius := context.minimumRadius
    criterion := context.criterion }

/-- Radius of curvature of the path in the bending field plus the gradient at the particle; none
where there is no field. -/
def radiusOfCurvature (q : DipoleQuadrupole α) (c : OrbitCoords α) : Option α :=
  let field := Scalar.abs q.field + Scalar.abs q.gradient * c.amplitude
  let bending := Scalar.abs q.motion.coupling * field
  if 0 < bending then some (c.momentum / bending) else none

/-- Whether the matrix is valid for a particle. -/
def isParaxial (q : DipoleQuadrupole α) (c : OrbitCoords α) : Bool :=
  q.criterion.accepts c.forwardCosine (q.radiusOfCurvature c) q.minimumRadius

/-- Design momentum over the momentum of a particle. -/
def momentumRatio (q : DipoleQuadrupole α) (c : OrbitCoords α) : α :=
  q.motion.coupling * q.rigidity / c.momentum

/-- Horizontal focusing of a particle. -/
def horizontalFocusing (q : DipoleQuadrupole α) (c : OrbitCoords α) : α :=
  let r := q.momentumRatio c
  r * q.k1 + (2 * r - 1) * q.frame.curvature * q.frame.curvature

/-- Vertical focusing of a particle. -/
def verticalFocusing (q : DipoleQuadrupole α) (c : OrbitCoords α) : α := -q.momentumRatio c * q.k1

/-- Curvature of the orbit that the momentum of a particle does not follow. -/
def dispersionSource (q : DipoleQuadrupole α) (c : OrbitCoords α) : α :=
  q.frame.curvature * (1 - q.momentumRatio c)

/-- Offsets and slopes after a distance along the orbit. -/
def transport (q : DipoleQuadrupole α) (c : OrbitCoords α) (ds : α) : Transverse α :=
  let omegaX2 := q.horizontalFocusing c
  let omegaY2 := q.verticalFocusing c
  let source := q.dispersionSource c
  let h := Focusing.after omegaX2 ds
  let v := Focusing.after omegaY2 ds
  { x := c.x * h.cosine + c.xp * h.sine + source * h.dispersion
    xp := -omegaX2 * h.sine * c.x + c.xp * h.cosine + source * h.sine
    y := c.y * v.cosine + c.yp * v.sine
    yp := -omegaY2 * v.sine * c.y + c.yp * v.cosine }

/-- A path length projected onto the orbit, at a horizontal offset and at slopes. -/
def projected (q : DipoleQuadrupole α) (h x xp yp : α) : α :=
  h / ((1 + q.frame.curvature * x) * Scalar.sqrt (1 + xp * xp + yp * yp))

/-- Offsets and slopes after the path length projected at the incoming ones: a first estimate of
where the step ends. -/
def estimate (q : DipoleQuadrupole α) (c : OrbitCoords α) (h : α) : Transverse α :=
  q.transport c (q.projected h c.x c.xp c.yp)

/-- Distance along the orbit that a path length covers, projected at the mean of the incoming offset
and slopes and those of the first estimate. -/
def orbitAdvance (q : DipoleQuadrupole α) (c : OrbitCoords α) (h : α) : α :=
  let e := q.estimate c h
  q.projected h (0.5 * (c.x + e.x)) (0.5 * (c.xp + e.xp)) (0.5 * (c.yp + e.yp))

/-- The matrix step: offsets and slopes transported along the orbit at constant momentum. -/
def matrixStep (q : DipoleQuadrupole α) (c : OrbitCoords α) (h : α) : OrbitCoords α :=
  let ds := q.orbitAdvance c h
  let t := q.transport c ds
  .ofSlopes ⟨t.x, t.y, c.s + ds⟩ t.xp t.yp c.momentum

def derivative (q : DipoleQuadrupole α) (state : State α) : State α := q.backup.derivative state

/-- Without gradient a helix, near the orbit a matrix step, and else a Runge-Kutta step. -/
def step (q : DipoleQuadrupole α) (state dydx : State α) (h : α) : Step α :=
  let c := q.frame.ofLocal state
  if ¬ Significant q.k1 then q.bend.step state h
  else if q.isParaxial c then .exact (q.frame.toLocal (q.matrixStep c h))
  else q.backup.step state dydx h

end DipoleQuadrupole

end BeamTransport
