import BeamTransport.Magnet

/-!
# Divisions under watch

The formulas of geometry, orbit frames, fields, helices, edge kicks and Runge-Kutta steps once more, over any
monad in which their divisions can be carried out, so that a division can be watched. The linear matrix of
bends with a gradient is not among them.

Here they are only written down. Nothing but the division of `Division` divides in them; that they are the
formulas of the library is shown in `BeamTransport.Proofs.CarriedOut`.
-/

namespace BeamTransport

/-- How divisions are carried out. The reciprocal of the length that a direction is taken by is an operation of
its own, so that a watch can tell this divisor from the others. -/
structure Division (m : Type → Type) (α : Type) where
  quotient : α → α → m α
  reciprocal : α → m α

/-- A derivative and a step whose divisions are carried out in a monad. -/
@[ext]
structure Course (m : Type → Type) (α : Type) where
  derivative : State α → m (State α)
  step : State α → State α → α → m (Step α)

namespace Division

variable {α : Type} [Scalar α] {m : Type → Type} [Monad m] (d : Division m α)

def divided (a : Vec3 α) (k : α) : m (Vec3 α) := do
  return ⟨← d.quotient a.x k, ← d.quotient a.y k, ← d.quotient a.z k⟩

/-- The direction of a vector. The reciprocal comes first and is judged then. -/
def direction (a : Vec3 α) : m (Vec3 α) := do
  let reciprocal ← d.reciprocal a.length
  return if Scalar.isFinite reciprocal ∧ 0 < reciprocal then reciprocal • a else 0

/-! ## Geometry -/

def orbitCurvature (g : BendGeometry α) : m α :=
  if g.isBent then d.quotient g.angle g.arcLength else pure 0

def radius? (g : BendGeometry α) : m (Option α) :=
  if g.isBent then some <$> d.quotient g.arcLength g.angle else pure none

def chordLength (g : BendGeometry α) : m α :=
  if g.isBent then d.quotient (2 * g.arcLength * Scalar.sin (0.5 * g.angle)) g.angle
  else pure g.arcLength

def bendField (g : BendGeometry α) (rigidity : α) : m α := do
  return rigidity * (← d.orbitCurvature g)

def fringeCorrection (radius poleFace fringeIntegral halfGap : α) : m α :=
  if Significant fringeIntegral ∧ Significant halfGap ∧ Significant radius then
    let sin := Scalar.sin poleFace
    d.quotient (2 * fringeIntegral * halfGap * (1 + sin * sin)) (radius * Scalar.cos poleFace)
  else pure 0

def correction (g : BendGeometry α) (face : Face) : m α := do
  match ← d.radius? g with
  | some radius => d.fringeCorrection radius (g.poleFace face) g.fringeIntegral g.halfGap
  | none => return 0

/-! ## Orbit frames -/

def locate (frame : OrbitFrame α) (position : Vec3 α) : m (OrbitPoint α) :=
  if frame.isStraight then pure ⟨position.x, position.y, position.z⟩
  else do
    let inverse ← d.quotient 1 frame.curvature
    let sign := Scalar.sign frame.curvature
    let u := position.x + inverse
    let radius := Scalar.hypot u position.z
    let phi := Scalar.atan2 (sign * position.z) (sign * u)
    return ⟨sign * radius - inverse, position.y, ← d.quotient phi frame.curvature⟩

def ofLocal (frame : OrbitFrame α) (state : State α) : m (OrbitCoords α) := do
  let point ← d.locate frame state.position
  return { point with
    px := state.momentum.dot (frame.normal point.s)
    py := state.momentum.y
    ps := state.momentum.dot (frame.tangent point.s) }

def toLocal (frame : OrbitFrame α) (c : OrbitCoords α) : m (State α) :=
  let normal := frame.normal c.s
  let momentum := c.px • normal + (⟨0, c.py, 0⟩ : Vec3 α) + c.ps • frame.tangent c.s
  if frame.isStraight then pure ⟨⟨c.x, c.y, c.s⟩, momentum⟩
  else do
    let inverse ← d.quotient 1 frame.curvature
    return ⟨(⟨-inverse, c.y, 0⟩ : Vec3 α) + (inverse + c.x) • normal, momentum⟩

def ofSlopes (point : OrbitPoint α) (xp yp momentum : α) : m (OrbitCoords α) := do
  let ps ← d.quotient momentum (Scalar.sqrt (1 + xp * xp + yp * yp))
  return { point with px := xp * ps, py := yp * ps, ps }

/-! ## Motion and fields -/

def drift (state : State α) (h : α) : m (State α) := do
  return ⟨state.position + h • (← d.direction state.momentum), state.momentum⟩

def driftDerivative (state : State α) : m (State α) := do
  return ⟨← d.direction state.momentum, 0⟩

def pathCurvature (motion : Motion α) (field momentum : α) : m α :=
  d.quotient (motion.coupling * field) momentum

def force (motion : Motion α) (momentum field : Vec3 α) : m (Vec3 α) := do
  return motion.coupling • (← d.direction momentum).cross field

def orbitGradient (frame : OrbitFrame α) (gradient : α) (position : Vec3 α) : m (Vec3 α) := do
  let point ← d.locate frame position
  return (⟨0, gradient * point.x, 0⟩ : Vec3 α) + (gradient * point.y) • frame.normal point.s

def sector (base gradient : α) (frame : OrbitFrame α) (position : Vec3 α) : m (Vec3 α) := do
  let point ← d.locate frame position
  return (⟨0, base + gradient * point.x, 0⟩ : Vec3 α) + (gradient * point.y) • frame.normal point.s

def nextOrder (multipole : Multipole α) (x y : α) (sum : Multipole.Sum α) (index : Fin 12) :
    m (Multipole.Sum α) := do
  let n : α := Scalar.ofNat (index.val + 1)
  let re ← d.quotient (sum.re * x - sum.im * y) n
  let im ← d.quotient (sum.re * y + sum.im * x) n
  return { re, im
           vertical := sum.vertical + (multipole.normal index * re - multipole.skew index * im)
           horizontal := sum.horizontal + (multipole.normal index * im + multipole.skew index * re) }

def multipole (multipole : Multipole α) (position : Vec3 α) : m (Vec3 α) := do
  let sum ← (List.finRange 12).foldlM (d.nextOrder multipole position.x position.y) Multipole.Sum.start
  return ⟨sum.horizontal, sum.vertical, 0⟩

/-- A field turned by an angle about the axis. -/
def skewBy (angle : α) (field : Vec3 α → m (Vec3 α)) (position : Vec3 α) : m (Vec3 α) := do
  return (← field (position.rotateZ (-angle))).rotateZ angle

/-- A field turned by the angle of a skew multipole. -/
def skew (order : Nat) (field : Vec3 α → m (Vec3 α)) : m (Vec3 α → m (Vec3 α)) := do
  return skewBy (← d.quotient Scalar.pi (2 * (Scalar.ofNat order + 1))) field

def quadrupole (gradient : α) (position : Vec3 α) : m (Vec3 α) :=
  pure (FieldMap.quadrupole gradient position)

/-- The field of a magnet, for the kinds that have a field map. -/
def field? (magnet : Magnet α) : Option (m (Vec3 α → m (Vec3 α))) :=
  let single order := d.multipole (Multipole.single order (magnet.coefficient order))
  match magnet.kind with
  | .none => some (pure fun _ => pure 0)
  | .solenoid => some (pure fun _ => pure ⟨0, 0, magnet.coefficient 0⟩)
  | .dipole | .dipoleFringe => some do
    let field ← d.bendField magnet.geometry magnet.rigidity
    return fun _ => pure ⟨0, field, 0⟩
  | .dipoleQuadrupole => some do
    let field ← d.bendField magnet.geometry magnet.rigidity
    return d.sector field (magnet.coefficient 1) (.ofCurvature (← d.orbitCurvature magnet.geometry))
  | .quadrupole => some (pure (quadrupole (magnet.coefficient 1)))
  | .sextupole => some (pure (single 2))
  | .octupole => some (pure (single 3))
  | .decapole => some (pure (single 4))
  | .multipole =>
    some (pure (d.multipole (Multipole.ofStrengths magnet.strengths magnet.rigidity)))
  | .skewQuadrupole => some (d.skew 1 (quadrupole (magnet.coefficient 1)))
  | .skewSextupole => some (d.skew 2 (single 2))
  | .skewOctupole => some (d.skew 3 (single 3))
  | .skewDecapole => some (d.skew 4 (single 4))
  | .muonSpoiler | .rfCavity | .rf | .general => none

/-! ## Helices -/

def chord (kappa h : α) : m α :=
  if Significant kappa then d.quotient (2 * Scalar.sin (0.5 * (kappa * h))) kappa else pure h

def helix (motion : Motion α) (state : State α) (field : Vec3 α) (h : α) : m (State α) :=
  let b := field.length
  let p := state.momentum.length
  if Significant b ∧ ¬ (p == 0) then do
    let axis ← d.divided field b
    let direction ← d.divided state.momentum p
    let kappa ← d.pathCurvature motion b p
    let theta := kappa * h
    return ⟨state.position + h • direction.along axis
        + (← d.chord kappa h) • direction.turnAcross axis (0.5 * theta),
      p • direction.turn axis theta⟩
  else d.drift state h

def rotate (motion : Motion α) (momentum field : Vec3 α) (h : α) : m (Vec3 α) :=
  let b := field.length
  let p := momentum.length
  if Significant b ∧ ¬ (p == 0) then do
    let direction ← d.divided momentum p
    let axis ← d.divided field b
    return p • direction.turn axis ((← d.pathCurvature motion b p) * h)
  else pure momentum

def dipole (motion : Motion α) (strengths : Strengths α) (geometry : BendGeometry α) (rigidity : α) :
    m (Dipole α) := do
  return {
    motion
    field := ← d.bendField geometry rigidity
    gradient := strengths.get .k1 * rigidity
    angle := geometry.angle
    length := geometry.arcLength
    frame := .ofCurvature (← d.orbitCurvature geometry) }

def gradientField (dipole : Dipole α) (position : Vec3 α) : m (Vec3 α) :=
  if Significant dipole.gradient then d.orbitGradient dipole.frame dipole.gradient position else pure 0

def advance (dipole : Dipole α) (state : State α) (h : α) : m (State α) :=
  if Significant dipole.gradient then do
    let first ← d.helix dipole.motion state dipole.fieldVector (0.5 * h)
    let field ← d.gradientField dipole first.position
    let kicked ← d.rotate dipole.motion first.momentum field h
    d.helix dipole.motion ⟨first.position, kicked⟩ dipole.fieldVector (0.5 * h)
  else d.helix dipole.motion state dipole.fieldVector h

def dipoleDerivative (dipole : Dipole α) (state : State α) : m (State α) := do
  let field := dipole.fieldVector + (← d.gradientField dipole state.position)
  return ⟨← d.direction state.momentum, ← d.force dipole.motion state.momentum field⟩

def dipoleStep (dipole : Dipole α) (state : State α) (h : α) : m (Step α) :=
  if dipole.isZero then do return .exact (← d.drift state h)
  else do
    let middle ← d.advance dipole state (0.5 * h)
    return .comparing (← d.advance dipole middle (0.5 * h)) (← d.advance dipole state h)

/-! ## Edge kicks -/

def edge (motion : Motion α) (strengths : Strengths α) (geometry : BendGeometry α) (face : Face)
    (rigidity : α) (context : Context α) : m (DipoleFringe α) := do
  return {
    body := ← d.dipole motion strengths geometry rigidity
    poleFace := geometry.poleFace face
    correction := ← d.correction geometry face
    thin := context.thin }

def kickFraction (thin h : α) : m α :=
  if 0 < thin then do return Scalar.min (← d.quotient h thin) 1 else pure 1

def kicked (edge : DipoleFringe α) (c : OrbitCoords α) (p fraction : α) : m (OrbitCoords α) := do
  let kappa ← d.pathCurvature edge.body.motion edge.body.field p
  let xp := (← d.quotient c.px c.ps) + fraction * kappa * Scalar.tan edge.poleFace * c.x
  let yp := (← d.quotient c.py c.ps)
    - fraction * kappa * Scalar.tan (edge.poleFace - edge.correction) * c.y
  d.ofSlopes c.toOrbitPoint xp yp p

def kick (edge : DipoleFringe α) (state : State α) (h : α) : m (State α) := do
  let p := state.momentum.length
  let c ← d.ofLocal edge.body.frame state
  if p == 0 || c.ps ≤ 0 then return state
  else
    let fraction ← d.kickFraction edge.thin.value h
    let kicked ← d.kicked edge c p fraction
    return ⟨state.position, (← d.toLocal edge.body.frame kicked).momentum⟩

def edgeStep (edge : DipoleFringe α) (state : State α) (h : α) : m (Step α) :=
  if Significant edge.body.field then do d.dipoleStep edge.body (← d.kick edge state h) h
  else do return .exact (← d.drift state h)

/-! ## Runge-Kutta steps -/

def fieldDerivative (motion : Motion α) (field : Vec3 α → m (Vec3 α)) (state : State α) :
    m (State α) := do
  let direction ← d.direction state.momentum
  return ⟨direction, motion.coupling • direction.cross (← field state.position)⟩

def singleStep (motion : Motion α) (field : Vec3 α → m (Vec3 α)) (y k1 : State α) (h : α) :
    m (State α) := do
  let k2 ← d.fieldDerivative motion field (y + (0.5 * h) • k1)
  let k3 ← d.fieldDerivative motion field (y + (0.5 * h) • k2)
  let k4 ← d.fieldDerivative motion field (y + h • k3)
  return y + (← d.quotient h 6) • (k1 + (2 : α) • k2 + (2 : α) • k3 + k4)

def rungeKuttaStep (motion : Motion α) (field : Vec3 α → m (Vec3 α)) (y dydx : State α) (h : α) :
    m (Step α) := do
  let middle ← d.singleStep motion field y dydx (0.5 * h)
  let halves ← d.singleStep motion field middle (← d.fieldDerivative motion field middle) (0.5 * h)
  return .comparing halves (← d.singleStep motion field y dydx h)

/-! ## Integrators -/

def driftCourse : Course m α where
  derivative := d.driftDerivative
  step state _ h := do return .exact (← d.drift state h)

def dipoleCourse (dipole : Dipole α) : Course m α where
  derivative := d.dipoleDerivative dipole
  step state _ h := d.dipoleStep dipole state h

def edgeCourse (edge : DipoleFringe α) : Course m α where
  derivative := d.dipoleDerivative edge.body
  step state _ h := d.edgeStep edge state h

def fieldCourse (motion : Motion α) (field : Vec3 α → m (Vec3 α)) : Course m α where
  derivative := d.fieldDerivative motion field
  step := d.rungeKuttaStep motion field

/-- The algorithm of a magnet, built and ready to be run; none where it has no field map, and none for the
matrix. -/
def course (magnet : Magnet α) (motion : Motion α) (context : Context α) :
    IntegratorKind → m (Option (Course m α))
  | .drift => return some d.driftCourse
  | .dipole => do
    let dipole ← d.dipole motion magnet.strengths magnet.geometry magnet.rigidity
    return some (d.dipoleCourse dipole)
  | .dipoleFringe => do
    let edge ← d.edge motion magnet.strengths magnet.geometry magnet.face magnet.rigidity context
    return some (d.edgeCourse edge)
  | .rungeKutta =>
    match d.field? magnet with
    | some field => do return some (d.fieldCourse motion (← field))
    | none => return none
  | .dipoleQuadrupole => return none

end Division

/-! ## Stages -/

section

variable {α : Type} [Scalar α]

/-- The states at which a single step evaluates the derivative; that at its start is given. -/
def RungeKutta.laterStages (r : RungeKutta α) (y k1 : State α) (h : α) : List (State α) :=
  let first := y + (0.5 * h) • k1
  let second := y + (0.5 * h) • r.derivative first
  [first, second, y + h • r.derivative second]

/-- The states at which a step evaluates the derivative: those of its two halves, the middle between them, and
those of the full step that it is compared with. -/
def RungeKutta.stepStages (r : RungeKutta α) (y dydx : State α) (h : α) : List (State α) :=
  let middle := r.singleStep y dydx (0.5 * h)
  r.laterStages y dydx (0.5 * h) ++
    (middle :: r.laterStages middle (r.derivative middle) (0.5 * h) ++ r.laterStages y dydx h)

/-- The states that decide whether a step takes the direction of a momentum of zero. Helices and kicks keep the
magnitude of the momentum, so without Runge-Kutta this is the start alone. -/
def Integrator.stages : Integrator α → State α → State α → α → List (State α)
  | .rungeKutta method, state, dydx, h => method.stepStages state dydx h
  | _, state, _, _ => [state]

end

end BeamTransport
