import BeamTransport.ConfigError
import BeamTransport.Integrator

/-!
# Magnets

A magnet is described by its kind, the design rigidity, its strengths and its geometry. From the
description come its field and, with the algorithm that an integrator set assigns to its kind, the
integrator that carries particles through it.
-/

namespace BeamTransport

/-- Angle that turns a normal multipole of an order into its skew partner. -/
def skewAngle {α : Type} [Scalar α] (order : Nat) : α :=
  Scalar.pi / (2 * (Scalar.ofNat order + 1))

structure Magnet (α : Type) where
  kind : FieldKind
  /-- Design rigidity, signed by the charge it is meant for. -/
  rigidity : α
  strengths : Strengths α
  geometry : BendGeometry α
  /-- The end that it describes, when it is the edge of a bend. -/
  face : Face

namespace Magnet

variable {α : Type} [Scalar α]

/-- The normal coefficient of an order: its strength times the rigidity. -/
def coefficient (magnet : Magnet α) (order : Nat) : α :=
  match StrengthKey.normal? order with
  | some key => magnet.strengths.get key * magnet.rigidity
  | none => 0

/-- The field of a magnet, for the kinds that have a field map. An edge has the field of its bend,
and a skew magnet the field of its normal partner, turned. -/
def field? (magnet : Magnet α) : Option (FieldMap α) :=
  match magnet.kind with
  | .none => some (.uniform 0)
  | .solenoid => some (.uniform ⟨0, 0, magnet.coefficient 0⟩)
  | .dipole | .dipoleFringe => some (.dipole (magnet.geometry.field magnet.rigidity))
  | .dipoleQuadrupole =>
    some (.sector (magnet.geometry.field magnet.rigidity) (magnet.coefficient 1)
      magnet.geometry.curvature)
  | .quadrupole => some (.quadrupole (magnet.coefficient 1))
  | .sextupole => some (Multipole.single 2 (magnet.coefficient 2)).field
  | .octupole => some (Multipole.single 3 (magnet.coefficient 3)).field
  | .decapole => some (Multipole.single 4 (magnet.coefficient 4)).field
  | .multipole => some (Multipole.ofStrengths magnet.strengths magnet.rigidity).field
  | .skewQuadrupole => some (.skew (skewAngle 1) (.quadrupole (magnet.coefficient 1)))
  | .skewSextupole => some (.skew (skewAngle 2) (Multipole.single 2 (magnet.coefficient 2)).field)
  | .skewOctupole => some (.skew (skewAngle 3) (Multipole.single 3 (magnet.coefficient 3)).field)
  | .skewDecapole => some (.skew (skewAngle 4) (Multipole.single 4 (magnet.coefficient 4)).field)
  | .muonSpoiler | .rfCavity | .rf | .general => none

/-- The field of a magnet. -/
def field (magnet : Magnet α) : Except (ConfigError α) (FieldMap α) :=
  match magnet.field? with
  | some field => .ok field
  | none => .error (.unsupportedField magnet.kind)

/-- Checks the rigidity, then the geometry. -/
def check (magnet : Magnet α) : Except (ConfigError α) Unit :=
  if !Scalar.isFinite magnet.rigidity || magnet.rigidity == 0 then
    .error (.rigidity magnet.rigidity)
  else
    match magnet.geometry.fault? with
    | some fault => .error (.geometry fault)
    | none => .ok ()

/-- The integrator of an algorithm for a magnet. Only Runge-Kutta needs a field map. -/
def integratorOf (magnet : Magnet α) (motion : Motion α) (context : Context α) :
    IntegratorKind → Except (ConfigError α) (Integrator α)
  | .drift => .ok .drift
  | .dipole =>
    .ok (.dipole (.ofMagnet motion magnet.strengths magnet.geometry magnet.rigidity))
  | .dipoleQuadrupole =>
    .ok (.dipoleQuadrupole
      (.ofMagnet motion magnet.strengths magnet.geometry magnet.rigidity context))
  | .dipoleFringe =>
    .ok (.dipoleFringe
      (.ofMagnet motion magnet.strengths magnet.geometry magnet.face magnet.rigidity context))
  | .rungeKutta => return .rungeKutta ⟨motion, ← magnet.field⟩

/-- The integrator that a set assigns to a magnet, once the description is checked. -/
def integrator (magnet : Magnet α) (set : IntegratorSet) (motion : Motion α) (context : Context α) :
    Except (ConfigError α) (Integrator α) := do
  magnet.check
  magnet.integratorOf motion context (set.integratorFor magnet.kind)

/-- Path length that a magnet is tracked over: an edge is one thin element long, and any other
magnet as long as its arc. The thin length is asked for only by an edge. -/
def trackedLengthM {m : Type → Type} [Monad m] (askThin : m α) (magnet : Magnet α) : m α :=
  match magnet.kind with
  | .dipoleFringe => askThin
  | _ => pure magnet.geometry.arcLength

def trackedLength (magnet : Magnet α) (context : Context α) : α :=
  Id.run (magnet.trackedLengthM (pure context.thin.value))

end Magnet

end BeamTransport
