import BeamTransport.Context
import BeamTransport.Field.Kind
import BeamTransport.Geometry
import BeamTransport.Integrator.Profile

/-!
# Configuration errors

The ways in which a magnet or a run can be described wrongly, each with the text reported for it.
Names are reported as they were given.
-/

namespace BeamTransport

/-- Why a configuration was refused. -/
inductive ConfigError (α : Type) where
  | unknownIntegratorSet (name : String)
  | unknownIntegrator (name : String)
  | unknownField (name : String)
  /-- There is no field map for a kind of field that needs one. -/
  | unsupportedField (kind : FieldKind)
  | geometry (fault : GeometryFault α)
  | rigidity (value : α)
  | setting (fault : SettingFault α)

def ConfigError.message : ConfigError Float → String
  | .unknownIntegratorSet name => s!"unknown integrator set \"{name}\""
  | .unknownIntegrator name => s!"unknown integrator type \"{name}\""
  | .unknownField name => s!"unknown field type \"{name}\""
  | .unsupportedField kind =>
    s!"field type \"{kind.name}\" cannot be built by the tracking core"
  | .geometry fault => s!"invalid geometry: {fault.message}"
  | .rigidity value =>
    s!"invalid rigidity {Decimal.Style.plain.text value} T.m: must be finite and non-zero"
  | .setting fault => s!"invalid tracking parameter: {fault.message}"

variable {α : Type}

def FieldKind.ofName (name : String) : Except (ConfigError α) FieldKind :=
  match ofName? name with
  | some kind => .ok kind
  | Option.none => .error (.unknownField name)

def IntegratorKind.ofName (name : String) : Except (ConfigError α) IntegratorKind :=
  match ofName? name with
  | some kind => .ok kind
  | none => .error (.unknownIntegrator name)

def Profile.ofName (name : String) : Except (ConfigError α) Profile :=
  match ofName? name with
  | some profile => .ok profile
  | none => .error (.unknownIntegratorSet name)

def IntegratorSet.ofName (name : String) : Except (ConfigError α) IntegratorSet :=
  return (← Profile.ofName name).set

/-- A context, if its settings are in range. -/
def Context.checked [Scalar α] (context : Context α) : Except (ConfigError α) (Context α) :=
  match context.fault? with
  | some fault => .error (.setting fault)
  | none => .ok context

end BeamTransport
