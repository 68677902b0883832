import BeamTransport.Decimal.Style
import BeamTransport.Scalar.Double
import BeamTransport.Strength.Key

/-!
# Strength records

The normalised strengths of one magnet: a value under each key, where a key that was never written
reads as zero. Names outside the key set are refused and leave a record as it was.
-/

namespace BeamTransport

/-- A strength was addressed by a name that is no key. -/
structure InvalidKey where
  name : String

def InvalidKey.message (fault : InvalidKey) : String :=
  s!"invalid magnet strength key \"{fault.name}\""

def StrengthKey.ofName (name : String) : Except InvalidKey StrengthKey :=
  match ofName? name with
  | some key => .ok key
  | none => .error ⟨name⟩

structure Strengths (α : Type) where
  /-- The value last written under a key, if any was. -/
  get? : StrengthKey → Option α

namespace Strengths

variable {α : Type}

def empty : Strengths α := ⟨fun _ => none⟩

def isSet (strengths : Strengths α) (key : StrengthKey) : Bool := (strengths.get? key).isSome

def set (strengths : Strengths α) (key : StrengthKey) (value : α) : Strengths α :=
  ⟨fun other => if other = key then some value else strengths.get? other⟩

/-- Writes a value under the key of a name. -/
def setNamed (strengths : Strengths α) (name : String) (value : α) :
    Except InvalidKey (Strengths α) :=
  return strengths.set (← StrengthKey.ofName name) value

/-- The record of a list of names and values, written in order; the first name that is no key is
reported. -/
def ofPairs (pairs : List (String × α)) : Except InvalidKey (Strengths α) :=
  pairs.foldlM (fun strengths pair => strengths.setNamed pair.1 pair.2) empty

@[simp] theorem isSet_empty (key : StrengthKey) : (empty : Strengths α).isSet key = false := rfl

theorem isSet_set (strengths : Strengths α) (key other : StrengthKey) (value : α) :
    (strengths.set key value).isSet other = (decide (other = key) || strengths.isSet other) := by
  by_cases h : other = key <;> simp [isSet, set, h]

variable [Scalar α]

def get (strengths : Strengths α) (key : StrengthKey) : α := (strengths.get? key).getD 0

/-- Reads the value under the key of a name. -/
def getNamed (strengths : Strengths α) (name : String) : Except InvalidKey α :=
  return strengths.get (← StrengthKey.ofName name)

/-- Every key in canonical order with its value. -/
def toList (strengths : Strengths α) : List (StrengthKey × α) :=
  StrengthKey.all.map fun key => (key, strengths.get key)

/-- Records are equal when all keys read the same; writing a zero changes nothing. -/
instance : BEq (Strengths α) :=
  ⟨fun a b => StrengthKey.all.all fun key => a.get key == b.get key⟩

@[simp] theorem get_empty (key : StrengthKey) : (empty : Strengths α).get key = 0 := rfl

theorem get_set (strengths : Strengths α) (key other : StrengthKey) (value : α) :
    (strengths.set key value).get other = if other = key then value else strengths.get other := by
  by_cases h : other = key <;> simp [get, set, h]

/-- One line per key in canonical order. -/
def text (strengths : Strengths Float) : String :=
  String.join <| strengths.toList.map fun (key, value) =>
    key.name ++ ": " ++ Decimal.Style.plain.text value ++ "\n"

end Strengths

end BeamTransport
