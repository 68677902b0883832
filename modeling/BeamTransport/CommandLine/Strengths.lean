import BeamTransport.Decimal.Literal
import BeamTransport.Strength.Record
import BeamTransport.Text.Blank

/-!
# Strengths as options

A strength is given as `key=value`. The text is split at its first equals sign; both parts may be
surrounded by white space, the value is a decimal literal, and the key one of the strength keys. A
list of such texts is written into one record in order.
-/

namespace BeamTransport.CommandLine

inductive StrengthFault where
  | noEquals (text : String)
  | notNumeric (text : String)
  | invalidKey (fault : InvalidKey)

def StrengthFault.message : StrengthFault → String
  | .noEquals text => s!"strength \"{text}\" is not of the form key=value"
  | .notNumeric text => s!"strength \"{text}\" has a non-numeric value"
  | .invalidKey fault => fault.message

/-- The parts of a text before and behind its first equals sign. -/
def splitEquals? (text : List Char) : Option (List Char × List Char) :=
  match text.span (· ≠ '=') with
  | (key, _ :: value) => some (key, value)
  | (_, []) => none

variable {α : Type} [Scalar α] [Decimal.OfLiteral α]

/-- Writes the strength of a text into a record. -/
def writeStrength (strengths : Strengths α) (text : String) : Except StrengthFault (Strengths α) :=
  match splitEquals? text.toList with
  | none => .error (.noEquals text)
  | some (key, value) =>
    match Decimal.read? α (String.ofList (Text.trim value)) with
    | none => .error (.notNumeric text)
    | some value =>
      (strengths.setNamed (String.ofList (Text.trim key)) value).mapError .invalidKey

/-- The record of a list of strengths; the first faulty one is reported. -/
def readStrengths (texts : List String) : Except StrengthFault (Strengths α) :=
  texts.foldlM writeStrength .empty

end BeamTransport.CommandLine
