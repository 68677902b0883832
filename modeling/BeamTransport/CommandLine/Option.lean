import BeamTransport.CommandLine.Track

/-!
# Options of the track command

Each option has a name, behind two dashes, and either a value or none. A value is a text, a number
or a count. Only strengths may be given more than once.
-/

namespace BeamTransport.CommandLine

/-- An option of the track command that has a value. -/
inductive ValueOption where
  | field
  | set
  | length
  | angle
  | strength
  | entranceFace
  | exitFace
  | fringeIntegral
  | halfGap
  | particle
  | energy
  | rigidity
  | steps
  | x
  | y
  | xp
  | yp
  | minimumRadius
  | thinLength
deriving DecidableEq

/-- An option of the track command without a value. -/
inductive Flag where
  | exitFace
  /-- Count the smallest radius itself as a violation. -/
  | inclusive
deriving DecidableEq

namespace ValueOption

def all : List ValueOption :=
  [.field, .set, .length, .angle, .strength, .entranceFace, .exitFace, .fringeIntegral, .halfGap,
    .particle, .energy, .rigidity, .steps, .x, .y, .xp, .yp, .minimumRadius, .thinLength]

def name : ValueOption → String
  | .field => "field"
  | .set => "set"
  | .length => "length"
  | .angle => "angle"
  | .strength => "strength"
  | .entranceFace => "e1"
  | .exitFace => "e2"
  | .fringeIntegral => "fint"
  | .halfGap => "hgap"
  | .particle => "particle"
  | .energy => "energy"
  | .rigidity => "brho"
  | .steps => "steps"
  | .x => "x"
  | .y => "y"
  | .xp => "xp"
  | .yp => "yp"
  | .minimumRadius => "min-radius"
  | .thinLength => "thin-length"

/-- Whether the option may be given more than once. -/
def repeats : ValueOption → Bool
  | .strength => true
  | _ => false

/-- Whether a separate value may be a negative number. -/
def takesNegative : ValueOption → Bool
  | .rigidity | .x | .y | .xp | .yp => true
  | _ => false

variable {α : Type} [Decimal.OfLiteral α]

/-- Stores the value of an option; a value of the wrong form is refused. -/
def store? (arguments : TrackArguments α) (option : ValueOption) (value : String) :
    Option (TrackArguments α) :=
  let number := Decimal.read? α value
  match option with
  | .field => some { arguments with field := value }
  | .set => some { arguments with set := value }
  | .length => number.map fun n => { arguments with length := n }
  | .angle => number.map fun n => { arguments with angle := n }
  | .strength => some { arguments with strengths := arguments.strengths ++ [value] }
  | .entranceFace => number.map fun n => { arguments with entranceFace := n }
  | .exitFace => number.map fun n => { arguments with exitFace := n }
  | .fringeIntegral => number.map fun n => { arguments with fringeIntegral := n }
  | .halfGap => number.map fun n => { arguments with halfGap := n }
  | .particle => some { arguments with particle := value }
  | .energy => number.map fun n => { arguments with energy := n }
  | .rigidity => number.map fun n => { arguments with rigidity := some n }
  | .steps => (Decimal.readCount? value).map fun n => { arguments with steps := n }
  | .x => number.map fun n => { arguments with x := n }
  | .y => number.map fun n => { arguments with y := n }
  | .xp => number.map fun n => { arguments with xp := n }
  | .yp => number.map fun n => { arguments with yp := n }
  | .minimumRadius => number.map fun n => { arguments with minimumRadius := some n }
  | .thinLength => number.map fun n => { arguments with thinLength := some n }

end ValueOption

namespace Flag

def all : List Flag := [.exitFace, .inclusive]

def name : Flag → String
  | .exitFace => "exit-face"
  | .inclusive => "inclusive"

def store {α : Type} (arguments : TrackArguments α) : Flag → TrackArguments α
  | .exitFace => { arguments with atExit := true }
  | .inclusive => { arguments with inclusive := true }

end Flag

end BeamTransport.CommandLine
