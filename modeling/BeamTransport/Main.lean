import BeamTransport.CommandLine.Command

/-!
# Program

Reads the command line, carries out the command, and writes its answer or the reason of its failure.
The coordinates at the start are written before the magnet is checked.
-/

namespace BeamTransport.CommandLine

def usage : String :=
  "Commands:\n  track [OPTIONS]\n  sets [NAME]\n\nOptions of track:\n" ++
    String.join (ValueOption.all.map fun option => s!"  --{option.name} <VALUE>\n") ++
    String.join (Flag.all.map fun flag => s!"  --{flag.name}\n")

/-- The text written for a list of words that is no command. -/
def UsageFault.text : UsageFault → String
  | .helpRequested | .missingCommand => usage
  | .unknownCommand => "error: unrecognized subcommand\n"
  | .unknownArgument => "error: unexpected argument\n"
  | .missingValue => "error: a value is required\n"
  | .unexpectedValue => "error: unexpected value\n"
  | .malformedValue => "error: invalid value\n"
  | .repeatedOption => "error: an argument cannot be used multiple times\n"

def fail (fault : TrackFault Float) : IO UInt32 := do
  IO.eprintln s!"Error: {fault.message}"
  return 1

def runTrack (arguments : TrackArguments Float) : IO UInt32 := do
  match arguments.plan with
  | .error fault => fail fault
  | .ok plan =>
    IO.println plan.start.text
    match plan.track with
    | .error error => fail (.config error)
    | .ok coords =>
      for c in coords do
        IO.println c.text
      return 0

/-- Carries out a list of words and gives the exit code. -/
def runWords (words : List String) : IO UInt32 := do
  match (Command.read words : Except UsageFault (Command Float)) with
  | .error .helpRequested =>
    IO.print usage
    return 0
  | .error fault =>
    IO.eprint fault.text
    return 2
  | .ok (.track arguments) => runTrack arguments
  | .ok (.sets name?) =>
    match listing name? with
    | .error error => fail (.config error)
    | .ok text =>
      IO.print text
      return 0

end BeamTransport.CommandLine

/-- Reads the command line and carries it out. -/
def main (words : List String) : IO UInt32 := BeamTransport.CommandLine.runWords words
