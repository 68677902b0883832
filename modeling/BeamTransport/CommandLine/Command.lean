import BeamTransport.CommandLine.Option
import BeamTransport.CommandLine.Word

/-!
# Commands

`Command.read` reads a list of words as a command. Words are taken from left to right, and the first
fault ends the reading. The value of an option may be attached to it by an equals sign or be the
next word. A separate value is judged only when the next option is recognised or the words end, so
an unknown word in between is reported first.
-/

namespace BeamTransport.CommandLine

/-- Why a list of words is no command. -/
inductive UsageFault where
  | helpRequested
  | missingCommand
  | unknownCommand
  /-- There is no such option, or a word too many. -/
  | unknownArgument
  | missingValue
  /-- An option without value has one attached. -/
  | unexpectedValue
  | malformedValue
  | repeatedOption
deriving DecidableEq

/-- What the program is asked to do. -/
inductive Command (α : Type) where
  | track (arguments : TrackArguments α)
  | sets (name? : Option String)

/-- The arguments of the track command as far as they were read. -/
structure Reading (α : Type) where
  arguments : TrackArguments α
  /-- Options that were stored. -/
  options : List ValueOption
  /-- Flags that were stored. -/
  flags : List Flag
  /-- An option that waits for its value, or for its separate value to be judged. -/
  pending? : Option (ValueOption × Option String)

namespace Reading

variable {α : Type} [Scalar α] [Decimal.OfLiteral α]

def start : Reading α := ⟨.standard, [], [], none⟩

/-- Stores the value of an option. That it was given before is found before its form is judged. -/
def store (r : Reading α) (option : ValueOption) (value : String) :
    Except UsageFault (Reading α) :=
  if !option.repeats && r.options.contains option then .error .repeatedOption
  else
    match option.store? r.arguments value with
    | some arguments => .ok { r with arguments, options := option :: r.options }
    | none => .error .malformedValue

def settle (r : Reading α) : Except UsageFault (Reading α) :=
  match r.pending? with
  | none => .ok r
  | some (_, none) => .error .missingValue
  | some (option, some value) => { r with pending? := none }.store option value

def long (r : Reading α) (name : String) (value? : Option String) :
    Except UsageFault (Reading α) := do
  match ValueOption.all.find? (·.name == name), Flag.all.find? (·.name == name), value? with
  | some option, _, some value => (← r.settle).store option value
  | some option, _, none => return { ← r.settle with pending? := some (option, none) }
  | none, some _, some _ => throw .unexpectedValue
  | none, some flag, none =>
    let r ← r.settle
    if r.flags.contains flag then throw .repeatedOption
    return { r with arguments := flag.store r.arguments, flags := flag :: r.flags }
  | none, none, value? =>
    if name != "help" then throw .unknownArgument
    if value?.isSome then throw .unexpectedValue
    let _ ← r.settle
    throw .helpRequested

/-- Reads letters behind one dash: a negative number for an option that takes one, or a call for
help. -/
def short (r : Reading α) (letters : List Char) : Except UsageFault (Reading α) := do
  match r.pending? with
  | some (option, none) =>
    if option.takesNegative && isUnsignedNumber letters then
      return { r with pending? := some (option, some (String.ofList ('-' :: letters))) }
  | _ => pure ()
  if letters.head? != some 'h' then throw .unknownArgument
  let _ ← r.settle
  throw .helpRequested

/-- Reads a plain word, which can only be the value of the option before it. -/
def plain (r : Reading α) (text : String) : Except UsageFault (Reading α) :=
  match r.pending? with
  | some (option, none) => .ok { r with pending? := some (option, some text) }
  | _ => .error .unknownArgument

/-- Reads the words of the track command. Nothing may follow a separator. -/
def words (r : Reading α) : List String → Except UsageFault (TrackArguments α)
  | [] => return (← r.settle).arguments
  | word :: rest =>
    match Word.ofString word with
    | .separator => if rest.isEmpty then return (← r.settle).arguments else throw .unknownArgument
    | .long name value? => do (← r.long name value?).words rest
    | .short letters => do (← r.short letters).words rest
    | .plain text => do (← r.plain text).words rest

end Reading

/-- Reads the words behind a separator in the listing command. -/
def readSetsPlain (name? : Option String) : List String → Except UsageFault (Option String)
  | [] => .ok name?
  | word :: rest => if name?.isSome then .error .unknownArgument else readSetsPlain (some word) rest

/-- Reads the words of the listing command: at most one name. -/
def readSets (name? : Option String) : List String → Except UsageFault (Option String)
  | [] => .ok name?
  | word :: rest =>
    match Word.ofString word with
    | .separator => readSetsPlain name? rest
    | .long "help" none => .error .helpRequested
    | .long "help" (some _) => .error .unexpectedValue
    | .short ('h' :: _) => .error .helpRequested
    | .long _ _ | .short _ => .error .unknownArgument
    | .plain text => if name?.isSome then .error .unknownArgument else readSets (some text) rest

/-- The names of the commands, among them the one that asks for help. -/
def commandNames : List String := ["track", "sets", "help"]

/-- Reads the words of the help command: at most one command. -/
def readHelp : List String → UsageFault
  | [] => .helpRequested
  | [word] => if commandNames.contains word then .helpRequested else .unknownCommand
  | _ => .unknownCommand

def Command.read {α : Type} [Scalar α] [Decimal.OfLiteral α] :
    List String → Except UsageFault (Command α)
  | [] => .error .missingCommand
  | word :: rest =>
    match Word.ofString word with
    | .plain "track" => return .track (← Reading.start.words rest)
    | .plain "sets" => return .sets (← readSets none rest)
    | .plain "help" => .error (readHelp rest)
    | .plain _ => .error .unknownCommand
    | .long "help" none | .short ('h' :: _) => .error .helpRequested
    | .long "help" (some _) => .error .unexpectedValue
    | .long _ _ | .short _ => .error .unknownArgument
    | .separator =>
      match rest with
      | [] => .error .missingCommand
      | next :: _ =>
        if commandNames.contains next then .error .unknownArgument else .error .unknownCommand

/-- The integrator sets as text: the one of a name, or all of them. -/
def listing {α : Type} (name? : Option String) : Except (ConfigError α) String :=
  match name? with
  | some name => return (← IntegratorSet.ofName name).text
  | none => return String.join (Profile.all.map fun profile => profile.set.text)

/-- Carries out a command; the answer is the text to be written. -/
def Command.run : Command Float → Except (TrackFault Float) String
  | .track arguments => do
    let coords ← arguments.run
    return String.join (coords.map fun c => c.text ++ "\n")
  | .sets name? => (listing name?).mapError .config

end BeamTransport.CommandLine
