/-!
# Words of a command line

A word is a long option with or without an attached value, a group of letters behind one dash, two
dashes alone, or a plain text. A single dash is plain.
-/

namespace BeamTransport.CommandLine

inductive Word where
  /-- Two dashes: all further words are plain. -/
  | separator
  /-- Two dashes and a name, and perhaps an equals sign and a value. -/
  | long (name : String) (value? : Option String)
  /-- One dash and letters. -/
  | short (letters : List Char)
  /-- Anything else. -/
  | plain (text : String)
deriving DecidableEq

def Word.ofString (word : String) : Word :=
  match word.toList with
  | ['-', '-'] => .separator
  | '-' :: '-' :: rest =>
    match rest.span (· ≠ '=') with
    | (name, []) => .long (String.ofList name) none
    | (name, _ :: value) => .long (String.ofList name) (some (String.ofList value))
  | '-' :: letter :: rest => .short (letter :: rest)
  | _ => .plain word

/-- Whether letters behind a dash spell a number: digits, with at most one point behind the first
character and at most one exponent, whose letter, of either case, is neither the first character nor
the last. The exponent has no sign. -/
def isUnsignedNumber (letters : List Char) : Bool :=
  let (whole, rest) := letters.span Char.isDigit
  let exponent := fun (rest : List Char) =>
    match rest with
    | [] => true
    | letter :: digits =>
      (letter == 'e' || letter == 'E') && !digits.isEmpty && digits.all Char.isDigit
  if whole.isEmpty then rest.isEmpty
  else
    match rest with
    | '.' :: rest => exponent (rest.dropWhile Char.isDigit)
    | rest => exponent rest

end BeamTransport.CommandLine
