/-!
# Decimal literals

The grammar of a number in a command: an optional sign, then `inf`, `infinity` or `nan` in any case,
or digits with at most one point and at least one digit around it, and an optional exponent. Nothing
may stand before or behind. `Literal.read?` reads a text by this grammar, and `OfLiteral` turns what
was read into a number.
-/

namespace BeamTransport.Decimal

inductive Literal where
  | nan
  | infinite (negative : Bool)
  /-- The signed value `digits * 10 ^ exponent`; zero keeps its sign. -/
  | finite (negative : Bool) (digits : Nat) (exponent : Int)
deriving DecidableEq

/-- The natural number that a list of digits spells. -/
def digitsValue (digits : List Char) : Nat :=
  digits.foldl (fun value digit => 10 * value + (digit.toNat - '0'.toNat)) 0

/-- A natural number in digits alone, at least one of them. -/
def readDigits? (text : List Char) : Option Nat :=
  if text.isEmpty || !text.all Char.isDigit then none else some (digitsValue text)

/-- Splits a sign off; without one the text is positive. -/
def readSign : List Char → Bool × List Char
  | '-' :: rest => (true, rest)
  | '+' :: rest => (false, rest)
  | text => (false, text)

/-- The exponent behind the digits: none at all, or a letter and a signed whole number. -/
def readExponent? : List Char → Option Int
  | [] => some 0
  | letter :: rest =>
    if letter = 'e' ∨ letter = 'E' then
      let (negative, digits) := readSign rest
      (readDigits? digits).map fun value => if negative then -(value : Int) else value
    else none

/-- An unsigned number in digits. -/
def readMagnitude? (negative : Bool) (text : List Char) : Option Literal :=
  let (whole, rest) := text.span Char.isDigit
  let (fraction, rest) :=
    match rest with
    | '.' :: rest => rest.span Char.isDigit
    | rest => ([], rest)
  if whole.isEmpty && fraction.isEmpty then none
  else
    (readExponent? rest).map fun exponent =>
      .finite negative (digitsValue (whole ++ fraction)) (exponent - fraction.length)

def Literal.read? (text : List Char) : Option Literal :=
  let (negative, rest) := readSign text
  let word := String.ofList (rest.map Char.toLower)
  if word = "inf" ∨ word = "infinity" then some (.infinite negative)
  else if word = "nan" then some .nan
  else readMagnitude? negative rest

/-- Types of numbers that can be read from a literal. -/
class OfLiteral (α : Type) where
  /-- The number nearest to a literal, if the type has one. -/
  ofLiteral? : Literal → Option α

/-- The double nearest to `digits * 10 ^ exponent`. Numbers far outside the range are settled by
their leading digit, before any power of ten is formed. -/
def nearestDouble (digits : Nat) (exponent : Int) : Float :=
  let leading := (Nat.toDigits 10 digits).length + exponent
  if digits = 0 ∨ leading < -400 then 0.0
  else if 400 < leading then 1.0 / 0.0
  else OfScientific.ofScientific digits (exponent < 0) exponent.natAbs

def Literal.toDouble : Literal → Float
  | .nan => 0.0 / 0.0
  | .infinite negative => if negative then -1.0 / 0.0 else 1.0 / 0.0
  | .finite negative digits exponent =>
    let magnitude := nearestDouble digits exponent
    if negative then -magnitude else magnitude

instance : OfLiteral Float := ⟨fun literal => some literal.toDouble⟩

def read? (α : Type) [OfLiteral α] (text : String) : Option α :=
  (Literal.read? text.toList).bind OfLiteral.ofLiteral?

/-- The largest count, `2 ^ 64 - 1`. -/
def maxCount : Nat := 0xffffffffffffffff

/-- Reads a count: digits with an optional plus sign, at most `maxCount`. -/
def readCount? (text : String) : Option Nat :=
  let digits :=
    match text.toList with
    | '+' :: rest => rest
    | digits => digits
  (readDigits? digits).filter (· ≤ maxCount)

end BeamTransport.Decimal
