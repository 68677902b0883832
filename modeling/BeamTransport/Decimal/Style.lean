import BeamTransport.Decimal.Decoded
import BeamTransport.Decimal.Shortest

/-!
# Number styles

A number is written with the fewest digits that read back to it. A `Style` decides the rest: which
decimal exponents are written positionally, and whether a whole number still shows a point. There
are two of them: `plain`, used in messages and coordinate lines, which never writes an exponent, and
`exact`, which keeps very small and very large numbers short.
-/

namespace BeamTransport.Decimal

/-- How the digits of a number are laid out. -/
structure Style where
  /-- Decimal exponents from the first bound up to below the second are written positionally; without
  bounds all are. -/
  positional : Option (Int × Int)
  /-- Whether a whole number in positional form ends in `.0`. -/
  pointZero : Bool

/-- No exponent, no forced point. -/
def Style.plain : Style := ⟨none, false⟩

/-- An exponent below `0.0001` and from `10 ^ 16` on, a point in all positional numbers. -/
def Style.exact : Style := ⟨some (-4, 16), true⟩

/-- Digits with the point behind the first `point` of them, filled up with zeros where needed. -/
def positionalText (digits : List Char) (point : Int) (pointZero : Bool) : List Char :=
  let places := point.toNat
  if point ≤ 0 then '0' :: '.' :: (List.replicate (-point).toNat '0' ++ digits)
  else if places < digits.length then digits.take places ++ '.' :: digits.drop places
  else
    digits ++ List.replicate (places - digits.length) '0' ++ if pointZero then ['.', '0'] else []

/-- Digits with a point behind the first of them and the decimal exponent at the end. -/
def exponentText (digits : List Char) (exponent : Int) : List Char :=
  let mantissa :=
    match digits with
    | first :: rest => first :: if rest.isEmpty then [] else '.' :: rest
    | [] => []
  mantissa ++ 'e' :: (toString exponent).toList

/-- A magnitude in a style. -/
def Style.magnitude (style : Style) (value : Digits) : List Char :=
  if value.coefficient = 0 then if style.pointZero then ['0', '.', '0'] else ['0']
  else
    let digits := Nat.toDigits 10 value.coefficient
    let point := digits.length + value.exponent
    match style.positional with
    | some (low, high) =>
      if low ≤ point - 1 ∧ point - 1 < high then positionalText digits point style.pointZero
      else exponentText digits (point - 1)
    | none => positionalText digits point style.pointZero

/-- The text of a number in a style. -/
def Style.text (style : Style) (value : Float) : String :=
  match decode value with
  | .nan => "NaN"
  | .infinite negative => if negative then "-inf" else "inf"
  | .finite negative significand exponent =>
    let magnitude := style.magnitude (shortest significand exponent)
    String.ofList (if negative then '-' :: magnitude else magnitude)

end BeamTransport.Decimal
