/-!
# What a double stands for

A double is not a number, infinite, or a signed natural multiple of a power of two. `decode` reads
this off the bit pattern: one bit of sign, eleven of exponent and fifty-two of fraction.
-/

namespace BeamTransport.Decimal

inductive Decoded where
  | nan
  | infinite (negative : Bool)
  /-- The signed value `significand * 2 ^ exponent`; zero keeps its sign. -/
  | finite (negative : Bool) (significand : Nat) (exponent : Int)
deriving DecidableEq

/-- The smallest significand of a normal double, `2 ^ 52`. -/
def hiddenBit : Nat := 0x10000000000000

def leastExponent : Int := -1074

/-- Reads the meaning of a double off its bit pattern. -/
def decode (value : Float) : Decoded :=
  let bits := value.toBits.toNat
  let negative := bits >>> 63 == 1
  let field := bits >>> 52 % 2048
  let fraction := bits % hiddenBit
  if field == 2047 then
    if fraction == 0 then .infinite negative else .nan
  else if field == 0 then .finite negative fraction leastExponent
  else .finite negative (hiddenBit + fraction) (leastExponent + (field - 1))

end BeamTransport.Decimal
