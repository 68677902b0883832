import BeamTransport.Scalar.Basic

/-!
# Doubles as scalars

The double-precision reading of the formulas. Arithmetic, comparison, square root and the circular
and hyperbolic functions are those of the machine; the hypotenuse is computed here, because squaring
a leg may leave the range of doubles although the result does not.
-/

namespace BeamTransport.Double

def infinity : Float := 1.0 / 0.0

def notANumber : Float := 0.0 / 0.0

/-- Hypotenuse over the legs `0 ≤ b ≤ a`, both well inside the range: the rounded root of the sum of
squares, less the error that its square shows. -/
def legs (a b : Float) : Float :=
  let h := Float.sqrt (a * a + b * b)
  if h ≤ 2.0 * b then
    let delta := h - b
    let first := a * (2.0 * delta - a)
    let second := (delta - 2.0 * (a - b)) * delta
    h - (first + second) / (2.0 * h)
  else
    let delta := h - a
    let first := 2.0 * delta * (a - 2.0 * b)
    let second := (4.0 * delta - b) * b + delta * delta
    h - (first + second) / (2.0 * h)

/-- A power of two that brings the squares of very large numbers into range, and by division those of
very small ones. -/
def shrink : Float := 2.409919865102884e-181

/-- Hypotenuse over two legs, without overflow or underflow on the way. An infinite leg makes it
infinite whatever the other one is, and a leg of under half a unit in the last place of the other
is only added to it. -/
def hypot (x y : Float) : Float :=
  if x.isInf || y.isInf then infinity
  else if x.isNaN || y.isNaN then notANumber
  else
    let a := if x.abs < y.abs then y.abs else x.abs
    let b := if x.abs < y.abs then x.abs else y.abs
    if b / 5.551115123125783e-17 ≤ a then a + b
    else if 6.703903964971299e153 < a then legs (a * shrink) (b * shrink) / shrink
    else if b < 6.717876107567089e-139 then legs (a / shrink) (b / shrink) * shrink
    else legs a b

end BeamTransport.Double

namespace BeamTransport

instance : Scalar Float where
  zero := ⟨0.0⟩
  one := ⟨1.0⟩
  ltDecidable := inferInstance
  leDecidable := inferInstance
  ofNat := Float.ofNat
  isFinite := Float.isFinite
  pi := 3.141592653589793
  abs := Float.abs
  sqrt := Float.sqrt
  sin := Float.sin
  cos := Float.cos
  tan := Float.tan
  sinh := Float.sinh
  cosh := Float.cosh
  atan2 := Float.atan2
  hypot := Double.hypot

end BeamTransport
