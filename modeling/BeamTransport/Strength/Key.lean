/-!
# Strength keys

A magnet's normalised strengths are named by multipole order: `k0` for the dipole, `k1` for the
quadrupole and so on to `k12`, and `k1s` to `k12s` for the skew parts. There is no skew dipole.
Names are read exactly as they are written.
-/

namespace BeamTransport

/-- The name of one multipole strength. -/
inductive StrengthKey where
  /-- The normal part of an order from zero to twelve. -/
  | normal (order : Fin 13)
  /-- The skew part of an order from one to twelve, counted from zero. -/
  | skew (index : Fin 12)
deriving DecidableEq

namespace StrengthKey

def k1 : StrengthKey := .normal 1

def normal? (order : Nat) : Option StrengthKey :=
  if h : order < 13 then some (.normal ⟨order, h⟩) else none

def skew? (order : Nat) : Option StrengthKey :=
  if h : 0 < order ∧ order < 13 then some (.skew ⟨order - 1, by omega⟩) else none

/-- Every key in canonical order: by multipole order, normal before skew. -/
def all : List StrengthKey :=
  (List.range 13).flatMap fun order => (normal? order).toList ++ (skew? order).toList

def name : StrengthKey → String
  | .normal order => "k" ++ toString order.val
  | .skew index => "k" ++ toString (index.val + 1) ++ "s"

def ofName? (name : String) : Option StrengthKey :=
  all.find? (·.name == name)

end StrengthKey

end BeamTransport
