import BeamTransport.Decimal.Style

/-!
# The length of thin elements

Pole-face kicks are given over a thin element, whose length may be fixed or asked for when it is
first needed. A `ThinLength` holds the answer once it was asked for: `get` asks at most once, and
from then on always gives the first answer.
-/

namespace BeamTransport

/-- A length that is found on first use and kept. -/
structure ThinLength (α : Type) where
  /-- The answer to each successive question. -/
  answers : Nat → α
  /-- How many questions were asked. -/
  calls : Nat
  /-- The length, once known. -/
  known? : Option α

namespace ThinLength

variable {α : Type}

/-- A length known from the start. -/
def fixed (length : α) : ThinLength α := ⟨fun _ => length, 0, some length⟩

/-- A length to be asked for. -/
def onDemand (answers : Nat → α) : ThinLength α := ⟨answers, 0, none⟩

def isResolved (thin : ThinLength α) : Bool := thin.known?.isSome

/-- The length, known or not: what the next use finds. -/
def value (thin : ThinLength α) : α := thin.known?.getD (thin.answers thin.calls)

/-- Uses the length, asking for it when it is not known yet. -/
def get : StateM (ThinLength α) α := do
  let thin ← MonadState.get
  match thin.known? with
  | some length => return length
  | none =>
    let length := thin.answers thin.calls
    set { thin with calls := thin.calls + 1, known? := some length }
    return length

@[simp] theorem value_fixed (length : α) : (fixed length).value = length := rfl

theorem get_fst (thin : ThinLength α) : (get.run thin).1 = thin.value := by
  obtain ⟨answers, calls, known?⟩ := thin
  cases known? <;> rfl

theorem value_get (thin : ThinLength α) : (get.run thin).2.value = thin.value := by
  obtain ⟨answers, calls, known?⟩ := thin
  cases known? <;> rfl

theorem isResolved_get (thin : ThinLength α) : (get.run thin).2.isResolved := by
  obtain ⟨answers, calls, known?⟩ := thin
  cases known? <;> rfl

/-- Using the length asks for it exactly when it is not known. -/
theorem calls_get (thin : ThinLength α) :
    (get.run thin).2.calls = if thin.isResolved then thin.calls else thin.calls + 1 := by
  obtain ⟨answers, calls, known?⟩ := thin
  cases known? <;> rfl

/-- The length as it stands, without asking for it. -/
def text (thin : ThinLength Float) : String :=
  let value :=
    match thin.known? with
    | some length => "Some(" ++ Decimal.Style.exact.text length ++ ")"
    | none => "None"
  "ThinElementLength \x7b value: " ++ value ++ ", .. \x7d"

end ThinLength

end BeamTransport
