import Semant.Error

/-! Write-once slots. A tree node keeps what analysis finds out about it in a slot:
it starts empty, takes one value, and refuses a second. -/

namespace Semant

inductive Slot (α : Type) where
  | unresolved
  | resolved (value : α)

namespace Slot

variable {α : Type}

def get? : Slot α → Option α
  | unresolved => none
  | resolved value => some value

def isResolved (slot : Slot α) : Bool :=
  slot.get?.isSome

/-- Puts a value into an empty slot. -/
def fill : Slot α → α → Except Error (Slot α)
  | unresolved, value => .ok (resolved value)
  | resolved _, _ => .error (.internal "resolution slot written twice")

instance [BEq α] : BEq (Slot α) where
  beq a b := a.get? == b.get?

/-- The state of a slot as text. -/
def describe [ToString α] : Slot α → String
  | unresolved => "Unresolved"
  | resolved value => "Resolved(" ++ toString value ++ ")"

end Slot

end Semant
