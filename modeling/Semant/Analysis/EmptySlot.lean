import Semant.Cause
import Semant.Tree.Walk

/-! The final check that no slot of a typed function was left empty. The name in a call that is
bound to a symbol is not a value and needs no type. -/

namespace Semant

namespace EmptySlot

def unresolved (what : String) (node : Node) : Option Error :=
  some ((Cause.neverResolved what node.kindName).error node.loc)

/-- An empty type slot is an error. -/
def typeError? (node : Node) : Option Error :=
  match node.typeSlot? with
  | some .unresolved => unresolved "type" node
  | _ => none

/-- Checks a node and then what is offered below it. -/
def descend (node : Node) (offers : List (Offer (Option Error))) : Option Error :=
  walkAll offers (typeError? node)

/-- Finds the first empty slot. -/
def visitSlots : Visitor (Option Error) :=
  fun node offers found =>
    if found.isSome then found
    else
      match node with
      | .funcDef f => if f.isTemplate then none else descend node offers
      | .expr (.call child _ callee _ _) =>
        if callee.isResolved then descend node offers.tail
        else if child.ty.isResolved then descend node offers
        else typeError? node <|> unresolved "callee" node
      | .expr (.member _ _ callee _ _) =>
        if callee.isResolved then descend node offers else unresolved "callee" node
      | _ => descend node offers

end EmptySlot

def Program.unresolved? (p : Program) : Option Error :=
  (Node.program p).walk EmptySlot.visitSlots none

end Semant
