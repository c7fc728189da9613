import Semant.Slot
import Semant.Tree.Literal
import Semant.Tree.Operator
import Semant.Tree.TypeExpr

/-! Expressions. Each has a slot for its type; a call and a member access also have one for the
function symbol that they are bound to. -/

namespace Semant

/-- Position of a function symbol in a scope. -/
abbrev SymbolId := Nat

inductive Expr where
  | literal (value : Literal) (ty : Slot Ty) (loc : Location)
  | array (elems : List Expr) (ty : Slot Ty) (loc : Location)
  | tuple (elems : List Expr) (ty : Slot Ty) (loc : Location)
  | dict (entries : List (Expr × Expr)) (ty : Slot Ty) (loc : Location)
  | var (name : String) (ty : Slot Ty) (loc : Location)
  | call (child : Expr) (args : List Expr) (callee : Slot SymbolId) (ty : Slot Ty) (loc : Location)
  | construct (written : TypeExpr) (args : List Expr) (ty : Slot Ty) (loc : Location)
  | index (child position : Expr) (ty : Slot Ty) (loc : Location)
  | member (child : Expr) (name : String) (callee : Slot SymbolId) (ty : Slot Ty) (loc : Location)
  | unary (op : UnaryOp) (operand : Expr) (ty : Slot Ty) (loc : Location)
  | cast (child : Expr) (written : TypeExpr) (ty : Slot Ty) (loc : Location)
  | binary (lhs : Expr) (op : BinaryOp) (rhs : Expr) (ty : Slot Ty) (loc : Location)
  | choice (cond yes no : Expr) (ty : Slot Ty) (loc : Location)
  | typed (child : Expr) (written : TypeExpr) (ty : Slot Ty) (loc : Location)

namespace Expr

def ty : Expr → Slot Ty
  | literal _ ty _ | array _ ty _ | tuple _ ty _ | dict _ ty _ | var _ ty _ | call _ _ _ ty _
  | construct _ _ ty _ | index _ _ ty _ | member _ _ _ ty _ | unary _ _ ty _ | cast _ _ ty _
  | binary _ _ _ ty _ | choice _ _ _ ty _ | typed _ _ ty _ => ty

def loc : Expr → Location
  | literal _ _ loc | array _ _ loc | tuple _ _ loc | dict _ _ loc | var _ _ loc | call _ _ _ _ loc
  | construct _ _ _ loc | index _ _ _ loc | member _ _ _ _ loc | unary _ _ _ loc | cast _ _ _ loc
  | binary _ _ _ _ loc | choice _ _ _ _ loc | typed _ _ _ loc => loc

/-- A call of a function by name. The name stands at the place of the call. -/
def named (name : String) (args : List Expr) (callee : Slot SymbolId) (ty : Slot Ty)
    (loc : Location) : Expr :=
  call (var name .unresolved loc) args callee ty loc

end Expr

end Semant
