import Semant.Typing.Progress

/-! Type resolution of expressions. The parts of an expression are typed first, then the expression
from them. A name that is called and not bound locally is the name of a function. -/

namespace Semant

open Resolve

/-- A symbol whose return type only its body can tell. -/
def FuncSymbol.isInferred (f : FuncSymbol) : Bool :=
  f.kind == .func && !f.ret.isResolved && !f.isTemplate

/-- Binds a call to the best overload and types it by the overload's return type. -/
def bindCall (demand : Demand) (name : String) (args : Except Error (List Ty))
    (callee : Slot SymbolId) (ty : Slot Ty) (loc : Location) :
    Resolve (Slot SymbolId × Slot Ty) := do
  let bound ← attempt fun s => do
    let args ← args
    match s.scope.bestOverload? name args with
    | none => reject loc (s.scope.noOverload name args)
    | some overload => return (overload, ← callee.fill overload.id)
  match bound with
  | none => return (callee, ty)
  | some (overload, callee) =>
    if overload.symbol.isInferred then
      demand overload.symbol.definition
    let ty ← settle ty fun s =>
      Typing.result overload.symbol (s.scope.returnType? overload.id) loc
    return (callee, ty)

namespace Expr

/-- The name of the function that is called, if the callee is not a local value. -/
def functionName? (env : Env) : Expr → Option String
  | var name _ _ => if (env.lookup? name).isSome then none else some name
  | _ => none

/-- An empty literal takes its type from an ascription of the right form. -/
def adopts : Expr → Ty → Bool
  | array [] _ _, .array _ => true
  | dict [] _ _, .dict _ _ => true
  | _, _ => false

/-- Fills the slot of a literal with an ascribed type. -/
def adopt (written : Ty) : Expr → Resolve Expr
  | array elems ty loc => return array elems (← settle ty fun _ => .ok written) loc
  | dict entries ty loc => return dict entries (← settle ty fun _ => .ok written) loc
  | e => return e

def entryTypes (entries : List (Expr × Expr)) : Except Error (List (Ty × Ty)) :=
  entries.mapM fun (key, value) => return (← key.type, ← value.type)

mutual

def resolve (demand : Demand) : Expr → Resolve Expr
  | literal value ty loc => do
    let ty ← settle ty fun _ => .ok (.builtin value.builtin)
    return literal value ty loc
  | array elems ty loc => do
    let elems ← resolveAll demand elems
    let ty ← settle ty fun _ => do Typing.array (← types elems) loc
    return array elems ty loc
  | tuple elems ty loc => do
    let elems ← resolveAll demand elems
    let ty ← settle ty fun _ => return .tuple (← types elems)
    return tuple elems ty loc
  | dict entries ty loc => do
    let entries ← resolveEntries demand entries
    let ty ← settle ty fun _ => do Typing.dict (← entryTypes entries) loc
    return dict entries ty loc
  | var name ty loc => do
    let ty ← settle ty fun s =>
      match s.env.lookup? name with
      | some binding => .ok binding.ty
      | none => reject loc (.undeclared name)
    return var name ty loc
  | call child args callee ty loc => do
    match child.functionName? (← get).env with
    | some name =>
      let args ← resolveAll demand args
      let (callee, ty) ← bindCall demand name (types args) callee ty loc
      return call child args callee ty loc
    | none =>
      let child ← child.resolve demand
      let args ← resolveAll demand args
      let ty ← settle ty fun _ => do Typing.call (← child.type) (← types args) loc
      return call child args callee ty loc
  | construct written args ty loc => do
    let args ← resolveAll demand args
    let ty ← settle ty fun s => written.resolve s.scope
    return construct written args ty loc
  | index child position ty loc => do
    let child ← child.resolve demand
    let position ← position.resolve demand
    let ty ← settle ty fun _ => do
      Typing.index (← child.type) (← position.type) position loc
    return index child position ty loc
  | member child name callee ty loc => do
    let child ← child.resolve demand
    let (callee, ty) ← bindCall demand name (types [child]) callee ty loc
    return member child name callee ty loc
  | unary op operand ty loc => do
    let operand ← operand.resolve demand
    let ty ← settle ty fun _ => Typing.unary op operand loc
    return unary op operand ty loc
  | cast child written ty loc => do
    let child ← child.resolve demand
    let ty ← settle ty fun s => written.resolve s.scope
    return cast child written ty loc
  | binary lhs op rhs ty loc => do
    let rhs ← rhs.resolve demand
    let lhs ← lhs.resolve demand
    let ty ← settle ty fun _ => do Typing.binary op (← lhs.type) (← rhs.type) loc
    return binary lhs op rhs ty loc
  | choice cond yes no ty loc => do
    let cond ← cond.resolve demand
    let yes ← yes.resolve demand
    let no ← no.resolve demand
    let ty ← settle ty fun _ => Typing.choice cond yes no loc
    return choice cond yes no ty loc
  | typed child written ty loc => do
    match ← attempt fun s => written.resolve s.scope with
    | none => return typed child written ty loc
    | some ascribed =>
      let child ← if child.adopts ascribed then child.adopt ascribed else child.resolve demand
      let ty ← settle ty fun _ => do Typing.ascription (← child.type) ascribed loc
      return typed child written ty loc

def resolveAll (demand : Demand) : List Expr → Resolve (List Expr)
  | [] => return []
  | e :: es => do
    let e ← e.resolve demand
    let es ← resolveAll demand es
    return e :: es

def resolveEntries (demand : Demand) : List (Expr × Expr) → Resolve (List (Expr × Expr))
  | [] => return []
  | (key, value) :: entries => do
    let key ← key.resolve demand
    let value ← value.resolve demand
    let entries ← resolveEntries demand entries
    return (key, value) :: entries

end

end Expr

end Semant
