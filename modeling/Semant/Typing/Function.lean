import Semant.Typing.Stmt

/-! Type resolution of functions. A function is analyzed once, at its turn or when a call needs the
return type that its body tells. A function that is needed while it is active is refused. -/

namespace Semant

open Resolve

namespace FuncDef

def bindParam (f : FuncDef) (env : Env) (p : Binder) : Except Error Env :=
  match p.ty.get? with
  | some ty => .ok (env.define p.name { ty, isVar := p.isVar })
  | none => .error (.internal ("parameter '" ++ p.name ++ "' of '" ++ f.name ++ "' has no type"))

/-- The local names at the start of the body: the parameters. -/
def entry (f : FuncDef) : Except Error Env :=
  f.params.foldlM f.bindParam {}

def returns (f : FuncDef) : Returns :=
  { kind := f.kind, name := f.name, expected := f.ret.get? }

/-- Types the body and then the `ensure` block, in which nothing can be returned. The result comes
with the type that the body returns, if it is known. -/
def resolveBody (demand : Demand) (f : FuncDef) : Resolve (FuncDef × Option Ty) := do
  let body ← f.body.resolve demand
  let found := (← get).returns.bind Returns.expected
  modify fun s => { s with returns := none }
  let ensure ← Stmt.resolveOtherwise demand f.ensure
  return ({ f with body, ensure }, found)

end FuncDef

/-- Notes the return type of the function that was defined at `id`. -/
def Scope.noteReturn (scope : Scope) (id : DefId) (name : String) (ty : Ty) :
    Except Error Scope :=
  match scope.symbolOf? id with
  | some symbol => scope.setReturnType symbol ty
  | none => .error (.internal ("function '" ++ name ++ "' has no symbol"))

/-- Settles a return type that is still open. A body that returns nothing returns the unit value. -/
def FuncDef.settleReturn (f : FuncDef) (id : DefId) (found : Option Ty) : Resolve FuncDef := do
  if f.ret.isResolved then return f
  let ty := found.getD .unit
  let ret ← settle f.ret fun _ => .ok ty
  match ← attempt fun s => s.scope.noteReturn id f.name ty with
  | none => return { f with ret }
  | some scope =>
    modify fun s => { s with scope }
    return { f with ret }

namespace Progress

/-- Starts a function in its own local names. -/
def enter (s : Progress) (id : DefId) (env : Env) (returns : Returns) : Progress :=
  { s with
    env
    returns := some returns
    active := id :: s.active
    journal := .entered id :: s.journal }

/-- Leaves a function for the local names of `outer`. -/
def leave (s : Progress) (id : DefId) (outer : Progress) : Progress :=
  { s with
    env := outer.env
    returns := outer.returns
    active := s.active.erase id
    journal := .left id :: s.journal }

/-- Puts a function back; it is done unless there is an error. -/
def store (s : Progress) (id : DefId) (f : FuncDef) : Progress :=
  { s with
    funcs := s.funcs.set id f
    done := if s.failed then s.done else id :: s.done }

end Progress

/-- Analyzes a function. At most `budget` analyses are nested; a function is not entered twice, so
there is no need for more than there are functions. -/
def analyzeFunc : (budget : Nat) → Demand
  | 0, _ => return
  | budget + 1, id => do
    let outer ← get
    if outer.failed || outer.done.contains id then return
    match outer.funcs[id]? with
    | none => return
    | some f =>
      if outer.active.contains id then
        check fun _ => reject f.loc (.recursive f.name)
      else
        match ← attempt fun _ => f.entry with
        | none => return
        | some env =>
          modify fun s => s.enter id env f.returns
          let (f, found) ← f.resolveBody (analyzeFunc budget)
          modify fun s => s.leave id outer
          let f ← f.settleReturn id found
          modify fun s => s.store id f

/-- Analyzes every function that is not a template, in the order of definition. -/
def analyzeFuncs (funcs : List FuncDef) : Resolve Unit :=
  funcs.zipIdx.forM fun (f, id) =>
    unless f.isTemplate do analyzeFunc (funcs.length + 1) id

/-- The end of the analysis of all functions, in a scope that has their symbols. -/
def Progress.ofFuncs (funcs : List FuncDef) (scope : Scope) : Progress :=
  (analyzeFuncs funcs { funcs, scope }).2

end Semant
