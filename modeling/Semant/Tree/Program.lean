import Semant.Tree.Stmt

/-! Definitions and whole programs. -/

namespace Semant

inductive FuncKind where
  | func | proc
  deriving DecidableEq

def FuncKind.keyword : FuncKind → String
  | func => "func"
  | proc => "proc"

structure ClassDef where
  name : String
  loc : Location
  deriving DecidableEq

/-- A function or procedure. Its `ensure` block is its postcondition: it is typed after the body,
with the parameters in scope, and nothing can be returned from it. -/
structure FuncDef where
  kind : FuncKind
  name : String
  params : List Binder
  written : Option TypeExpr
  body : Block
  ensure : Option Block
  ret : Slot Ty
  loc : Location

/-- A function with a template parameter is typed for no particular arguments. -/
def FuncDef.isTemplate (f : FuncDef) : Bool :=
  f.params.any Binder.isTemplate

inductive Definition where
  | classDef (c : ClassDef)
  | funcDef (f : FuncDef)

namespace Definition

def class? : Definition → Option ClassDef
  | classDef c => some c
  | funcDef _ => none

def func? : Definition → Option FuncDef
  | classDef _ => none
  | funcDef f => some f

/-- Puts `funcs` in the places of the functions of `defs`, in order. -/
def replaceFuncs : List Definition → List FuncDef → List Definition
  | [], _ => []
  | classDef c :: defs, funcs => classDef c :: replaceFuncs defs funcs
  | funcDef _ :: defs, f :: funcs => funcDef f :: replaceFuncs defs funcs
  | funcDef f :: defs, [] => funcDef f :: replaceFuncs defs []

end Definition

structure Program where
  definitions : List Definition
  loc : Location

namespace Program

def classes (p : Program) : List ClassDef :=
  p.definitions.filterMap Definition.class?

/-- The functions in the order of their definition; a position in it identifies a definition. -/
def funcs (p : Program) : List FuncDef :=
  p.definitions.filterMap Definition.func?

def withFuncs (p : Program) (funcs : List FuncDef) : Program :=
  { p with definitions := Definition.replaceFuncs p.definitions funcs }

end Program

end Semant
