import Semant.Tree.Expr

/-! Names that are bound, statements and blocks. -/

namespace Semant

/-- A name that a parameter, a loop variable or a declared variable introduces. A parameter
without a written type is a template parameter. -/
structure Binder where
  isVar : Bool
  name : String
  written : Option TypeExpr
  ty : Slot Ty
  loc : Location

def Binder.isTemplate (b : Binder) : Bool :=
  b.written.isNone

/-- Declared variables with the values that they start with, if there are any. -/
structure Declaration where
  binders : List Binder
  values : Option (List Expr)
  loc : Location

/-- A test with the body that it selects. -/
structure Clause (τ β : Type) where
  test : τ
  body : β

mutual

inductive Block where
  | mk (stmts : List Stmt) (loc : Location)

inductive Stmt where
  | declare (d : Declaration)
  | assign (targets values : List Expr) (loc : Location)
  | branch (kind : IfKind) (cond : Expr) (body : Block) (elseIfs : List (Clause Expr Block))
      (otherwise : Option Block) (loc : Location)
  | ret (values : List Expr) (loc : Location)
  | case (whens : List (Clause (List Expr) Block)) (otherwise : Option Block) (loc : Location)
  | switch (target : Expr) (whens : List (Clause (List Expr) Block)) (otherwise : Option Block)
      (loc : Location)
  | forIn (vars : List Binder) (range : Expr) (body : Block) (loc : Location)
  | whileDo (cond : Expr) (body : Block) (loc : Location)
  | trailingIf (body : Stmt) (kind : IfKind) (cond : Expr) (loc : Location)
  | letIn (inits : List Declaration) (body : Stmt) (loc : Location)
  | expr (e : Expr)
  | block (b : Block)

end

def Block.stmts : Block → List Stmt
  | mk stmts _ => stmts

def Block.loc : Block → Location
  | mk _ loc => loc

def Stmt.loc : Stmt → Location
  | declare d => d.loc
  | assign _ _ loc | branch _ _ _ _ _ loc | ret _ loc | case _ _ loc | switch _ _ _ loc
  | forIn _ _ _ loc | whileDo _ _ loc | trailingIf _ _ _ loc | letIn _ _ loc => loc
  | expr e => e.loc
  | block b => b.loc

end Semant
