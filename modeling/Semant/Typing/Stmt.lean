import Semant.Typing.Expr

/-! Type resolution of statements and blocks. The values of a declaration are typed before its names
come into scope, and the range of a loop before its variables. -/

namespace Semant

open Resolve

/-- Introduces declared variables with the types of their values. -/
def declareAll : List Binder → Option (List Ty) → Resolve (List Binder)
  | [], _ => return []
  | b :: bs, values => do
    let b ← introduce b fun scope => Typing.declared scope b (values.bind List.head?)
    let bs ← declareAll bs (values.map List.tail)
    return b :: bs

/-- Introduces loop variables with the types of what they run over. -/
def bindLoop : List Binder → List Ty → Resolve (List Binder)
  | b :: bs, ty :: tys => do
    let b ← introduce b fun scope => Typing.loopVariable scope b ty
    let bs ← bindLoop bs tys
    return b :: bs
  | bs, _ => return bs

namespace Declaration

/-- The types of the values, one for each name. -/
def valueTypes (d : Declaration) : Except Error (Option (List Ty)) :=
  match d.values with
  | none => return none
  | some values => return some (← Typing.spread (← Expr.types values) d.binders.length d.loc)

def resolve (demand : Demand) (d : Declaration) : Resolve Declaration := do
  let values ← match d.values with
    | none => pure none
    | some values => some <$> Expr.resolveAll demand values
  let d := { d with values }
  match ← attempt fun _ => d.valueTypes with
  | none => return d
  | some values => return { d with binders := ← declareAll d.binders values }

def resolveAll (demand : Demand) : List Declaration → Resolve (List Declaration)
  | [] => return []
  | d :: ds => do
    let d ← d.resolve demand
    let ds ← resolveAll demand ds
    return d :: ds

end Declaration

def Stmt.checkConditions (what : String) (conds : List Expr) : Resolve Unit :=
  check fun _ => conds.forM (Typing.condition what)

def Stmt.checkAssignment (targets values : List Expr) (loc : Location) : Resolve Unit :=
  check fun s => do
    let types ← Typing.spread (← Expr.types values) targets.length loc
    (targets.zip types).forM fun (target, ty) => Typing.assigned s.env target ty

def Stmt.checkSwitch (target : Expr) (conds : List Expr) : Resolve Unit :=
  check fun _ => do
    let ty ← target.type
    conds.forM (Typing.whenValue ty)

def Stmt.checkReturn (values : List Expr) (loc : Location) : Resolve Unit := do
  match ← attempt fun s => do Typing.returned s.returns (← Expr.types values) loc with
  | none => return
  | some returns => modify fun s => { s with returns := some returns }

mutual

def Stmt.resolve (demand : Demand) : Stmt → Resolve Stmt
  | .declare d => return .declare (← d.resolve demand)
  | .assign targets values loc => do
    let targets ← Expr.resolveAll demand targets
    let values ← Expr.resolveAll demand values
    Stmt.checkAssignment targets values loc
    return .assign targets values loc
  | .branch kind cond body elseIfs otherwise loc => do
    let cond ← cond.resolve demand
    let body ← body.resolve demand
    let elseIfs ← Stmt.resolveElseIfs demand elseIfs
    let otherwise ← Stmt.resolveOtherwise demand otherwise
    Stmt.checkConditions "condition" (cond :: elseIfs.map Clause.test)
    return .branch kind cond body elseIfs otherwise loc
  | .ret values loc => do
    let values ← Expr.resolveAll demand values
    Stmt.checkReturn values loc
    return .ret values loc
  | .case whens otherwise loc => do
    let whens ← Stmt.resolveWhens demand whens
    let otherwise ← Stmt.resolveOtherwise demand otherwise
    Stmt.checkConditions "when condition" (whens.flatMap Clause.test)
    return .case whens otherwise loc
  | .switch target whens otherwise loc => do
    let target ← target.resolve demand
    let whens ← Stmt.resolveWhens demand whens
    let otherwise ← Stmt.resolveOtherwise demand otherwise
    Stmt.checkSwitch target (whens.flatMap Clause.test)
    return .switch target whens otherwise loc
  | .forIn vars range body loc => inScope do
    let range ← range.resolve demand
    let elems ← attempt fun _ => do
      Typing.spread [← Typing.iterated range] vars.length loc
    let vars ← bindLoop vars (elems.getD [])
    let body ← body.resolve demand
    return .forIn vars range body loc
  | .whileDo cond body loc => do
    let cond ← cond.resolve demand
    let body ← body.resolve demand
    Stmt.checkConditions "condition" [cond]
    return .whileDo cond body loc
  | .trailingIf body kind cond loc => do
    let body ← body.resolve demand
    let cond ← cond.resolve demand
    Stmt.checkConditions "condition" [cond]
    return .trailingIf body kind cond loc
  | .letIn inits body loc => inScope do
    let inits ← Declaration.resolveAll demand inits
    let body ← body.resolve demand
    return .letIn inits body loc
  | .expr e => return .expr (← e.resolve demand)
  | .block b => return .block (← b.resolve demand)

def Block.resolve (demand : Demand) : Block → Resolve Block
  | .mk stmts loc => inScope do return .mk (← Stmt.resolveAll demand stmts) loc

def Stmt.resolveAll (demand : Demand) : List Stmt → Resolve (List Stmt)
  | [] => return []
  | s :: ss => do
    let s ← s.resolve demand
    let ss ← Stmt.resolveAll demand ss
    return s :: ss

def Stmt.resolveElseIfs (demand : Demand) :
    List (Clause Expr Block) → Resolve (List (Clause Expr Block))
  | [] => return []
  | ⟨cond, body⟩ :: rest => do
    let cond ← cond.resolve demand
    let body ← body.resolve demand
    let rest ← Stmt.resolveElseIfs demand rest
    return ⟨cond, body⟩ :: rest

def Stmt.resolveWhens (demand : Demand) :
    List (Clause (List Expr) Block) → Resolve (List (Clause (List Expr) Block))
  | [] => return []
  | ⟨conds, body⟩ :: rest => do
    let conds ← Expr.resolveAll demand conds
    let body ← body.resolve demand
    let rest ← Stmt.resolveWhens demand rest
    return ⟨conds, body⟩ :: rest

def Stmt.resolveOtherwise (demand : Demand) : Option Block → Resolve (Option Block)
  | none => return none
  | some body => return some (← body.resolve demand)

end

end Semant
