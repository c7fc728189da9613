import Semant.Proofs.Tree.Extension
import Semant.Typing.Stmt

/-! Member accesses written as calls: `c.m` as the call of `m` with the receiver `c` as its only
argument. The accesses are chosen by their places, and one is rewritten only where its name cannot
be the name of a local value. -/

namespace Semant

/-- A choice of places in a tree. A place is the list of steps to it, each the number of the part
that is taken; a list has its first element as part 0 and the rest as part 1. -/
abbrev Marks := List Nat → Bool

def Marks.below (marks : Marks) (part : Nat) : Marks :=
  fun place => marks (part :: place)

section

variable (free : String → Bool)

mutual

/-- The expression with the marked accesses as calls, if their names are free. The slots of an
access are those of the call. -/
def Expr.asCalls (marks : Marks) : Expr → Expr
  | .literal value ty loc => .literal value ty loc
  | .array elems ty loc => .array (Expr.asCallsAll (marks.below 0) elems) ty loc
  | .tuple elems ty loc => .tuple (Expr.asCallsAll (marks.below 0) elems) ty loc
  | .dict entries ty loc => .dict (Expr.asCallsEntries (marks.below 0) entries) ty loc
  | .var name ty loc => .var name ty loc
  | .call child args callee ty loc =>
    .call (child.asCalls (marks.below 0)) (Expr.asCallsAll (marks.below 1) args) callee ty loc
  | .construct written args ty loc =>
    .construct written (Expr.asCallsAll (marks.below 0) args) ty loc
  | .index child position ty loc =>
    .index (child.asCalls (marks.below 0)) (position.asCalls (marks.below 1)) ty loc
  | .member child name callee ty loc =>
    if marks [] && free name then .named name [child.asCalls (marks.below 0)] callee ty loc
    else .member (child.asCalls (marks.below 0)) name callee ty loc
  | .unary op operand ty loc => .unary op (operand.asCalls (marks.below 0)) ty loc
  | .cast child written ty loc => .cast (child.asCalls (marks.below 0)) written ty loc
  | .binary lhs op rhs ty loc =>
    .binary (lhs.asCalls (marks.below 0)) op (rhs.asCalls (marks.below 1)) ty loc
  | .choice cond yes no ty loc =>
    .choice (cond.asCalls (marks.below 0)) (yes.asCalls (marks.below 1))
      (no.asCalls (marks.below 2)) ty loc
  | .typed child written ty loc => .typed (child.asCalls (marks.below 0)) written ty loc

def Expr.asCallsAll (marks : Marks) : List Expr → List Expr
  | [] => []
  | e :: es => e.asCalls (marks.below 0) :: Expr.asCallsAll (marks.below 1) es

def Expr.asCallsEntries (marks : Marks) : List (Expr × Expr) → List (Expr × Expr)
  | [] => []
  | (key, value) :: entries =>
    (key.asCalls ((marks.below 0).below 0), value.asCalls ((marks.below 0).below 1)) ::
      Expr.asCallsEntries (marks.below 1) entries

end

def Declaration.asCalls (marks : Marks) (d : Declaration) : Declaration :=
  { d with values := d.values.map (Expr.asCallsAll free marks) }

def Declaration.asCallsAll (marks : Marks) : List Declaration → List Declaration
  | [] => []
  | d :: ds => d.asCalls free (marks.below 0) :: Declaration.asCallsAll (marks.below 1) ds

mutual

def Stmt.asCalls (marks : Marks) : Stmt → Stmt
  | .declare d => .declare (d.asCalls free (marks.below 0))
  | .assign targets values loc =>
    .assign (Expr.asCallsAll free (marks.below 0) targets)
      (Expr.asCallsAll free (marks.below 1) values) loc
  | .branch kind cond body elseIfs otherwise loc =>
    .branch kind (cond.asCalls free (marks.below 0)) (body.asCalls (marks.below 1))
      (Stmt.asCallsElseIfs (marks.below 2) elseIfs)
      (Stmt.asCallsOtherwise (marks.below 3) otherwise) loc
  | .ret values loc => .ret (Expr.asCallsAll free (marks.below 0) values) loc
  | .case whens otherwise loc =>
    .case (Stmt.asCallsWhens (marks.below 0) whens)
      (Stmt.asCallsOtherwise (marks.below 1) otherwise) loc
  | .switch target whens otherwise loc =>
    .switch (target.asCalls free (marks.below 0)) (Stmt.asCallsWhens (marks.below 1) whens)
      (Stmt.asCallsOtherwise (marks.below 2) otherwise) loc
  | .forIn vars range body loc =>
    .forIn vars (range.asCalls free (marks.below 0)) (body.asCalls (marks.below 1)) loc
  | .whileDo cond body loc =>
    .whileDo (cond.asCalls free (marks.below 0)) (body.asCalls (marks.below 1)) loc
  | .trailingIf body kind cond loc =>
    .trailingIf (body.asCalls (marks.below 0)) kind (cond.asCalls free (marks.below 1)) loc
  | .letIn inits body loc =>
    .letIn (Declaration.asCallsAll free (marks.below 0) inits) (body.asCalls (marks.below 1)) loc
  | .expr e => .expr (e.asCalls free marks)
  | .block b => .block (b.asCalls marks)

def Block.asCalls (marks : Marks) : Block → Block
  | .mk stmts loc => .mk (Stmt.asCallsAll (marks.below 0) stmts) loc

def Stmt.asCallsAll (marks : Marks) : List Stmt → List Stmt
  | [] => []
  | s :: ss => s.asCalls (marks.below 0) :: Stmt.asCallsAll (marks.below 1) ss

def Stmt.asCallsElseIfs (marks : Marks) : List (Clause Expr Block) → List (Clause Expr Block)
  | [] => []
  | ⟨cond, body⟩ :: rest =>
    ⟨cond.asCalls free ((marks.below 0).below 0), body.asCalls ((marks.below 0).below 1)⟩ ::
      Stmt.asCallsElseIfs (marks.below 1) rest

def Stmt.asCallsWhens (marks : Marks) :
    List (Clause (List Expr) Block) → List (Clause (List Expr) Block)
  | [] => []
  | ⟨conds, body⟩ :: rest =>
    ⟨Expr.asCallsAll free ((marks.below 0).below 0) conds,
      body.asCalls ((marks.below 0).below 1)⟩ :: Stmt.asCallsWhens (marks.below 1) rest

def Stmt.asCallsOtherwise (marks : Marks) : Option Block → Option Block
  | none => none
  | some body => some (body.asCalls marks)

end

end

/-- The name that the node binds: that of a parameter, a loop variable or a declared variable. -/
def Node.binder? : Node → Option Binder
  | param b | decl b => some b
  | _ => none

/-- Nothing in the function binds the name. -/
def FuncDef.isFree (f : FuncDef) (name : String) : Bool :=
  (Node.funcDef f).preorder.all fun n => n.binder?.all (·.name != name)

def FuncDef.asCalls (marks : Marks) (f : FuncDef) : FuncDef :=
  { f with
    body := f.body.asCalls f.isFree (marks.below 0)
    ensure := Stmt.asCallsOtherwise f.isFree (marks.below 1) f.ensure }

def FuncDef.asCallsAll (marks : Marks) (fs : List FuncDef) : List FuncDef :=
  fs.mapIdx fun id f => f.asCalls (marks.below id)

/-- The program with marked accesses as calls. The first step of a place is the number of a
function. -/
def Program.asCalls (marks : Marks) (p : Program) : Program :=
  p.withFuncs (FuncDef.asCallsAll marks p.funcs)

section

variable {free : String → Bool}

theorem Expr.ty_asCalls (marks : Marks) (e : Expr) : (e.asCalls free marks).ty = e.ty := by
  cases e with
  | member =>
    rw [Expr.asCalls]
    split <;> rfl
  | _ => rfl

theorem Expr.loc_asCalls (marks : Marks) (e : Expr) : (e.asCalls free marks).loc = e.loc := by
  cases e with
  | member =>
    rw [Expr.asCalls]
    split <;> rfl
  | _ => rfl

theorem Expr.type_asCalls (marks : Marks) (e : Expr) :
    (e.asCalls free marks).type = e.type := by
  rw [Expr.type, Expr.type, Expr.ty_asCalls, Expr.loc_asCalls]

theorem Expr.types_asCallsAll (marks : Marks) (es : List Expr) :
    Expr.types (Expr.asCallsAll free marks es) = Expr.types es := by
  induction es generalizing marks with
  | nil => rfl
  | cons e es ih =>
    have ih := ih (marks.below 1)
    simp only [Expr.types] at ih ⊢
    rw [Expr.asCallsAll, List.mapM_cons, List.mapM_cons, Expr.type_asCalls, ih]

theorem Expr.types_singleton_asCalls (marks : Marks) (e : Expr) :
    Expr.types [e.asCalls free marks] = Expr.types [e] := by
  simp only [Expr.types, List.mapM_cons, Expr.type_asCalls]

theorem Expr.entryTypes_asCallsEntries (marks : Marks) (es : List (Expr × Expr)) :
    Expr.entryTypes (Expr.asCallsEntries free marks es) = Expr.entryTypes es := by
  induction es generalizing marks with
  | nil => rfl
  | cons entry es ih =>
    obtain ⟨key, value⟩ := entry
    have ih := ih (marks.below 1)
    simp only [Expr.entryTypes] at ih ⊢
    rw [Expr.asCallsEntries, List.mapM_cons, List.mapM_cons, ih, Expr.type_asCalls,
      Expr.type_asCalls]

/-- Neither an access nor a call is a name. -/
theorem Expr.functionName?_asCalls (marks : Marks) (env : Env) (e : Expr) :
    (e.asCalls free marks).functionName? env = e.functionName? env := by
  cases e with
  | member =>
    rw [Expr.asCalls]
    split <;> rfl
  | _ => rfl

theorem Expr.adopts_asCalls (marks : Marks) (e : Expr) (ty : Ty) :
    (e.asCalls free marks).adopts ty = e.adopts ty := by
  cases e with
  | member =>
    rw [Expr.asCalls]
    split <;> rfl
  | array elems => cases elems <;> rfl
  | dict entries => cases entries <;> rfl
  | _ => rfl

end

end Semant
