import Semant.Tree.Node

/-! A tree of nodes of any sort with the children of each node in their declared order. -/

namespace Semant

inductive Outline where
  | mk (node : Node) (children : List Outline)

def Outline.node : Outline → Node
  | mk node _ => node

mutual

def TypeExpr.outline : TypeExpr → Outline
  | .named name args loc => .mk (.type (.named name args loc)) (TypeExpr.outlines args)
  | .array elem loc => .mk (.type (.array elem loc)) [elem.outline]
  | .dict key value loc => .mk (.type (.dict key value loc)) [key.outline, value.outline]
  | .tuple elems loc => .mk (.type (.tuple elems loc)) (TypeExpr.outlines elems)
  | .func params ret loc =>
    .mk (.type (.func params ret loc)) (TypeExpr.outlines params ++ TypeExpr.outlineOption ret)
  | .maybe inner loc => .mk (.type (.maybe inner loc)) [inner.outline]

def TypeExpr.outlines : List TypeExpr → List Outline
  | [] => []
  | t :: ts => t.outline :: TypeExpr.outlines ts

def TypeExpr.outlineOption : Option TypeExpr → List Outline
  | none => []
  | some t => [t.outline]

end

mutual

/-- The right operand of a binary expression comes before the left. -/
def Expr.outline : Expr → Outline
  | .literal value ty loc => .mk (.expr (.literal value ty loc)) []
  | .array elems ty loc => .mk (.expr (.array elems ty loc)) (Expr.outlines elems)
  | .tuple elems ty loc => .mk (.expr (.tuple elems ty loc)) (Expr.outlines elems)
  | .dict entries ty loc => .mk (.expr (.dict entries ty loc)) (Expr.outlineEntries entries)
  | .var name ty loc => .mk (.expr (.var name ty loc)) []
  | .call child args callee ty loc =>
    .mk (.expr (.call child args callee ty loc)) (child.outline :: Expr.outlines args)
  | .construct written args ty loc =>
    .mk (.expr (.construct written args ty loc)) (written.outline :: Expr.outlines args)
  | .index child position ty loc =>
    .mk (.expr (.index child position ty loc)) [child.outline, position.outline]
  | .member child name callee ty loc =>
    .mk (.expr (.member child name callee ty loc)) [child.outline]
  | .unary op operand ty loc => .mk (.expr (.unary op operand ty loc)) [operand.outline]
  | .cast child written ty loc =>
    .mk (.expr (.cast child written ty loc)) [child.outline, written.outline]
  | .binary lhs op rhs ty loc =>
    .mk (.expr (.binary lhs op rhs ty loc)) [rhs.outline, lhs.outline]
  | .choice cond yes no ty loc =>
    .mk (.expr (.choice cond yes no ty loc)) [cond.outline, yes.outline, no.outline]
  | .typed child written ty loc =>
    .mk (.expr (.typed child written ty loc)) [child.outline, written.outline]

def Expr.outlines : List Expr → List Outline
  | [] => []
  | e :: es => e.outline :: Expr.outlines es

def Expr.outlineEntries : List (Expr × Expr) → List Outline
  | [] => []
  | (key, value) :: entries => key.outline :: value.outline :: Expr.outlineEntries entries

end

def Binder.paramOutline (b : Binder) : Outline :=
  .mk (.param b) (TypeExpr.outlineOption b.written)

def Binder.declOutline (b : Binder) : Outline :=
  .mk (.decl b) (TypeExpr.outlineOption b.written)

def Declaration.outline (d : Declaration) : Outline :=
  .mk (.stmt (.declare d))
    (d.binders.map Binder.declOutline ++ Expr.outlines (d.values.getD []))

mutual

def Stmt.outline : Stmt → Outline
  | .declare d => d.outline
  | .assign targets values loc =>
    .mk (.stmt (.assign targets values loc)) (Expr.outlines targets ++ Expr.outlines values)
  | .branch kind cond body elseIfs otherwise loc =>
    .mk (.stmt (.branch kind cond body elseIfs otherwise loc))
      (cond.outline :: body.outline ::
        (Stmt.outlineElseIfs elseIfs ++ Stmt.outlineOtherwise otherwise))
  | .ret values loc => .mk (.stmt (.ret values loc)) (Expr.outlines values)
  | .case whens otherwise loc =>
    .mk (.stmt (.case whens otherwise loc))
      (Stmt.outlineWhens whens ++ Stmt.outlineOtherwise otherwise)
  | .switch target whens otherwise loc =>
    .mk (.stmt (.switch target whens otherwise loc))
      (target.outline :: (Stmt.outlineWhens whens ++ Stmt.outlineOtherwise otherwise))
  | .forIn vars range body loc =>
    .mk (.stmt (.forIn vars range body loc))
      (vars.map Binder.paramOutline ++ [range.outline, body.outline])
  | .whileDo cond body loc =>
    .mk (.stmt (.whileDo cond body loc)) [cond.outline, body.outline]
  | .trailingIf body kind cond loc =>
    .mk (.stmt (.trailingIf body kind cond loc)) [body.outline, cond.outline]
  | .letIn inits body loc =>
    .mk (.stmt (.letIn inits body loc)) (inits.map Declaration.outline ++ [body.outline])
  | .expr e => e.outline
  | .block b => b.outline

def Block.outline : Block → Outline
  | .mk stmts loc => .mk (.block (.mk stmts loc)) (Stmt.outlines stmts)

def Stmt.outlines : List Stmt → List Outline
  | [] => []
  | s :: ss => s.outline :: Stmt.outlines ss

def Stmt.outlineElseIfs : List (Clause Expr Block) → List Outline
  | [] => []
  | ⟨cond, body⟩ :: rest => cond.outline :: body.outline :: Stmt.outlineElseIfs rest

def Stmt.outlineWhens : List (Clause (List Expr) Block) → List Outline
  | [] => []
  | ⟨conds, body⟩ :: rest => Expr.outlines conds ++ body.outline :: Stmt.outlineWhens rest

def Stmt.outlineOtherwise : Option Block → List Outline
  | none => []
  | some body => [body.outline]

end

def ClassDef.outline (c : ClassDef) : Outline :=
  .mk (.classDef c) []

def FuncDef.outline (f : FuncDef) : Outline :=
  .mk (.funcDef f)
    (f.params.map Binder.paramOutline ++ TypeExpr.outlineOption f.written ++
      f.body.outline :: Stmt.outlineOtherwise f.ensure)

def Definition.outline : Definition → Outline
  | .classDef c => c.outline
  | .funcDef f => f.outline

def Program.outline (p : Program) : Outline :=
  .mk (.program p) (p.definitions.map Definition.outline)

def Node.outline : Node → Outline
  | program p => p.outline
  | classDef c => c.outline
  | funcDef f => f.outline
  | param b => b.paramOutline
  | decl b => b.declOutline
  | block b => b.outline
  | stmt s => s.outline
  | expr e => e.outline
  | type t => t.outline

end Semant
