import Semant.Proofs.Tree.Children

/-! Measures of a tree that count one for each node and join what the parts of a node give: with the
sum for `join`, the number of nodes, and with the maximum, the depth. They follow the parts as the
data has them, so they do not depend on the order of children. -/

namespace Semant

variable (join : Nat → Nat → Nat)

mutual

def TypeExpr.measure : TypeExpr → Nat
  | .named _ args _ => 1 + TypeExpr.measureAll args
  | .array elem _ => 1 + elem.measure
  | .dict key value _ => 1 + join key.measure value.measure
  | .tuple elems _ => 1 + TypeExpr.measureAll elems
  | .func params ret _ => 1 + join (TypeExpr.measureAll params) (TypeExpr.measureOption ret)
  | .maybe inner _ => 1 + inner.measure

def TypeExpr.measureAll : List TypeExpr → Nat
  | [] => 0
  | t :: ts => join t.measure (TypeExpr.measureAll ts)

def TypeExpr.measureOption : Option TypeExpr → Nat
  | none => 0
  | some t => t.measure

end

mutual

def Expr.measure : Expr → Nat
  | .literal .. | .var .. => 1
  | .array elems _ _ => 1 + Expr.measureAll elems
  | .tuple elems _ _ => 1 + Expr.measureAll elems
  | .dict entries _ _ => 1 + Expr.measureEntries entries
  | .call child args _ _ _ => 1 + join child.measure (Expr.measureAll args)
  | .construct written args _ _ => 1 + join (written.measure join) (Expr.measureAll args)
  | .index child position _ _ => 1 + join child.measure position.measure
  | .member child _ _ _ _ => 1 + child.measure
  | .unary _ operand _ _ => 1 + operand.measure
  | .cast child written _ _ => 1 + join child.measure (written.measure join)
  | .binary lhs _ rhs _ _ => 1 + join lhs.measure rhs.measure
  | .choice cond yes no _ _ => 1 + join cond.measure (join yes.measure no.measure)
  | .typed child written _ _ => 1 + join child.measure (written.measure join)

def Expr.measureAll : List Expr → Nat
  | [] => 0
  | e :: es => join e.measure (Expr.measureAll es)

def Expr.measureEntries : List (Expr × Expr) → Nat
  | [] => 0
  | (key, value) :: entries =>
    join (join key.measure value.measure) (Expr.measureEntries entries)

end

def Binder.measure (b : Binder) : Nat :=
  1 + TypeExpr.measureOption join b.written

def Binder.measureAll : List Binder → Nat
  | [] => 0
  | b :: bs => join (b.measure join) (Binder.measureAll bs)

def Declaration.measure (d : Declaration) : Nat :=
  1 + join (Binder.measureAll join d.binders) (Expr.measureAll join (d.values.getD []))

def Declaration.measureAll : List Declaration → Nat
  | [] => 0
  | d :: ds => join (d.measure join) (Declaration.measureAll ds)

mutual

def Stmt.measure : Stmt → Nat
  | .declare d => d.measure join
  | .assign targets values _ =>
    1 + join (Expr.measureAll join targets) (Expr.measureAll join values)
  | .branch _ cond body elseIfs otherwise _ =>
    1 + join (join (cond.measure join) body.measure)
      (join (Stmt.measureElseIfs elseIfs) (Stmt.measureOtherwise otherwise))
  | .ret values _ => 1 + Expr.measureAll join values
  | .case whens otherwise _ =>
    1 + join (Stmt.measureWhens whens) (Stmt.measureOtherwise otherwise)
  | .switch target whens otherwise _ =>
    1 + join (target.measure join)
      (join (Stmt.measureWhens whens) (Stmt.measureOtherwise otherwise))
  | .forIn vars range body _ =>
    1 + join (Binder.measureAll join vars) (join (range.measure join) body.measure)
  | .whileDo cond body _ => 1 + join (cond.measure join) body.measure
  | .trailingIf body _ cond _ => 1 + join body.measure (cond.measure join)
  | .letIn inits body _ => 1 + join (Declaration.measureAll join inits) body.measure
  | .expr e => e.measure join
  | .block b => b.measure

def Block.measure : Block → Nat
  | .mk stmts _ => 1 + Stmt.measureAll stmts

def Stmt.measureAll : List Stmt → Nat
  | [] => 0
  | s :: ss => join s.measure (Stmt.measureAll ss)

def Stmt.measureElseIfs : List (Clause Expr Block) → Nat
  | [] => 0
  | ⟨cond, body⟩ :: rest =>
    join (join (cond.measure join) body.measure) (Stmt.measureElseIfs rest)

def Stmt.measureWhens : List (Clause (List Expr) Block) → Nat
  | [] => 0
  | ⟨conds, body⟩ :: rest =>
    join (join (Expr.measureAll join conds) body.measure) (Stmt.measureWhens rest)

def Stmt.measureOtherwise : Option Block → Nat
  | none => 0
  | some body => body.measure

end

def FuncDef.measure (f : FuncDef) : Nat :=
  1 + join (join (Binder.measureAll join f.params) (TypeExpr.measureOption join f.written))
    (join (f.body.measure join) (Stmt.measureOtherwise join f.ensure))

def Definition.measureAll : List Definition → Nat
  | [] => 0
  | .classDef _ :: defs => join 1 (Definition.measureAll defs)
  | .funcDef f :: defs => join (f.measure join) (Definition.measureAll defs)

def Node.measure : Node → Nat
  | program p => 1 + Definition.measureAll join p.definitions
  | classDef _ => 1
  | funcDef f => f.measure join
  | param b | decl b => b.measure join
  | block b => b.measure join
  | stmt s => s.measure join
  | expr e => e.measure join
  | type t => t.measure join

/-- The number of nodes of a tree. -/
def Node.count : Node → Nat :=
  measure (· + ·)

/-- The number of nodes on the longest way down a tree. -/
def Node.depth : Node → Nat :=
  measure max

/-- The joint measure of nodes that stand side by side. -/
def Node.measureAll (nodes : List Node) : Nat :=
  (nodes.map (measure join)).foldr join 0

@[simp]
theorem Node.measureAll_nil : Node.measureAll join [] = 0 := rfl

@[simp]
theorem Node.measureAll_cons (node : Node) (nodes : List Node) :
    Node.measureAll join (node :: nodes) = join (node.measure join) (Node.measureAll join nodes) :=
  rfl

@[simp]
theorem Node.measure_expr (e : Expr) : (Node.expr e).measure join = e.measure join := rfl

@[simp]
theorem Node.measure_type (t : TypeExpr) : (Node.type t).measure join = t.measure join := rfl

@[simp]
theorem Node.measure_block (b : Block) : (Node.block b).measure join = b.measure join := rfl

@[simp]
theorem Node.measure_ofStmt (s : Stmt) : (Node.ofStmt s).measure join = s.measure join := by
  cases s <;> rfl

theorem TypeExpr.measureAll_eq (ts : List TypeExpr) :
    TypeExpr.measureAll join ts = Node.measureAll join (ts.map .type) := by
  induction ts with
  | nil => rfl
  | cons t ts ih =>
    rw [TypeExpr.measureAll, ih]
    rfl

theorem Expr.measureAll_eq (es : List Expr) :
    Expr.measureAll join es = Node.measureAll join (es.map .expr) := by
  induction es with
  | nil => rfl
  | cons e es ih =>
    rw [Expr.measureAll, ih]
    rfl

theorem Binder.measureAll_eq (bs : List Binder) :
    Binder.measureAll join bs = Node.measureAll join (bs.map .param) ∧
      Binder.measureAll join bs = Node.measureAll join (bs.map .decl) := by
  induction bs with
  | nil => exact ⟨rfl, rfl⟩
  | cons b bs ih =>
    rw [Binder.measureAll, List.map_cons, List.map_cons, Node.measureAll_cons,
      Node.measureAll_cons, ← ih.1, ← ih.2]
    exact ⟨rfl, rfl⟩

theorem Declaration.measureAll_eq (ds : List Declaration) :
    Declaration.measureAll join ds = Node.measureAll join (ds.map (.stmt ∘ .declare)) := by
  induction ds with
  | nil => rfl
  | cons d ds ih =>
    rw [Declaration.measureAll, ih]
    simp [Node.measure, Stmt.measure]

theorem Stmt.measureAll_eq (ss : List Stmt) :
    Stmt.measureAll join ss = Node.measureAll join (ss.map .ofStmt) := by
  induction ss with
  | nil => rfl
  | cons s ss ih =>
    rw [Stmt.measureAll, ih, List.map_cons, Node.measureAll_cons, Node.measure_ofStmt]

theorem Definition.measureAll_eq (defs : List Definition) :
    Definition.measureAll join defs = Node.measureAll join (defs.map Definition.node) := by
  induction defs with
  | nil => rfl
  | cons definition defs ih =>
    cases definition <;>
    · rw [Definition.measureAll, ih]
      rfl

theorem Block.measure_children (b : Block) :
    b.measure join = 1 + Node.measureAll join (b.stmts.map .ofStmt) := by
  cases b
  rw [Block.measure, Stmt.measureAll_eq]
  rfl

section

variable [identity : Std.LawfulIdentity join 0]

theorem Node.measureAll_singleton (node : Node) :
    Node.measureAll join [node] = node.measure join :=
  identity.right_id _

theorem TypeExpr.measureOption_eq (t : Option TypeExpr) :
    TypeExpr.measureOption join t = Node.measureAll join (t.toList.map .type) := by
  cases t with
  | none => rfl
  | some t => exact (Node.measureAll_singleton join (.type t)).symm

theorem Stmt.measureOtherwise_eq (b : Option Block) :
    Stmt.measureOtherwise join b = Node.measureAll join (b.toList.map .block) := by
  cases b with
  | none => rfl
  | some b => exact (Node.measureAll_singleton join (.block b)).symm

variable [associative : Std.Associative join]

@[simp]
theorem Node.measureAll_append (nodes nodes' : List Node) :
    Node.measureAll join (nodes ++ nodes') =
      join (Node.measureAll join nodes) (Node.measureAll join nodes') := by
  induction nodes with
  | nil => exact (identity.left_id _).symm
  | cons node nodes ih =>
    rw [List.cons_append, Node.measureAll_cons, ih, Node.measureAll_cons, associative.assoc]

theorem Expr.measureEntries_eq (entries : List (Expr × Expr)) :
    Expr.measureEntries join entries =
      Node.measureAll join (entries.flatMap fun entry => [.expr entry.1, .expr entry.2]) := by
  induction entries with
  | nil => rfl
  | cons entry entries ih =>
    rw [Expr.measureEntries, ih, List.flatMap_cons, Node.measureAll_append, Node.measureAll_cons,
      Node.measureAll_singleton]
    rfl

theorem Stmt.measureElseIfs_eq (clauses : List (Clause Expr Block)) :
    Stmt.measureElseIfs join clauses =
      Node.measureAll join (clauses.flatMap Clause.elseIfChildren) := by
  induction clauses with
  | nil => rfl
  | cons clause clauses ih =>
    rw [Stmt.measureElseIfs, ih, List.flatMap_cons, Node.measureAll_append, Clause.elseIfChildren,
      Node.measureAll_cons, Node.measureAll_singleton]
    rfl

theorem Stmt.measureWhens_eq (clauses : List (Clause (List Expr) Block)) :
    Stmt.measureWhens join clauses =
      Node.measureAll join (clauses.flatMap Clause.whenChildren) := by
  induction clauses with
  | nil => rfl
  | cons clause clauses ih =>
    rw [Stmt.measureWhens, ih, List.flatMap_cons, Node.measureAll_append, Clause.whenChildren,
      Node.measureAll_append, Node.measureAll_singleton, Expr.measureAll_eq]
    rfl

theorem TypeExpr.measure_children (t : TypeExpr) :
    t.measure join = 1 + Node.measureAll join t.children := by
  cases t <;>
    simp [TypeExpr.measure, TypeExpr.children, TypeExpr.measureAll_eq,
      TypeExpr.measureOption_eq, identity.right_id]

theorem Declaration.measure_children (d : Declaration) :
    d.measure join = 1 + Node.measureAll join d.children := by
  rw [Declaration.measure, Declaration.children, Node.measureAll_append,
    (Binder.measureAll_eq join d.binders).2, Expr.measureAll_eq]

theorem FuncDef.measure_children (f : FuncDef) :
    f.measure join = 1 + Node.measureAll join f.children := by
  rw [FuncDef.measure, FuncDef.children, Node.measureAll_append, Node.measureAll_append,
    Node.measureAll_cons, (Binder.measureAll_eq join f.params).1, TypeExpr.measureOption_eq,
    Stmt.measureOtherwise_eq]
  rfl

variable [commutative : Std.Commutative join]

/-- The operands of a binary expression are walked from the right, which `join` does not see. -/
theorem Expr.measure_children (e : Expr) :
    e.measure join = 1 + Node.measureAll join e.children := by
  cases e with
  | binary lhs _ rhs =>
    rw [Expr.measure, Expr.children, Node.measureAll_cons, Node.measureAll_singleton,
      commutative.comm]
    rfl
  | _ =>
    simp [Expr.measure, Expr.children, Expr.measureAll_eq, Expr.measureEntries_eq, identity.right_id]

theorem Stmt.measure_children (s : Stmt) :
    s.measure join = 1 + Node.measureAll join s.children := by
  cases s with
  | declare d => exact d.measure_children join
  | expr e => exact e.measure_children join
  | block b => exact b.measure_children join
  | forIn vars =>
    simp [Stmt.measure, Stmt.children, (Binder.measureAll_eq join vars).1, identity.right_id]
  | _ =>
    simp [Stmt.measure, Stmt.children, Expr.measureAll_eq, Stmt.measureElseIfs_eq,
      Stmt.measureWhens_eq, Stmt.measureOtherwise_eq, Declaration.measureAll_eq,
      associative.assoc, identity.right_id]

/-- A node counts one on top of what its children give. -/
theorem Node.measure_children (node : Node) :
    node.measure join = 1 + Node.measureAll join node.children := by
  cases node with
  | program p =>
    rw [Node.measure, Definition.measureAll_eq]
    rfl
  | classDef c => rfl
  | funcDef f => exact f.measure_children join
  | param b | decl b =>
    rw [Node.measure, Binder.measure, TypeExpr.measureOption_eq]
    rfl
  | block b => exact b.measure_children join
  | stmt s => exact s.measure_children join
  | expr e => exact e.measure_children join
  | type t => exact t.measure_children join

end

end Semant
