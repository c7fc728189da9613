import Semant.Proofs.Tree.Sites

/-! The declared children of each kind of node. A walk is the recursion over them: a visitor meets a
node together with its children, and the walk of a child is that of any other node. -/

namespace Semant

def TypeExpr.children : TypeExpr → List Node
  | named _ args _ => args.map .type
  | array elem _ => [.type elem]
  | dict key value _ => [.type key, .type value]
  | tuple elems _ => elems.map .type
  | func params ret _ => params.map .type ++ ret.toList.map .type
  | maybe inner _ => [.type inner]

def Expr.children : Expr → List Node
  | literal .. | var .. => []
  | array elems _ _ | tuple elems _ _ => elems.map .expr
  | dict entries _ _ => entries.flatMap fun entry => [.expr entry.1, .expr entry.2]
  | call child args _ _ _ => .expr child :: args.map .expr
  | construct written args _ _ => .type written :: args.map .expr
  | index child position _ _ => [.expr child, .expr position]
  | member child _ _ _ _ => [.expr child]
  | unary _ operand _ _ => [.expr operand]
  | cast child written _ _ | typed child written _ _ => [.expr child, .type written]
  | binary lhs _ rhs _ _ => [.expr rhs, .expr lhs]
  | choice cond yes no _ _ => [.expr cond, .expr yes, .expr no]

def Declaration.children (d : Declaration) : List Node :=
  d.binders.map .decl ++ (d.values.getD []).map .expr

def Clause.elseIfChildren (clause : Clause Expr Block) : List Node :=
  [.expr clause.test, .block clause.body]

def Clause.whenChildren (clause : Clause (List Expr) Block) : List Node :=
  clause.test.map .expr ++ [.block clause.body]

def Stmt.children : Stmt → List Node
  | declare d => d.children
  | assign targets values _ => targets.map .expr ++ values.map .expr
  | branch _ cond body elseIfs otherwise _ =>
    .expr cond :: .block body ::
      (elseIfs.flatMap Clause.elseIfChildren ++ otherwise.toList.map .block)
  | ret values _ => values.map .expr
  | case whens otherwise _ => whens.flatMap Clause.whenChildren ++ otherwise.toList.map .block
  | switch target whens otherwise _ =>
    .expr target :: (whens.flatMap Clause.whenChildren ++ otherwise.toList.map .block)
  | forIn vars range body _ => vars.map .param ++ [.expr range, .block body]
  | whileDo cond body _ => [.expr cond, .block body]
  | trailingIf body _ cond _ => [.ofStmt body, .expr cond]
  | letIn inits body _ => inits.map (.stmt ∘ .declare) ++ [.ofStmt body]
  | expr e => e.children
  | block b => b.stmts.map .ofStmt

def FuncDef.children (f : FuncDef) : List Node :=
  f.params.map .param ++ f.written.toList.map .type ++ .block f.body :: f.ensure.toList.map .block

def Definition.node : Definition → Node
  | classDef c => .classDef c
  | funcDef f => .funcDef f

namespace Node

def children : Node → List Node
  | program p => p.definitions.map Definition.node
  | classDef _ => []
  | funcDef f => f.children
  | param b | decl b => b.written.toList.map .type
  | block b => b.stmts.map .ofStmt
  | stmt s => s.children
  | expr e => e.children
  | type t => t.children

/-- The node as a walk meets it: an expression or a block in the place of a statement is met as
such. -/
def met : Node → Node
  | stmt s => ofStmt s
  | node => node

end Node

theorem TypeExpr.outlines_eq (ts : List TypeExpr) :
    TypeExpr.outlines ts = (ts.map Node.type).map Node.outline := by
  induction ts with
  | nil => rfl
  | cons t ts ih =>
    rw [TypeExpr.outlines, ih]
    rfl

theorem TypeExpr.outlineOption_eq (t : Option TypeExpr) :
    TypeExpr.outlineOption t = (t.toList.map Node.type).map Node.outline := by
  cases t <;> rfl

theorem Expr.outlines_eq (es : List Expr) :
    Expr.outlines es = (es.map Node.expr).map Node.outline := by
  induction es with
  | nil => rfl
  | cons e es ih =>
    rw [Expr.outlines, ih]
    rfl

theorem Expr.outlineEntries_eq (entries : List (Expr × Expr)) :
    Expr.outlineEntries entries =
      (entries.flatMap fun entry => [Node.expr entry.1, .expr entry.2]).map Node.outline := by
  induction entries with
  | nil => rfl
  | cons entry entries ih =>
    rw [Expr.outlineEntries, ih]
    rfl

theorem Node.outline_ofStmt (s : Stmt) : (Node.ofStmt s).outline = s.outline := by
  cases s <;> rfl

theorem Stmt.outlines_eq (ss : List Stmt) :
    Stmt.outlines ss = (ss.map Node.ofStmt).map Node.outline := by
  induction ss with
  | nil => rfl
  | cons s ss ih => rw [Stmt.outlines, ih, List.map_cons, List.map_cons, Node.outline_ofStmt]

theorem Stmt.outlineElseIfs_eq (clauses : List (Clause Expr Block)) :
    Stmt.outlineElseIfs clauses =
      (clauses.flatMap Clause.elseIfChildren).map Node.outline := by
  induction clauses with
  | nil => rfl
  | cons clause clauses ih =>
    rw [Stmt.outlineElseIfs, ih]
    rfl

theorem Stmt.outlineWhens_eq (clauses : List (Clause (List Expr) Block)) :
    Stmt.outlineWhens clauses = (clauses.flatMap Clause.whenChildren).map Node.outline := by
  induction clauses with
  | nil => rfl
  | cons clause clauses ih =>
    rw [Stmt.outlineWhens, ih, Expr.outlines_eq, List.flatMap_cons, List.map_append,
      Clause.whenChildren, List.map_append, List.append_assoc]
    rfl

theorem Stmt.outlineOtherwise_eq (b : Option Block) :
    Stmt.outlineOtherwise b = (b.toList.map Node.block).map Node.outline := by
  cases b <;> rfl

theorem Declaration.outline_eq (d : Declaration) :
    d.outline = .mk (.stmt (.declare d)) (d.children.map Node.outline) := by
  simp only [Declaration.outline, Expr.outlines_eq, Declaration.children, List.map_append,
    List.map_map]
  rfl

theorem TypeExpr.outline_eq (t : TypeExpr) :
    t.outline = .mk (.type t) (t.children.map Node.outline) := by
  cases t with
  | named | tuple => rw [TypeExpr.outline, TypeExpr.outlines_eq]; rfl
  | array | dict | maybe => rw [TypeExpr.outline]; rfl
  | func =>
    rw [TypeExpr.outline, TypeExpr.outlines_eq, TypeExpr.outlineOption_eq, ← List.map_append]
    rfl

theorem Expr.outline_eq (e : Expr) : e.outline = .mk (.expr e) (e.children.map Node.outline) := by
  cases e with
  | literal | var | index | member | unary | cast | binary | choice | typed =>
    rw [Expr.outline]; rfl
  | array | tuple | call | construct => rw [Expr.outline, Expr.outlines_eq]; rfl
  | dict => rw [Expr.outline, Expr.outlineEntries_eq]; rfl

theorem Block.outline_eq (b : Block) :
    b.outline = .mk (.block b) ((b.stmts.map Node.ofStmt).map Node.outline) := by
  cases b
  rw [Block.outline, Stmt.outlines_eq]
  rfl

theorem Stmt.outline_eq (s : Stmt) :
    s.outline = .mk (.ofStmt s) (s.children.map Node.outline) := by
  cases s with
  | declare d => exact d.outline_eq
  | assign =>
    rw [Stmt.outline, Expr.outlines_eq, Expr.outlines_eq, ← List.map_append]
    rfl
  | branch =>
    rw [Stmt.outline, Stmt.outlineElseIfs_eq, Stmt.outlineOtherwise_eq, ← List.map_append]
    rfl
  | ret => rw [Stmt.outline, Expr.outlines_eq]; rfl
  | case | switch =>
    rw [Stmt.outline, Stmt.outlineWhens_eq, Stmt.outlineOtherwise_eq, ← List.map_append]
    rfl
  | forIn =>
    rw [Stmt.outline, Stmt.children, List.map_append, List.map_map]
    rfl
  | whileDo => rw [Stmt.outline]; rfl
  | trailingIf body =>
    rw [Stmt.outline, ← Node.outline_ofStmt body]
    rfl
  | letIn _ body =>
    rw [Stmt.outline, ← Node.outline_ofStmt body, Stmt.children, List.map_append, List.map_map]
    rfl
  | expr e => rw [Stmt.outline, e.outline_eq]; rfl
  | block b => rw [Stmt.outline, b.outline_eq]; rfl

theorem FuncDef.outline_eq (f : FuncDef) :
    f.outline = .mk (.funcDef f) (f.children.map Node.outline) := by
  simp only [FuncDef.outline, TypeExpr.outlineOption_eq, Stmt.outlineOtherwise_eq,
    FuncDef.children, List.map_append, List.map_cons, List.map_map]
  rfl

theorem Definition.outline_eq (definition : Definition) :
    definition.outline = definition.node.outline := by
  cases definition <;> rfl

namespace Node

/-- The tree below a node is the node with the trees below its children. -/
theorem outline_eq (node : Node) : node.outline = .mk node.met (node.children.map outline) := by
  cases node with
  | program p =>
    rw [Node.outline, Program.outline, Node.children, List.map_map,
      funext Definition.outline_eq]
    rfl
  | classDef c => rfl
  | funcDef f => exact f.outline_eq
  | param b | decl b =>
    rw [Node.children, ← TypeExpr.outlineOption_eq]
    rfl
  | block b => exact b.outline_eq
  | stmt s => exact s.outline_eq
  | expr e => exact e.outline_eq
  | type t => exact t.outline_eq

theorem node_outline (node : Node) : node.outline.node = node.met := by
  rw [outline_eq]
  rfl

end Node

mutual

theorem Outline.of_children {P : Outline → Prop}
    (h : ∀ node children, (∀ o ∈ children, P o) → P (.mk node children)) : ∀ o : Outline, P o
  | .mk node children => h node children (Outline.forall_of_children h children)

theorem Outline.forall_of_children {P : Outline → Prop}
    (h : ∀ node children, (∀ o ∈ children, P o) → P (.mk node children)) :
    ∀ os : List Outline, ∀ o ∈ os, P o
  | [] => List.forall_mem_nil _
  | o :: os =>
    List.forall_mem_cons.mpr ⟨Outline.of_children h o, Outline.forall_of_children h os⟩

end

namespace Node

/-- What follows for a node from its children holds of every node. -/
theorem of_children {P : Node → Prop} (h : ∀ node, (∀ child ∈ node.children, P child) → P node)
    (node : Node) : P node := by
  suffices htree : ∀ o : Outline, ∀ node : Node, node.outline = o → P node from
    htree node.outline node rfl
  refine Outline.of_children fun root trees ih node hnode => h node fun child hchild => ?_
  rw [outline_eq] at hnode
  obtain ⟨_, rfl⟩ := Outline.mk.inj hnode
  exact ih child.outline (List.mem_map_of_mem hchild) child rfl

variable {σ : Type}

/-- A child as it is offered to a visitor. -/
def offer (visit : Visitor σ) (child : Node) : Offer σ :=
  ⟨child.met, child.walk visit⟩

theorem offers_eq (visit : Visitor σ) (children : List Node) :
    Outline.offers visit (children.map outline) = children.map (offer visit) := by
  induction children with
  | nil => rfl
  | cons child children ih =>
    rw [List.map_cons, Outline.offers, node_outline, ih]
    rfl

/-- Whatever the visitor does, it meets the node with its children, in their declared order. -/
theorem walk_eq (visit : Visitor σ) (node : Node) :
    node.walk visit = visit node.met (node.children.map (offer visit)) := by
  rw [Node.walk, outline_eq, Outline.walk, offers_eq]

theorem preorder_children (node : Node) :
    node.preorder = node.met :: node.children.flatMap preorder := by
  rw [preorder_eq, outline_eq, Outline.nodes]
  congr 1
  induction node.children with
  | nil => rfl
  | cons child children ih =>
    rw [List.map_cons, Outline.nodesOf, ih, List.flatMap_cons, preorder_eq]

end Node

end Semant
