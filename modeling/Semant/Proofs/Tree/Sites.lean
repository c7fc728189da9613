import Semant.Proofs.Tree.Nodes

/-! The declarations that are visible at each node of a tree. A declaration is visible to what comes
after it in its own block, `let` or condition, a loop variable in the body of its loop, and a
parameter in the blocks of its function. -/

namespace Semant

/-- A node with the declarations that are visible there, the latest first. -/
structure Site where
  visible : List Binder
  node : Node

/-- What a name means at a place: its latest visible declaration. -/
def Site.declaration? (site : Site) (name : String) : Option Binder :=
  site.visible.find? (·.name == name)

/-- The declarations of a statement that stay open after it, the latest first. -/
def Stmt.declared : Stmt → List Binder
  | .declare d => d.binders.reverse
  | .trailingIf body _ _ _ => body.declared
  | _ => []

namespace Node

def declared : Node → List Binder
  | stmt s => s.declared
  | _ => []

/-- The declarations that a node makes for the blocks directly below it. -/
def bound : Node → List Binder
  | funcDef f => f.params.reverse
  | stmt (.forIn vars _ _ _) => vars.reverse
  | _ => []

def isBlock : Node → Bool
  | block _ => true
  | _ => false

end Node

namespace Outline

mutual

/-- The nodes of a tree, each before those below it. -/
def nodes : Outline → List Node
  | mk node children => node :: nodesOf children

def nodesOf : List Outline → List Node
  | [] => []
  | o :: os => o.nodes ++ nodesOf os

end

mutual

/-- The nodes of a tree as sites, if `ds` are visible at its root. -/
def sites (ds : List Binder) : Outline → List Site
  | mk node children => ⟨ds, node⟩ :: sitesOf node.bound ds children

/-- Siblings see what those before them leave open. -/
def sitesOf (bound ds : List Binder) : List Outline → List Site
  | [] => []
  | o :: os =>
    o.sites (if o.node.isBlock then bound ++ ds else ds) ++ sitesOf bound (o.node.declared ++ ds) os

end

end Outline

/-- The sites of a tree that stands alone. -/
def Node.sites (node : Node) : List Site :=
  node.outline.sites []

namespace Outline

theorem nodesOf_append (os os' : List Outline) :
    nodesOf (os ++ os') = nodesOf os ++ nodesOf os' := by
  induction os with
  | nil => rfl
  | cons o os ih => rw [List.cons_append, nodesOf, nodesOf, ih, List.append_assoc]

mutual

theorem walk_visitNodes : ∀ (o : Outline) (acc : List Node),
    o.walk visitNodes acc = o.nodes.reverse ++ acc
  | mk node children, acc => by
    rw [Outline.walk, visitNodes, walkAll_visitNodes children, nodes, List.reverse_cons,
      List.append_assoc]
    rfl

theorem walkAll_visitNodes : ∀ (os : List Outline) (acc : List Node),
    walkAll (offers visitNodes os) acc = (nodesOf os).reverse ++ acc
  | [], _ => rfl
  | o :: os, acc => by
    have hstep : walkAll (offers visitNodes (o :: os)) acc =
        walkAll (offers visitNodes os) (o.walk visitNodes acc) := rfl
    rw [hstep, walk_visitNodes o, walkAll_visitNodes os, nodesOf, List.reverse_append,
      List.append_assoc]

end

end Outline

theorem Node.preorder_eq (node : Node) : node.preorder = node.outline.nodes := by
  rw [Node.preorder, Node.walk, Outline.walk_visitNodes, List.append_nil, List.reverse_reverse]

namespace Outline

mutual

theorem all_iff_nodes {Q : Node → Prop} : ∀ o : Outline, o.All Q ↔ ∀ n ∈ o.nodes, Q n
  | mk node children => by rw [all_mk, nodes, List.forall_mem_cons, allOf_iff_nodesOf children]

theorem allOf_iff_nodesOf {Q : Node → Prop} : ∀ os : List Outline,
    AllOf Q os ↔ ∀ n ∈ nodesOf os, Q n
  | [] => by simp [nodesOf]
  | o :: os => by
    rw [allOf_cons, nodesOf, List.forall_mem_append, all_iff_nodes o, allOf_iff_nodesOf os]

end

mutual

theorem map_node_sites : ∀ (ds : List Binder) (o : Outline), (o.sites ds).map Site.node = o.nodes
  | ds, mk node children => by
    rw [sites, nodes, List.map_cons, map_node_sitesOf node.bound ds children]

theorem map_node_sitesOf : ∀ (bound ds : List Binder) (os : List Outline),
    (sitesOf bound ds os).map Site.node = nodesOf os
  | _, _, [] => rfl
  | bound, ds, o :: os => by
    rw [sitesOf, nodesOf, List.map_append, map_node_sites _ o, map_node_sitesOf bound _ os]

end

end Outline

/-- There is one site for each node that a walk meets, in the same order. -/
theorem Node.map_node_sites (node : Node) : node.sites.map Site.node = node.preorder := by
  rw [Node.preorder_eq, Node.sites, Outline.map_node_sites]

@[simp]
theorem Expr.node_outline (e : Expr) : e.outline.node = .expr e := by
  cases e <;> rfl

@[simp]
theorem TypeExpr.node_outline (t : TypeExpr) : t.outline.node = .type t := by
  cases t <;> rfl

@[simp]
theorem Block.node_outline (b : Block) : b.outline.node = .block b := by
  cases b
  rfl

theorem Stmt.declared_outline (st : Stmt) : st.outline.node.declared = st.declared := by
  cases st with
  | expr e => rw [Stmt.outline, Expr.node_outline]; rfl
  | block b => rw [Stmt.outline, Block.node_outline]; rfl
  | _ => rfl

namespace Outline

/-- Every site of a tree has the property, if `ds` are visible at its root. -/
def Throughout (P : Site → Prop) (ds : List Binder) (o : Outline) : Prop :=
  ∀ site ∈ o.sites ds, P site

def ThroughoutOf (P : Site → Prop) (bound ds : List Binder) (os : List Outline) : Prop :=
  ∀ site ∈ sitesOf bound ds os, P site

variable {P : Site → Prop} {bound ds : List Binder} {os os' : List Outline}

theorem throughout_mk {node : Node} :
    (mk node os).Throughout P ds ↔ P ⟨ds, node⟩ ∧ ThroughoutOf P node.bound ds os := by
  rw [Throughout, sites, List.forall_mem_cons]
  rfl

theorem throughoutOf_nil : ThroughoutOf P bound ds [] :=
  List.forall_mem_nil _

theorem throughoutOf_cons {o : Outline} : ThroughoutOf P bound ds (o :: os) ↔
    o.Throughout P (if o.node.isBlock then bound ++ ds else ds) ∧
      ThroughoutOf P bound (o.node.declared ++ ds) os := by
  rw [ThroughoutOf, sitesOf, List.forall_mem_append]
  rfl

@[simp]
theorem throughoutOf_expr {e : Expr} : ThroughoutOf P bound ds (e.outline :: os) ↔
    e.outline.Throughout P ds ∧ ThroughoutOf P bound ds os := by
  rw [throughoutOf_cons, Expr.node_outline]
  rfl

@[simp]
theorem throughoutOf_type {t : TypeExpr} : ThroughoutOf P bound ds (t.outline :: os) ↔
    t.outline.Throughout P ds ∧ ThroughoutOf P bound ds os := by
  rw [throughoutOf_cons, TypeExpr.node_outline]
  rfl

@[simp]
theorem throughoutOf_block {b : Block} : ThroughoutOf P bound ds (b.outline :: os) ↔
    b.outline.Throughout P (bound ++ ds) ∧ ThroughoutOf P bound ds os := by
  rw [throughoutOf_cons, Block.node_outline]
  rfl

/-- A statement among others stands in no scope of its own. -/
theorem throughoutOf_stmt {st : Stmt} : ThroughoutOf P [] ds (st.outline :: os) ↔
    st.outline.Throughout P ds ∧ ThroughoutOf P [] (st.declared ++ ds) os := by
  rw [throughoutOf_cons, Stmt.declared_outline, List.nil_append, ite_self]

theorem Throughout.of_all {Q : Node → Prop} (hP : ∀ ds n, Q n → P ⟨ds, n⟩) {o : Outline}
    (h : o.All Q) : o.Throughout P ds := by
  intro site hsite
  have hnode : site.node ∈ o.nodes := by
    rw [← map_node_sites ds o]
    exact List.mem_map_of_mem hsite
  exact hP site.visible site.node ((all_iff_nodes o).mp h site.node hnode)

theorem ThroughoutOf.of_allOf {Q : Node → Prop} (hP : ∀ ds n, Q n → P ⟨ds, n⟩)
    (h : AllOf Q os) : ThroughoutOf P bound ds os := by
  intro site hsite
  have hnode : site.node ∈ nodesOf os := by
    rw [← map_node_sitesOf bound ds os]
    exact List.mem_map_of_mem hsite
  exact hP site.visible site.node ((allOf_iff_nodesOf os).mp h site.node hnode)

/-- Trees that leave no declaration open see the same as those after them. -/
theorem throughoutOf_append (h : ∀ o ∈ os, o.node.declared = []) :
    ThroughoutOf P bound ds (os ++ os') ↔
      ThroughoutOf P bound ds os ∧ ThroughoutOf P bound ds os' := by
  induction os with
  | nil => exact ⟨fun hall => ⟨throughoutOf_nil, hall⟩, fun hall => hall.2⟩
  | cons o os ih =>
    obtain ⟨ho, hos⟩ := List.forall_mem_cons.mp h
    rw [List.cons_append, throughoutOf_cons, throughoutOf_cons, ho, List.nil_append, ih hos,
      and_assoc]

end Outline

theorem Expr.declared_outlines (es : List Expr) :
    ∀ o ∈ Expr.outlines es, o.node.declared = [] := by
  induction es with
  | nil => exact List.forall_mem_nil _
  | cons e es ih =>
    rw [Expr.outlines, List.forall_mem_cons, Expr.node_outline]
    exact ⟨rfl, ih⟩

theorem TypeExpr.declared_outlineOption (t : Option TypeExpr) :
    ∀ o ∈ TypeExpr.outlineOption t, o.node.declared = [] := by
  cases t with
  | none => exact List.forall_mem_nil _
  | some t =>
    rw [TypeExpr.outlineOption, List.forall_mem_singleton, TypeExpr.node_outline]
    rfl

mutual

/-- All nodes of a written type are written types. -/
theorem TypeExpr.all_type : ∀ t : TypeExpr, t.outline.All fun n => ∃ t, n = .type t
  | .named _ args _ => Outline.all_mk.mpr ⟨⟨_, rfl⟩, TypeExpr.allOf_type args⟩
  | .array elem _ => by simp [TypeExpr.outline, elem.all_type]
  | .dict key value _ => by simp [TypeExpr.outline, key.all_type, value.all_type]
  | .tuple elems _ => Outline.all_mk.mpr ⟨⟨_, rfl⟩, TypeExpr.allOf_type elems⟩
  | .func params ret _ => by
    rw [TypeExpr.outline, Outline.all_mk, Outline.allOf_append]
    exact ⟨⟨_, rfl⟩, TypeExpr.allOf_type params, TypeExpr.allOf_type_option ret⟩
  | .maybe inner _ => by simp [TypeExpr.outline, inner.all_type]

theorem TypeExpr.allOf_type : ∀ ts : List TypeExpr,
    Outline.AllOf (fun n => ∃ t, n = .type t) (TypeExpr.outlines ts)
  | [] => trivial
  | t :: ts => Outline.allOf_cons.mpr ⟨t.all_type, TypeExpr.allOf_type ts⟩

theorem TypeExpr.allOf_type_option : ∀ t : Option TypeExpr,
    Outline.AllOf (fun n => ∃ t, n = .type t) (TypeExpr.outlineOption t)
  | none => trivial
  | some t => by simp [TypeExpr.outlineOption, t.all_type]

end

end Semant
