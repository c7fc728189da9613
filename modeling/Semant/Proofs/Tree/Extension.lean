import Semant.Proofs.Tree.Annotation

/-! Trees that differ in their slots only, where a slot that has a value keeps it. What else is in a
tree, its shape, names, literals, written types and places, is what is left when all slots are
emptied. -/

namespace Semant

/-- A slot is kept, or it was empty and takes a value of `Q`. -/
inductive Slot.Gains {α : Type} (Q : α → Prop) : Slot α → Slot α → Prop
  | kept (slot : Slot α) : Gains Q slot slot
  | filled {a : α} : Q a → Gains Q .unresolved (.resolved a)

namespace Slot.Gains

variable {α : Type} {Q : α → Prop}

theorem trans {slot slot' slot'' : Slot α} (h : Gains Q slot slot') (h' : Gains Q slot' slot'') :
    Gains Q slot slot'' := by
  cases h with
  | kept => exact h'
  | filled ha =>
    cases h' with
    | kept => exact .filled ha

theorem holds {slot slot' : Slot α} (h : Gains Q slot slot') (hslot : ∀ a ∈ slot.get?, Q a) :
    ∀ a ∈ slot'.get?, Q a := by
  cases h with
  | kept => exact hslot
  | filled ha =>
    rintro _ ⟨⟩
    exact ha

theorem option_refl (slot : Option (Slot α)) : Option.Rel (Gains Q) slot slot := by
  cases slot with
  | none => exact .none
  | some slot => exact .some (.kept slot)

theorem option_trans {a b c : Option (Slot α)} (h : Option.Rel (Gains Q) a b)
    (h' : Option.Rel (Gains Q) b c) : Option.Rel (Gains Q) a c := by
  cases h with
  | none => exact h'
  | some hab =>
    cases h' with
    | some hbc => exact .some (hab.trans hbc)

/-- What a slot has stays in it. -/
theorem option_resolved {a b : Option (Slot α)} (h : Option.Rel (Gains Q) a b) {value : α}
    (ha : a = some (.resolved value)) : b = some (.resolved value) := by
  subst ha
  cases h with
  | some hslot =>
    cases hslot
    rfl

end Slot.Gains

namespace Node

/-- The type in the slot of the node, if there is one, is of `Q`. -/
def Holds (Q : Ty → Prop) (n : Node) : Prop :=
  ∀ slot ∈ n.typeSlot?, ∀ ty ∈ slot.get?, Q ty

/-- The slots of `m` are those of `n`, where the empty ones may have taken types of `Q`. -/
structure Gains (Q : Ty → Prop) (n m : Node) : Prop where
  type : Option.Rel (Slot.Gains Q) n.typeSlot? m.typeSlot?
  callee : Option.Rel (Slot.Gains fun _ => True) n.calleeSlot? m.calleeSlot?

variable {Q : Ty → Prop}

instance : Std.Refl (Gains Q) where
  refl _ := ⟨Slot.Gains.option_refl _, Slot.Gains.option_refl _⟩

theorem Gains.trans {n m k : Node} (h : n.Gains Q m) (h' : m.Gains Q k) : n.Gains Q k :=
  ⟨Slot.Gains.option_trans h.type h'.type, Slot.Gains.option_trans h.callee h'.callee⟩

theorem Gains.holds {n m : Node} (h : n.Gains Q m) (hn : n.Holds Q) : m.Holds Q := by
  intro slot hslot
  have htype := h.type
  rw [Option.mem_def.mp hslot] at htype
  generalize hfrom : n.typeSlot? = before at htype
  cases htype with
  | some hgains => exact hgains.holds (hn _ hfrom)

end Node

theorem forall₂_trans {α : Type} {R : α → α → Prop} (hR : ∀ a b c, R a b → R b c → R a c)
    {as bs cs : List α} (h : List.Forall₂ R as bs) (h' : List.Forall₂ R bs cs) :
    List.Forall₂ R as cs := by
  induction h generalizing cs with
  | nil => exact h'
  | cons hab _ ih =>
    cases h' with
    | cons hbc hrest => exact .cons (hR _ _ _ hab hbc) (ih hrest)

theorem forall₂_forall {α β : Type} {R : α → β → Prop} {P : α → Prop} {Q : β → Prop}
    (hR : ∀ a b, R a b → P a → Q b) {as : List α} {bs : List β} (h : List.Forall₂ R as bs)
    (has : ∀ a ∈ as, P a) : ∀ b ∈ bs, Q b := by
  induction h with
  | nil => exact List.forall_mem_nil _
  | cons hab _ ih =>
    obtain ⟨ha, has⟩ := List.forall_mem_cons.mp has
    exact List.forall_mem_cons.mpr ⟨hR _ _ hab ha, ih has⟩

namespace Outline

variable {Q : Ty → Prop}

theorem Pairs.trans {o p q : Outline} (h : o.Pairs (Node.Gains Q) p)
    (h' : p.Pairs (Node.Gains Q) q) : o.Pairs (Node.Gains Q) q :=
  forall₂_trans (R := Node.Gains Q) (fun _ _ _ => Node.Gains.trans) h h'

theorem Pairs.holds {o p : Outline} (h : o.Pairs (Node.Gains Q) p) (ho : o.All (Node.Holds Q)) :
    p.All (Node.Holds Q) := by
  rw [all_iff_nodes] at ho ⊢
  exact forall₂_forall (R := Node.Gains Q) (fun _ _ => Node.Gains.holds) h ho

theorem PairsAll.holds {os ps : List Outline} (h : PairsAll (Node.Gains Q) os ps)
    (hos : AllOf (Node.Holds Q) os) : AllOf (Node.Holds Q) ps := by
  rw [allOf_iff_nodesOf] at hos ⊢
  exact forall₂_forall (R := Node.Gains Q) (fun _ _ => Node.Gains.holds) h hos

end Outline

/-- The function with all of its slots emptied. -/
def FuncDef.emptied (f : FuncDef) : FuncDef :=
  { f.blank with params := f.params.map Binder.blank, ret := .unresolved }

def Definition.emptied : Definition → Definition
  | classDef c => classDef c
  | funcDef f => funcDef f.emptied

def Program.emptied (p : Program) : Program :=
  { p with definitions := p.definitions.map Definition.emptied }

/-- The node with all slots in it and below it emptied. -/
def Node.emptied : Node → Node
  | program p => program p.emptied
  | classDef c => classDef c
  | funcDef f => funcDef f.emptied
  | param b => param b.blank
  | decl b => decl b.blank
  | block b => block b.blank
  | stmt s => stmt s.blank
  | expr e => expr e.blank
  | type t => type t

theorem TypeExpr.map_emptied_nodes (t : TypeExpr) :
    t.outline.nodes.map Node.emptied = t.outline.nodes := by
  refine (List.map_congr_left fun n hn => ?_).trans (List.map_id _)
  obtain ⟨t, rfl⟩ := (Outline.all_iff_nodes _).mp t.all_type n hn
  rfl

theorem TypeExpr.map_emptied_option (t : Option TypeExpr) :
    (Outline.nodesOf (TypeExpr.outlineOption t)).map Node.emptied =
      Outline.nodesOf (TypeExpr.outlineOption t) := by
  cases t with
  | none => rfl
  | some t => simp [TypeExpr.outlineOption, Outline.nodesOf, t.map_emptied_nodes]

mutual

theorem Expr.nodes_blank : ∀ e : Expr,
    e.blank.outline.nodes = e.outline.nodes.map Node.emptied
  | .literal .. | .var .. => rfl
  | .array elems .. | .tuple elems .. => by
    simp [Expr.blank, Expr.outline, Outline.nodes, Node.emptied, Expr.nodesOf_blankAll elems]
  | .dict entries .. => by
    simp [Expr.blank, Expr.outline, Outline.nodes, Node.emptied, Expr.nodesOf_blankEntries entries]
  | .call child args .. => by
    simp [Expr.blank, Expr.outline, Outline.nodes, Outline.nodesOf, Node.emptied,
      Expr.nodes_blank child, Expr.nodesOf_blankAll args]
  | .construct written args .. => by
    simp [Expr.blank, Expr.outline, Outline.nodes, Outline.nodesOf, Node.emptied,
      written.map_emptied_nodes, Expr.nodesOf_blankAll args]
  | .index child position .. => by
    simp [Expr.blank, Expr.outline, Outline.nodes, Outline.nodesOf, Node.emptied,
      Expr.nodes_blank child, Expr.nodes_blank position]
  | .member child .. | .unary _ child .. => by
    simp [Expr.blank, Expr.outline, Outline.nodes, Outline.nodesOf, Node.emptied,
      Expr.nodes_blank child]
  | .cast child written .. | .typed child written .. => by
    simp [Expr.blank, Expr.outline, Outline.nodes, Outline.nodesOf, Node.emptied,
      Expr.nodes_blank child, written.map_emptied_nodes]
  | .binary lhs _ rhs .. => by
    simp [Expr.blank, Expr.outline, Outline.nodes, Outline.nodesOf, Node.emptied,
      Expr.nodes_blank lhs, Expr.nodes_blank rhs]
  | .choice cond yes no .. => by
    simp [Expr.blank, Expr.outline, Outline.nodes, Outline.nodesOf, Node.emptied,
      Expr.nodes_blank cond, Expr.nodes_blank yes, Expr.nodes_blank no]

theorem Expr.nodesOf_blankAll : ∀ es : List Expr,
    Outline.nodesOf (Expr.outlines (Expr.blankAll es)) =
      (Outline.nodesOf (Expr.outlines es)).map Node.emptied
  | [] => rfl
  | e :: es => by
    simp [Expr.blankAll, Expr.outlines, Outline.nodesOf, Expr.nodes_blank e,
      Expr.nodesOf_blankAll es]

theorem Expr.nodesOf_blankEntries : ∀ es : List (Expr × Expr),
    Outline.nodesOf (Expr.outlineEntries (Expr.blankEntries es)) =
      (Outline.nodesOf (Expr.outlineEntries es)).map Node.emptied
  | [] => rfl
  | (key, value) :: es => by
    simp [Expr.blankEntries, Expr.outlineEntries, Outline.nodesOf, Expr.nodes_blank key,
      Expr.nodes_blank value, Expr.nodesOf_blankEntries es]

end

/-- As a parameter and as a declared variable. -/
theorem Binder.nodesOf_blank (bs : List Binder) :
    Outline.nodesOf ((bs.map Binder.blank).map Binder.paramOutline) =
        (Outline.nodesOf (bs.map Binder.paramOutline)).map Node.emptied ∧
      Outline.nodesOf ((bs.map Binder.blank).map Binder.declOutline) =
        (Outline.nodesOf (bs.map Binder.declOutline)).map Node.emptied := by
  induction bs with
  | nil => exact ⟨rfl, rfl⟩
  | cons b bs ih =>
    obtain ⟨hparams, hdecls⟩ := ih
    constructor
    · simp only [List.map_cons, Outline.nodesOf, List.map_append, hparams, Binder.paramOutline,
        Outline.nodes, TypeExpr.map_emptied_option]
      rfl
    · simp only [List.map_cons, Outline.nodesOf, List.map_append, hdecls, Binder.declOutline,
        Outline.nodes, TypeExpr.map_emptied_option]
      rfl

theorem Declaration.nodes_blank (d : Declaration) :
    d.blank.outline.nodes = d.outline.nodes.map Node.emptied := by
  have hvalues : Expr.outlines ((d.values.map Expr.blankAll).getD []) =
      Expr.outlines (Expr.blankAll (d.values.getD [])) := by
    cases d.values <;> rfl
  simp only [Declaration.outline, Outline.nodes, Outline.nodesOf_append, List.map_cons,
    List.map_append, Declaration.blank, (Binder.nodesOf_blank d.binders).2, hvalues,
    Expr.nodesOf_blankAll]
  rfl

theorem Declaration.nodesOf_blank (ds : List Declaration) :
    Outline.nodesOf ((ds.map Declaration.blank).map Declaration.outline) =
      (Outline.nodesOf (ds.map Declaration.outline)).map Node.emptied := by
  induction ds with
  | nil => rfl
  | cons d ds ih =>
    simp only [List.map_cons, Outline.nodesOf, List.map_append, d.nodes_blank, ih]

mutual

theorem Stmt.nodes_blank : ∀ st : Stmt,
    st.blank.outline.nodes = st.outline.nodes.map Node.emptied
  | .declare d => d.nodes_blank
  | .assign targets values _ => by
    simp [Stmt.blank, Stmt.outline, Outline.nodes, Outline.nodesOf_append, Node.emptied,
      Expr.nodesOf_blankAll]
  | .branch _ cond body elseIfs otherwise _ => by
    simp [Stmt.blank, Stmt.outline, Outline.nodes, Outline.nodesOf, Outline.nodesOf_append,
      Node.emptied, cond.nodes_blank, Block.nodes_blank body, Stmt.nodesOf_blankElseIfs elseIfs,
      Stmt.nodesOf_blankOtherwise otherwise]
  | .ret values _ => by
    simp [Stmt.blank, Stmt.outline, Outline.nodes, Node.emptied, Expr.nodesOf_blankAll]
  | .case whens otherwise _ => by
    simp [Stmt.blank, Stmt.outline, Outline.nodes, Outline.nodesOf_append, Node.emptied,
      Stmt.nodesOf_blankWhens whens, Stmt.nodesOf_blankOtherwise otherwise]
  | .switch target whens otherwise _ => by
    simp [Stmt.blank, Stmt.outline, Outline.nodes, Outline.nodesOf, Outline.nodesOf_append,
      Node.emptied, target.nodes_blank, Stmt.nodesOf_blankWhens whens,
      Stmt.nodesOf_blankOtherwise otherwise]
  | .forIn vars range body _ => by
    simp only [Stmt.blank, Stmt.outline, Outline.nodes, Outline.nodesOf, Outline.nodesOf_append,
      List.map_cons, List.map_append, (Binder.nodesOf_blank vars).1, range.nodes_blank,
      Block.nodes_blank body]
    rfl
  | .whileDo cond body _ => by
    simp [Stmt.blank, Stmt.outline, Outline.nodes, Outline.nodesOf, Node.emptied,
      cond.nodes_blank, Block.nodes_blank body]
  | .trailingIf body _ cond _ => by
    simp [Stmt.blank, Stmt.outline, Outline.nodes, Outline.nodesOf, Node.emptied,
      cond.nodes_blank, Stmt.nodes_blank body]
  | .letIn inits body _ => by
    simp only [Stmt.blank, Stmt.outline, Outline.nodes, Outline.nodesOf, Outline.nodesOf_append,
      List.map_cons, List.map_append, Declaration.nodesOf_blank inits, Stmt.nodes_blank body]
    rfl
  | .expr e => e.nodes_blank
  | .block b => Block.nodes_blank b

theorem Block.nodes_blank : ∀ b : Block, b.blank.outline.nodes = b.outline.nodes.map Node.emptied
  | .mk stmts _ => by
    simp [Block.blank, Block.outline, Outline.nodes, Node.emptied, Stmt.nodesOf_blankAll stmts]

theorem Stmt.nodesOf_blankAll : ∀ ss : List Stmt,
    Outline.nodesOf (Stmt.outlines (Stmt.blankAll ss)) =
      (Outline.nodesOf (Stmt.outlines ss)).map Node.emptied
  | [] => rfl
  | st :: ss => by
    simp [Stmt.blankAll, Stmt.outlines, Outline.nodesOf, Stmt.nodes_blank st,
      Stmt.nodesOf_blankAll ss]

theorem Stmt.nodesOf_blankElseIfs : ∀ clauses : List (Clause Expr Block),
    Outline.nodesOf (Stmt.outlineElseIfs (Stmt.blankElseIfs clauses)) =
      (Outline.nodesOf (Stmt.outlineElseIfs clauses)).map Node.emptied
  | [] => rfl
  | ⟨cond, body⟩ :: rest => by
    simp [Stmt.blankElseIfs, Stmt.outlineElseIfs, Outline.nodesOf, cond.nodes_blank,
      Block.nodes_blank body, Stmt.nodesOf_blankElseIfs rest]

theorem Stmt.nodesOf_blankWhens : ∀ clauses : List (Clause (List Expr) Block),
    Outline.nodesOf (Stmt.outlineWhens (Stmt.blankWhens clauses)) =
      (Outline.nodesOf (Stmt.outlineWhens clauses)).map Node.emptied
  | [] => rfl
  | ⟨conds, body⟩ :: rest => by
    simp [Stmt.blankWhens, Stmt.outlineWhens, Outline.nodesOf, Outline.nodesOf_append,
      Expr.nodesOf_blankAll conds, Block.nodes_blank body, Stmt.nodesOf_blankWhens rest]

theorem Stmt.nodesOf_blankOtherwise : ∀ body : Option Block,
    Outline.nodesOf (Stmt.outlineOtherwise (Stmt.blankOtherwise body)) =
      (Outline.nodesOf (Stmt.outlineOtherwise body)).map Node.emptied
  | none => rfl
  | some body => by
    simp [Stmt.blankOtherwise, Stmt.outlineOtherwise, Outline.nodesOf, Block.nodes_blank body]

end

theorem FuncDef.nodes_emptied (f : FuncDef) :
    f.emptied.outline.nodes = f.outline.nodes.map Node.emptied := by
  simp only [FuncDef.outline, FuncDef.emptied, FuncDef.blank, Outline.nodes, Outline.nodesOf,
    Outline.nodesOf_append, List.map_cons, List.map_append, (Binder.nodesOf_blank f.params).1,
    TypeExpr.map_emptied_option, Block.nodes_blank, Stmt.nodesOf_blankOtherwise]
  rfl

/-- The walk of an emptied program meets the emptied nodes of the program. -/
theorem Program.preorder_emptied (p : Program) :
    (Node.program p.emptied).preorder = (Node.program p).preorder.map Node.emptied := by
  have hdefinitions : ∀ definitions : List Definition,
      Outline.nodesOf ((definitions.map Definition.emptied).map Definition.outline) =
        (Outline.nodesOf (definitions.map Definition.outline)).map Node.emptied := by
    intro definitions
    induction definitions with
    | nil => rfl
    | cons definition rest ih =>
      rw [List.map_cons, List.map_cons, List.map_cons, Outline.nodesOf, Outline.nodesOf,
        List.map_append, ih]
      cases definition with
      | classDef c => rfl
      | funcDef f => exact congrArg (· ++ _) f.nodes_emptied
  rw [Node.preorder_eq, Node.preorder_eq]
  exact congrArg (Node.program p.emptied :: ·) (hdefinitions p.definitions)

end Semant
