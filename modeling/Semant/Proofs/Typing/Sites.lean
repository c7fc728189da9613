import Semant.Proofs.Tree.Sites
import Semant.Proofs.Typing.Renumbering.Function

/-! Every expression and every statement of a typed tree has a derivation of its own, with the local
names that are visible where it stands. -/

namespace Semant

/-- The declaration and the entry of a context say the same of a name, up to `R` of its type. -/
structure Binder.Means (R : Ty → Ty → Prop) (b : Binder) (entry : String × Binding) : Prop where
  name : entry.1 = b.name
  isVar : entry.2.isVar = b.isVar
  ty : ∃ ty, b.ty = .resolved ty ∧ R ty entry.2.ty

theorem Binder.Means.find? {R : Ty → Ty → Prop} {ds : List Binder} {Γ : Context}
    (h : List.Forall₂ (Binder.Means R) ds Γ) (name : String) :
    Option.Rel (fun b binding => b.Means R (name, binding)) (ds.find? (·.name == name))
      (Γ.lookup name) := by
  induction h with
  | nil => exact .none
  | @cons b entry ds Γ hb _ ih =>
    obtain ⟨other, binding⟩ := entry
    have hother : other = b.name := hb.name
    subst hother
    rw [List.find?_cons, List.lookup_cons]
    by_cases hname : b.name = name
    · subst hname
      rw [beq_self_eq_true]
      exact .some hb
    · have hne : (b.name == name) = false := beq_eq_false_iff_ne.mpr hname
      have hne' : (name == b.name) = false := beq_eq_false_iff_ne.mpr (Ne.symm hname)
      rw [hne, hne']
      exact ih

theorem Binder.Means.lookup_of_find? {R : Ty → Ty → Prop} {ds : List Binder} {Γ : Context}
    (h : List.Forall₂ (Binder.Means R) ds Γ) {name : String} {b : Binder}
    (hb : ds.find? (·.name == name) = some b) :
    ∃ binding, Γ.lookup name = some binding ∧ b.Means R (name, binding) := by
  have hrel := Binder.Means.find? h name
  rw [hb] at hrel
  generalize Γ.lookup name = found at hrel
  cases hrel with
  | some hmeans => exact ⟨_, rfl, hmeans⟩

theorem Binder.Means.find?_of_lookup {R : Ty → Ty → Prop} {ds : List Binder} {Γ : Context}
    (h : List.Forall₂ (Binder.Means R) ds Γ) {name : String} {binding : Binding}
    (hname : Γ.lookup name = some binding) :
    ∃ b, ds.find? (·.name == name) = some b ∧ b.Means R (name, binding) := by
  have hrel := Binder.Means.find? h name
  rw [hname] at hrel
  generalize ds.find? (·.name == name) = found at hrel
  cases hrel with
  | some hmeans => exact ⟨_, rfl, hmeans⟩

theorem Binder.Means.find?_eq_none_iff {R : Ty → Ty → Prop} {ds : List Binder} {Γ : Context}
    (h : List.Forall₂ (Binder.Means R) ds Γ) (name : String) :
    ds.find? (·.name == name) = none ↔ Γ.lookup name = none := by
  have hrel := Binder.Means.find? h name
  generalize ds.find? (·.name == name) = found at hrel
  generalize Γ.lookup name = found' at hrel
  cases hrel <;> simp

theorem Introduces.means {α : Type} {rule : Binder → α → Ty → Prop} {Γ Γ' : Context}
    {bs bs' : List Binder} {as : List α} (h : Introduces rule Γ bs as bs' Γ') {ds : List Binder}
    (hds : List.Forall₂ (Binder.Means Eq) ds Γ) :
    List.Forall₂ (Binder.Means Eq) (bs'.reverse ++ ds) Γ' := by
  induction h generalizing ds with
  | nil => exact hds
  | cons _ _ _ ih =>
    rw [List.reverse_cons, List.append_assoc]
    exact ih (.cons ⟨rfl, rfl, _, rfl, rfl⟩ hds)

/-- What an expression of a typed tree can be. A name that is called stands for a function and has
no type, and an empty literal takes its type from an ascription. -/
inductive Expr.Settled (σ : Scope) (Γ : Context) : Expr → Prop
  | value {e e' : Expr} {ty : Ty} :
      (Node.expr e).isBlank = true → e.Resolves σ Γ e' ty → Settled σ Γ e'
  | name {name : String} {loc : Location} :
      Γ.lookup name = none → Settled σ Γ (.var name .unresolved loc)
  | emptyArray {slot : Slot Ty} {loc : Location} : Settled σ Γ (.array [] slot loc)
  | emptyDict {slot : Slot Ty} {loc : Location} : Settled σ Γ (.dict [] slot loc)

/-- The visible declarations make up a context in which an expression or a statement is settled. -/
def Site.Settled (σ : Scope) (site : Site) : Prop :=
  match site.node with
  | .expr e => ∃ Γ, List.Forall₂ (Binder.Means Eq) site.visible Γ ∧ e.Settled σ Γ
  | .stmt st' => ∃ Γ st Γ' rets, List.Forall₂ (Binder.Means Eq) site.visible Γ ∧
      Stmt.Resolves σ Γ st st' Γ' rets
  | _ => True

open Outline

variable {σ : Scope} {Γ : Context} {ds : List Binder}

theorem TypeExpr.settled (t : TypeExpr) : t.outline.Throughout (Site.Settled σ) ds := by
  refine .of_all ?_ t.all_type
  rintro _ _ ⟨t, rfl⟩
  trivial

theorem Expr.Resolves.settled_of_parts (hds : List.Forall₂ (Binder.Means Eq) ds Γ) {e e' : Expr}
    {ty : Ty} {parts : List Outline} (he : e.Resolves σ Γ e' ty)
    (hblank : (Node.expr e).isBlank = true) (hout : e'.outline = .mk (.expr e') parts)
    (h : ThroughoutOf (Site.Settled σ) [] ds parts) :
    e'.outline.Throughout (Site.Settled σ) ds := by
  rw [hout]
  exact throughout_mk.mpr ⟨⟨Γ, hds, .value hblank he⟩, h⟩

mutual

theorem Expr.Resolves.settled (hds : List.Forall₂ (Binder.Means Eq) ds Γ) :
    ∀ {e e' : Expr} {ty : Ty}, e.Resolves σ Γ e' ty →
    e.outline.All (·.isBlank = true) → e'.outline.Throughout (Site.Settled σ) ds
  | .literal .., _, _, he, hblank => by
    rw [Expr.outline, all_mk] at hblank
    have hroot := he
    cases he
    exact hroot.settled_of_parts hds hblank.1 rfl throughoutOf_nil
  | .array elems .., _, _, he, hblank => by
    rw [Expr.outline, all_mk] at hblank
    have hroot := he
    cases he with
    | array helems =>
      exact hroot.settled_of_parts hds hblank.1 rfl (helems.settled hds hblank.2)
  | .tuple elems .., _, _, he, hblank => by
    rw [Expr.outline, all_mk] at hblank
    have hroot := he
    cases he with
    | tuple helems =>
      exact hroot.settled_of_parts hds hblank.1 rfl (helems.settled hds hblank.2)
  | .dict entries .., _, _, he, hblank => by
    rw [Expr.outline, all_mk] at hblank
    have hroot := he
    cases he with
    | dict hentries =>
      exact hroot.settled_of_parts hds hblank.1 rfl (hentries.settled hds hblank.2)
  | .var .., _, _, he, hblank => by
    rw [Expr.outline, all_mk] at hblank
    have hroot := he
    cases he
    exact hroot.settled_of_parts hds hblank.1 rfl throughoutOf_nil
  | .call child args .., _, _, he, hblank => by
    rw [Expr.outline, all_mk, allOf_cons] at hblank
    obtain ⟨hnode, hchild, hargs⟩ := hblank
    have hroot := he
    cases he with
    | @named _ slot _ _ _ _ _ nameLoc _ hfree hall =>
      rw [Expr.outline, all_mk] at hchild
      have hslot : slot = .unresolved := Slot.eq_unresolved (Bool.and_eq_true_iff.mp hchild.1).1
      subst hslot
      refine hroot.settled_of_parts hds hnode rfl
        (throughoutOf_expr.mpr ⟨?_, hall.settled hds hargs⟩)
      exact throughout_mk.mpr ⟨⟨Γ, hds, .name hfree⟩, throughoutOf_nil⟩
    | applied hf hall =>
      exact hroot.settled_of_parts hds hnode rfl
        (throughoutOf_expr.mpr ⟨hf.settled hds hchild, hall.settled hds hargs⟩)
  | .construct written args .., _, _, he, hblank => by
    rw [Expr.outline, all_mk, allOf_cons] at hblank
    have hroot := he
    cases he with
    | construct hall =>
      exact hroot.settled_of_parts hds hblank.1 rfl
        (throughoutOf_type.mpr ⟨written.settled, hall.settled hds hblank.2.2⟩)
  | .index child position .., _, _, he, hblank => by
    simp only [Expr.outline, all_mk, allOf_cons] at hblank
    have hroot := he
    cases he with
    | index hheld hat =>
      refine hroot.settled_of_parts hds hblank.1 rfl ?_
      simp only [throughoutOf_expr, throughoutOf_nil, and_true]
      exact ⟨hheld.settled hds hblank.2.1, hat.settled hds hblank.2.2.1⟩
  | .member child .., _, _, he, hblank => by
    simp only [Expr.outline, all_mk, allOf_cons] at hblank
    have hroot := he
    cases he with
    | member hreceiver =>
      exact hroot.settled_of_parts hds hblank.1 rfl
        (throughoutOf_expr.mpr ⟨hreceiver.settled hds hblank.2.1, throughoutOf_nil⟩)
  | .unary _ operand .., _, _, he, hblank => by
    simp only [Expr.outline, all_mk, allOf_cons] at hblank
    have hroot := he
    cases he with
    | unary hoperand =>
      exact hroot.settled_of_parts hds hblank.1 rfl
        (throughoutOf_expr.mpr ⟨hoperand.settled hds hblank.2.1, throughoutOf_nil⟩)
  | .cast child written .., _, _, he, hblank => by
    simp only [Expr.outline, all_mk, allOf_cons] at hblank
    have hroot := he
    cases he with
    | cast hchild =>
      refine hroot.settled_of_parts hds hblank.1 rfl ?_
      simp only [throughoutOf_expr, throughoutOf_type, throughoutOf_nil, and_true]
      exact ⟨hchild.settled hds hblank.2.1, written.settled⟩
  | .binary lhs _ rhs .., _, _, he, hblank => by
    simp only [Expr.outline, all_mk, allOf_cons] at hblank
    have hroot := he
    cases he with
    | binary hlhs hrhs =>
      refine hroot.settled_of_parts hds hblank.1 rfl ?_
      simp only [throughoutOf_expr, throughoutOf_nil, and_true]
      exact ⟨hrhs.settled hds hblank.2.1, hlhs.settled hds hblank.2.2.1⟩
  | .choice cond yes no .., _, _, he, hblank => by
    simp only [Expr.outline, all_mk, allOf_cons] at hblank
    have hroot := he
    cases he with
    | choice hcond hyes hno =>
      refine hroot.settled_of_parts hds hblank.1 rfl ?_
      simp only [throughoutOf_expr, throughoutOf_nil, and_true]
      exact ⟨hcond.settled hds hblank.2.1, hyes.settled hds hblank.2.2.1,
        hno.settled hds hblank.2.2.2.1⟩
  | .typed child written .., _, _, he, hblank => by
    simp only [Expr.outline, all_mk, allOf_cons] at hblank
    have hroot := he
    cases he with
    | typed _ hchild =>
      refine hroot.settled_of_parts hds hblank.1 rfl ?_
      simp only [throughoutOf_expr, throughoutOf_type, throughoutOf_nil, and_true]
      exact ⟨hchild.settled hds hblank.2.1, written.settled⟩
    | typedArray =>
      refine hroot.settled_of_parts hds hblank.1 rfl ?_
      simp only [throughoutOf_expr, throughoutOf_type, throughoutOf_nil, and_true]
      exact ⟨throughout_mk.mpr ⟨⟨Γ, hds, .emptyArray⟩, throughoutOf_nil⟩, written.settled⟩
    | typedDict =>
      refine hroot.settled_of_parts hds hblank.1 rfl ?_
      simp only [throughoutOf_expr, throughoutOf_type, throughoutOf_nil, and_true]
      exact ⟨throughout_mk.mpr ⟨⟨Γ, hds, .emptyDict⟩, throughoutOf_nil⟩, written.settled⟩
termination_by structural e => e

theorem Expr.ResolvesAll.settled (hds : List.Forall₂ (Binder.Means Eq) ds Γ) :
    ∀ {es es' : List Expr} {tys : List Ty},
    Expr.ResolvesAll σ Γ es es' tys → AllOf (·.isBlank = true) (Expr.outlines es) →
      ∀ {bound : List Binder}, ThroughoutOf (Site.Settled σ) bound ds (Expr.outlines es')
  | [], _, _, hes, _, _ => by
    cases hes
    exact throughoutOf_nil
  | _ :: _, _, _, hes, hblank, _ => by
    rw [Expr.outlines, allOf_cons] at hblank
    cases hes with
    | cons he hes => exact throughoutOf_expr.mpr ⟨he.settled hds hblank.1, hes.settled hds hblank.2⟩
termination_by structural es => es

theorem Expr.ResolvesEntries.settled (hds : List.Forall₂ (Binder.Means Eq) ds Γ) :
    ∀ {es es' : List (Expr × Expr)} {tys : List (Ty × Ty)},
    Expr.ResolvesEntries σ Γ es es' tys → AllOf (·.isBlank = true) (Expr.outlineEntries es) →
      ThroughoutOf (Site.Settled σ) [] ds (Expr.outlineEntries es')
  | [], _, _, hes, _ => by
    cases hes
    exact throughoutOf_nil
  | (_, _) :: _, _, _, hes, hblank => by
    rw [Expr.outlineEntries, allOf_cons, allOf_cons] at hblank
    cases hes with
    | cons hkey hvalue hes =>
      simp only [Expr.outlineEntries, throughoutOf_expr]
      exact ⟨hkey.settled hds hblank.1, hvalue.settled hds hblank.2.1, hes.settled hds hblank.2.2⟩
termination_by structural es => es

end

theorem TypeExpr.settled_option {bound : List Binder} (t : Option TypeExpr) :
    ThroughoutOf (Site.Settled σ) bound ds (TypeExpr.outlineOption t) := by
  refine .of_allOf ?_ (TypeExpr.allOf_type_option t)
  rintro _ _ ⟨t, rfl⟩
  trivial

theorem Binder.settled_decls {bound : List Binder} (bs : List Binder) :
    ThroughoutOf (Site.Settled σ) bound ds (bs.map Binder.declOutline) := by
  induction bs with
  | nil => exact throughoutOf_nil
  | cons b bs ih =>
    have hb : b.declOutline.Throughout (Site.Settled σ) ds :=
      throughout_mk.mpr ⟨trivial, TypeExpr.settled_option b.written⟩
    exact throughoutOf_cons.mpr ⟨hb, ih⟩

theorem Binder.settled_params {bound : List Binder} (bs : List Binder) :
    ThroughoutOf (Site.Settled σ) bound ds (bs.map Binder.paramOutline) := by
  induction bs with
  | nil => exact throughoutOf_nil
  | cons b bs ih =>
    have hb : b.paramOutline.Throughout (Site.Settled σ) ds :=
      throughout_mk.mpr ⟨trivial, TypeExpr.settled_option b.written⟩
    exact throughoutOf_cons.mpr ⟨hb, ih⟩

theorem Declaration.Resolves.means {Γ' : Context} {d d' : Declaration} (h : d.Resolves σ Γ d' Γ')
    (hds : List.Forall₂ (Binder.Means Eq) ds Γ) :
    List.Forall₂ (Binder.Means Eq) (d'.binders.reverse ++ ds) Γ' := by
  cases h with
  | bare hnames => exact hnames.means hds
  | valued _ _ hnames => exact hnames.means hds

theorem Declaration.Resolves.settled {Γ' : Context} {d d' : Declaration} (h : d.Resolves σ Γ d' Γ')
    (hds : List.Forall₂ (Binder.Means Eq) ds Γ) (hblank : d.outline.All (·.isBlank = true)) :
    d'.outline.Throughout (Site.Settled σ) ds := by
  have hroot : Site.Settled σ ⟨ds, .stmt (.declare d')⟩ :=
    ⟨Γ, .declare d, Γ', [], hds, .declare h⟩
  refine throughout_mk.mpr ⟨hroot, (throughoutOf_append ?_).mpr ⟨Binder.settled_decls _, ?_⟩⟩
  · exact List.forall_mem_map.mpr fun _ _ => rfl
  · rw [Declaration.outline, all_mk, allOf_append] at hblank
    cases h with
    | bare => exact throughoutOf_nil
    | valued hvalues => exact hvalues.settled hds hblank.2.2

/-- What follows the declarations sees all of them. -/
theorem Declaration.ResolvesAll.settled {Γ' : Context} {inits inits' : List Declaration}
    (h : Declaration.ResolvesAll σ Γ inits inits' Γ')
    (hblank : AllOf (·.isBlank = true) (inits.map Declaration.outline)) {rest : List Outline}
    (hrest : ∀ {ds}, List.Forall₂ (Binder.Means Eq) ds Γ' →
      ThroughoutOf (Site.Settled σ) [] ds rest)
    (hds : List.Forall₂ (Binder.Means Eq) ds Γ) :
    ThroughoutOf (Site.Settled σ) [] ds (inits'.map Declaration.outline ++ rest) := by
  induction h generalizing ds with
  | nil => exact hrest hds
  | cons hd _ ih =>
    rw [List.map_cons, allOf_cons] at hblank
    exact throughoutOf_cons.mpr ⟨hd.settled hds hblank.1, ih hblank.2 hrest (hd.means hds)⟩

theorem Stmt.Resolves.means : ∀ {st st' : Stmt} {Γ Γ' : Context} {rets : List (List Ty)},
    Stmt.Resolves σ Γ st st' Γ' rets → ∀ {ds}, List.Forall₂ (Binder.Means Eq) ds Γ →
      List.Forall₂ (Binder.Means Eq) (st'.declared ++ ds) Γ'
  | _, _, _, _, _, .declare hd, _, hds => hd.means hds
  | _, _, _, _, _, .trailingIf hbody _, _, hds => Stmt.Resolves.means hbody hds
  | _, _, _, _, _, .assign .., _, hds => hds
  | _, _, _, _, _, .branch .., _, hds => hds
  | _, _, _, _, _, .ret _, _, hds => hds
  | _, _, _, _, _, .case .., _, hds => hds
  | _, _, _, _, _, .switch .., _, hds => hds
  | _, _, _, _, _, .forIn .., _, hds => hds
  | _, _, _, _, _, .whileDo .., _, hds => hds
  | _, _, _, _, _, .letIn .., _, hds => hds
  | _, _, _, _, _, .expr _, _, hds => hds
  | _, _, _, _, _, .block _, _, hds => hds

mutual

theorem Stmt.Resolves.settled : ∀ {st st' : Stmt} {Γ Γ' : Context} {rets : List (List Ty)}
    {ds : List Binder}, Stmt.Resolves σ Γ st st' Γ' rets → List.Forall₂ (Binder.Means Eq) ds Γ →
      st.outline.All (·.isBlank = true) → st'.outline.Throughout (Site.Settled σ) ds
  | .declare _, _, _, _, _, _, h, hds, hblank => by
    cases h with
    | declare hd => exact hd.settled hds hblank
  | .assign .., _, _, _, _, _, h, hds, hblank => by
    simp only [Stmt.outline, all_mk, allOf_append] at hblank
    have hroot := h
    cases h with
    | assign htargets hvalues =>
      refine throughout_mk.mpr ⟨⟨_, _, _, _, hds, hroot⟩,
        (throughoutOf_append (Expr.declared_outlines _)).mpr ?_⟩
      exact ⟨htargets.settled hds hblank.2.1, hvalues.settled hds hblank.2.2⟩
  | .branch _ _ body elseIfs otherwise _, _, _, _, _, _, h, hds, hblank => by
    simp only [Stmt.outline, all_mk, allOf_cons, allOf_append] at hblank
    obtain ⟨-, hcond, hbody, helseIfs, hotherwise⟩ := hblank
    have hroot := h
    cases h with
    | branch hc hb he ho =>
      refine throughout_mk.mpr ⟨⟨_, _, _, _, hds, hroot⟩, ?_⟩
      rw [throughoutOf_expr, throughoutOf_block]
      exact ⟨hc.settled hds hcond, Block.Resolves.settled hb hds hbody,
        Stmt.ResolvesElseIfs.settled he hds helseIfs
          (Stmt.ResolvesOtherwise.settled ho hds hotherwise)⟩
  | .ret .., _, _, _, _, _, h, hds, hblank => by
    rw [Stmt.outline, all_mk] at hblank
    have hroot := h
    cases h with
    | ret hvalues =>
      exact throughout_mk.mpr ⟨⟨_, _, _, _, hds, hroot⟩, hvalues.settled hds hblank.2⟩
  | .case whens otherwise _, _, _, _, _, _, h, hds, hblank => by
    simp only [Stmt.outline, all_mk, allOf_append] at hblank
    have hroot := h
    cases h with
    | case hw ho =>
      exact throughout_mk.mpr ⟨⟨_, _, _, _, hds, hroot⟩,
        Stmt.ResolvesWhens.settled hw hds hblank.2.1
          (Stmt.ResolvesOtherwise.settled ho hds hblank.2.2)⟩
  | .switch _ whens otherwise _, _, _, _, _, _, h, hds, hblank => by
    simp only [Stmt.outline, all_mk, allOf_cons, allOf_append] at hblank
    obtain ⟨-, htarget, hwhens, hotherwise⟩ := hblank
    have hroot := h
    cases h with
    | switch ht hw ho =>
      refine throughout_mk.mpr ⟨⟨_, _, _, _, hds, hroot⟩, throughoutOf_expr.mpr ?_⟩
      exact ⟨ht.settled hds htarget, Stmt.ResolvesWhens.settled hw hds hwhens
        (Stmt.ResolvesOtherwise.settled ho hds hotherwise)⟩
  | .forIn _ _ body _, _, _, _, _, _, h, hds, hblank => by
    simp only [Stmt.outline, all_mk, allOf_cons, allOf_append] at hblank
    obtain ⟨-, -, hrange, hbody, -⟩ := hblank
    have hroot := h
    cases h with
    | forIn hr _ _ hnames hb =>
      refine throughout_mk.mpr ⟨⟨_, _, _, _, hds, hroot⟩, (throughoutOf_append ?_).mpr
        ⟨Binder.settled_params _, throughoutOf_expr.mpr ⟨hr.settled hds hrange,
          throughoutOf_block.mpr ⟨?_, throughoutOf_nil⟩⟩⟩⟩
      · exact List.forall_mem_map.mpr fun _ _ => rfl
      · -- The body sees the loop variables, the range before it does not.
        exact Block.Resolves.settled hb (hnames.means hds) hbody
  | .whileDo _ body _, _, _, _, _, _, h, hds, hblank => by
    simp only [Stmt.outline, all_mk, allOf_cons] at hblank
    have hroot := h
    cases h with
    | whileDo hc hb =>
      refine throughout_mk.mpr ⟨⟨_, _, _, _, hds, hroot⟩, throughoutOf_expr.mpr
        ⟨hc.settled hds hblank.2.1, throughoutOf_block.mpr ⟨?_, throughoutOf_nil⟩⟩⟩
      exact Block.Resolves.settled hb hds hblank.2.2.1
  | .trailingIf body _ _ _, _, _, _, _, _, h, hds, hblank => by
    simp only [Stmt.outline, all_mk, allOf_cons] at hblank
    have hroot := h
    cases h with
    | trailingIf hb hc =>
      refine throughout_mk.mpr ⟨⟨_, _, _, _, hds, hroot⟩, throughoutOf_stmt.mpr
        ⟨Stmt.Resolves.settled hb hds hblank.2.1, throughoutOf_expr.mpr ⟨?_, throughoutOf_nil⟩⟩⟩
      exact hc.settled (Stmt.Resolves.means hb hds) hblank.2.2.1
  | .letIn _ body _, _, _, _, _, _, h, hds, hblank => by
    simp only [Stmt.outline, all_mk, allOf_cons, allOf_append] at hblank
    have hroot := h
    cases h with
    | letIn hi hb =>
      -- The statement sees all of the declarations, which end with it.
      refine throughout_mk.mpr ⟨⟨_, _, _, _, hds, hroot⟩, hi.settled hblank.2.1 ?_ hds⟩
      intro ds hds
      exact throughoutOf_stmt.mpr
        ⟨Stmt.Resolves.settled hb hds hblank.2.2.1, throughoutOf_nil⟩
  | .expr _, _, _, _, _, _, h, hds, hblank => by
    cases h with
    | expr he => exact he.settled hds hblank
  | .block b, _, _, _, _, _, h, hds, hblank => by
    cases h with
    | block hb => exact Block.Resolves.settled hb hds hblank
termination_by structural st => st

theorem Block.Resolves.settled : ∀ {b b' : Block} {Γ : Context} {rets : List (List Ty)}
    {ds : List Binder}, Block.Resolves σ Γ b b' rets → List.Forall₂ (Binder.Means Eq) ds Γ →
      b.outline.All (·.isBlank = true) → b'.outline.Throughout (Site.Settled σ) ds
  | .mk stmts _, _, _, _, _, h, hds, hblank => by
    rw [Block.outline, all_mk] at hblank
    cases h with
    | mk hstmts =>
      exact throughout_mk.mpr ⟨trivial, Stmt.ResolvesAll.settled hstmts hds hblank.2⟩
termination_by structural b => b

theorem Stmt.ResolvesAll.settled : ∀ {ss ss' : List Stmt} {Γ : Context} {rets : List (List Ty)}
    {ds : List Binder}, Stmt.ResolvesAll σ Γ ss ss' rets → List.Forall₂ (Binder.Means Eq) ds Γ →
      AllOf (·.isBlank = true) (Stmt.outlines ss) →
        ThroughoutOf (Site.Settled σ) [] ds (Stmt.outlines ss')
  | [], _, _, _, _, h, _, _ => by
    cases h
    exact throughoutOf_nil
  | _ :: _, _, _, _, _, h, hds, hblank => by
    rw [Stmt.outlines, allOf_cons] at hblank
    cases h with
    | cons hs hss =>
      exact throughoutOf_stmt.mpr ⟨Stmt.Resolves.settled hs hds hblank.1,
        Stmt.ResolvesAll.settled hss (hs.means hds) hblank.2⟩
termination_by structural ss => ss

theorem Stmt.ResolvesElseIfs.settled : ∀ {clauses clauses' : List (Clause Expr Block)}
    {Γ : Context} {rets : List (List Ty)} {ds : List Binder} {rest : List Outline},
    Stmt.ResolvesElseIfs σ Γ clauses clauses' rets → List.Forall₂ (Binder.Means Eq) ds Γ →
      AllOf (·.isBlank = true) (Stmt.outlineElseIfs clauses) →
        ThroughoutOf (Site.Settled σ) [] ds rest →
          ThroughoutOf (Site.Settled σ) [] ds (Stmt.outlineElseIfs clauses' ++ rest)
  | [], _, _, _, _, _, h, _, _, hrest => by
    cases h
    exact hrest
  | ⟨_, _⟩ :: _, _, _, _, _, _, h, hds, hblank, hrest => by
    rw [Stmt.outlineElseIfs, allOf_cons, allOf_cons] at hblank
    cases h with
    | cons hc hb hs =>
      refine throughoutOf_expr.mpr ⟨hc.settled hds hblank.1, throughoutOf_block.mpr
        ⟨Block.Resolves.settled hb hds hblank.2.1, ?_⟩⟩
      exact Stmt.ResolvesElseIfs.settled hs hds hblank.2.2 hrest
termination_by structural clauses => clauses

theorem Stmt.ResolvesWhens.settled : ∀ {clauses clauses' : List (Clause (List Expr) Block)}
    {Γ : Context} {ty : Ty} {rets : List (List Ty)} {ds : List Binder} {rest : List Outline},
    Stmt.ResolvesWhens σ Γ ty clauses clauses' rets → List.Forall₂ (Binder.Means Eq) ds Γ →
      AllOf (·.isBlank = true) (Stmt.outlineWhens clauses) →
        ThroughoutOf (Site.Settled σ) [] ds rest →
          ThroughoutOf (Site.Settled σ) [] ds (Stmt.outlineWhens clauses' ++ rest)
  | [], _, _, _, _, _, _, h, _, _, hrest => by
    cases h
    exact hrest
  | ⟨_, _⟩ :: _, _, _, _, _, _, _, h, hds, hblank, hrest => by
    rw [Stmt.outlineWhens, allOf_append, allOf_cons] at hblank
    cases h with
    | cons hc _ hb hs =>
      rw [Stmt.outlineWhens, List.append_assoc, throughoutOf_append (Expr.declared_outlines _)]
      refine ⟨hc.settled hds hblank.1, throughoutOf_block.mpr
        ⟨Block.Resolves.settled hb hds hblank.2.1, ?_⟩⟩
      exact Stmt.ResolvesWhens.settled hs hds hblank.2.2 hrest
termination_by structural clauses => clauses

theorem Stmt.ResolvesOtherwise.settled : ∀ {body body' : Option Block} {Γ : Context}
    {rets : List (List Ty)} {bound ds : List Binder},
    Stmt.ResolvesOtherwise σ Γ body body' rets →
      List.Forall₂ (Binder.Means Eq) (bound ++ ds) Γ →
        AllOf (·.isBlank = true) (Stmt.outlineOtherwise body) →
          ThroughoutOf (Site.Settled σ) bound ds (Stmt.outlineOtherwise body')
  | none, _, _, _, _, _, h, _, _ => by
    cases h
    exact throughoutOf_nil
  | some b, _, _, _, _, _, h, hds, hblank => by
    rw [Stmt.outlineOtherwise, allOf_cons] at hblank
    cases h with
    | some hb =>
      exact throughoutOf_block.mpr ⟨Block.Resolves.settled hb hds hblank.1, throughoutOf_nil⟩
termination_by structural body => body

end

theorem Binder.means_of_mapM {bs : List Binder} {Γ : Context}
    (h : bs.mapM Binder.binding? = some Γ) : List.Forall₂ (Binder.Means Eq) bs Γ := by
  induction bs generalizing Γ with
  | nil =>
    cases h
    exact .nil
  | cons b bs ih =>
    rw [List.mapM_cons, Option.bind_eq_bind, Option.bind_eq_some_iff] at h
    obtain ⟨entry, hentry, h⟩ := h
    obtain ⟨rest, hrest, hΓ⟩ := Option.bind_eq_some_iff.mp h
    obtain ⟨ty, hty, rfl⟩ := Option.map_eq_some_iff.mp hentry
    cases hΓ
    exact .cons ⟨rfl, rfl, ty, Slot.get?_eq_some.mp hty, rfl⟩ (ih hrest)

theorem Binder.Means.forall_ty {Q : Ty → Prop} {bs : List Binder} {Γ : Context}
    (h : List.Forall₂ (Binder.Means Eq) bs Γ) (hbs : ∀ b ∈ bs, ∀ ty ∈ b.ty.get?, Q ty) :
    ∀ entry ∈ Γ, Q entry.2.ty := by
  induction h with
  | nil => exact List.forall_mem_nil _
  | cons hb _ ih =>
    obtain ⟨hfirst, hrest⟩ := List.forall_mem_cons.mp hbs
    obtain ⟨ty, hty, rfl⟩ := hb.ty
    exact List.forall_mem_cons.mpr ⟨hfirst _ (Slot.get?_eq_some.mpr hty), ih hrest⟩

/-- At first nothing but the parameters is visible in the body and in the `ensure` block. -/
theorem FuncDef.Resolves.settled {f f' : FuncDef} (h : f.Resolves σ f') (hblank : f.Untyped) :
    ∀ site ∈ (Node.funcDef f').sites, site.Settled σ := by
  cases h with
  | @mk params body ensure rets ret hparams hbody hensure _ =>
    have hparamsQuiet : ∀ o ∈ f.params.map Binder.paramOutline, o.node.declared = [] :=
      List.forall_mem_map.mpr fun _ _ => rfl
    have hquiet : ∀ o ∈ f.params.map Binder.paramOutline ++ TypeExpr.outlineOption f.written,
        o.node.declared = [] :=
      List.forall_mem_append.mpr ⟨hparamsQuiet, TypeExpr.declared_outlineOption f.written⟩
    have hds : List.Forall₂ (Binder.Means Eq) (f.params.reverse ++ []) params.reverse := by
      rw [List.append_nil]
      exact List.forall₂_reverse_iff.mpr (Binder.means_of_mapM hparams)
    have hsignature : ThroughoutOf (Site.Settled σ) f.params.reverse []
        (f.params.map Binder.paramOutline ++ TypeExpr.outlineOption f.written) :=
      (throughoutOf_append hparamsQuiet).mpr
        ⟨Binder.settled_params _, TypeExpr.settled_option f.written⟩
    have hblocks := throughoutOf_block.mpr
      ⟨hbody.settled hds hblank.body, hensure.settled hds hblank.ensure⟩
    exact throughout_mk.mpr ⟨trivial, (throughoutOf_append hquiet).mpr ⟨hsignature, hblocks⟩⟩

end Semant
