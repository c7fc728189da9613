import Semant.Proofs.Tree.Places
import Semant.Proofs.Typing.Sites

/-! Typing fills the slots of a blank tree and no more: one case for each form of expression and
statement. -/

namespace Semant

open Outline

variable {σ : Scope}

theorem Expr.Resolves.isComplete {Γ : Context} {e e' : Expr} {ty : Ty} (h : e.Resolves σ Γ e' ty)
    (hblank : e.outline.All (·.isBlank = true)) : (Node.expr e').isComplete = true := by
  cases h with
  | @named _ slot =>
    simp only [Expr.outline, all_mk, allOf_cons] at hblank
    have hslot : slot = .unresolved :=
      Slot.eq_unresolved (Bool.and_eq_true_iff.mp hblank.2.1.1).1
    subst hslot
    rfl
  | @applied _ child' _ _ callee _ _ _ _ hchild =>
    rw [Expr.outline, all_mk] at hblank
    have hcallee : callee = .unresolved := by
      simp only [Node.isBlank, Bool.and_eq_true] at hblank
      exact Slot.eq_unresolved hblank.1.2
    have hty : child'.ty.isResolved = true := by rw [hchild.ty]; rfl
    subst hcallee
    simp only [Node.isComplete, hty]
    rfl
  | _ => rfl

theorem Expr.Resolves.complete_of_parts {Γ : Context} {e e' : Expr} {ty : Ty}
    {parts : List Outline} (he : e.Resolves σ Γ e' ty) (hblank : e.outline.All (·.isBlank = true))
    (hout : e'.outline = .mk (.expr e') parts) (h : CompleteOf (Node.expr e').isBoundCall parts) :
    e'.outline.Complete false := by
  rw [hout]
  exact complete_mk.mpr ⟨he.isComplete hblank, h⟩

mutual

theorem Expr.Resolves.complete {Γ : Context} : ∀ {e e' : Expr} {ty : Ty}, e.Resolves σ Γ e' ty →
    e.outline.All (·.isBlank = true) → e'.outline.Complete false
  | .literal .., _, _, he, hblank => by
    have hroot := he
    cases he
    exact hroot.complete_of_parts hblank rfl completeOf_nil
  | .array elems .., _, _, he, hblank => by
    have hroot := he
    cases he with
    | array helems =>
      exact hroot.complete_of_parts hblank rfl (helems.complete (all_mk.mp hblank).2)
  | .tuple elems .., _, _, he, hblank => by
    have hroot := he
    cases he with
    | tuple helems =>
      exact hroot.complete_of_parts hblank rfl (helems.complete (all_mk.mp hblank).2)
  | .dict entries .., _, _, he, hblank => by
    have hroot := he
    cases he with
    | dict hentries =>
      exact hroot.complete_of_parts hblank rfl (hentries.complete (all_mk.mp hblank).2)
  | .var .., _, _, he, hblank => by
    have hroot := he
    cases he
    exact hroot.complete_of_parts hblank rfl completeOf_nil
  | .call child args callee .., _, _, he, hblank => by
    obtain ⟨hnode, hparts⟩ := all_mk.mp hblank
    obtain ⟨hchild, hargs⟩ := allOf_cons.mp hparts
    have hroot := he
    cases he with
    | @named name slot _ _ _ _ _ nameLoc _ _ hall =>
      have hname : (Node.expr (.var name slot nameLoc)).isUntypedName = true :=
        (Bool.and_eq_true_iff.mp (all_mk.mp hchild).1).1
      refine hroot.complete_of_parts hblank rfl (completeOf_cons.mpr ⟨?_, hall.complete hargs⟩)
      exact complete_mk.mpr ⟨hname, completeOf_nil⟩
    | applied hf hall =>
      have hcallee : callee = .unresolved := Slot.eq_unresolved (Bool.and_eq_true_iff.mp hnode).2
      subst hcallee
      exact hroot.complete_of_parts hblank rfl
        (completeOf_cons.mpr ⟨hf.complete hchild, hall.complete hargs⟩)
  | .construct written args .., _, _, he, hblank => by
    obtain ⟨_, hargs⟩ := allOf_cons.mp (all_mk.mp hblank).2
    have hroot := he
    cases he with
    | construct hall =>
      exact hroot.complete_of_parts hblank rfl
        (completeOf_cons.mpr ⟨written.complete, hall.complete hargs⟩)
  | .index child position .., _, _, he, hblank => by
    obtain ⟨hchild, hposition⟩ := allOf_cons.mp (all_mk.mp hblank).2
    have hroot := he
    cases he with
    | index hheld hat =>
      refine hroot.complete_of_parts hblank rfl (completeOf_cons.mpr ⟨hheld.complete hchild, ?_⟩)
      exact completeOf_cons.mpr ⟨hat.complete (allOf_cons.mp hposition).1, completeOf_nil⟩
  | .member child .., _, _, he, hblank => by
    obtain ⟨hchild, _⟩ := allOf_cons.mp (all_mk.mp hblank).2
    have hroot := he
    cases he with
    | member hreceiver =>
      exact hroot.complete_of_parts hblank rfl
        (completeOf_cons.mpr ⟨hreceiver.complete hchild, completeOf_nil⟩)
  | .unary _ operand .., _, _, he, hblank => by
    obtain ⟨hoperand, _⟩ := allOf_cons.mp (all_mk.mp hblank).2
    have hroot := he
    cases he with
    | unary hfrom =>
      exact hroot.complete_of_parts hblank rfl
        (completeOf_cons.mpr ⟨hfrom.complete hoperand, completeOf_nil⟩)
  | .cast child written .., _, _, he, hblank => by
    obtain ⟨hchild, _⟩ := allOf_cons.mp (all_mk.mp hblank).2
    have hroot := he
    cases he with
    | cast hfrom =>
      refine hroot.complete_of_parts hblank rfl (completeOf_cons.mpr ⟨hfrom.complete hchild, ?_⟩)
      exact completeOf_cons.mpr ⟨written.complete, completeOf_nil⟩
  | .binary lhs _ rhs .., _, _, he, hblank => by
    obtain ⟨hright, hleft⟩ := allOf_cons.mp (all_mk.mp hblank).2
    have hroot := he
    cases he with
    | binary hlhs hrhs =>
      refine hroot.complete_of_parts hblank rfl (completeOf_cons.mpr ⟨hrhs.complete hright, ?_⟩)
      exact completeOf_cons.mpr ⟨hlhs.complete (allOf_cons.mp hleft).1, completeOf_nil⟩
  | .choice cond yes no .., _, _, he, hblank => by
    obtain ⟨htest, hrest⟩ := allOf_cons.mp (all_mk.mp hblank).2
    obtain ⟨hthen, helse⟩ := allOf_cons.mp hrest
    have hroot := he
    cases he with
    | choice hcond hyes hno =>
      refine hroot.complete_of_parts hblank rfl (completeOf_cons.mpr ⟨hcond.complete htest, ?_⟩)
      refine completeOf_cons.mpr ⟨hyes.complete hthen, ?_⟩
      exact completeOf_cons.mpr ⟨hno.complete (allOf_cons.mp helse).1, completeOf_nil⟩
  | .typed child written .., _, _, he, hblank => by
    obtain ⟨hchild, _⟩ := allOf_cons.mp (all_mk.mp hblank).2
    have hwritten : CompleteOf false [written.outline] :=
      completeOf_cons.mpr ⟨written.complete, completeOf_nil⟩
    have hroot := he
    cases he with
    | typed _ hfound =>
      exact hroot.complete_of_parts hblank rfl
        (completeOf_cons.mpr ⟨hfound.complete hchild, hwritten⟩)
    -- the ascription has filled the slot of the empty literal
    | typedArray | typedDict =>
      exact hroot.complete_of_parts hblank rfl
        (completeOf_cons.mpr ⟨complete_mk.mpr ⟨rfl, completeOf_nil⟩, hwritten⟩)
termination_by structural e => e

theorem Expr.ResolvesAll.complete {Γ : Context} : ∀ {es es' : List Expr} {tys : List Ty},
    Expr.ResolvesAll σ Γ es es' tys → AllOf (·.isBlank = true) (Expr.outlines es) →
      CompleteOf false (Expr.outlines es')
  | [], _, _, hes, _ => by
    cases hes
    exact completeOf_nil
  | _ :: _, _, _, hes, hblank => by
    rw [Expr.outlines, allOf_cons] at hblank
    cases hes with
    | cons he hes => exact completeOf_cons.mpr ⟨he.complete hblank.1, hes.complete hblank.2⟩
termination_by structural es => es

theorem Expr.ResolvesEntries.complete {Γ : Context} : ∀ {es es' : List (Expr × Expr)}
    {tys : List (Ty × Ty)}, Expr.ResolvesEntries σ Γ es es' tys →
      AllOf (·.isBlank = true) (Expr.outlineEntries es) →
      CompleteOf false (Expr.outlineEntries es')
  | [], _, _, hes, _ => by
    cases hes
    exact completeOf_nil
  | (_, _) :: _, _, _, hes, hblank => by
    rw [Expr.outlineEntries, allOf_cons, allOf_cons] at hblank
    cases hes with
    | cons hkey hvalue hes =>
      simp only [Expr.outlineEntries, completeOf_cons]
      exact ⟨hkey.complete hblank.1, hvalue.complete hblank.2.1, hes.complete hblank.2.2⟩
termination_by structural es => es

end

theorem Declaration.Resolves.complete {Γ Γ' : Context} {d d' : Declaration}
    (h : d.Resolves σ Γ d' Γ') (hblank : d.outline.All (·.isBlank = true)) :
    d'.outline.Complete false := by
  have hvalues := (allOf_append.mp (all_mk.mp hblank).2).2
  have hbinders : ∀ {bs : List Binder}, (∀ b ∈ bs, ∃ ty, b.ty = .resolved ty) →
      CompleteOf false (bs.map Binder.declOutline) := by
    intro bs hbs
    refine completeOf_iff.mpr (List.forall_mem_map.mpr fun b hb => ?_)
    obtain ⟨ty, hty⟩ := hbs b hb
    exact (Binder.complete hty).2
  refine complete_mk.mpr ⟨rfl, completeOf_append.mpr ?_⟩
  cases h with
  | bare hnames => exact ⟨hbinders hnames.resolved, completeOf_nil⟩
  | valued hvals _ hnames => exact ⟨hbinders hnames.resolved, hvals.complete hvalues⟩

theorem Declaration.ResolvesAll.complete {Γ Γ' : Context} {ds ds' : List Declaration}
    (h : Declaration.ResolvesAll σ Γ ds ds' Γ')
    (hblank : AllOf (·.isBlank = true) (ds.map Declaration.outline)) :
    CompleteOf false (ds'.map Declaration.outline) := by
  induction h with
  | nil => exact completeOf_nil
  | cons hd _ ih =>
    rw [List.map_cons, allOf_cons] at hblank
    exact completeOf_cons.mpr ⟨hd.complete hblank.1, ih hblank.2⟩

mutual

theorem Stmt.Resolves.complete : ∀ {st st' : Stmt} {Γ Γ' : Context} {rets : List (List Ty)},
    Stmt.Resolves σ Γ st st' Γ' rets → st.outline.All (·.isBlank = true) →
      st'.outline.Complete false
  | .declare _, _, _, _, _, h, hblank => by
    cases h with
    | declare hd => exact hd.complete hblank
  | .assign .., _, _, _, _, h, hblank => by
    obtain ⟨htargets, hvalues⟩ := allOf_append.mp (all_mk.mp hblank).2
    cases h with
    | assign ht hv =>
      exact complete_mk.mpr ⟨rfl, completeOf_append.mpr ⟨ht.complete htargets, hv.complete hvalues⟩⟩
  | .branch _ _ body elseIfs otherwise _, _, _, _, _, h, hblank => by
    obtain ⟨hcond, hrest⟩ := allOf_cons.mp (all_mk.mp hblank).2
    obtain ⟨hbody, hrest⟩ := allOf_cons.mp hrest
    obtain ⟨helseIfs, hotherwise⟩ := allOf_append.mp hrest
    cases h with
    | branch hc hb he ho =>
      refine complete_mk.mpr ⟨rfl, completeOf_cons.mpr ⟨hc.complete hcond, ?_⟩⟩
      refine completeOf_cons.mpr ⟨Block.Resolves.complete hb hbody, completeOf_append.mpr ?_⟩
      exact ⟨Stmt.ResolvesElseIfs.complete he helseIfs,
        Stmt.ResolvesOtherwise.complete ho hotherwise⟩
  | .ret .., _, _, _, _, h, hblank => by
    cases h with
    | ret hvalues => exact complete_mk.mpr ⟨rfl, hvalues.complete (all_mk.mp hblank).2⟩
  | .case whens otherwise _, _, _, _, _, h, hblank => by
    obtain ⟨hwhens, hotherwise⟩ := allOf_append.mp (all_mk.mp hblank).2
    cases h with
    | case hw ho =>
      exact complete_mk.mpr ⟨rfl, completeOf_append.mpr
        ⟨Stmt.ResolvesWhens.complete hw hwhens, Stmt.ResolvesOtherwise.complete ho hotherwise⟩⟩
  | .switch _ whens otherwise _, _, _, _, _, h, hblank => by
    obtain ⟨htarget, hrest⟩ := allOf_cons.mp (all_mk.mp hblank).2
    obtain ⟨hwhens, hotherwise⟩ := allOf_append.mp hrest
    cases h with
    | switch ht hw ho =>
      refine complete_mk.mpr ⟨rfl, completeOf_cons.mpr ⟨ht.complete htarget, ?_⟩⟩
      exact completeOf_append.mpr
        ⟨Stmt.ResolvesWhens.complete hw hwhens, Stmt.ResolvesOtherwise.complete ho hotherwise⟩
  | .forIn _ _ body _, _, _, _, _, h, hblank => by
    obtain ⟨_, hrest⟩ := allOf_append.mp (all_mk.mp hblank).2
    obtain ⟨hrange, hbody⟩ := allOf_cons.mp hrest
    cases h with
    | forIn hr _ _ hnames hb =>
      have hbody' := Block.Resolves.complete hb (allOf_cons.mp hbody).1
      refine complete_mk.mpr ⟨rfl, completeOf_append.mpr ⟨?_, ?_⟩⟩
      · refine completeOf_iff.mpr (List.forall_mem_map.mpr fun b hmem => ?_)
        obtain ⟨ty, hty⟩ := hnames.resolved b hmem
        exact (Binder.complete hty).1
      · exact completeOf_cons.mpr
          ⟨hr.complete hrange, completeOf_cons.mpr ⟨hbody', completeOf_nil⟩⟩
  | .whileDo _ body _, _, _, _, _, h, hblank => by
    obtain ⟨hcond, hbody⟩ := allOf_cons.mp (all_mk.mp hblank).2
    cases h with
    | whileDo hc hb =>
      have hbody' := Block.Resolves.complete hb (allOf_cons.mp hbody).1
      refine complete_mk.mpr ⟨rfl, completeOf_cons.mpr ⟨hc.complete hcond, ?_⟩⟩
      exact completeOf_cons.mpr ⟨hbody', completeOf_nil⟩
  | .trailingIf body _ _ _, _, _, _, _, h, hblank => by
    obtain ⟨hbody, hcond⟩ := allOf_cons.mp (all_mk.mp hblank).2
    cases h with
    | trailingIf hb hc =>
      refine complete_mk.mpr ⟨rfl, completeOf_cons.mpr ⟨Stmt.Resolves.complete hb hbody, ?_⟩⟩
      exact completeOf_cons.mpr ⟨hc.complete (allOf_cons.mp hcond).1, completeOf_nil⟩
  | .letIn _ body _, _, _, _, _, h, hblank => by
    obtain ⟨hinits, hbody⟩ := allOf_append.mp (all_mk.mp hblank).2
    cases h with
    | letIn hi hb =>
      have hbody' := Stmt.Resolves.complete hb (allOf_cons.mp hbody).1
      refine complete_mk.mpr ⟨rfl, completeOf_append.mpr ⟨hi.complete hinits, ?_⟩⟩
      exact completeOf_cons.mpr ⟨hbody', completeOf_nil⟩
  | .expr _, _, _, _, _, h, hblank => by
    cases h with
    | expr he => exact he.complete hblank
  | .block b, _, _, _, _, h, hblank => by
    cases h with
    | block hb => exact Block.Resolves.complete hb hblank
termination_by structural x => x

theorem Block.Resolves.complete : ∀ {b b' : Block} {Γ : Context} {rets : List (List Ty)},
    Block.Resolves σ Γ b b' rets → b.outline.All (·.isBlank = true) → b'.outline.Complete false
  | .mk stmts _, _, _, _, h, hblank => by
    cases h with
    | mk hstmts =>
      exact complete_mk.mpr ⟨rfl, Stmt.ResolvesAll.complete hstmts (all_mk.mp hblank).2⟩
termination_by structural x => x

theorem Stmt.ResolvesAll.complete : ∀ {ss ss' : List Stmt} {Γ : Context} {rets : List (List Ty)},
    Stmt.ResolvesAll σ Γ ss ss' rets → AllOf (·.isBlank = true) (Stmt.outlines ss) →
      CompleteOf false (Stmt.outlines ss')
  | [], _, _, _, h, _ => by
    cases h
    exact completeOf_nil
  | _ :: _, _, _, _, h, hblank => by
    rw [Stmt.outlines, allOf_cons] at hblank
    cases h with
    | cons hs hss =>
      exact completeOf_cons.mpr
        ⟨Stmt.Resolves.complete hs hblank.1, Stmt.ResolvesAll.complete hss hblank.2⟩
termination_by structural x => x

theorem Stmt.ResolvesElseIfs.complete : ∀ {clauses clauses' : List (Clause Expr Block)}
    {Γ : Context} {rets : List (List Ty)}, Stmt.ResolvesElseIfs σ Γ clauses clauses' rets →
      AllOf (·.isBlank = true) (Stmt.outlineElseIfs clauses) →
      CompleteOf false (Stmt.outlineElseIfs clauses')
  | [], _, _, _, h, _ => by
    cases h
    exact completeOf_nil
  | ⟨_, _⟩ :: _, _, _, _, h, hblank => by
    rw [Stmt.outlineElseIfs, allOf_cons, allOf_cons] at hblank
    cases h with
    | cons hcond hbody hrest =>
      refine completeOf_cons.mpr ⟨hcond.complete hblank.1, ?_⟩
      exact completeOf_cons.mpr ⟨Block.Resolves.complete hbody hblank.2.1,
        Stmt.ResolvesElseIfs.complete hrest hblank.2.2⟩
termination_by structural x => x

theorem Stmt.ResolvesWhens.complete : ∀ {clauses clauses' : List (Clause (List Expr) Block)}
    {Γ : Context} {ty : Ty} {rets : List (List Ty)},
    Stmt.ResolvesWhens σ Γ ty clauses clauses' rets →
      AllOf (·.isBlank = true) (Stmt.outlineWhens clauses) →
      CompleteOf false (Stmt.outlineWhens clauses')
  | [], _, _, _, _, h, _ => by
    cases h
    exact completeOf_nil
  | ⟨_, _⟩ :: _, _, _, _, _, h, hblank => by
    rw [Stmt.outlineWhens, allOf_append, allOf_cons] at hblank
    cases h with
    | cons hconds _ hbody hrest =>
      refine completeOf_append.mpr ⟨hconds.complete hblank.1, ?_⟩
      exact completeOf_cons.mpr ⟨Block.Resolves.complete hbody hblank.2.1,
        Stmt.ResolvesWhens.complete hrest hblank.2.2⟩
termination_by structural x => x

theorem Stmt.ResolvesOtherwise.complete : ∀ {body body' : Option Block} {Γ : Context}
    {rets : List (List Ty)}, Stmt.ResolvesOtherwise σ Γ body body' rets →
      AllOf (·.isBlank = true) (Stmt.outlineOtherwise body) →
      CompleteOf false (Stmt.outlineOtherwise body')
  | none, _, _, _, h, _ => by
    cases h
    exact completeOf_nil
  | some _, _, _, _, h, hblank => by
    cases h with
    | some hbody =>
      exact completeOf_cons.mpr
        ⟨Block.Resolves.complete hbody (allOf_cons.mp hblank).1, completeOf_nil⟩
termination_by structural x => x

end

end Semant
