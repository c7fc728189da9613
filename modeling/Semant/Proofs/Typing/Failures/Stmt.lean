import Semant.Proofs.Typing.Failures.Expr
import Semant.Proofs.Typing.Soundness.Stmt

/-! What the typing of a statement can fail with. The expressions that a check looks at have types
by then, and the names that a statement introduces have slots of their own. -/

namespace Semant

open Resolve Outcome

variable {P : Error → Prop} {d : Demand} {Good : Progress → Prop}

/-- A name whose slot and whose written type are refused with errors of `P`. -/
structure Binder.Guarded (P : Error → Prop) (b : Binder) : Prop where
  slot : b.ty.Fillable P
  place : CoversAt P b.loc
  written : Outline.CoverAll P (TypeExpr.outlineOption b.written)

theorem Binder.guarded_decls {bs : List Binder}
    (h : Outline.AllOf (Node.Guarded P) (bs.map Binder.declOutline)) :
    ∀ b ∈ bs, b.Guarded P := by
  intro b hb
  have hall := Outline.allOf_iff.mp h b.declOutline (List.mem_map_of_mem hb)
  rw [Binder.declOutline, Outline.all_mk] at hall
  exact ⟨hall.1.type b.ty rfl, hall.1.covers, hall.2.imp fun _ hnode => hnode.covers⟩

theorem Binder.guarded_params {bs : List Binder}
    (h : Outline.AllOf (Node.Guarded P) (bs.map Binder.paramOutline)) :
    ∀ b ∈ bs, b.Guarded P := by
  intro b hb
  have hall := Outline.allOf_iff.mp h b.paramOutline (List.mem_map_of_mem hb)
  rw [Binder.paramOutline, Outline.all_mk] at hall
  exact ⟨hall.1.type b.ty rfl, hall.1.covers, hall.2.imp fun _ hnode => hnode.covers⟩

namespace Guards

theorem check (hg : Guards P d Good) {rule : Progress → Except Error Unit} {s : Progress}
    (hs : Good s) (hrule : s.error = none → FailsWith P (rule s)) :
    Good (Resolve.check rule s).2 :=
  hg.attempt hs hrule

theorem introduce (hg : Guards P d Good) {b : Binder} {rule : Scope → Except Error Ty}
    {s : Progress} (hb : b.ty.Fillable P) (hs : Good s) (hrule : FailsWith P (rule s.scope)) :
    Good (Resolve.introduce b rule s).2 := by
  have h₁ : Good (Resolve.attempt (fun s => do
      let ty ← rule s.scope
      return (ty, ← b.ty.fill ty)) s).2 :=
    hg.attempt hs fun _ => hrule.bind fun ty => (hb ty).bind fun _ => .ok _
  unfold Resolve.introduce
  rw [bind_apply]
  generalize Resolve.attempt _ s = r at h₁ ⊢
  obtain ⟨_ | ⟨ty, slot⟩, t⟩ := r
  · exact h₁
  · exact hg.env _ h₁

theorem declareAll (hg : Guards P d Good) {bs : List Binder} (values : Option (List Ty))
    {s : Progress} (hbs : ∀ b ∈ bs, b.Guarded P) (hs : Good s) :
    Good (Semant.declareAll bs values s).2 := by
  induction bs generalizing values s with
  | nil => exact hs
  | cons b bs ih =>
    obtain ⟨hb, hbs⟩ := List.forall_mem_cons.mp hbs
    simp only [Semant.declareAll, bind_apply, pure_apply]
    refine ih _ hbs (hg.introduce hb.slot hs ?_)
    exact Typing.declared_fails hb.place hb.written s.scope _

theorem bindLoop (hg : Guards P d Good) {bs : List Binder} (tys : List Ty) {s : Progress}
    (hbs : ∀ b ∈ bs, b.Guarded P) (hs : Good s) : Good (Semant.bindLoop bs tys s).2 := by
  induction bs generalizing tys s with
  | nil => exact hs
  | cons b bs ih =>
    cases tys with
    | nil => exact hs
    | cons ty tys =>
      obtain ⟨hb, hbs⟩ := List.forall_mem_cons.mp hbs
      simp only [Semant.bindLoop, bind_apply, pure_apply]
      refine ih tys hbs (hg.introduce hb.slot hs ?_)
      exact Typing.loopVariable_fails hb.place hb.written s.scope ty

theorem introduceNames (hg : Guards P d Good) {decl : Declaration} {s : Progress}
    (hbs : ∀ b ∈ decl.binders, b.Guarded P) (hs : Good s)
    (hvalues : s.error = none → FailsWith P decl.valueTypes) :
    Good (decl.introduceNames s).2 := by
  have h₁ : Good (Resolve.attempt (fun _ => decl.valueTypes) s).2 := hg.attempt hs hvalues
  unfold Declaration.introduceNames
  rw [bind_apply]
  generalize Resolve.attempt _ s = r at h₁ ⊢
  obtain ⟨_ | values, t⟩ := r
  · exact h₁
  · exact hg.declareAll values hbs h₁

theorem declaration (hg : Guards P d Good) (decl : Declaration) (s : Progress)
    (h : decl.outline.All (Node.Guarded P)) (hs : Good s) : Good (decl.resolve d s).2 := by
  obtain ⟨binders, values, loc⟩ := decl
  simp only [Declaration.outline, Outline.all_mk, Outline.allOf_append] at h
  obtain ⟨hnode, hbinders, hvalues⟩ := h
  have hbs := Binder.guarded_decls hbinders
  cases values with
  | none =>
    rw [Declaration.resolve_bare]
    exact hg.introduceNames hbs hs fun _ => .ok none
  | some values =>
    rw [Declaration.resolve_valued, bind_apply]
    refine hg.introduceNames hbs (hg.exprs values s hvalues hs) fun hok => ?_
    refine (hg.types_fails values s hok).bind fun tys => ?_
    exact (Typing.spread_fails hnode.covers tys binders.length).bind fun _ => .ok _

theorem declarations (hg : Guards P d Good) (decls : List Declaration) (s : Progress)
    (h : Outline.AllOf (Node.Guarded P) (decls.map Declaration.outline)) (hs : Good s) :
    Good (Declaration.resolveAll d decls s).2 := by
  induction decls generalizing s with
  | nil => exact hs
  | cons decl decls ih =>
    rw [List.map_cons, Outline.allOf_cons] at h
    exact ih _ h.2 (hg.declaration decl s h.1 hs)

theorem forall_checked (hg : Guards P d Good) {es : List Expr}
    (hes : Outline.AllOf (Node.Guarded P) (Expr.outlines es)) (s : Progress)
    (h : (Expr.resolveAll d es s).2.error = none) :
    ∀ e ∈ (Expr.resolveAll d es s).1, e.Checked P := by
  induction es generalizing s with
  | nil => exact List.forall_mem_nil _
  | cons e es ih =>
    obtain ⟨he, hes⟩ := Outline.allOf_cons.mp hes
    exact List.forall_mem_cons.mpr ⟨hg.checked he s (hg.back.exprs es _ h), ih hes _ h⟩

theorem elseIfs_checked (hg : Guards P d Good) {clauses : List (Clause Expr Block)}
    (hclauses : Outline.AllOf (Node.Guarded P) (Stmt.outlineElseIfs clauses)) (s : Progress)
    (h : (Stmt.resolveElseIfs d clauses s).2.error = none) :
    ∀ e ∈ (Stmt.resolveElseIfs d clauses s).1.map Clause.test, e.Checked P := by
  induction clauses generalizing s with
  | nil => exact List.forall_mem_nil _
  | cons clause rest ih =>
    obtain ⟨cond, body⟩ := clause
    simp only [Stmt.outlineElseIfs, Outline.allOf_cons] at hclauses
    obtain ⟨hcond, _, hrest⟩ := hclauses
    have h₂ := hg.back.elseIfs rest _ h
    have h₁ := hg.back.block body _ h₂
    exact List.forall_mem_cons.mpr ⟨hg.checked hcond s h₁, ih hrest _ h⟩

theorem whens_checked (hg : Guards P d Good) {clauses : List (Clause (List Expr) Block)}
    (hclauses : Outline.AllOf (Node.Guarded P) (Stmt.outlineWhens clauses)) (s : Progress)
    (h : (Stmt.resolveWhens d clauses s).2.error = none) :
    ∀ e ∈ (Stmt.resolveWhens d clauses s).1.flatMap Clause.test, e.Checked P := by
  induction clauses generalizing s with
  | nil => exact List.forall_mem_nil _
  | cons clause rest ih =>
    obtain ⟨conds, body⟩ := clause
    simp only [Stmt.outlineWhens, Outline.allOf_cons, Outline.allOf_append] at hclauses
    obtain ⟨hconds, _, hrest⟩ := hclauses
    have h₂ := hg.back.whens rest _ h
    have h₁ := hg.back.block body _ h₂
    exact List.forall_mem_append.mpr ⟨hg.forall_checked hconds s h₁, ih hrest _ h⟩

theorem checkConditions (hg : Guards P d Good) {what : String} {conds : List Expr} {s : Progress}
    (hs : Good s) (h : s.error = none → ∀ e ∈ conds, e.Checked P) :
    Good (Stmt.checkConditions what conds s).2 :=
  hg.check hs fun hok => .forM fun e he => Typing.condition_fails what (h hok e he)

theorem checkReturn (hg : Guards P d Good) {values : List Expr} {loc : Location} {s : Progress}
    (hloc : CoversAt P loc) (hs : Good s) (h : s.error = none → FailsWith P (Expr.types values)) :
    Good (Stmt.checkReturn values loc s).2 := by
  have h₁ : Good (Resolve.attempt (fun s => do
      Typing.returned s.returns (← Expr.types values) loc) s).2 :=
    hg.attempt hs fun hok => (h hok).bind fun tys => Typing.returned_fails hloc _ tys
  unfold Stmt.checkReturn
  rw [bind_apply]
  generalize Resolve.attempt _ s = r at h₁ ⊢
  obtain ⟨_ | returns, t⟩ := r
  · exact h₁
  · exact hg.returns _ h₁

theorem inScope (hg : Guards P d Good) {α : Type} {x : Resolve α} {s : Progress} (hs : Good s)
    (hx : ∀ t, Good t → Good (x t).2) : Good (Resolve.inScope x s).2 :=
  hg.env _ (hx _ (hg.env _ hs))

mutual

theorem stmt (hg : Guards P d Good) : ∀ (st : Stmt) (s : Progress),
    st.outline.All (Node.Guarded P) → Good s → Good (st.resolve d s).2
  | .declare decl, s, h, hs => hg.declaration decl s h hs
  | .assign targets values _, s, h, hs => by
    simp only [Stmt.outline, Outline.all_mk, Outline.allOf_append] at h
    obtain ⟨hnode, htargets, hvalues⟩ := h
    simp only [Stmt.resolve, bind_apply, pure_apply]
    have h₁ := hg.exprs targets s htargets hs
    refine hg.check (hg.exprs values _ hvalues h₁) fun hok => ?_
    have htypes := hg.forall_checked htargets s (hg.back.exprs values _ hok)
    refine (hg.types_fails values _ hok).bind fun tys => ?_
    refine (Typing.spread_fails hnode.covers tys _).bind fun parts => .forM fun p hp => ?_
    exact Typing.assigned_fails _ (htypes p.1 (List.of_mem_zip hp).1) p.2
  | .branch _ cond body elseIfs otherwise _, s, h, hs => by
    simp only [Stmt.outline, Outline.all_mk, Outline.allOf_cons, Outline.allOf_append] at h
    obtain ⟨_, hcond, hbody, helse, hother⟩ := h
    simp only [Stmt.resolve, bind_apply, pure_apply]
    have h₁ := hg.expr cond s hcond hs
    have h₂ := hg.block body _ hbody h₁
    have h₃ := hg.elseIfs elseIfs _ helse h₂
    refine hg.checkConditions (hg.otherwise otherwise _ hother h₃) fun hok => ?_
    have hok₃ := hg.back.otherwise otherwise _ hok
    have hok₁ := hg.back.block body _ (hg.back.elseIfs elseIfs _ hok₃)
    exact List.forall_mem_cons.mpr
      ⟨hg.checked hcond s hok₁, hg.elseIfs_checked helse _ hok₃⟩
  | .ret values _, s, h, hs => by
    simp only [Stmt.outline, Outline.all_mk] at h
    exact hg.checkReturn h.1.covers (hg.exprs values s h.2 hs) (hg.types_fails values s)
  | .case whens otherwise _, s, h, hs => by
    simp only [Stmt.outline, Outline.all_mk, Outline.allOf_append] at h
    obtain ⟨_, hwhens, hother⟩ := h
    simp only [Stmt.resolve, bind_apply, pure_apply]
    have h₁ := hg.whens whens s hwhens hs
    refine hg.checkConditions (hg.otherwise otherwise _ hother h₁) fun hok => ?_
    exact hg.whens_checked hwhens s (hg.back.otherwise otherwise _ hok)
  | .switch target whens otherwise _, s, h, hs => by
    simp only [Stmt.outline, Outline.all_mk, Outline.allOf_cons, Outline.allOf_append] at h
    obtain ⟨_, htarget, hwhens, hother⟩ := h
    simp only [Stmt.resolve, bind_apply, pure_apply]
    have h₁ := hg.expr target s htarget hs
    have h₂ := hg.whens whens _ hwhens h₁
    refine hg.check (hg.otherwise otherwise _ hother h₂) fun hok => ?_
    have hok₂ := hg.back.otherwise otherwise _ hok
    have htests := hg.whens_checked hwhens _ hok₂
    refine (hg.type_fails target s (hg.back.whens whens _ hok₂)).bind fun ty => .forM fun e he => ?_
    exact Typing.whenValue_fails ty (htests e he)
  | .forIn vars range body loc, s, h, hs => by
    simp only [Stmt.outline, Outline.all_mk, Outline.allOf_cons, Outline.allOf_append] at h
    obtain ⟨hnode, hvars, hrange, hbody, _⟩ := h
    refine hg.inScope hs fun t ht => ?_
    simp only [bind_apply, pure_apply]
    have h₂ : Good (Resolve.attempt (fun _ => do
        Typing.spread [← Typing.iterated (range.resolve d t).1] vars.length loc)
        (range.resolve d t).2).2 :=
      hg.attempt (hg.expr range t hrange ht) fun hok =>
        (Typing.iterated_fails (hg.checked hrange t hok)).bind fun elem =>
          Typing.spread_fails hnode.covers [elem] vars.length
    exact hg.block body _ hbody (hg.bindLoop _ (Binder.guarded_params hvars) h₂)
  | .whileDo cond body _, s, h, hs => by
    simp only [Stmt.outline, Outline.all_mk, Outline.allOf_cons] at h
    obtain ⟨_, hcond, hbody, _⟩ := h
    simp only [Stmt.resolve, bind_apply, pure_apply]
    have h₁ := hg.expr cond s hcond hs
    refine hg.checkConditions (hg.block body _ hbody h₁) fun hok => ?_
    exact List.forall_mem_singleton.mpr (hg.checked hcond s (hg.back.block body _ hok))
  | .trailingIf body _ cond _, s, h, hs => by
    simp only [Stmt.outline, Outline.all_mk, Outline.allOf_cons] at h
    obtain ⟨_, hbody, hcond, _⟩ := h
    simp only [Stmt.resolve, bind_apply, pure_apply]
    have h₁ := hg.stmt body s hbody hs
    refine hg.checkConditions (hg.expr cond _ hcond h₁) fun hok => ?_
    exact List.forall_mem_singleton.mpr (hg.checked hcond _ hok)
  | .letIn inits body _, s, h, hs => by
    simp only [Stmt.outline, Outline.all_mk, Outline.allOf_cons, Outline.allOf_append] at h
    obtain ⟨_, hinits, hbody, _⟩ := h
    exact hg.inScope hs fun t ht => hg.stmt body _ hbody (hg.declarations inits t hinits ht)
  | .expr e, s, h, hs => hg.expr e s h hs
  | .block b, s, h, hs => hg.block b s h hs

theorem block (hg : Guards P d Good) : ∀ (b : Block) (s : Progress),
    b.outline.All (Node.Guarded P) → Good s → Good (b.resolve d s).2
  | .mk stmts _, s, h, hs => by
    simp only [Block.outline, Outline.all_mk] at h
    exact hg.inScope hs fun t ht => hg.stmts stmts t h.2 ht

theorem stmts (hg : Guards P d Good) : ∀ (ss : List Stmt) (s : Progress),
    Outline.AllOf (Node.Guarded P) (Stmt.outlines ss) → Good s → Good (Stmt.resolveAll d ss s).2
  | [], _, _, hs => hs
  | st :: ss, s, h, hs => by
    simp only [Stmt.outlines, Outline.allOf_cons] at h
    exact hg.stmts ss _ h.2 (hg.stmt st s h.1 hs)

theorem elseIfs (hg : Guards P d Good) : ∀ (clauses : List (Clause Expr Block)) (s : Progress),
    Outline.AllOf (Node.Guarded P) (Stmt.outlineElseIfs clauses) → Good s →
      Good (Stmt.resolveElseIfs d clauses s).2
  | [], _, _, hs => hs
  | ⟨cond, body⟩ :: rest, s, h, hs => by
    simp only [Stmt.outlineElseIfs, Outline.allOf_cons] at h
    obtain ⟨hcond, hbody, hrest⟩ := h
    have h₁ := hg.expr cond s hcond hs
    exact hg.elseIfs rest _ hrest (hg.block body _ hbody h₁)

theorem whens (hg : Guards P d Good) :
    ∀ (clauses : List (Clause (List Expr) Block)) (s : Progress),
    Outline.AllOf (Node.Guarded P) (Stmt.outlineWhens clauses) → Good s →
      Good (Stmt.resolveWhens d clauses s).2
  | [], _, _, hs => hs
  | ⟨conds, body⟩ :: rest, s, h, hs => by
    simp only [Stmt.outlineWhens, Outline.allOf_cons, Outline.allOf_append] at h
    obtain ⟨hconds, hbody, hrest⟩ := h
    have h₁ := hg.exprs conds s hconds hs
    exact hg.whens rest _ hrest (hg.block body _ hbody h₁)

theorem otherwise (hg : Guards P d Good) : ∀ (body : Option Block) (s : Progress),
    Outline.AllOf (Node.Guarded P) (Stmt.outlineOtherwise body) → Good s →
      Good (Stmt.resolveOtherwise d body s).2
  | none, _, _, hs => hs
  | some body, s, h, hs => by
    simp only [Stmt.outlineOtherwise, Outline.allOf_cons] at h
    exact hg.block body s h.1 hs

end

end Guards

end Semant
