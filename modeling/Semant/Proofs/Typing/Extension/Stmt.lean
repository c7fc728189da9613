import Semant.Proofs.Typing.Extension.Expr
import Semant.Proofs.Typing.Returns

/-! What typing does to a statement: slots of its expressions and of the names that it introduces
take values and nothing else changes. -/

namespace Semant

open Resolve Outcome

section

variable (d : Demand)

theorem Binder.blank_introduce (b : Binder) (rule : Scope → Except Error Ty) (s : Progress) :
    (introduce b rule s).1.blank = b.blank := by
  unfold introduce
  rw [bind_apply]
  generalize Resolve.attempt _ s = r
  obtain ⟨_ | ⟨ty, slot⟩, t⟩ := r <;> rfl

theorem Binder.blank_declareAll (bs : List Binder) (values : Option (List Ty)) (s : Progress) :
    (declareAll bs values s).1.map Binder.blank = bs.map Binder.blank := by
  induction bs generalizing values s with
  | nil => rfl
  | cons b bs ih =>
    simp only [declareAll, bind_apply, pure_apply, List.map_cons, Binder.blank_introduce, ih]

theorem Binder.blank_bindLoop (bs : List Binder) (tys : List Ty) (s : Progress) :
    (bindLoop bs tys s).1.map Binder.blank = bs.map Binder.blank := by
  induction bs generalizing tys s with
  | nil => rfl
  | cons b bs ih =>
    cases tys with
    | nil => rfl
    | cons ty tys =>
      simp only [bindLoop, bind_apply, pure_apply, List.map_cons, Binder.blank_introduce, ih]

theorem Declaration.blank_introduceNames (decl : Declaration) (s : Progress) :
    (decl.introduceNames s).1.blank = decl.blank := by
  unfold introduceNames
  rw [bind_apply]
  generalize Resolve.attempt _ s = r
  obtain ⟨_ | values, t⟩ := r
  · rfl
  · simp only [bind_apply, pure_apply, Declaration.blank, Binder.blank_declareAll]

theorem Declaration.blank_resolve (decl : Declaration) (s : Progress) :
    (decl.resolve d s).1.blank = decl.blank := by
  obtain ⟨binders, _ | values, loc⟩ := decl
  · rw [resolve_bare, blank_introduceNames]
  · rw [resolve_valued, bind_apply, blank_introduceNames]
    simp only [Declaration.blank, Option.map_some, Expr.blankAll_resolveAll]

theorem Declaration.blank_resolveAll (decls : List Declaration) (s : Progress) :
    (Declaration.resolveAll d decls s).1.map Declaration.blank = decls.map Declaration.blank := by
  induction decls generalizing s with
  | nil => rfl
  | cons decl decls ih =>
    simp only [Declaration.resolveAll, bind_apply, pure_apply, List.map_cons,
      Declaration.blank_resolve, ih]

mutual

theorem Stmt.blank_resolve : ∀ (st : Stmt) (s : Progress), (st.resolve d s).1.blank = st.blank
  | .declare decl, s => congrArg Stmt.declare (decl.blank_resolve d s)
  | .assign targets values _, s => by
    simp only [Stmt.resolve, bind_apply, pure_apply, Stmt.blank, Expr.blankAll_resolveAll]
  | .branch _ cond body elseIfs otherwise _, s => by
    simp only [Stmt.resolve, bind_apply, pure_apply, Stmt.blank, Expr.blank_resolve,
      Block.blank_resolve body, Stmt.blank_resolveElseIfs elseIfs,
      Stmt.blank_resolveOtherwise otherwise]
  | .ret values _, s => by
    simp only [Stmt.resolve, bind_apply, pure_apply, Stmt.blank, Expr.blankAll_resolveAll]
  | .case whens otherwise _, s => by
    simp only [Stmt.resolve, bind_apply, pure_apply, Stmt.blank, Stmt.blank_resolveWhens whens,
      Stmt.blank_resolveOtherwise otherwise]
  | .switch target whens otherwise _, s => by
    simp only [Stmt.resolve, bind_apply, pure_apply, Stmt.blank, Expr.blank_resolve,
      Stmt.blank_resolveWhens whens, Stmt.blank_resolveOtherwise otherwise]
  | .forIn vars range body _, s => by
    simp only [Stmt.resolve, inScope_apply, bind_apply, pure_apply, Stmt.blank,
      Binder.blank_bindLoop, Expr.blank_resolve, Block.blank_resolve body]
  | .whileDo cond body _, s => by
    simp only [Stmt.resolve, bind_apply, pure_apply, Stmt.blank, Expr.blank_resolve,
      Block.blank_resolve body]
  | .trailingIf body _ cond _, s => by
    simp only [Stmt.resolve, bind_apply, pure_apply, Stmt.blank, Expr.blank_resolve,
      Stmt.blank_resolve body]
  | .letIn inits body _, s => by
    simp only [Stmt.resolve, inScope_apply, bind_apply, pure_apply, Stmt.blank,
      Declaration.blank_resolveAll, Stmt.blank_resolve body]
  | .expr e, s => congrArg Stmt.expr (e.blank_resolve d s)
  | .block b, s => congrArg Stmt.block (Block.blank_resolve b s)

theorem Block.blank_resolve : ∀ (b : Block) (s : Progress), (b.resolve d s).1.blank = b.blank
  | .mk stmts _, s => by
    simp only [Block.resolve, inScope_apply, bind_apply, pure_apply, Block.blank,
      Stmt.blank_resolveAll stmts]

theorem Stmt.blank_resolveAll : ∀ (ss : List Stmt) (s : Progress),
    Stmt.blankAll (Stmt.resolveAll d ss s).1 = Stmt.blankAll ss
  | [], _ => rfl
  | st :: ss, s => by
    simp only [Stmt.resolveAll, bind_apply, pure_apply, Stmt.blankAll, Stmt.blank_resolve st,
      Stmt.blank_resolveAll ss]

theorem Stmt.blank_resolveElseIfs : ∀ (clauses : List (Clause Expr Block)) (s : Progress),
    Stmt.blankElseIfs (Stmt.resolveElseIfs d clauses s).1 = Stmt.blankElseIfs clauses
  | [], _ => rfl
  | ⟨cond, body⟩ :: rest, s => by
    simp only [Stmt.resolveElseIfs, bind_apply, pure_apply, Stmt.blankElseIfs, Expr.blank_resolve,
      Block.blank_resolve body, Stmt.blank_resolveElseIfs rest]

theorem Stmt.blank_resolveWhens : ∀ (clauses : List (Clause (List Expr) Block)) (s : Progress),
    Stmt.blankWhens (Stmt.resolveWhens d clauses s).1 = Stmt.blankWhens clauses
  | [], _ => rfl
  | ⟨conds, body⟩ :: rest, s => by
    simp only [Stmt.resolveWhens, bind_apply, pure_apply, Stmt.blankWhens,
      Expr.blankAll_resolveAll, Block.blank_resolve body, Stmt.blank_resolveWhens rest]

theorem Stmt.blank_resolveOtherwise : ∀ (body : Option Block) (s : Progress),
    Stmt.blankOtherwise (Stmt.resolveOtherwise d body s).1 = Stmt.blankOtherwise body
  | none, _ => rfl
  | some body, s => by
    simp only [Stmt.resolveOtherwise, bind_apply, pure_apply, Stmt.blankOtherwise,
      Block.blank_resolve body]

end

end

/-- The slot of the name takes a type of `Q` and nothing else changes. -/
structure Binder.Gains (Q : Ty → Prop) (b b' : Binder) : Prop where
  same : b'.blank = b.blank
  slot : b.ty.Gains Q b'.ty

variable {Q : Ty → Prop} {fs : List FuncDef} {s : Progress}

theorem Binder.Gains.pairs {bs bs' : List Binder} (h : List.Forall₂ (Binder.Gains Q) bs bs') :
    Outline.PairsAll (Node.Gains Q) (bs.map Binder.paramOutline) (bs'.map Binder.paramOutline) ∧
      Outline.PairsAll (Node.Gains Q) (bs.map Binder.declOutline) (bs'.map Binder.declOutline) := by
  induction h with
  | nil => exact ⟨.nil, .nil⟩
  | cons hb _ ih =>
    have hwritten := congrArg (fun b => TypeExpr.outlineOption b.written) hb.same
    dsimp only [Binder.blank] at hwritten
    refine ⟨.cons (.mk ⟨.some hb.slot, .none⟩ ?_) ih.1, .cons (.mk ⟨.some hb.slot, .none⟩ ?_) ih.2⟩
    all_goals
      rw [hwritten]
      exact .refl _

theorem Env.mem_context_of_pop {env : Env} {entry : String × Binding}
    (h : entry ∈ env.pop.context) : entry ∈ env.context := by
  obtain ⟨current, enclosing⟩ := env
  cases enclosing with
  | nil => exact h
  | cons frame rest => exact List.mem_append_right current h

namespace Progress.Within

theorem check (h : s.Within Q fs) (rule : Progress → Except Error Unit) :
    (Resolve.check rule s).2.Within Q fs :=
  (h.attempt rule).1

theorem introduce (h : s.Within Q fs) (b : Binder) (rule : Scope → Except Error Ty)
    (hrule : ∀ ty, rule s.scope = .ok ty → Q ty) :
    b.Gains Q (Resolve.introduce b rule s).1 ∧ (Resolve.introduce b rule s).2.Within Q fs := by
  obtain ⟨hs, hok⟩ := h.attempt fun s => do
    let ty ← rule s.scope
    return (ty, ← b.ty.fill ty)
  unfold Resolve.introduce
  rw [bind_apply]
  generalize Resolve.attempt _ s = r at hs hok ⊢
  obtain ⟨_ | ⟨ty, slot⟩, t⟩ := r
  · exact ⟨⟨rfl, .kept b.ty⟩, hs⟩
  obtain ⟨found, hfound, hrest⟩ := bind_eq_ok.mp (hok _ rfl)
  obtain ⟨slot', hfill, heq⟩ := bind_eq_ok.mp hrest
  cases heq
  have hty : Q ty := hrule ty hfound
  refine ⟨⟨rfl, ?_⟩, ?_, hs.returns, hs.scope, hs.funcs⟩
  · change b.ty.Gains Q slot
    cases hslot : b.ty with
    | unresolved =>
      rw [hslot] at hfill
      cases hfill
      exact .filled hty
    | resolved =>
      rw [hslot] at hfill
      cases hfill
  · exact List.forall_mem_cons.mpr ⟨hty, hs.env⟩

theorem declareAll (h : s.Within Q fs) (bs : List Binder) (values : Option (List Ty))
    (hvalues : ∀ tys ∈ values, ∀ ty ∈ tys, Q ty) :
    List.Forall₂ (Binder.Gains Q) bs (Semant.declareAll bs values s).1 ∧
      (Semant.declareAll bs values s).2.Within Q fs := by
  induction bs generalizing values s with
  | nil => exact ⟨.nil, h⟩
  | cons b bs ih =>
    simp only [Semant.declareAll, bind_apply, pure_apply]
    obtain ⟨hb, hs⟩ := h.introduce b (fun scope => Typing.declared scope b (values.bind List.head?))
      fun ty hty => (Typing.declared_eq_ok.mp hty).closed h.scope.written fun v hv => by
        obtain ⟨tys, htys, hhead⟩ := Option.bind_eq_some_iff.mp hv
        exact hvalues tys htys v (List.mem_of_mem_head? hhead)
    obtain ⟨hbs, hs⟩ := ih hs (values.map List.tail) fun tail htail ty hty => by
      obtain ⟨tys, htys, rfl⟩ := Option.map_eq_some_iff.mp htail
      exact hvalues tys htys ty (List.mem_of_mem_tail hty)
    exact ⟨.cons hb hbs, hs⟩

theorem bindLoop (h : s.Within Q fs) (bs : List Binder) (tys : List Ty) (htys : ∀ ty ∈ tys, Q ty) :
    List.Forall₂ (Binder.Gains Q) bs (Semant.bindLoop bs tys s).1 ∧
      (Semant.bindLoop bs tys s).2.Within Q fs := by
  have hkept : ∀ bs : List Binder, List.Forall₂ (Binder.Gains Q) bs bs :=
    fun bs => List.forall₂_same.mpr fun b _ => ⟨rfl, .kept b.ty⟩
  induction bs generalizing tys s with
  | nil => exact ⟨.nil, h⟩
  | cons b bs ih =>
    cases tys with
    | nil => exact ⟨hkept _, h⟩
    | cons ty tys =>
      obtain ⟨hty, htys⟩ := List.forall_mem_cons.mp htys
      simp only [Semant.bindLoop, bind_apply, pure_apply]
      obtain ⟨hb, hs⟩ := h.introduce b (fun scope => Typing.loopVariable scope b ty)
        fun found hfound => (Typing.loopVariable_eq_ok.mp hfound).closed hty
      obtain ⟨hbs, hs⟩ := ih hs tys htys
      exact ⟨.cons hb hbs, hs⟩

theorem push (h : s.Within Q fs) : Progress.Within Q fs { s with env := s.env.push } :=
  ⟨h.env, h.returns, h.scope, h.funcs⟩

theorem pop (h : s.Within Q fs) : Progress.Within Q fs { s with env := s.env.pop } :=
  ⟨fun entry hentry => h.env entry (Env.mem_context_of_pop hentry), h.returns, h.scope,
    h.funcs⟩

theorem checkReturn (hQ : Ty.Closed Q) {values : List Expr} (h : s.Within Q fs)
    (hvalues : Outline.AllOf (Node.Holds Q) (Expr.outlines values)) (loc : Location) :
    (Stmt.checkReturn values loc s).2.Within Q fs := by
  have hreturns := h.returns
  obtain ⟨hs, hok⟩ := h.attempt fun s => do Typing.returned s.returns (← Expr.types values) loc
  unfold Stmt.checkReturn
  rw [bind_apply]
  generalize Resolve.attempt _ s = r at hs hok ⊢
  obtain ⟨_ | returned, t⟩ := r
  · exact hs
  obtain ⟨tys, htys, hrule⟩ := bind_eq_ok.mp (hok _ rfl)
  obtain ⟨r, hr, haccepts⟩ := Typing.returned_eq_ok.mp hrule
  refine ⟨hs.env, ?_, hs.scope, hs.funcs⟩
  rintro _ ⟨⟩
  rcases haccepts.2 with ⟨_, rfl⟩ | ⟨_, _, _, rfl⟩
  · rintro _ ⟨⟩
    exact hQ.returnedType (Expr.holds_types hvalues htys)
  · exact hreturns _ hr

end Progress.Within

namespace Extending

variable {d : Demand}

theorem introduceNames (hd : Extending Q fs d) (decl : Declaration) (h : s.Within Q fs)
    (hvalues : Outline.AllOf (Node.Holds Q) (Expr.outlines (decl.values.getD []))) :
    decl.outline.Pairs (Node.Gains Q) (decl.introduceNames s).1.outline ∧
      (decl.introduceNames s).2.Within Q fs := by
  obtain ⟨hs, hok⟩ := h.attempt fun _ => decl.valueTypes
  unfold Declaration.introduceNames
  rw [bind_apply]
  generalize Resolve.attempt _ s = r at hs hok ⊢
  obtain ⟨_ | values, t⟩ := r
  · exact ⟨.refl _, hs⟩
  have htypes : ∀ tys ∈ values, ∀ ty ∈ tys, Q ty := by
    have hrule : decl.valueTypes = .ok values := hok _ rfl
    unfold Declaration.valueTypes at hrule
    split at hrule
    · cases hrule
      rintro _ ⟨⟩
    · rename_i es hes
      rw [hes] at hvalues
      obtain ⟨found, hfound, hrule⟩ := bind_eq_ok.mp hrule
      obtain ⟨parts, hparts, ⟨⟩⟩ := bind_eq_ok.mp hrule
      rintro _ ⟨⟩
      exact (Typing.spread_eq_ok.mp hparts).closed hd.types (Expr.holds_types hvalues hfound)
  simp only [bind_apply, pure_apply]
  obtain ⟨hbinders, hs⟩ := hs.declareAll decl.binders values htypes
  exact ⟨.mk ⟨.none, .none⟩ (.append (Binder.Gains.pairs hbinders).2 (.refl _)), hs⟩

theorem declaration (hd : Extending Q fs d) (decl : Declaration) (s : Progress)
    (h : decl.outline.All (Node.Holds Q)) (hs : s.Within Q fs) :
    decl.outline.Pairs (Node.Gains Q) (decl.resolve d s).1.outline ∧
      (decl.resolve d s).2.Within Q fs := by
  obtain ⟨binders, values, loc⟩ := decl
  simp only [Declaration.outline, Outline.all_mk, Outline.allOf_append] at h
  obtain ⟨_, _, hvalues⟩ := h
  cases values with
  | none =>
    rw [Declaration.resolve_bare]
    exact hd.introduceNames _ hs hvalues
  | some values =>
    rw [Declaration.resolve_valued, bind_apply]
    obtain ⟨hvalues', hs⟩ := hd.exprs values s hvalues hs
    obtain ⟨hrest, hs⟩ := hd.introduceNames ⟨binders, some _, loc⟩ hs (hvalues'.holds hvalues)
    refine ⟨Outline.Pairs.trans ?_ hrest, hs⟩
    exact .mk ⟨.none, .none⟩ (.append (.refl _) hvalues')

theorem declarations (hd : Extending Q fs d) (decls : List Declaration) (s : Progress)
    (h : Outline.AllOf (Node.Holds Q) (decls.map Declaration.outline)) (hs : s.Within Q fs) :
    Outline.PairsAll (Node.Gains Q) (decls.map Declaration.outline)
        ((Declaration.resolveAll d decls s).1.map Declaration.outline) ∧
      (Declaration.resolveAll d decls s).2.Within Q fs := by
  induction decls generalizing s with
  | nil => exact ⟨.nil, hs⟩
  | cons decl decls ih =>
    rw [List.map_cons, Outline.allOf_cons] at h
    obtain ⟨hdecl, hs⟩ := hd.declaration decl s h.1 hs
    obtain ⟨hdecls, hs⟩ := ih _ h.2 hs
    exact ⟨.cons hdecl hdecls, hs⟩

mutual

theorem stmt (hd : Extending Q fs d) : ∀ (st : Stmt) (s : Progress),
    st.outline.All (Node.Holds Q) → s.Within Q fs →
    st.outline.Pairs (Node.Gains Q) (st.resolve d s).1.outline ∧ (st.resolve d s).2.Within Q fs
  | .declare decl, s, h, hs => hd.declaration decl s h hs
  | .assign targets values _, s, h, hs => by
    simp only [Stmt.outline, Outline.all_mk, Outline.allOf_append] at h
    obtain ⟨_, htargets, hvalues⟩ := h
    simp only [Stmt.resolve, bind_apply, pure_apply]
    obtain ⟨htargets', hs⟩ := hd.exprs targets s htargets hs
    obtain ⟨hvalues', hs⟩ := hd.exprs values _ hvalues hs
    exact ⟨.mk ⟨.none, .none⟩ (.append htargets' hvalues'), hs.check _⟩
  | .branch _ cond body elseIfs otherwise _, s, h, hs => by
    simp only [Stmt.outline, Outline.all_mk, Outline.allOf_cons, Outline.allOf_append] at h
    obtain ⟨_, hcond, hbody, helse, hother⟩ := h
    simp only [Stmt.resolve, bind_apply, pure_apply]
    obtain ⟨hcond', hs⟩ := hd.expr cond s hcond hs
    obtain ⟨hbody', hs⟩ := hd.block body _ hbody hs
    obtain ⟨helse', hs⟩ := hd.elseIfs elseIfs _ helse hs
    obtain ⟨hother', hs⟩ := hd.otherwise otherwise _ hother hs
    exact ⟨.mk ⟨.none, .none⟩ (.cons hcond' (.cons hbody' (.append helse' hother'))), hs.check _⟩
  | .ret values loc, s, h, hs => by
    simp only [Stmt.outline, Outline.all_mk] at h
    simp only [Stmt.resolve, bind_apply, pure_apply]
    obtain ⟨hvalues', hs⟩ := hd.exprs values s h.2 hs
    exact ⟨.mk ⟨.none, .none⟩ hvalues', hs.checkReturn hd.types (hvalues'.holds h.2) loc⟩
  | .case whens otherwise _, s, h, hs => by
    simp only [Stmt.outline, Outline.all_mk, Outline.allOf_append] at h
    obtain ⟨_, hwhens, hother⟩ := h
    simp only [Stmt.resolve, bind_apply, pure_apply]
    obtain ⟨hwhens', hs⟩ := hd.whens whens s hwhens hs
    obtain ⟨hother', hs⟩ := hd.otherwise otherwise _ hother hs
    exact ⟨.mk ⟨.none, .none⟩ (.append hwhens' hother'), hs.check _⟩
  | .switch target whens otherwise _, s, h, hs => by
    simp only [Stmt.outline, Outline.all_mk, Outline.allOf_cons, Outline.allOf_append] at h
    obtain ⟨_, htarget, hwhens, hother⟩ := h
    simp only [Stmt.resolve, bind_apply, pure_apply]
    obtain ⟨htarget', hs⟩ := hd.expr target s htarget hs
    obtain ⟨hwhens', hs⟩ := hd.whens whens _ hwhens hs
    obtain ⟨hother', hs⟩ := hd.otherwise otherwise _ hother hs
    exact ⟨.mk ⟨.none, .none⟩ (.cons htarget' (.append hwhens' hother')), hs.check _⟩
  | .forIn vars range body loc, s, h, hs => by
    simp only [Stmt.outline, Outline.all_mk, Outline.allOf_cons, Outline.allOf_append] at h
    obtain ⟨_, _, hrange, hbody, _⟩ := h
    simp only [Stmt.resolve, inScope_apply, bind_apply, pure_apply]
    have hs := hs.push
    generalize { s with env := s.env.push } = t at hs ⊢
    obtain ⟨hrange', hs⟩ := hd.expr range t hrange hs
    obtain ⟨hs, hok⟩ := hs.attempt fun _ => do
      Typing.spread [← Typing.iterated (range.resolve d t).1] vars.length loc
    have htypes : ∀ ty ∈ (Resolve.attempt (fun _ => do
        Typing.spread [← Typing.iterated (range.resolve d t).1] vars.length loc)
        (range.resolve d t).2).1.getD [], Q ty := by
      generalize (Resolve.attempt _ (range.resolve d t).2).1 = elems at hok ⊢
      cases elems with
      | none => exact List.forall_mem_nil _
      | some elems =>
        obtain ⟨elem, helem, hparts⟩ := bind_eq_ok.mp (hok elems rfl)
        obtain ⟨ty, hty, hiterates⟩ := Typing.iterated_eq_ok.mp helem
        have hty := Expr.holds_ty (hrange'.holds hrange) ty hty
        exact (Typing.spread_eq_ok.mp hparts).closed hd.types
          (List.forall_mem_singleton.mpr (hiterates.closed hd.types hty))
    obtain ⟨hvars, hs⟩ := hs.bindLoop vars _ htypes
    obtain ⟨hbody', hs⟩ := hd.block body _ hbody hs
    refine ⟨.mk ⟨.none, .none⟩ (.append (Binder.Gains.pairs hvars).1 ?_), hs.pop⟩
    exact .cons hrange' (.singleton hbody')
  | .whileDo cond body _, s, h, hs => by
    simp only [Stmt.outline, Outline.all_mk, Outline.allOf_cons] at h
    obtain ⟨_, hcond, hbody, _⟩ := h
    simp only [Stmt.resolve, bind_apply, pure_apply]
    obtain ⟨hcond', hs⟩ := hd.expr cond s hcond hs
    obtain ⟨hbody', hs⟩ := hd.block body _ hbody hs
    exact ⟨.mk ⟨.none, .none⟩ (.cons hcond' (.singleton hbody')), hs.check _⟩
  | .trailingIf body _ cond _, s, h, hs => by
    simp only [Stmt.outline, Outline.all_mk, Outline.allOf_cons] at h
    obtain ⟨_, hbody, hcond, _⟩ := h
    simp only [Stmt.resolve, bind_apply, pure_apply]
    obtain ⟨hbody', hs⟩ := hd.stmt body s hbody hs
    obtain ⟨hcond', hs⟩ := hd.expr cond _ hcond hs
    exact ⟨.mk ⟨.none, .none⟩ (.cons hbody' (.singleton hcond')), hs.check _⟩
  | .letIn inits body _, s, h, hs => by
    simp only [Stmt.outline, Outline.all_mk, Outline.allOf_cons, Outline.allOf_append] at h
    obtain ⟨_, hinits, hbody, _⟩ := h
    simp only [Stmt.resolve, inScope_apply, bind_apply, pure_apply]
    obtain ⟨hinits', hs⟩ := hd.declarations inits _ hinits hs.push
    obtain ⟨hbody', hs⟩ := hd.stmt body _ hbody hs
    exact ⟨.mk ⟨.none, .none⟩ (.append hinits' (.singleton hbody')), hs.pop⟩
  | .expr e, s, h, hs => hd.expr e s h hs
  | .block b, s, h, hs => hd.block b s h hs

theorem block (hd : Extending Q fs d) : ∀ (b : Block) (s : Progress),
    b.outline.All (Node.Holds Q) → s.Within Q fs →
    b.outline.Pairs (Node.Gains Q) (b.resolve d s).1.outline ∧ (b.resolve d s).2.Within Q fs
  | .mk stmts _, s, h, hs => by
    simp only [Block.outline, Outline.all_mk] at h
    simp only [Block.resolve, inScope_apply, bind_apply, pure_apply]
    obtain ⟨hstmts, hs⟩ := hd.stmts stmts _ h.2 hs.push
    exact ⟨.mk ⟨.none, .none⟩ hstmts, hs.pop⟩

theorem stmts (hd : Extending Q fs d) : ∀ (ss : List Stmt) (s : Progress),
    Outline.AllOf (Node.Holds Q) (Stmt.outlines ss) → s.Within Q fs →
    Outline.PairsAll (Node.Gains Q) (Stmt.outlines ss) (Stmt.outlines (Stmt.resolveAll d ss s).1) ∧
      (Stmt.resolveAll d ss s).2.Within Q fs
  | [], _, _, hs => ⟨.nil, hs⟩
  | st :: ss, s, h, hs => by
    simp only [Stmt.outlines, Outline.allOf_cons] at h
    obtain ⟨hst, hs⟩ := hd.stmt st s h.1 hs
    obtain ⟨hss, hs⟩ := hd.stmts ss _ h.2 hs
    exact ⟨.cons hst hss, hs⟩

theorem elseIfs (hd : Extending Q fs d) : ∀ (clauses : List (Clause Expr Block)) (s : Progress),
    Outline.AllOf (Node.Holds Q) (Stmt.outlineElseIfs clauses) → s.Within Q fs →
    Outline.PairsAll (Node.Gains Q) (Stmt.outlineElseIfs clauses)
        (Stmt.outlineElseIfs (Stmt.resolveElseIfs d clauses s).1) ∧
      (Stmt.resolveElseIfs d clauses s).2.Within Q fs
  | [], _, _, hs => ⟨.nil, hs⟩
  | ⟨cond, body⟩ :: rest, s, h, hs => by
    simp only [Stmt.outlineElseIfs, Outline.allOf_cons] at h
    obtain ⟨hcond, hbody, hrest⟩ := h
    obtain ⟨hcond', hs⟩ := hd.expr cond s hcond hs
    obtain ⟨hbody', hs⟩ := hd.block body _ hbody hs
    obtain ⟨hrest', hs⟩ := hd.elseIfs rest _ hrest hs
    exact ⟨.cons hcond' (.cons hbody' hrest'), hs⟩

theorem whens (hd : Extending Q fs d) :
    ∀ (clauses : List (Clause (List Expr) Block)) (s : Progress),
    Outline.AllOf (Node.Holds Q) (Stmt.outlineWhens clauses) → s.Within Q fs →
    Outline.PairsAll (Node.Gains Q) (Stmt.outlineWhens clauses)
        (Stmt.outlineWhens (Stmt.resolveWhens d clauses s).1) ∧
      (Stmt.resolveWhens d clauses s).2.Within Q fs
  | [], _, _, hs => ⟨.nil, hs⟩
  | ⟨conds, body⟩ :: rest, s, h, hs => by
    simp only [Stmt.outlineWhens, Outline.allOf_cons, Outline.allOf_append] at h
    obtain ⟨hconds, hbody, hrest⟩ := h
    obtain ⟨hconds', hs⟩ := hd.exprs conds s hconds hs
    obtain ⟨hbody', hs⟩ := hd.block body _ hbody hs
    obtain ⟨hrest', hs⟩ := hd.whens rest _ hrest hs
    exact ⟨.append hconds' (.cons hbody' hrest'), hs⟩

theorem otherwise (hd : Extending Q fs d) : ∀ (body : Option Block) (s : Progress),
    Outline.AllOf (Node.Holds Q) (Stmt.outlineOtherwise body) → s.Within Q fs →
    Outline.PairsAll (Node.Gains Q) (Stmt.outlineOtherwise body)
        (Stmt.outlineOtherwise (Stmt.resolveOtherwise d body s).1) ∧
      (Stmt.resolveOtherwise d body s).2.Within Q fs
  | none, _, _, hs => ⟨.nil, hs⟩
  | some body, s, h, hs => by
    simp only [Stmt.outlineOtherwise, Outline.allOf_cons] at h
    obtain ⟨hbody, hs⟩ := hd.block body s h.1 hs
    exact ⟨.singleton hbody, hs⟩

end

end Extending

end Semant
