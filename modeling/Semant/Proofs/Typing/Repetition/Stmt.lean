import Semant.Proofs.Typing.Completeness.Stmt
import Semant.Proofs.Typing.Repetition.Expr

/-! Typing statements a second time, in a function whose return type is known by then. -/

namespace Semant

open Resolve Outcome

section

variable {α : Type} {rule : Binder → α → Ty → Prop} {Γ Γ' : Context} {bs bs' : List Binder}
  {as : List α}

/-- Names without slots to fill are no names at all. -/
theorem Introduces.eq_nil (h : Introduces rule Γ bs as bs' Γ') (heq : bs' = bs) :
    bs = [] ∧ Γ' = Γ := by
  cases h with
  | nil => exact ⟨rfl, rfl⟩
  | cons hb _ _ =>
    have hfull := congrArg Binder.ty (List.cons.inj heq).1
    rw [hb] at hfull
    cases hfull

theorem Introduces.length_eq (h : Introduces rule Γ bs as bs' Γ') : bs'.length = bs.length := by
  induction h with
  | nil => rfl
  | cons _ _ _ ih => rw [List.length_cons, List.length_cons, ih]

theorem Introduces.ne_nil (h : Introduces rule Γ bs as bs' Γ') (hbs : bs ≠ []) : bs' ≠ bs :=
  fun heq => hbs (h.eq_nil heq).1

end

variable {σ : Scope} {d : Demand}

theorem Declaration.Resolves.context {Γ Γ' : Context} {decl decl' : Declaration}
    (h : decl.Resolves σ Γ decl' Γ') (heq : decl' = decl) : Γ' = Γ := by
  cases h with
  | bare hnames => exact (hnames.eq_nil (congrArg Declaration.binders heq)).2
  | valued _ _ hnames => exact (hnames.eq_nil (congrArg Declaration.binders heq)).2

theorem Declaration.ResolvesAll.context {Γ Γ' : Context} {decls decls' : List Declaration}
    (h : Declaration.ResolvesAll σ Γ decls decls' Γ') (heq : decls' = decls) : Γ' = Γ := by
  induction h with
  | nil => rfl
  | cons hd _ ih =>
    obtain ⟨hhead, htail⟩ := List.cons.inj heq
    exact (ih htail).trans (hd.context hhead)

/-- A statement in which nothing was filled brings no names into scope. -/
theorem Stmt.Resolves.context {Γ Γ' : Context} {st st' : Stmt} {rets : List (List Ty)}
    (h : Stmt.Resolves σ Γ st st' Γ' rets) (heq : st' = st) : Γ' = Γ := by
  cases h with
  | declare hdecl => exact hdecl.context (Stmt.declare.inj heq)
  | trailingIf _ hcond => exact (hcond.ne (Stmt.trailingIf.inj heq).2.2.1).elim
  | _ => rfl

section

variable {s : Progress}

theorem Toward.declares_again (hs : Toward σ s) {b : Binder} {value : Option Ty} {ty : Ty}
    (h : b.Declares σ value ty) (slot : Slot Ty) :
    Binder.Declares s.scope { b with ty := slot } value ty := by
  cases h with
  | written hw hty hvalue => exact .written hw (hs.written hty) hvalue
  | inferred hw => exact .inferred hw

theorem Introduces.declareAll_again {Γ Γ' : Context} {bs bs' : List Binder}
    {values : Option (List Ty)}
    (h : Introduces (Binder.Declares σ) Γ bs (startValues bs.length values) bs' Γ')
    (hs : Toward σ s) : Repeats (declareAll bs' values) bs bs' s := by
  have hne := h.ne_nil
  cases bs with
  | nil =>
    cases h
    exact .inl ⟨rfl, rfl⟩
  | cons b bs =>
    refine .inr ⟨hne (List.cons_ne_nil b bs), ?_⟩
    cases h with
    | @cons _ _ _ _ bs' _ _ ty _ hrule _ =>
      have hdeclared := Typing.declared_eq_ok.mpr (hs.declares_again hrule (.resolved ty))
      have hrun : introduce { b with ty := .resolved ty }
          (fun scope => Typing.declared scope { b with ty := .resolved ty } (values.bind List.head?))
          s = (_, s.refused) := introduce_of_full hs.ok rfl hdeclared
      simp only [declareAll, bind_apply, pure_apply, hrun, declareAll_failed s.refused_failed]

theorem Declaration.Resolves.again (hs : Toward σ s) {decl decl' : Declaration} {Γ' : Context}
    (h : decl.Resolves σ s.env.context decl' Γ') : Repeats (decl'.resolve d) decl decl' s := by
  cases h with
  | @bare binders binders' _ loc hnames =>
    rw [← startValues_none] at hnames
    have hvalues : Declaration.valueTypes ⟨binders', none, loc⟩ = .ok none := rfl
    rw [Declaration.resolve_bare]
    rcases hnames.declareAll_again hs with ⟨rfl, hrun⟩ | ⟨hne, hrun⟩
    · refine .inl ⟨rfl, ?_⟩
      rw [Declaration.introduceNames, bind_apply, attempt_of_ok hs.ok hvalues]
      simp only [bind_apply, pure_apply, hrun]
    · refine .inr ⟨fun heq => hne (congrArg Declaration.binders heq), ?_⟩
      rw [Declaration.introduceNames, bind_apply, attempt_of_ok hs.ok hvalues]
      simp only [bind_apply, pure_apply, hrun]
  | @valued binders binders' values values' tys parts _ loc hvalues hspread hnames =>
    rw [Declaration.resolve_valued]
    rcases hvalues.again hs with ⟨rfl, hrun⟩ | ⟨hne, hrun⟩
    · have hparts : Typing.spread tys binders'.length loc = .ok parts := by
        rw [hnames.length_eq]
        exact Typing.spread_eq_ok.mpr hspread
      have hstart : Declaration.valueTypes ⟨binders', some values', loc⟩ = .ok (some parts) := by
        simp only [Declaration.valueTypes, hvalues.types, ok_bind, hparts]
        rfl
      rw [← startValues_some, hspread.length] at hnames
      rcases hnames.declareAll_again hs with ⟨rfl, hrun'⟩ | ⟨hne, hrun'⟩
      · refine .inl ⟨rfl, ?_⟩
        rw [bind_apply, hrun, Declaration.introduceNames, bind_apply, attempt_of_ok hs.ok hstart]
        simp only [bind_apply, pure_apply, hrun']
      · refine .inr ⟨fun heq => hne (congrArg Declaration.binders heq), ?_⟩
        rw [bind_apply, hrun, Declaration.introduceNames, bind_apply, attempt_of_ok hs.ok hstart]
        simp only [bind_apply, pure_apply, hrun']
    · refine .inr ⟨fun heq => hne (Option.some.inj (congrArg Declaration.values heq)), ?_⟩
      rw [bind_apply, hrun, Declaration.introduceNames_failed s.refused_failed]

theorem Declaration.ResolvesAll.again {Γ Γ' : Context} {decls decls' : List Declaration}
    (h : Declaration.ResolvesAll σ Γ decls decls' Γ') (hs : Toward σ s)
    (hΓ : s.env.context = Γ) : Repeats (Declaration.resolveAll d decls') decls decls' s := by
  induction h with
  | nil => exact .inl ⟨rfl, rfl⟩
  | cons hdecl _ ih =>
    subst hΓ
    rcases hdecl.again (d := d) hs with ⟨rfl, hrun⟩ | ⟨hne, hrun⟩
    · rcases ih (hdecl.context rfl).symm with ⟨rfl, hrest⟩ | ⟨hne, hrest⟩
      · refine .inl ⟨rfl, ?_⟩
        simp only [Declaration.resolveAll, bind_apply, pure_apply, hrun, hrest]
      · refine .inr ⟨fun heq => hne (List.cons.inj heq).2, ?_⟩
        simp only [Declaration.resolveAll, bind_apply, pure_apply, hrun, hrest]
    · refine .inr ⟨fun heq => hne (List.cons.inj heq).1, ?_⟩
      simp only [Declaration.resolveAll, bind_apply, pure_apply, hrun,
        Declaration.resolveAll_failed d s.refused_failed]

end

/-- Return statements with values of these types are accepted and change nothing. -/
def Progress.Returned (s : Progress) (rets : List (List Ty)) : Prop :=
  ∀ tys ∈ rets, Semant.Returned s.returns [tys] s.returns

theorem Stmt.checkReturn_again {s : Progress} (hs : s.error = none) {values : List Expr}
    {tys : List Ty} (htypes : Expr.types values = .ok tys) (h : s.Returned [tys]) (loc : Location) :
    Stmt.checkReturn values loc s = ((), s) := by
  have hreturned := h tys (List.mem_singleton_self tys)
  generalize hreturns : s.returns = r at hreturned
  cases hreturned with
  | @cons r₀ r₁ _ _ _ haccepts hnil =>
    cases hnil
    have hrule : (do Typing.returned s.returns (← Expr.types values) loc) = .ok r₀ := by
      rw [htypes, hreturns]
      exact Typing.returned_eq_ok.mpr ⟨r₀, rfl, haccepts⟩
    rw [Stmt.checkReturn, bind_apply, attempt_of_ok hs hrule]
    dsimp only
    rw [← hreturns]
    rfl

mutual

theorem Stmt.Resolves.again : ∀ {Γ Γ' : Context} {st st' : Stmt} {rets : List (List Ty)}
    {s : Progress}, Stmt.Resolves σ Γ st st' Γ' rets → Toward σ s → s.env.context = Γ →
      s.Returned rets → Repeats (st'.resolve d) st st' s
  | _, _, _, _, _, s, .declare hdecl, hs, hΓ, _ => by
    subst hΓ
    rcases hdecl.again (d := d) hs with ⟨rfl, hrun⟩ | ⟨hne, hrun⟩
    · refine .inl ⟨rfl, ?_⟩
      simp only [Stmt.resolve, bind_apply, pure_apply, hrun]
    · refine .inr ⟨fun heq => hne (Stmt.declare.inj heq), ?_⟩
      simp only [Stmt.resolve, bind_apply, pure_apply, hrun]
  | _, _, _, _, _, s, @Stmt.Resolves.assign _ _ _ targets' _ values' _ vals parts loc htargets
      hvalues hspread heq hassign, hs, hΓ, _ => by
    subst hΓ
    rcases htargets.again (d := d) hs with ⟨htargets', hrun⟩ | ⟨hne, hrun⟩
    · rcases hvalues.again (d := d) hs with ⟨hvalues', hrun'⟩ | ⟨hne, hrun'⟩
      · have hassigned := (htargets.assigned hspread.length).mpr ⟨heq, hassign⟩
        have hrule : (do
            let types ← Typing.spread (← Expr.types values') targets'.length loc
            (targets'.zip types).forM fun (target, ty) => Typing.assigned s.env target ty) =
              .ok () := by
          rw [hvalues.types, ok_bind, htargets.length]
          refine bind_eq_ok.mpr ⟨parts, Typing.spread_eq_ok.mpr hspread, ?_⟩
          simpa only [forM_eq_ok, Typing.assigned_eq_ok] using hassigned
        refine .inl ⟨by rw [htargets', hvalues'], ?_⟩
        simp only [Stmt.resolve, bind_apply, pure_apply, hrun, hrun', Stmt.checkAssignment]
        rw [check_of_ok hs.ok hrule]
      · refine .inr ⟨fun heq => hne (Stmt.assign.inj heq).2.1, ?_⟩
        simp only [Stmt.resolve, bind_apply, pure_apply, hrun, hrun', Stmt.checkAssignment,
          check_failed s.refused_failed]
    · refine .inr ⟨fun heq => hne (Stmt.assign.inj heq).1, ?_⟩
      simp only [Stmt.resolve, bind_apply, pure_apply, hrun, Stmt.checkAssignment,
        Expr.resolveAll_failed d s.refused_failed, check_failed s.refused_failed]
  | _, _, _, _, _, s, .branch hcond _ _ _, hs, hΓ, _ => by
    subst hΓ
    refine .inr ⟨fun heq => hcond.ne (Stmt.branch.inj heq).2.1, ?_⟩
    simp only [Stmt.resolve, bind_apply, pure_apply, hcond.again hs, Stmt.checkConditions,
      Block.resolve_failed d s.refused_failed, Stmt.resolveElseIfs_failed d s.refused_failed,
      Stmt.resolveOtherwise_failed d s.refused_failed, check_failed s.refused_failed]
  | _, _, _, _, _, s, .ret hvalues, hs, hΓ, hret => by
    subst hΓ
    rcases hvalues.again (d := d) hs with ⟨hvalues', hrun⟩ | ⟨hne, hrun⟩
    · refine .inl ⟨by rw [hvalues'], ?_⟩
      simp only [Stmt.resolve, bind_apply, pure_apply, hrun]
      rw [Stmt.checkReturn_again hs.ok hvalues.types hret]
    · refine .inr ⟨fun heq => hne (Stmt.ret.inj heq).1, ?_⟩
      simp only [Stmt.resolve, bind_apply, pure_apply, hrun,
        Stmt.checkReturn_failed s.refused_failed]
  | _, _, _, _, _, s, @Stmt.Resolves.case _ _ _ whens' _ _ _ _ _ hwhens hother, hs, hΓ, hret => by
    obtain ⟨hret₁, hret₂⟩ := List.forall_mem_append.mp hret
    rcases hwhens.again hs hΓ hret₁ with ⟨hwhens', hrun⟩ | ⟨hne, hrun⟩
    · rcases hother.again hs hΓ hret₂ with ⟨hother', hrun'⟩ | ⟨hne, hrun'⟩
      · have hconds : ∀ e ∈ whens'.flatMap Clause.test, e.ty = .resolved .bool := by
          intro e he
          obtain ⟨found, hty, heq⟩ := hwhens.tests e he
          rw [hty, Ty.beq_builtin.mp heq]
        refine .inl ⟨by rw [hwhens', hother'], ?_⟩
        simp only [Stmt.resolve, bind_apply, pure_apply, hrun, hrun', Stmt.checkConditions]
        rw [check_of_ok hs.ok (checkConditions_eq_ok.mpr hconds)]
      · refine .inr ⟨fun heq => hne (Stmt.case.inj heq).2.1, ?_⟩
        simp only [Stmt.resolve, bind_apply, pure_apply, hrun, hrun', Stmt.checkConditions,
          check_failed s.refused_failed]
    · refine .inr ⟨fun heq => hne (Stmt.case.inj heq).1, ?_⟩
      simp only [Stmt.resolve, bind_apply, pure_apply, hrun, Stmt.checkConditions,
        Stmt.resolveOtherwise_failed d s.refused_failed, check_failed s.refused_failed]
  | _, _, _, _, _, s, .switch htarget _ _, hs, hΓ, _ => by
    subst hΓ
    refine .inr ⟨fun heq => htarget.ne (Stmt.switch.inj heq).1, ?_⟩
    simp only [Stmt.resolve, bind_apply, pure_apply, htarget.again hs, Stmt.checkSwitch,
      Stmt.resolveWhens_failed d s.refused_failed, Stmt.resolveOtherwise_failed d s.refused_failed,
      check_failed s.refused_failed]
  | _, _, _, _, _, s, .forIn hrange _ _ _ _, hs, hΓ, _ => by
    have hpushed : Toward σ { s with env := s.env.push } := ⟨hs.ok, hs.grows⟩
    have hfailed := Progress.refused_failed { s with env := s.env.push }
    subst hΓ
    rw [Stmt.resolve]
    refine Repeats.inScope (.inr ⟨fun heq => hrange.ne (Stmt.forIn.inj heq).2.1, ?_⟩)
    simp only [bind_apply, pure_apply, hrange.again hpushed, attempt_of_failed hfailed,
      bindLoop_failed hfailed, Block.resolve_failed d hfailed]
  | _, _, _, _, _, s, .whileDo hcond _, hs, hΓ, _ => by
    subst hΓ
    refine .inr ⟨fun heq => hcond.ne (Stmt.whileDo.inj heq).1, ?_⟩
    simp only [Stmt.resolve, bind_apply, pure_apply, hcond.again hs, Stmt.checkConditions,
      Block.resolve_failed d s.refused_failed, check_failed s.refused_failed]
  | _, _, _, _, _, s, .trailingIf hbody hcond, hs, hΓ, hret => by
    refine .inr ⟨fun heq => hcond.ne (Stmt.trailingIf.inj heq).2.2.1, ?_⟩
    rcases hbody.again hs hΓ hret with ⟨hbody', hrun⟩ | ⟨_, hrun⟩
    · obtain rfl := (hbody.context hbody').trans hΓ.symm
      simp only [Stmt.resolve, bind_apply, pure_apply, hrun, hcond.again hs, Stmt.checkConditions,
        check_failed s.refused_failed]
    · simp only [Stmt.resolve, bind_apply, pure_apply, hrun, Stmt.checkConditions,
        Expr.resolve_failed d s.refused_failed, check_failed s.refused_failed]
  | _, _, _, _, _, s, .letIn hinits hbody, hs, hΓ, hret => by
    have hpushed : Toward σ { s with env := s.env.push } := ⟨hs.ok, hs.grows⟩
    have hfailed := Progress.refused_failed { s with env := s.env.push }
    rw [Stmt.resolve]
    refine Repeats.inScope ?_
    rcases hinits.again (d := d) hpushed hΓ with ⟨hinits', hrun⟩ | ⟨hne, hrun⟩
    · have hΓ₁ := hΓ.trans (hinits.context hinits').symm
      rcases hbody.again hpushed hΓ₁ hret with ⟨hbody', hrun'⟩ | ⟨hne, hrun'⟩
      · refine .inl ⟨by rw [hinits', hbody'], ?_⟩
        simp only [bind_apply, pure_apply, hrun, hrun']
      · refine .inr ⟨fun heq => hne (Stmt.letIn.inj heq).2.1, ?_⟩
        simp only [bind_apply, pure_apply, hrun, hrun']
    · refine .inr ⟨fun heq => hne (Stmt.letIn.inj heq).1, ?_⟩
      simp only [bind_apply, pure_apply, hrun, Stmt.resolve_failed d hfailed]
  | _, _, _, _, _, s, .expr he, hs, hΓ, _ => by
    subst hΓ
    refine .inr ⟨fun heq => he.ne (Stmt.expr.inj heq), ?_⟩
    simp only [Stmt.resolve, bind_apply, pure_apply, he.again hs]
  | _, _, _, _, _, s, .block hb, hs, hΓ, hret => by
    rcases hb.again hs hΓ hret with ⟨rfl, hrun⟩ | ⟨hne, hrun⟩
    · refine .inl ⟨rfl, ?_⟩
      simp only [Stmt.resolve, bind_apply, pure_apply, hrun]
    · refine .inr ⟨fun heq => hne (Stmt.block.inj heq), ?_⟩
      simp only [Stmt.resolve, bind_apply, pure_apply, hrun]

theorem Block.Resolves.again : ∀ {Γ : Context} {b b' : Block} {rets : List (List Ty)}
    {s : Progress}, Block.Resolves σ Γ b b' rets → Toward σ s → s.env.context = Γ →
      s.Returned rets → Repeats (b'.resolve d) b b' s
  | _, _, _, _, s, .mk hstmts, hs, hΓ, hret => by
    have hpushed : Toward σ { s with env := s.env.push } := ⟨hs.ok, hs.grows⟩
    rw [Block.resolve]
    refine Repeats.inScope ?_
    rcases hstmts.again hpushed hΓ hret with ⟨rfl, hrun⟩ | ⟨hne, hrun⟩
    · refine .inl ⟨rfl, ?_⟩
      simp only [bind_apply, pure_apply, hrun]
    · refine .inr ⟨fun heq => hne (Block.mk.inj heq).1, ?_⟩
      simp only [bind_apply, pure_apply, hrun]

theorem Stmt.ResolvesAll.again : ∀ {Γ : Context} {stmts stmts' : List Stmt}
    {rets : List (List Ty)} {s : Progress}, Stmt.ResolvesAll σ Γ stmts stmts' rets → Toward σ s →
      s.env.context = Γ → s.Returned rets → Repeats (Stmt.resolveAll d stmts') stmts stmts' s
  | _, _, _, _, _, .nil, _, _, _ => .inl ⟨rfl, rfl⟩
  | _, _, _, _, s, .cons hst hstmts, hs, hΓ, hret => by
    obtain ⟨hret₁, hret₂⟩ := List.forall_mem_append.mp hret
    rcases hst.again hs hΓ hret₁ with ⟨hst', hrun⟩ | ⟨hne, hrun⟩
    · have hΓ₁ := hΓ.trans (hst.context hst').symm
      rcases hstmts.again hs hΓ₁ hret₂ with ⟨hstmts', hrun'⟩ | ⟨hne, hrun'⟩
      · refine .inl ⟨by rw [hst', hstmts'], ?_⟩
        simp only [Stmt.resolveAll, bind_apply, pure_apply, hrun, hrun']
      · refine .inr ⟨fun heq => hne (List.cons.inj heq).2, ?_⟩
        simp only [Stmt.resolveAll, bind_apply, pure_apply, hrun, hrun']
    · refine .inr ⟨fun heq => hne (List.cons.inj heq).1, ?_⟩
      simp only [Stmt.resolveAll, bind_apply, pure_apply, hrun,
        Stmt.resolveAll_failed d s.refused_failed]

theorem Stmt.ResolvesWhens.again : ∀ {Γ : Context} {ty : Ty}
    {clauses clauses' : List (Clause (List Expr) Block)} {rets : List (List Ty)} {s : Progress},
    Stmt.ResolvesWhens σ Γ ty clauses clauses' rets → Toward σ s → s.env.context = Γ →
      s.Returned rets → Repeats (Stmt.resolveWhens d clauses') clauses clauses' s
  | _, _, _, _, _, _, .nil, _, _, _ => .inl ⟨rfl, rfl⟩
  | _, _, _, _, _, s, .cons hconds _ hbody hrest, hs, hΓ, hret => by
    obtain ⟨hret₁, hret₂⟩ := List.forall_mem_append.mp hret
    rcases (hΓ ▸ hconds).again (d := d) hs with ⟨hconds', hrun⟩ | ⟨hne, hrun⟩
    · rcases hbody.again hs hΓ hret₁ with ⟨hbody', hrun₁⟩ | ⟨hne, hrun₁⟩
      · rcases hrest.again hs hΓ hret₂ with ⟨hrest', hrun₂⟩ | ⟨hne, hrun₂⟩
        · refine .inl ⟨by rw [hconds', hbody', hrest'], ?_⟩
          simp only [Stmt.resolveWhens, bind_apply, pure_apply, hrun, hrun₁, hrun₂]
        · refine .inr ⟨fun heq => hne (List.cons.inj heq).2, ?_⟩
          simp only [Stmt.resolveWhens, bind_apply, pure_apply, hrun, hrun₁, hrun₂]
      · refine .inr ⟨fun heq => hne (Clause.mk.inj (List.cons.inj heq).1).2, ?_⟩
        simp only [Stmt.resolveWhens, bind_apply, pure_apply, hrun, hrun₁,
          Stmt.resolveWhens_failed d s.refused_failed]
    · refine .inr ⟨fun heq => hne (Clause.mk.inj (List.cons.inj heq).1).1, ?_⟩
      simp only [Stmt.resolveWhens, bind_apply, pure_apply, hrun,
        Block.resolve_failed d s.refused_failed, Stmt.resolveWhens_failed d s.refused_failed]

theorem Stmt.ResolvesOtherwise.again : ∀ {Γ : Context} {body body' : Option Block}
    {rets : List (List Ty)} {s : Progress}, Stmt.ResolvesOtherwise σ Γ body body' rets →
      Toward σ s → s.env.context = Γ → s.Returned rets →
      Repeats (Stmt.resolveOtherwise d body') body body' s
  | _, _, _, _, _, .none, _, _, _ => .inl ⟨rfl, rfl⟩
  | _, _, _, _, s, .some hb, hs, hΓ, hret => by
    rcases hb.again hs hΓ hret with ⟨rfl, hrun⟩ | ⟨hne, hrun⟩
    · refine .inl ⟨rfl, ?_⟩
      simp only [Stmt.resolveOtherwise, bind_apply, pure_apply, hrun]
    · refine .inr ⟨fun heq => hne (Option.some.inj heq), ?_⟩
      simp only [Stmt.resolveOtherwise, bind_apply, pure_apply, hrun]

end

end Semant
