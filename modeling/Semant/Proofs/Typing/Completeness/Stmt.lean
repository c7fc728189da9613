import Semant.Proofs.Typing.Completeness.Expr
import Semant.Proofs.Typing.Soundness.Stmt

/-! Type resolution of statements is complete. The return statements have to be accepted one after
another, in the order in which the judgment lists them. -/

namespace Semant

open Resolve Outcome

theorem Resolve.check_of_ok {rule : Progress → Except Error Unit} {s : Progress}
    (h : s.error = none) (hrule : rule s = .ok ()) : check rule s = ((), s) := by
  rw [check, bind_apply, attempt_of_ok h hrule]
  rfl

theorem Resolve.introduce_of_ok {b : Binder} (rule : Scope → Except Error Ty) {s : Progress} {ty : Ty}
    (h : s.error = none) (hb : b.ty = .unresolved) (hrule : rule s.scope = .ok ty) :
    introduce b rule s = ({ b with ty := .resolved ty },
      { s with env := s.env.define b.name { ty, isVar := b.isVar } }) := by
  have hstep : (do
      let ty ← rule s.scope
      return (ty, ← b.ty.fill ty)) = Except.ok (ty, Slot.resolved ty) := by
    rw [hrule, hb]
    rfl
  rw [introduce, bind_apply, attempt_of_ok h hstep]
  rfl

theorem Stmt.ResolvesElseIfs.tests {σ : Scope} {Γ : Context}
    {clauses clauses' : List (Clause Expr Block)}
    {rets : List (List Ty)} (h : Stmt.ResolvesElseIfs σ Γ clauses clauses' rets) :
    ∀ e ∈ clauses'.map Clause.test, e.ty = .resolved .bool := by
  induction clauses generalizing clauses' rets with
  | nil =>
    cases h
    exact List.forall_mem_nil _
  | cons clause rest ih =>
    cases h with
    | cons hcond _ hrest => exact List.forall_mem_cons.mpr ⟨hcond.ty, ih hrest⟩

theorem Stmt.ResolvesWhens.tests {σ : Scope} {Γ : Context} {ty : Ty}
    {clauses clauses' : List (Clause (List Expr) Block)} {rets : List (List Ty)}
    (h : Stmt.ResolvesWhens σ Γ ty clauses clauses' rets) :
    ∀ e ∈ clauses'.flatMap Clause.test, ∃ found, e.ty = .resolved found ∧ found == ty := by
  induction clauses generalizing clauses' rets with
  | nil =>
    cases h
    exact List.forall_mem_nil _
  | cons clause rest ih =>
    cases h with
    | cons hconds hall _ hrest =>
      exact List.forall_mem_append.mpr ⟨hconds.forall_type.mpr hall, ih hrest⟩

theorem Returned.of_nil {r r' : Option Returns} (h : Returned r [] r') : r' = r := by
  cases h
  rfl

variable {σ last : Scope} {d : Demand} {G : Progress → Prop}

namespace Serves

theorem declares (hv : Serves σ last d G) {s : Progress} (hs : G s) {b : Binder}
    {value : Option Ty} {ty : Ty} (h : b.Declares σ value ty) : b.Declares s.scope value ty := by
  cases h with
  | written hw hty hvalue => exact .written hw (hv.resolve_written hs hty) hvalue
  | inferred hw => exact .inferred hw

theorem loops (hv : Serves σ last d G) {s : Progress} (hs : G s) {b : Binder} {elem ty : Ty}
    (h : b.Loops σ elem ty) : b.Loops s.scope elem ty := by
  cases h with
  | written hw hty heq => exact .written hw (hv.resolve_written hs hty) heq
  | inferred hw => exact .inferred hw

theorem declareAll (hv : Serves σ last d G) {bs bs' : List Binder} {values : Option (List Ty)}
    {s : Progress} {Γ : Context} (hs : G s)
    (h : Introduces (Binder.Declares σ) s.env.context bs (startValues bs.length values) bs' Γ) :
    ∃ t, Semant.declareAll bs values s = (bs', t) ∧ G t ∧ t.env.context = Γ ∧
      t.returns = s.returns := by
  induction bs generalizing bs' values s with
  | nil =>
    cases h
    exact ⟨s, rfl, hs, rfl, rfl⟩
  | cons b bs ih =>
    cases h with
    | @cons _ _ _ _ bs' _ _ ty hb hrule hrest =>
      have hdeclared := Typing.declared_eq_ok.mpr (hv.declares hs hrule)
      have hrun := introduce_of_ok (fun scope => Typing.declared scope b (values.bind List.head?))
        (hv.ok hs) hb hdeclared
      let t : Progress := { s with env := s.env.define b.name { ty, isVar := b.isVar } }
      obtain ⟨u, hrun', hu, henv, hreturns⟩ := ih (s := t) (hv.env _ hs) hrest
      refine ⟨u, ?_, hu, henv, hreturns⟩
      simp only [Semant.declareAll, bind_apply, pure_apply]
      rw [hrun, hrun']

theorem bindLoop (hv : Serves σ last d G) {bs bs' : List Binder} {tys : List Ty} {s : Progress}
    {Γ : Context} (hs : G s) (h : Introduces (Binder.Loops σ) s.env.context bs tys bs' Γ) :
    ∃ t, Semant.bindLoop bs tys s = (bs', t) ∧ G t ∧ t.env.context = Γ ∧
      t.returns = s.returns := by
  induction bs generalizing bs' tys s with
  | nil =>
    cases h
    exact ⟨s, rfl, hs, rfl, rfl⟩
  | cons b bs ih =>
    cases h with
    | @cons _ _ _ _ bs' elem tys ty hb hrule hrest =>
      have hloop := Typing.loopVariable_eq_ok.mpr (hv.loops hs hrule)
      have hrun := introduce_of_ok (fun scope => Typing.loopVariable scope b elem) (hv.ok hs) hb hloop
      let t : Progress := { s with env := s.env.define b.name { ty, isVar := b.isVar } }
      obtain ⟨u, hrun', hu, henv, hreturns⟩ := ih (s := t) (hv.env _ hs) hrest
      refine ⟨u, ?_, hu, henv, hreturns⟩
      simp only [Semant.bindLoop, bind_apply, pure_apply]
      rw [hrun, hrun']

theorem checkConditions (hv : Serves σ last d G) {s : Progress} (hs : G s) (what : String)
    {conds : List Expr} (h : ∀ e ∈ conds, e.ty = .resolved .bool) :
    Stmt.checkConditions what conds s = ((), s) :=
  check_of_ok (hv.ok hs) (checkConditions_eq_ok.mpr h)

theorem checkReturn (hv : Serves σ last d G) {s : Progress} (hs : G s) {values : List Expr}
    {tys : List Ty} {r : Option Returns} (htypes : Expr.types values = .ok tys)
    (h : Returned s.returns [tys] r) (loc : Location) :
    Stmt.checkReturn values loc s = ((), { s with returns := r }) := by
  generalize hreturns : s.returns = before at h
  cases h with
  | @cons r₀ r₁ _ _ _ haccepts hnil =>
    cases hnil
    have hrule : (do Typing.returned s.returns (← Expr.types values) loc) = .ok r₁ := by
      rw [htypes, hreturns]
      exact Typing.returned_eq_ok.mpr ⟨r₀, rfl, haccepts⟩
    rw [Stmt.checkReturn, bind_apply, attempt_of_ok (hv.ok hs) hrule]
    rfl

theorem returns_expr (hv : Serves σ last d G) {e e' : Expr} {s t : Progress}
    (hrun : e.resolve d s = (e', t)) : t.returns = s.returns := by
  have hreturns := (hv.discreet.closed.expr e s).2
  rwa [hrun] at hreturns

theorem returns_exprs (hv : Serves σ last d G) {es es' : List Expr} {s t : Progress}
    (hrun : Expr.resolveAll d es s = (es', t)) : t.returns = s.returns := by
  have hreturns := (hv.discreet.closed.exprs es s).2
  rwa [hrun] at hreturns

theorem env_block (hv : Serves σ last d G) {b b' : Block} {s t : Progress}
    (hrun : b.resolve d s = (b', t)) : t.env = s.env := by
  have henv := hv.discreet.env_block b s
  rwa [hrun] at henv

end Serves

theorem Declaration.resolve_complete (hv : Serves σ last d G) (decl : Declaration)
    {decl' : Declaration} {Γ : Context} {s : Progress}
    (h : decl.Resolves σ s.env.context decl' Γ) (hs : G s) :
    ∃ t, decl.resolve d s = (decl', t) ∧ G t ∧ t.env.context = Γ ∧ t.returns = s.returns := by
  cases h with
  | @bare binders binders' _ loc hintro =>
    rw [← startValues_none] at hintro
    obtain ⟨t, hrun, ht, henv, hreturns⟩ := hv.declareAll hs hintro
    refine ⟨t, ?_, ht, henv, hreturns⟩
    have hvalues : Declaration.valueTypes ⟨binders, none, loc⟩ = .ok none := rfl
    rw [Declaration.resolve_bare, Declaration.introduceNames, bind_apply,
      attempt_of_ok (hv.ok hs) hvalues]
    dsimp only
    rw [bind_apply, hrun]
    rfl
  | @valued binders binders' values values' tys parts _ loc hvalues hspread hintro =>
    obtain ⟨t, hrun, ht⟩ := Expr.resolveAll_complete hv values hvalues hs
    rw [← startValues_some, hspread.length, ← hv.env_exprs hrun] at hintro
    obtain ⟨u, hrun', hu, henv, hreturns⟩ := hv.declareAll ht hintro
    refine ⟨u, ?_, hu, henv, hreturns.trans (hv.returns_exprs hrun)⟩
    have hstart : Declaration.valueTypes ⟨binders, some values', loc⟩ = .ok (some parts) := by
      have hparts : Typing.spread tys binders.length loc = .ok parts :=
        Typing.spread_eq_ok.mpr hspread
      simp only [Declaration.valueTypes, hvalues.types, ok_bind, hparts]
      rfl
    rw [Declaration.resolve_valued, bind_apply, hrun, Declaration.introduceNames, bind_apply,
      attempt_of_ok (hv.ok ht) hstart]
    dsimp only
    rw [bind_apply, hrun']
    rfl

theorem Declaration.resolveAll_complete (hv : Serves σ last d G) (decls : List Declaration)
    {decls' : List Declaration} {Γ : Context} {s : Progress}
    (h : Declaration.ResolvesAll σ s.env.context decls decls' Γ) (hs : G s) :
    ∃ t, Declaration.resolveAll d decls s = (decls', t) ∧ G t ∧ t.env.context = Γ ∧
      t.returns = s.returns := by
  induction decls generalizing decls' s with
  | nil =>
    cases h
    exact ⟨s, rfl, hs, rfl, rfl⟩
  | cons decl decls ih =>
    cases h with
    | cons hdecl hdecls =>
      obtain ⟨t, hrun, ht, henv, hreturns⟩ := Declaration.resolve_complete hv decl hdecl hs
      rw [← henv] at hdecls
      obtain ⟨u, hrun', hu, henv', hreturns'⟩ := ih hdecls ht
      refine ⟨u, ?_, hu, henv', hreturns'.trans hreturns⟩
      simp only [Declaration.resolveAll, bind_apply, pure_apply, hrun, hrun']

mutual

theorem Stmt.resolve_complete (hv : Serves σ last d G) : ∀ (st : Stmt) {st' : Stmt} {Γ : Context}
    {rets : List (List Ty)} {r : Option Returns} {s : Progress},
    Stmt.Resolves σ s.env.context st st' Γ rets → Returned s.returns rets r → G s →
      ∃ t, st.resolve d s = (st', t) ∧ G t ∧ t.env.context = Γ ∧ t.returns = r
  | .declare decl, _, Γ, _, _, s, h, hr, hs => by
    cases h with
    | declare hdecl =>
      obtain ⟨t, hrun, ht, henv, hreturns⟩ := Declaration.resolve_complete hv decl hdecl hs
      obtain rfl := hr.of_nil
      simp only [Stmt.resolve, bind_apply, pure_apply, hrun]
      exact ⟨t, rfl, ht, henv, hreturns⟩
  | .assign targets values loc, _, Γ, _, _, s, h, hr, hs => by
    generalize hΓ : s.env.context = Γ₀ at h
    cases h with
    | @assign _ _ targets' _ values' tys vals parts _ htargets hvalues hspread heq hassign =>
      subst hΓ
      obtain rfl := hr.of_nil
      obtain ⟨t, hrun, ht⟩ := Expr.resolveAll_complete hv targets htargets hs
      have henv := hv.env_exprs hrun
      have hvalues' : Expr.ResolvesAll σ t.env.context values values' vals := by rwa [henv]
      obtain ⟨u, hrun', hu⟩ := Expr.resolveAll_complete hv values hvalues' ht
      have henv' : u.env = s.env := (hv.env_exprs hrun').trans henv
      have hreturns : u.returns = s.returns :=
        (hv.returns_exprs hrun').trans (hv.returns_exprs hrun)
      have hassigned := (htargets.assigned hspread.length).mpr ⟨heq, hassign⟩
      have hrule : (do
          let types ← Typing.spread (← Expr.types values') targets'.length loc
          (targets'.zip types).forM fun (target, ty) => Typing.assigned u.env target ty) =
            .ok () := by
        rw [hvalues.types, ok_bind, htargets.length]
        refine bind_eq_ok.mpr ⟨parts, Typing.spread_eq_ok.mpr hspread, ?_⟩
        simpa only [forM_eq_ok, Typing.assigned_eq_ok, henv'] using hassigned
      simp only [Stmt.resolve, bind_apply, pure_apply, hrun, hrun', Stmt.checkAssignment]
      rw [check_of_ok (hv.ok hu) hrule]
      exact ⟨u, rfl, hu, by rw [henv'], hreturns⟩
  | .branch kind cond body elseIfs otherwise loc, _, Γ, _, _, s, h, hr, hs => by
    generalize hΓ : s.env.context = Γ₀ at h
    cases h with
    | @branch _ _ _ cond' _ body' _ elseIfs' _ otherwise' rets₁ rets₂ rets₃ _ hcond hbody helse hother =>
      subst hΓ
      obtain ⟨r₂, hr₁₂, hr₃⟩ := hr.of_append
      obtain ⟨r₁, hr₁, hr₂⟩ := hr₁₂.of_append
      obtain ⟨t₁, hrun₁, ht₁⟩ := Expr.resolve_complete hv cond hcond hs
      have henv₁ := hv.env_expr hrun₁
      rw [← hv.returns_expr hrun₁] at hr₁
      have hbody' : body.Resolves σ t₁.env.context body' rets₁ := by rwa [henv₁]
      obtain ⟨t₂, hrun₂, ht₂, hreturns₂⟩ := Block.resolve_complete hv body hbody' hr₁ ht₁
      have henv₂ : t₂.env = s.env := (hv.env_block hrun₂).trans henv₁
      rw [← hreturns₂] at hr₂
      have helse' : Stmt.ResolvesElseIfs σ t₂.env.context elseIfs elseIfs' rets₂ := by rwa [henv₂]
      obtain ⟨t₃, hrun₃, ht₃, hreturns₃⟩ := Stmt.resolveElseIfs_complete hv elseIfs helse' hr₂ ht₂
      have henv₃ : t₃.env = s.env := by
        have henv := hv.discreet.env_elseIfs elseIfs t₂
        rwa [hrun₃, henv₂] at henv
      rw [← hreturns₃] at hr₃
      have hother' : Stmt.ResolvesOtherwise σ t₃.env.context otherwise otherwise' rets₃ := by
        rwa [henv₃]
      obtain ⟨t₄, hrun₄, ht₄, hreturns₄⟩ :=
        Stmt.resolveOtherwise_complete hv otherwise hother' hr₃ ht₃
      have henv₄ : t₄.env = s.env := by
        have henv := hv.discreet.env_otherwise otherwise t₃
        rwa [hrun₄, henv₃] at henv
      have hconds : ∀ e ∈ cond' :: elseIfs'.map Clause.test, e.ty = .resolved .bool :=
        List.forall_mem_cons.mpr ⟨hcond.ty, helse.tests⟩
      simp only [Stmt.resolve, bind_apply, pure_apply, hrun₁, hrun₂, hrun₃, hrun₄,
        hv.checkConditions ht₄ _ hconds]
      exact ⟨t₄, rfl, ht₄, by rw [henv₄], hreturns₄⟩
  | .ret values loc, _, Γ, _, _, s, h, hr, hs => by
    generalize hΓ : s.env.context = Γ₀ at h
    cases h with
    | ret hvalues =>
      subst hΓ
      obtain ⟨t, hrun, ht⟩ := Expr.resolveAll_complete hv values hvalues hs
      rw [← hv.returns_exprs hrun] at hr
      simp only [Stmt.resolve, bind_apply, pure_apply, hrun, hv.checkReturn ht hvalues.types hr loc]
      refine ⟨_, rfl, hv.returns _ ht, ?_, rfl⟩
      rw [hv.env_exprs hrun]
  | .case whens otherwise loc, _, Γ, _, _, s, h, hr, hs => by
    generalize hΓ : s.env.context = Γ₀ at h
    cases h with
    | @case _ _ whens' _ otherwise' rets₁ rets₂ _ hwhens hother =>
      subst hΓ
      obtain ⟨r₁, hr₁, hr₂⟩ := hr.of_append
      obtain ⟨t₁, hrun₁, ht₁, hreturns₁⟩ := Stmt.resolveWhens_complete hv whens hwhens hr₁ hs
      have henv₁ : t₁.env = s.env := by
        have henv := hv.discreet.env_whens whens s
        rwa [hrun₁] at henv
      rw [← hreturns₁] at hr₂
      have hother' : Stmt.ResolvesOtherwise σ t₁.env.context otherwise otherwise' rets₂ := by
        rwa [henv₁]
      obtain ⟨t₂, hrun₂, ht₂, hreturns₂⟩ :=
        Stmt.resolveOtherwise_complete hv otherwise hother' hr₂ ht₁
      have henv₂ : t₂.env = s.env := by
        have henv := hv.discreet.env_otherwise otherwise t₁
        rwa [hrun₂, henv₁] at henv
      have hconds : ∀ e ∈ whens'.flatMap Clause.test, e.ty = .resolved .bool := by
        intro e he
        obtain ⟨found, hty, heq⟩ := hwhens.tests e he
        rw [hty, Ty.beq_builtin.mp heq]
      simp only [Stmt.resolve, bind_apply, pure_apply, hrun₁, hrun₂,
        hv.checkConditions ht₂ _ hconds]
      exact ⟨t₂, rfl, ht₂, by rw [henv₂], hreturns₂⟩
  | .switch target whens otherwise loc, _, Γ, _, _, s, h, hr, hs => by
    generalize hΓ : s.env.context = Γ₀ at h
    cases h with
    | @switch _ _ target' ty _ whens' _ otherwise' rets₁ rets₂ _ htarget hwhens hother =>
      subst hΓ
      obtain ⟨r₁, hr₁, hr₂⟩ := hr.of_append
      obtain ⟨t₁, hrun₁, ht₁⟩ := Expr.resolve_complete hv target htarget hs
      have henv₁ := hv.env_expr hrun₁
      rw [← hv.returns_expr hrun₁] at hr₁
      have hwhens' : Stmt.ResolvesWhens σ t₁.env.context ty whens whens' rets₁ := by rwa [henv₁]
      obtain ⟨t₂, hrun₂, ht₂, hreturns₂⟩ := Stmt.resolveWhens_complete hv whens hwhens' hr₁ ht₁
      have henv₂ : t₂.env = s.env := by
        have henv := hv.discreet.env_whens whens t₁
        rwa [hrun₂, henv₁] at henv
      rw [← hreturns₂] at hr₂
      have hother' : Stmt.ResolvesOtherwise σ t₂.env.context otherwise otherwise' rets₂ := by
        rwa [henv₂]
      obtain ⟨t₃, hrun₃, ht₃, hreturns₃⟩ :=
        Stmt.resolveOtherwise_complete hv otherwise hother' hr₂ ht₂
      have henv₃ : t₃.env = s.env := by
        have henv := hv.discreet.env_otherwise otherwise t₂
        rwa [hrun₃, henv₂] at henv
      have hrule : (do
          let ty ← target'.type
          (whens'.flatMap Clause.test).forM (Typing.whenValue ty)) = .ok () := by
        rw [htarget.type, ok_bind, forM_eq_ok]
        exact fun e he => Typing.whenValue_eq_ok.mpr (hwhens.tests e he)
      simp only [Stmt.resolve, bind_apply, pure_apply, hrun₁, hrun₂, hrun₃, Stmt.checkSwitch]
      rw [check_of_ok (hv.ok ht₃) hrule]
      exact ⟨t₃, rfl, ht₃, by rw [henv₃], hreturns₃⟩
  | .forIn vars range body loc, _, Γ, rets, r, s, h, hr, hs => by
    generalize hΓ : s.env.context = Γ₀ at h
    cases h with
    | @forIn _ Γ' _ vars' _ range' _ body' ty elem parts _ _ hrange hiter hspread hvars hbody =>
      subst hΓ
      let s₀ : Progress := { s with env := s.env.push }
      obtain ⟨t₁, hrun₁, ht₁⟩ := Expr.resolve_complete hv range (s := s₀) hrange (hv.env _ hs)
      have henv₁ : t₁.env = s.env.push := hv.env_expr hrun₁
      have hrule : (do Typing.spread [← Typing.iterated range'] vars.length loc) = .ok parts := by
        refine bind_eq_ok.mpr ⟨elem, ?_, Typing.spread_eq_ok.mpr hspread⟩
        exact Typing.iterated_eq_ok.mpr ⟨ty, hrange.ty, hiter⟩
      have hvars' : Introduces (Binder.Loops σ) t₁.env.context vars parts vars' Γ' := by rwa [henv₁]
      obtain ⟨t₂, hrun₂, ht₂, henv₂, hreturns₂⟩ := hv.bindLoop ht₁ hvars'
      rw [← henv₂] at hbody
      have hr' : Returned t₂.returns rets r := by rwa [hreturns₂, hv.returns_expr hrun₁]
      obtain ⟨t₃, hrun₃, ht₃, hreturns₃⟩ := Block.resolve_complete hv body hbody hr' ht₂
      have hpop : t₃.env.pop = s.env := by
        have henclosing := hv.discreet.closedStmt.bindLoop vars parts t₁
        rw [hrun₂, henv₁] at henclosing
        rw [hv.env_block hrun₃, Env.pop_eq henclosing]
      simp only [Stmt.resolve, inScope_apply, bind_apply, pure_apply, s₀] at hrun₁ ⊢
      rw [hrun₁]
      dsimp only
      rw [attempt_of_ok (hv.ok ht₁) hrule]
      dsimp only [Option.getD_some]
      rw [hrun₂, hrun₃]
      exact ⟨_, rfl, hv.env _ ht₃, by rw [hpop], hreturns₃⟩
  | .whileDo cond body loc, _, Γ, rets, _, s, h, hr, hs => by
    generalize hΓ : s.env.context = Γ₀ at h
    cases h with
    | @whileDo _ _ cond' _ body' _ _ hcond hbody =>
      subst hΓ
      obtain ⟨t₁, hrun₁, ht₁⟩ := Expr.resolve_complete hv cond hcond hs
      have henv₁ := hv.env_expr hrun₁
      rw [← hv.returns_expr hrun₁] at hr
      have hbody' : body.Resolves σ t₁.env.context body' rets := by rwa [henv₁]
      obtain ⟨t₂, hrun₂, ht₂, hreturns₂⟩ := Block.resolve_complete hv body hbody' hr ht₁
      have henv₂ : t₂.env = s.env := (hv.env_block hrun₂).trans henv₁
      have hconds : ∀ e ∈ [cond'], e.ty = .resolved .bool := List.forall_mem_singleton.mpr hcond.ty
      simp only [Stmt.resolve, bind_apply, pure_apply, hrun₁, hrun₂,
        hv.checkConditions ht₂ _ hconds]
      exact ⟨t₂, rfl, ht₂, by rw [henv₂], hreturns₂⟩
  | .trailingIf body kind cond loc, _, Γ, _, _, s, h, hr, hs => by
    cases h with
    | @trailingIf _ _ _ body' _ _ cond' _ _ hbody hcond =>
      obtain ⟨t₁, hrun₁, ht₁, henv₁, hreturns₁⟩ := Stmt.resolve_complete hv body hbody hr hs
      rw [← henv₁] at hcond
      obtain ⟨t₂, hrun₂, ht₂⟩ := Expr.resolve_complete hv cond hcond ht₁
      have hconds : ∀ e ∈ [cond'], e.ty = .resolved .bool := List.forall_mem_singleton.mpr hcond.ty
      simp only [Stmt.resolve, bind_apply, pure_apply, hrun₁, hrun₂,
        hv.checkConditions ht₂ _ hconds]
      refine ⟨t₂, rfl, ht₂, ?_, (hv.returns_expr hrun₂).trans hreturns₁⟩
      rw [hv.env_expr hrun₂, henv₁]
  | .letIn inits body loc, _, Γ, rets, r, s, h, hr, hs => by
    generalize hΓ : s.env.context = Γ₀ at h
    cases h with
    | @letIn _ Γ₁ Γ₂ _ inits' _ body' _ _ hinits hbody =>
      subst hΓ
      let s₀ : Progress := { s with env := s.env.push }
      obtain ⟨t₁, hrun₁, ht₁, henv₁, hreturns₁⟩ :=
        Declaration.resolveAll_complete hv inits (s := s₀) hinits (hv.env _ hs)
      rw [← henv₁] at hbody
      have hr' : Returned t₁.returns rets r := by rwa [hreturns₁]
      obtain ⟨t₂, hrun₂, ht₂, _, hreturns₂⟩ := Stmt.resolve_complete hv body hbody hr' ht₁
      have hpop : t₂.env.pop = s.env := by
        have hinner := hv.discreet.closedStmt.stmt body t₁
        have houter := hv.discreet.closedStmt.declarations inits s₀
        rw [hrun₂] at hinner
        rw [hrun₁] at houter
        exact Env.pop_eq (hinner.trans houter)
      simp only [Stmt.resolve, inScope_apply, bind_apply, pure_apply, s₀] at hrun₁ ⊢
      rw [hrun₁]
      dsimp only
      rw [hrun₂]
      exact ⟨_, rfl, hv.env _ ht₂, by rw [hpop], hreturns₂⟩
  | .expr e, _, Γ, _, _, s, h, hr, hs => by
    generalize hΓ : s.env.context = Γ₀ at h
    cases h with
    | expr he =>
      subst hΓ
      obtain rfl := hr.of_nil
      obtain ⟨t, hrun, ht⟩ := Expr.resolve_complete hv e he hs
      simp only [Stmt.resolve, bind_apply, pure_apply, hrun]
      exact ⟨t, rfl, ht, by rw [hv.env_expr hrun], hv.returns_expr hrun⟩
  | .block b, _, Γ, _, _, s, h, hr, hs => by
    generalize hΓ : s.env.context = Γ₀ at h
    cases h with
    | block hb =>
      subst hΓ
      obtain ⟨t, hrun, ht, hreturns⟩ := Block.resolve_complete hv b hb hr hs
      simp only [Stmt.resolve, bind_apply, pure_apply, hrun]
      exact ⟨t, rfl, ht, by rw [hv.env_block hrun], hreturns⟩
termination_by structural x => x

theorem Block.resolve_complete (hv : Serves σ last d G) : ∀ (b : Block) {b' : Block}
    {rets : List (List Ty)} {r : Option Returns} {s : Progress},
    b.Resolves σ s.env.context b' rets → Returned s.returns rets r → G s →
      ∃ t, b.resolve d s = (b', t) ∧ G t ∧ t.returns = r
  | .mk stmts loc, _, _, _, s, h, hr, hs => by
    cases h with
    | mk hstmts =>
      let s₀ : Progress := { s with env := s.env.push }
      obtain ⟨t, hrun, ht, hreturns⟩ :=
        Stmt.resolveAll_complete hv stmts (s := s₀) hstmts hr (hv.env _ hs)
      simp only [Block.resolve, inScope_apply, bind_apply, pure_apply, s₀] at hrun ⊢
      rw [hrun]
      exact ⟨_, rfl, hv.env _ ht, hreturns⟩
termination_by structural x => x

theorem Stmt.resolveAll_complete (hv : Serves σ last d G) : ∀ (ss : List Stmt) {ss' : List Stmt}
    {rets : List (List Ty)} {r : Option Returns} {s : Progress},
    Stmt.ResolvesAll σ s.env.context ss ss' rets → Returned s.returns rets r → G s →
      ∃ t, Stmt.resolveAll d ss s = (ss', t) ∧ G t ∧ t.returns = r
  | [], _, _, _, s, h, hr, hs => by
    cases h
    obtain rfl := hr.of_nil
    exact ⟨s, rfl, hs, rfl⟩
  | st :: ss, _, _, _, s, h, hr, hs => by
    cases h with
    | cons hst hss =>
      obtain ⟨r₁, hr₁, hr₂⟩ := hr.of_append
      obtain ⟨t, hrun, ht, henv, hreturns⟩ := Stmt.resolve_complete hv st hst hr₁ hs
      rw [← henv] at hss
      rw [← hreturns] at hr₂
      obtain ⟨u, hrun', hu, hreturns'⟩ := Stmt.resolveAll_complete hv ss hss hr₂ ht
      simp only [Stmt.resolveAll, bind_apply, pure_apply, hrun, hrun']
      exact ⟨u, rfl, hu, hreturns'⟩
termination_by structural x => x

theorem Stmt.resolveElseIfs_complete (hv : Serves σ last d G) :
    ∀ (clauses : List (Clause Expr Block)) {clauses' : List (Clause Expr Block)}
    {rets : List (List Ty)} {r : Option Returns} {s : Progress},
    Stmt.ResolvesElseIfs σ s.env.context clauses clauses' rets → Returned s.returns rets r → G s →
      ∃ t, Stmt.resolveElseIfs d clauses s = (clauses', t) ∧ G t ∧ t.returns = r
  | [], _, _, _, s, h, hr, hs => by
    cases h
    obtain rfl := hr.of_nil
    exact ⟨s, rfl, hs, rfl⟩
  | ⟨cond, body⟩ :: rest, _, _, _, s, h, hr, hs => by
    cases h with
    | @cons _ _ cond' _ body' _ rest' rets₁ rets₂ hcond hbody hrest =>
      obtain ⟨r₁, hr₁, hr₂⟩ := hr.of_append
      obtain ⟨t₁, hrun₁, ht₁⟩ := Expr.resolve_complete hv cond hcond hs
      have henv₁ := hv.env_expr hrun₁
      rw [← hv.returns_expr hrun₁] at hr₁
      have hbody' : body.Resolves σ t₁.env.context body' rets₁ := by rwa [henv₁]
      obtain ⟨t₂, hrun₂, ht₂, hreturns₂⟩ := Block.resolve_complete hv body hbody' hr₁ ht₁
      have henv₂ : t₂.env = s.env := (hv.env_block hrun₂).trans henv₁
      rw [← hreturns₂] at hr₂
      have hrest' : Stmt.ResolvesElseIfs σ t₂.env.context rest rest' rets₂ := by rwa [henv₂]
      obtain ⟨t₃, hrun₃, ht₃, hreturns₃⟩ := Stmt.resolveElseIfs_complete hv rest hrest' hr₂ ht₂
      simp only [Stmt.resolveElseIfs, bind_apply, pure_apply, hrun₁, hrun₂, hrun₃]
      exact ⟨t₃, rfl, ht₃, hreturns₃⟩
termination_by structural x => x

theorem Stmt.resolveWhens_complete (hv : Serves σ last d G) :
    ∀ (clauses : List (Clause (List Expr) Block)) {ty : Ty}
    {clauses' : List (Clause (List Expr) Block)} {rets : List (List Ty)} {r : Option Returns}
    {s : Progress},
    Stmt.ResolvesWhens σ s.env.context ty clauses clauses' rets → Returned s.returns rets r → G s →
      ∃ t, Stmt.resolveWhens d clauses s = (clauses', t) ∧ G t ∧ t.returns = r
  | [], _, _, _, _, s, h, hr, hs => by
    cases h
    obtain rfl := hr.of_nil
    exact ⟨s, rfl, hs, rfl⟩
  | ⟨conds, body⟩ :: rest, ty, _, _, _, s, h, hr, hs => by
    cases h with
    | @cons _ _ _ conds' tys _ body' _ rest' rets₁ rets₂ hconds _ hbody hrest =>
      obtain ⟨r₁, hr₁, hr₂⟩ := hr.of_append
      obtain ⟨t₁, hrun₁, ht₁⟩ := Expr.resolveAll_complete hv conds hconds hs
      have henv₁ := hv.env_exprs hrun₁
      rw [← hv.returns_exprs hrun₁] at hr₁
      have hbody' : body.Resolves σ t₁.env.context body' rets₁ := by rwa [henv₁]
      obtain ⟨t₂, hrun₂, ht₂, hreturns₂⟩ := Block.resolve_complete hv body hbody' hr₁ ht₁
      have henv₂ : t₂.env = s.env := (hv.env_block hrun₂).trans henv₁
      rw [← hreturns₂] at hr₂
      have hrest' : Stmt.ResolvesWhens σ t₂.env.context ty rest rest' rets₂ := by rwa [henv₂]
      obtain ⟨t₃, hrun₃, ht₃, hreturns₃⟩ := Stmt.resolveWhens_complete hv rest hrest' hr₂ ht₂
      simp only [Stmt.resolveWhens, bind_apply, pure_apply, hrun₁, hrun₂, hrun₃]
      exact ⟨t₃, rfl, ht₃, hreturns₃⟩
termination_by structural x => x

theorem Stmt.resolveOtherwise_complete (hv : Serves σ last d G) : ∀ (body : Option Block)
    {body' : Option Block} {rets : List (List Ty)} {r : Option Returns} {s : Progress},
    Stmt.ResolvesOtherwise σ s.env.context body body' rets → Returned s.returns rets r → G s →
      ∃ t, Stmt.resolveOtherwise d body s = (body', t) ∧ G t ∧ t.returns = r
  | none, _, _, _, s, h, hr, hs => by
    cases h
    obtain rfl := hr.of_nil
    exact ⟨s, rfl, hs, rfl⟩
  | some body, _, _, _, s, h, hr, hs => by
    cases h with
    | some hbody =>
      obtain ⟨t, hrun, ht, hreturns⟩ := Block.resolve_complete hv body hbody hr hs
      simp only [Stmt.resolveOtherwise, bind_apply, pure_apply, hrun]
      exact ⟨t, rfl, ht, hreturns⟩
termination_by structural x => x

end

end Semant
