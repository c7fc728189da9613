import Semant.Proofs.Typing.Soundness.Expr

/-! Type resolution of statements is sound. The names that a statement leaves in scope are those of
the judgment, and the return statements are met in the order in which the judgment lists them. -/

namespace Semant

open Resolve Outcome

/-- The values that declared names start with, one for each of `n` names. -/
def startValues : Nat → Option (List Ty) → List (Option Ty)
  | 0, _ => []
  | n + 1, values => values.bind List.head? :: startValues n (values.map List.tail)

theorem startValues_none (n : Nat) : startValues n none = List.replicate n none := by
  induction n with
  | zero => rfl
  | succ n ih => rw [startValues, List.replicate_succ, ← ih]; rfl

theorem startValues_some (tys : List Ty) : startValues tys.length (some tys) = tys.map some := by
  induction tys with
  | nil => rfl
  | cons ty tys ih => rw [List.length_cons, startValues, List.map_cons, ← ih]; rfl

theorem Spreads.length {values parts : List Ty} {n : Nat} (h : Spreads values n parts) :
    parts.length = n := by
  cases h <;> assumption

theorem checkConditions_eq_ok {what : String} {conds : List Expr} :
    conds.forM (Typing.condition what) = .ok () ↔ ∀ e ∈ conds, e.ty = .resolved .bool := by
  simp only [forM_eq_ok, Typing.condition_eq_ok]

namespace Expr

variable {σ : Scope} {Γ : Context}

theorem Resolves.of_ty {e e' : Expr} {ty ty' : Ty} (h : e.Resolves σ Γ e' ty)
    (hty : e'.ty = .resolved ty') : e.Resolves σ Γ e' ty' := by
  rw [h.ty] at hty
  cases hty
  exact h

theorem ResolvesAll.forall_type {es es' : List Expr} {tys : List Ty}
    (h : ResolvesAll σ Γ es es' tys) {P : Ty → Prop} :
    (∀ e ∈ es', ∃ ty, e.ty = .resolved ty ∧ P ty) ↔ ∀ ty ∈ tys, P ty := by
  induction es generalizing es' tys with
  | nil => cases h; simp
  | cons e es ih =>
    cases h with
    | cons he hes => simp [he.ty, ih hes]

theorem ResolvesAll.length {es es' : List Expr} {tys : List Ty} (h : ResolvesAll σ Γ es es' tys) :
    es'.length = es.length := by
  induction es generalizing es' tys with
  | nil => cases h; rfl
  | cons e es ih =>
    cases h with
    | cons he hes => simp [ih hes]

theorem ResolvesAll.assigned {es es' : List Expr} {tys parts : List Ty}
    (h : ResolvesAll σ Γ es es' tys) (hlen : parts.length = es.length) :
    (∀ p ∈ es'.zip parts, p.1.Assignable Γ ∧ ∃ ty, p.1.ty = .resolved ty ∧ ty == p.2) ↔
      List.Forall₂ (fun ty part => ty == part) tys parts ∧ ∀ e ∈ es', e.Assignable Γ := by
  induction es generalizing es' tys parts with
  | nil =>
    cases h
    rw [List.length_nil, List.length_eq_zero_iff] at hlen
    simp [hlen]
  | cons e es ih =>
    cases h with
    | cons he hes =>
      cases parts with
      | nil => cases hlen
      | cons part parts =>
        have ih := ih hes (Nat.succ.inj hlen)
        simp only [List.zip_cons_cons, List.forall_mem_cons, List.forall₂_cons, he.ty, ih,
          Slot.resolved.injEq, exists_eq_left']
        tauto

end Expr

namespace Toward

variable {σ : Scope}

theorem leaveScope {s : Progress} {env : Env} (h : Toward σ { s with env }) : Toward σ s :=
  ⟨h.ok, h.grows⟩

theorem introduce {b : Binder} {rule : Scope → Except Error Ty} {s : Progress}
    (h : Toward σ (Resolve.introduce b rule s).2) :
    Toward σ s ∧ b.ty = .unresolved ∧ ∃ ty, rule s.scope = .ok ty ∧
      Resolve.introduce b rule s = ({ b with ty := .resolved ty },
        { s with env := s.env.define b.name { ty, isVar := b.isVar } }) := by
  unfold Resolve.introduce at h ⊢
  rw [bind_apply] at h ⊢
  rcases attempt_cases (fun s => do
      let ty ← rule s.scope
      return (ty, ← b.ty.fill ty)) s with
    ⟨⟨ty, slot⟩, hs, hstep, hrun⟩ | ⟨hs, hrun⟩ | ⟨_, _, _, hrun⟩
  · rw [hrun] at h ⊢
    obtain ⟨_, hrule, hfill⟩ := bind_eq_ok.mp hstep
    obtain ⟨_, hfill, heq⟩ := bind_eq_ok.mp hfill
    cases heq
    cases hb : b.ty with
    | resolved =>
      rw [hb] at hfill
      cases hfill
    | unresolved =>
      rw [hb] at hfill
      cases hfill
      exact ⟨⟨hs, h.grows⟩, rfl, ty, hrule, rfl⟩
  · rw [hrun] at h
    exact (hs h.ok).elim
  · rw [hrun] at h
    cases h.ok

theorem declares {s : Progress} (h : Toward σ s) {b : Binder} {value : Option Ty} {ty : Ty}
    (hb : b.Declares s.scope value ty) : b.Declares σ value ty := by
  cases hb with
  | written hw hty hv => exact .written hw (h.resolve_written hty) hv
  | inferred hw => exact .inferred hw

theorem loops {s : Progress} (h : Toward σ s) {b : Binder} {elem ty : Ty}
    (hb : b.Loops s.scope elem ty) : b.Loops σ elem ty := by
  cases hb with
  | written hw hty heq => exact .written hw (h.resolve_written hty) heq
  | inferred hw => exact .inferred hw

theorem declareAll (bs : List Binder) (values : Option (List Ty)) (s : Progress)
    (h : Toward σ (Semant.declareAll bs values s).2) :
    Toward σ s ∧
      Introduces (Binder.Declares σ) s.env.context bs (startValues bs.length values)
        (Semant.declareAll bs values s).1 (Semant.declareAll bs values s).2.env.context ∧
      (Semant.declareAll bs values s).2.returns = s.returns := by
  induction bs generalizing values s with
  | nil => exact ⟨h, .nil, rfl⟩
  | cons b bs ih =>
    simp only [Semant.declareAll, bind_apply, pure_apply] at h ⊢
    obtain ⟨h₁, hbs, hreturns⟩ := ih _ _ h
    obtain ⟨hs, hb, ty, hrule, hrun⟩ := Toward.introduce h₁
    have hdeclares := hs.declares (Typing.declared_eq_ok.mp hrule)
    rw [hrun] at hbs hreturns ⊢
    exact ⟨hs, .cons hb hdeclares hbs, hreturns⟩

theorem bindLoop (bs : List Binder) (tys : List Ty) (hlen : tys.length = bs.length) (s : Progress)
    (h : Toward σ (Semant.bindLoop bs tys s).2) :
    Toward σ s ∧
      Introduces (Binder.Loops σ) s.env.context bs tys
        (Semant.bindLoop bs tys s).1 (Semant.bindLoop bs tys s).2.env.context ∧
      (Semant.bindLoop bs tys s).2.returns = s.returns := by
  induction bs generalizing tys s with
  | nil =>
    rw [List.length_nil, List.length_eq_zero_iff] at hlen
    subst tys
    exact ⟨h, .nil, rfl⟩
  | cons b bs ih =>
    cases tys with
    | nil => cases hlen
    | cons elem tys =>
      simp only [Semant.bindLoop, bind_apply, pure_apply] at h ⊢
      obtain ⟨h₁, hbs, hreturns⟩ := ih tys (Nat.succ.inj hlen) _ h
      obtain ⟨hs, hb, ty, hrule, hrun⟩ := Toward.introduce h₁
      have hloops := hs.loops (Typing.loopVariable_eq_ok.mp hrule)
      rw [hrun] at hbs hreturns ⊢
      exact ⟨hs, .cons hb hloops hbs, hreturns⟩

theorem checkReturn {values : List Expr} {loc : Location} {s : Progress}
    (h : Toward σ (Stmt.checkReturn values loc s).2) :
    Toward σ s ∧ (Stmt.checkReturn values loc s).2.env = s.env ∧
      ∀ tys, Expr.types values = .ok tys →
        Returned s.returns [tys] (Stmt.checkReturn values loc s).2.returns := by
  unfold Stmt.checkReturn at h ⊢
  rw [bind_apply] at h ⊢
  rcases attempt_cases (fun s => do Typing.returned s.returns (← Expr.types values) loc) s with
    ⟨r, hs, hstep, hrun⟩ | ⟨hs, hrun⟩ | ⟨_, _, _, hrun⟩
  · rw [hrun] at h ⊢
    refine ⟨⟨hs, h.grows⟩, rfl, fun tys htys => ?_⟩
    rw [htys] at hstep
    obtain ⟨r₀, hr₀, haccepts⟩ := Typing.returned_eq_ok.mp hstep
    rw [hr₀]
    exact .cons haccepts .nil
  · rw [hrun] at h
    exact (hs h.ok).elim
  · rw [hrun] at h
    cases h.ok

theorem introduceNames {decl : Declaration} {s : Progress}
    (h : Toward σ (decl.introduceNames s).2) :
    Toward σ s ∧ ∃ values binders, decl.valueTypes = .ok values ∧
      (decl.introduceNames s).1 = { decl with binders } ∧
      Introduces (Binder.Declares σ) s.env.context decl.binders
        (startValues decl.binders.length values) binders (decl.introduceNames s).2.env.context ∧
      (decl.introduceNames s).2.returns = s.returns := by
  unfold Declaration.introduceNames at h ⊢
  rw [bind_apply] at h ⊢
  rcases attempt_cases (fun _ => decl.valueTypes) s with
    ⟨values, _, hvalues, hrun⟩ | ⟨hs, hrun⟩ | ⟨_, _, _, hrun⟩
  · rw [hrun] at h ⊢
    obtain ⟨hs, hintro, hreturns⟩ := Toward.declareAll _ _ s h
    exact ⟨hs, values, _, hvalues, rfl, hintro, hreturns⟩
  · rw [hrun] at h
    exact (hs h.ok).elim
  · rw [hrun] at h
    cases h.ok

end Toward

section

variable {σ : Scope} {d : Demand} (hd : d.Sound σ)

include hd

theorem Demand.Sound.returns_expr (e : Expr) (s : Progress) :
    (e.resolve d s).2.returns = s.returns :=
  (hd.discreet.closed.expr e s).2

theorem Demand.Sound.returns_exprs (es : List Expr) (s : Progress) :
    (Expr.resolveAll d es s).2.returns = s.returns :=
  (hd.discreet.closed.exprs es s).2

theorem Declaration.resolve_sound (decl : Declaration) (s : Progress)
    (h : Toward σ (decl.resolve d s).2) :
    decl.Resolves σ s.env.context (decl.resolve d s).1 (decl.resolve d s).2.env.context ∧
      (decl.resolve d s).2.returns = s.returns := by
  obtain ⟨binders, _ | values, loc⟩ := decl
  · rw [Declaration.resolve_bare] at h ⊢
    obtain ⟨_, start, binders', hstart, hdecl, hintro, hreturns⟩ := Toward.introduceNames h
    cases hstart
    rw [startValues_none] at hintro
    rw [hdecl]
    exact ⟨.bare hintro, hreturns⟩
  · rw [Declaration.resolve_valued, bind_apply] at h ⊢
    obtain ⟨hs, start, binders', hstart, hdecl, hintro, hreturns⟩ := Toward.introduceNames h
    obtain ⟨tys, hvalues⟩ := Expr.resolveAll_sound hd values s hs
    obtain ⟨_, htys, hstart⟩ := bind_eq_ok.mp hstart
    obtain ⟨parts, hspread, heq⟩ := bind_eq_ok.mp hstart
    rw [hvalues.types] at htys
    cases htys
    cases heq
    have hparts := Typing.spread_eq_ok.mp hspread
    rw [← hparts.length, startValues_some, hd.context_exprs] at hintro
    rw [hdecl]
    exact ⟨.valued hvalues hparts hintro, hreturns.trans (hd.returns_exprs values s)⟩

theorem Declaration.resolveAll_sound (decls : List Declaration) (s : Progress)
    (h : Toward σ (Declaration.resolveAll d decls s).2) :
    Declaration.ResolvesAll σ s.env.context decls (Declaration.resolveAll d decls s).1
        (Declaration.resolveAll d decls s).2.env.context ∧
      (Declaration.resolveAll d decls s).2.returns = s.returns := by
  induction decls generalizing s with
  | nil => exact ⟨.nil, rfl⟩
  | cons decl decls ih =>
    have h₁ := hd.closed.declarations decls _ h
    obtain ⟨hdecl, hreturns⟩ := Declaration.resolve_sound hd decl s h₁
    obtain ⟨hdecls, hreturns'⟩ := ih _ h
    exact ⟨.cons hdecl hdecls, hreturns'.trans hreturns⟩

end

variable {σ : Scope} {d : Demand}

mutual

theorem Stmt.resolve_sound (hd : d.Sound σ) :
    ∀ (st : Stmt) (s : Progress), Toward σ (st.resolve d s).2 →
    ∃ rets, Stmt.Resolves σ s.env.context st (st.resolve d s).1 (st.resolve d s).2.env.context rets ∧
      Returned s.returns rets (st.resolve d s).2.returns
  | .declare decl, s, h => by
    simp only [Stmt.resolve, bind_apply, pure_apply] at h ⊢
    obtain ⟨hdecl, hreturns⟩ := Declaration.resolve_sound hd decl s h
    rw [hreturns]
    exact ⟨[], .declare hdecl, .nil⟩
  | .assign targets values loc, s, h => by
    simp only [Stmt.resolve, bind_apply, pure_apply] at h ⊢
    obtain ⟨h₂, hrule, hrun⟩ := Toward.check h
    obtain ⟨tys, htargets⟩ := Expr.resolveAll_sound hd targets s (hd.closed.exprs values _ h₂)
    obtain ⟨vals, hvalues⟩ := Expr.resolveAll_sound hd values _ h₂
    obtain ⟨_, hvals, hrule⟩ := bind_eq_ok.mp hrule
    rw [hvalues.types] at hvals
    cases hvals
    obtain ⟨parts, hspread, hrule⟩ := bind_eq_ok.mp hrule
    have hparts := Typing.spread_eq_ok.mp hspread
    rw [htargets.length] at hparts
    simp only [forM_eq_ok, Typing.assigned_eq_ok, hd.context_exprs] at hrule
    obtain ⟨heq, hassign⟩ := (htargets.assigned hparts.length).mp hrule
    rw [hd.context_exprs] at hvalues
    rw [Stmt.checkAssignment, hrun, hd.context_exprs, hd.context_exprs, hd.returns_exprs,
      hd.returns_exprs]
    exact ⟨[], .assign htargets hvalues hparts heq hassign, .nil⟩
  | .branch kind cond body elseIfs otherwise loc, s, h => by
    simp only [Stmt.resolve, bind_apply, pure_apply] at h ⊢
    obtain ⟨h₄, hrule, hrun⟩ := Toward.check h
    have h₃ := hd.closed.otherwise otherwise _ h₄
    have h₂ := hd.closed.elseIfs elseIfs _ h₃
    have h₁ := hd.closed.block body _ h₂
    obtain ⟨_, hcond⟩ := Expr.resolve_sound hd cond s h₁
    obtain ⟨rets₁, hbody, hr₁⟩ := Block.resolve_sound hd body _ h₂
    have hconds := checkConditions_eq_ok.mp hrule
    obtain ⟨rets₂, helse, hr₂⟩ := Stmt.resolveElseIfs_sound hd elseIfs _ h₃
      fun e he => hconds e (List.mem_cons_of_mem _ he)
    obtain ⟨rets₃, hother, hr₃⟩ := Stmt.resolveOtherwise_sound hd otherwise _ h₄
    rw [hd.discreet.env_elseIfs, hd.discreet.env_block, hd.context_expr] at hother
    rw [hd.discreet.env_block, hd.context_expr] at helse
    rw [hd.context_expr] at hbody
    rw [hd.returns_expr] at hr₁
    rw [Stmt.checkConditions, hrun, hd.discreet.env_otherwise, hd.discreet.env_elseIfs,
      hd.discreet.env_block, hd.context_expr]
    exact ⟨_, .branch (hcond.of_ty (hconds _ List.mem_cons_self)) hbody helse hother,
      (hr₁.append hr₂).append hr₃⟩
  | .ret values loc, s, h => by
    simp only [Stmt.resolve, bind_apply, pure_apply] at h ⊢
    obtain ⟨h₁, henv, hreturned⟩ := Toward.checkReturn h
    obtain ⟨tys, hvalues⟩ := Expr.resolveAll_sound hd values s h₁
    have hr := hreturned tys hvalues.types
    rw [hd.returns_exprs] at hr
    rw [henv, hd.context_exprs]
    exact ⟨[tys], .ret hvalues, hr⟩
  | .case whens otherwise loc, s, h => by
    simp only [Stmt.resolve, bind_apply, pure_apply] at h ⊢
    obtain ⟨h₂, hrule, hrun⟩ := Toward.check h
    have hconds := checkConditions_eq_ok.mp hrule
    obtain ⟨rets₁, hwhens, hr₁⟩ := Stmt.resolveWhens_sound hd .bool whens s
      (hd.closed.otherwise otherwise _ h₂) fun e he => ⟨_, hconds e he, BEq.rfl⟩
    obtain ⟨rets₂, hother, hr₂⟩ := Stmt.resolveOtherwise_sound hd otherwise _ h₂
    rw [hd.discreet.env_whens] at hother
    rw [Stmt.checkConditions, hrun, hd.discreet.env_otherwise, hd.discreet.env_whens]
    exact ⟨_, .case hwhens hother, hr₁.append hr₂⟩
  | .switch target whens otherwise loc, s, h => by
    simp only [Stmt.resolve, bind_apply, pure_apply] at h ⊢
    obtain ⟨h₃, hrule, hrun⟩ := Toward.check h
    have h₂ := hd.closed.otherwise otherwise _ h₃
    obtain ⟨ty, htarget⟩ := Expr.resolve_sound hd target s (hd.closed.whens whens _ h₂)
    rw [htarget.type, ok_bind] at hrule
    simp only [forM_eq_ok, Typing.whenValue_eq_ok] at hrule
    obtain ⟨rets₁, hwhens, hr₁⟩ := Stmt.resolveWhens_sound hd ty whens _ h₂ hrule
    obtain ⟨rets₂, hother, hr₂⟩ := Stmt.resolveOtherwise_sound hd otherwise _ h₃
    rw [hd.discreet.env_whens, hd.context_expr] at hother
    rw [hd.context_expr] at hwhens
    rw [hd.returns_expr] at hr₁
    rw [Stmt.checkSwitch, hrun, hd.discreet.env_otherwise, hd.discreet.env_whens, hd.context_expr]
    exact ⟨_, .switch htarget hwhens hother, hr₁.append hr₂⟩
  | .forIn vars range body loc, s, h => by
    simp only [Stmt.resolve, inScope_apply, bind_apply, pure_apply] at h ⊢
    have h₄ := Toward.leaveScope h
    have h₃ := hd.closed.block body _ h₄
    have h₂ := hd.closed.bindLoop _ _ _ h₃
    obtain ⟨h₁, parts, hstep, hrun⟩ := Toward.attempt h₂
    rw [hrun] at h₃ h₄ ⊢
    dsimp only [Option.getD_some] at h₃ h₄ ⊢
    obtain ⟨ty, hrange⟩ := Expr.resolve_sound hd range _ h₁
    obtain ⟨elem, hiter, hspread⟩ := bind_eq_ok.mp hstep
    obtain ⟨_, hty, hiterates⟩ := Typing.iterated_eq_ok.mp hiter
    have hparts := Typing.spread_eq_ok.mp hspread
    obtain ⟨_, hvars, hreturns⟩ := Toward.bindLoop vars parts hparts.length _ h₃
    obtain ⟨rets, hbody, hr⟩ := Block.resolve_sound hd body _ h₄
    have henv := hd.discreet.closedStmt.bindLoop vars parts
      (range.resolve d { s with env := s.env.push }).2
    rw [hd.context_expr] at henv hvars
    rw [hreturns, hd.returns_expr] at hr
    rw [hd.discreet.env_block, Env.pop_eq henv]
    exact ⟨rets, .forIn (hrange.of_ty hty) hiterates hparts hvars hbody, hr⟩
  | .whileDo cond body loc, s, h => by
    simp only [Stmt.resolve, bind_apply, pure_apply] at h ⊢
    obtain ⟨h₂, hrule, hrun⟩ := Toward.check h
    have hconds := checkConditions_eq_ok.mp hrule
    obtain ⟨_, hcond⟩ := Expr.resolve_sound hd cond s (hd.closed.block body _ h₂)
    obtain ⟨rets, hbody, hr⟩ := Block.resolve_sound hd body _ h₂
    rw [hd.context_expr] at hbody
    rw [hd.returns_expr] at hr
    rw [Stmt.checkConditions, hrun, hd.discreet.env_block, hd.context_expr]
    exact ⟨rets, .whileDo (hcond.of_ty (hconds _ List.mem_cons_self)) hbody, hr⟩
  | .trailingIf body kind cond loc, s, h => by
    simp only [Stmt.resolve, bind_apply, pure_apply] at h ⊢
    obtain ⟨h₂, hrule, hrun⟩ := Toward.check h
    have hconds := checkConditions_eq_ok.mp hrule
    obtain ⟨rets, hbody, hr⟩ := Stmt.resolve_sound hd body s (hd.closed.expr cond _ h₂)
    obtain ⟨_, hcond⟩ := Expr.resolve_sound hd cond _ h₂
    rw [Stmt.checkConditions, hrun, hd.context_expr, hd.returns_expr]
    exact ⟨rets, .trailingIf hbody (hcond.of_ty (hconds _ List.mem_cons_self)), hr⟩
  | .letIn inits body loc, s, h => by
    simp only [Stmt.resolve, inScope_apply, bind_apply, pure_apply] at h ⊢
    have h₂ := Toward.leaveScope h
    obtain ⟨hinits, hreturns⟩ := Declaration.resolveAll_sound hd inits _ (hd.closed.stmt body _ h₂)
    obtain ⟨rets, hbody, hr⟩ := Stmt.resolve_sound hd body _ h₂
    have henv : (body.resolve d (Declaration.resolveAll d inits
        { s with env := s.env.push }).2).2.env.enclosing = s.env.frames :=
      (hd.discreet.closedStmt.stmt body _).trans (hd.discreet.closedStmt.declarations inits _)
    rw [hreturns] at hr
    rw [Env.pop_eq henv]
    exact ⟨rets, .letIn hinits hbody, hr⟩
  | .expr e, s, h => by
    simp only [Stmt.resolve, bind_apply, pure_apply] at h ⊢
    obtain ⟨_, he⟩ := Expr.resolve_sound hd e s h
    rw [hd.context_expr, hd.returns_expr]
    exact ⟨[], .expr he, .nil⟩
  | .block b, s, h => by
    simp only [Stmt.resolve, bind_apply, pure_apply] at h ⊢
    obtain ⟨rets, hb, hr⟩ := Block.resolve_sound hd b s h
    rw [hd.discreet.env_block]
    exact ⟨rets, .block hb, hr⟩

theorem Block.resolve_sound (hd : d.Sound σ) :
    ∀ (b : Block) (s : Progress), Toward σ (b.resolve d s).2 →
    ∃ rets, b.Resolves σ s.env.context (b.resolve d s).1 rets ∧
      Returned s.returns rets (b.resolve d s).2.returns
  | .mk stmts loc, s, h => by
    simp only [Block.resolve, inScope_apply, bind_apply, pure_apply] at h ⊢
    obtain ⟨rets, hstmts, hr⟩ := Stmt.resolveAll_sound hd stmts _ (Toward.leaveScope h)
    exact ⟨rets, .mk hstmts, hr⟩

theorem Stmt.resolveAll_sound (hd : d.Sound σ) : ∀ (ss : List Stmt) (s : Progress),
    Toward σ (Stmt.resolveAll d ss s).2 →
      ∃ rets, Stmt.ResolvesAll σ s.env.context ss (Stmt.resolveAll d ss s).1 rets ∧
        Returned s.returns rets (Stmt.resolveAll d ss s).2.returns
  | [], s, _ => ⟨[], .nil, .nil⟩
  | st :: ss, s, h => by
    obtain ⟨rets₁, hst, hr₁⟩ := Stmt.resolve_sound hd st s (hd.closed.stmts ss _ h)
    obtain ⟨rets₂, hss, hr₂⟩ := Stmt.resolveAll_sound hd ss _ h
    exact ⟨rets₁ ++ rets₂, .cons hst hss, hr₁.append hr₂⟩

theorem Stmt.resolveElseIfs_sound (hd : d.Sound σ) : ∀ (clauses : List (Clause Expr Block)) (s : Progress),
    Toward σ (Stmt.resolveElseIfs d clauses s).2 →
    (∀ e ∈ (Stmt.resolveElseIfs d clauses s).1.map Clause.test, e.ty = .resolved .bool) →
      ∃ rets, Stmt.ResolvesElseIfs σ s.env.context clauses (Stmt.resolveElseIfs d clauses s).1 rets ∧
        Returned s.returns rets (Stmt.resolveElseIfs d clauses s).2.returns
  | [], s, _, _ => ⟨[], .nil, .nil⟩
  | ⟨cond, body⟩ :: rest, s, h, hbool => by
    have h₂ := hd.closed.elseIfs rest _ h
    obtain ⟨_, hcond⟩ := Expr.resolve_sound hd cond s (hd.closed.block body _ h₂)
    obtain ⟨rets₁, hbody, hr₁⟩ := Block.resolve_sound hd body _ h₂
    obtain ⟨hc, hrest⟩ := List.forall_mem_cons.mp hbool
    obtain ⟨rets₂, hclauses, hr₂⟩ := Stmt.resolveElseIfs_sound hd rest _ h hrest
    rw [hd.discreet.env_block, hd.context_expr] at hclauses
    rw [hd.context_expr] at hbody
    rw [hd.returns_expr] at hr₁
    exact ⟨rets₁ ++ rets₂, .cons (hcond.of_ty hc) hbody hclauses, hr₁.append hr₂⟩

theorem Stmt.resolveWhens_sound (hd : d.Sound σ) (ty : Ty) :
    ∀ (clauses : List (Clause (List Expr) Block)) (s : Progress),
    Toward σ (Stmt.resolveWhens d clauses s).2 →
    (∀ e ∈ (Stmt.resolveWhens d clauses s).1.flatMap Clause.test,
      ∃ found, e.ty = .resolved found ∧ found == ty) →
      ∃ rets,
        Stmt.ResolvesWhens σ s.env.context ty clauses (Stmt.resolveWhens d clauses s).1 rets ∧
        Returned s.returns rets (Stmt.resolveWhens d clauses s).2.returns
  | [], s, _, _ => ⟨[], .nil, .nil⟩
  | ⟨conds, body⟩ :: rest, s, h, htests => by
    have h₂ := hd.closed.whens rest _ h
    obtain ⟨tys, hconds⟩ := Expr.resolveAll_sound hd conds s (hd.closed.block body _ h₂)
    obtain ⟨rets₁, hbody, hr₁⟩ := Block.resolve_sound hd body _ h₂
    obtain ⟨hown, hothers⟩ := List.forall_mem_append.mp htests
    obtain ⟨rets₂, hclauses, hr₂⟩ := Stmt.resolveWhens_sound hd ty rest _ h hothers
    rw [hd.discreet.env_block, hd.context_exprs] at hclauses
    rw [hd.context_exprs] at hbody
    rw [hd.returns_exprs] at hr₁
    exact ⟨rets₁ ++ rets₂, .cons hconds (hconds.forall_type.mp hown) hbody hclauses, hr₁.append hr₂⟩

theorem Stmt.resolveOtherwise_sound (hd : d.Sound σ) : ∀ (body : Option Block) (s : Progress),
    Toward σ (Stmt.resolveOtherwise d body s).2 →
      ∃ rets, Stmt.ResolvesOtherwise σ s.env.context body (Stmt.resolveOtherwise d body s).1 rets ∧
        Returned s.returns rets (Stmt.resolveOtherwise d body s).2.returns
  | none, s, _ => ⟨[], .none, .nil⟩
  | some body, s, h => by
    obtain ⟨rets, hbody, hr⟩ := Block.resolve_sound hd body s h
    exact ⟨rets, .some hbody, hr⟩

end

end Semant
