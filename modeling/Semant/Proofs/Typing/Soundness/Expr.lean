import Semant.Proofs.Scope.Growth
import Semant.Proofs.Typing.Evolution
import Semant.Proofs.Typing.Returns

/-! Type resolution of expressions is sound: when it meets no error, the tree that it leaves is one
that the typing judgment derives, in every scope that the scope at the end can still grow to. -/

namespace Semant

open Resolve Outcome

/-- There is no error yet, and the scope may become `σ`. -/
structure Toward (σ : Scope) (s : Progress) : Prop where
  ok : s.error = none
  grows : s.scope.Grows σ

structure Demand.Sound (σ : Scope) (d : Demand) : Prop where
  discreet : d.Discreet
  back : ∀ id s, Toward σ (d id s).2 → Toward σ s

namespace Toward

variable {σ : Scope} {α : Type}

theorem evolves : Evolves fun s t => Toward σ t → Toward σ s where
  refl _ := id
  trans h h' := h ∘ h'
  fail _ _ h := by cases h.ok
  env _ _ h := ⟨h.ok, h.grows⟩
  returns _ _ h := ⟨h.ok, h.grows⟩

theorem attempt {step : Progress → Except Error α} {s : Progress}
    (h : Toward σ (Resolve.attempt step s).2) :
    Toward σ s ∧ ∃ a, step s = .ok a ∧ Resolve.attempt step s = (some a, s) := by
  rcases attempt_cases step s with ⟨a, _, ha, hrun⟩ | ⟨hs, hrun⟩ | ⟨_, _, _, hrun⟩ <;>
    rw [hrun] at h
  · exact ⟨h, a, ha, hrun⟩
  · exact (hs h.ok).elim
  · cases h.ok

theorem check {rule : Progress → Except Error Unit} {s : Progress}
    (h : Toward σ (Resolve.check rule s).2) :
    Toward σ s ∧ rule s = .ok () ∧ Resolve.check rule s = ((), s) := by
  change Toward σ (Resolve.attempt rule s).2 at h
  obtain ⟨hs, _, ha, hrun⟩ := attempt h
  exact ⟨hs, ha, by simp only [Resolve.check, bind_apply, hrun]; rfl⟩

theorem resolve_written {s : Progress} (h : Toward σ s) {written : TypeExpr} {ty : Ty}
    (hw : written.resolve s.scope = .ok ty) : written.resolve σ = .ok ty := by
  rw [TypeExpr.resolve_congr h.grows.lookupClass?, hw]

theorem settle {slot : Slot α} {rule : Progress → Except Error α} {s : Progress}
    (h : Toward σ (Resolve.settle slot rule s).2) :
    Toward σ s ∧ slot = .unresolved ∧
      ∃ a, rule s = .ok a ∧ Resolve.settle slot rule s = (.resolved a, s) := by
  rw [settle_apply] at h
  obtain ⟨hs, filled, hf, hrun⟩ := attempt h
  obtain ⟨a, ha, hf⟩ := bind_eq_ok.mp hf
  cases slot with
  | resolved => cases hf
  | unresolved =>
    cases hf
    exact ⟨hs, rfl, a, ha, by rw [settle_apply, hrun]; rfl⟩

end Toward

theorem Expr.Resolves.ty {σ : Scope} {Γ : Context} {e e' : Expr} {ty : Ty}
    (h : e.Resolves σ Γ e' ty) : e'.ty = .resolved ty := by
  cases h <;> rfl

theorem Expr.Resolves.type {σ : Scope} {Γ : Context} {e e' : Expr} {ty : Ty}
    (h : e.Resolves σ Γ e' ty) : e'.type = .ok ty :=
  Expr.type_eq_ok.mpr h.ty

theorem Expr.ResolvesAll.types {σ : Scope} {Γ : Context} {es es' : List Expr} {tys : List Ty}
    (h : Expr.ResolvesAll σ Γ es es' tys) : Expr.types es' = .ok tys := by
  induction es generalizing es' tys with
  | nil => cases h; rfl
  | cons e es ih =>
    cases h with
    | cons he hes =>
      have ih := ih hes
      simp only [Expr.types, List.mapM_cons, he.type, ok_bind] at ih ⊢
      rw [ih]
      rfl

theorem Expr.ResolvesAll.map_ty {σ : Scope} {Γ : Context} {es es' : List Expr} {tys : List Ty}
    (h : Expr.ResolvesAll σ Γ es es' tys) : es'.map Expr.ty = tys.map .resolved := by
  induction es generalizing es' tys with
  | nil =>
    cases h
    rfl
  | cons e es ih =>
    cases h with
    | cons he hes => rw [List.map_cons, List.map_cons, he.ty, ih hes]

theorem Expr.ResolvesEntries.types {σ : Scope} {Γ : Context} {es es' : List (Expr × Expr)}
    {tys : List (Ty × Ty)} (h : Expr.ResolvesEntries σ Γ es es' tys) :
    Expr.entryTypes es' = .ok tys := by
  induction es generalizing es' tys with
  | nil => cases h; rfl
  | cons e es ih =>
    cases h with
    | cons hk hv hes =>
      have ih := ih hes
      simp only [Expr.entryTypes, List.mapM_cons, hk.type, hv.type, ok_bind, pure_eq] at ih ⊢
      rw [ih]
      rfl

/-- The demand of a call and the type of its result agree with the scope at the end. -/
theorem bindCall_sound {σ : Scope} {d : Demand} (hd : d.Sound σ) {name : String}
    {args : Except Error (List Ty)} {callee : Slot SymbolId} {ty : Slot Ty} {loc : Location}
    {s : Progress} (h : Toward σ (bindCall d name args callee ty loc s).2) :
    Toward σ s ∧ callee = .unresolved ∧ ty = .unresolved ∧
      ∃ tys id result, args = .ok tys ∧ σ.resolve? name tys = some id ∧ σ.CallType id result ∧
        (bindCall d name args callee ty loc s).1 = (.resolved id, .resolved result) := by
  rcases bindCall_cases d name args callee ty loc s with
    ⟨tys, o, r, _, hargs, ho, hcallee, rfl, hrun⟩ | ⟨hs, hrun⟩ | ⟨_, _, _, hrun⟩ <;> rw [hrun] at h
  · dsimp only at h
    obtain ⟨hs₁, hty, result, hresult, hset⟩ := h.settle
    have hs : Toward σ s := by
      unfold demanded at hs₁
      split at hs₁
      · exact hd.back _ s hs₁
      · exact hs₁
    have hf := (Scope.bestOverload?_mem ho).1
    obtain ⟨g, hg, hgrows⟩ := hs.grows.function hf
    refine ⟨hs, hcallee, hty, tys, o.id, result, hargs, ?_, ?_, ?_⟩
    · rw [hs.grows.resolve?_eq]
      exact Scope.resolve?_eq_some.mpr ⟨o.symbol, ho⟩
    · rcases Typing.result_eq_ok.mp hresult with ⟨hk, rfl⟩ | ⟨hk, hr⟩
      · exact .proc hg (hgrows.kind.trans hk)
      · obtain ⟨f₁, hf₁, hret⟩ := Scope.returnType?_eq_some.mp hr
        obtain ⟨g₁, hg₁, hgrows₁⟩ := hs₁.grows.function hf₁
        rw [hg] at hg₁
        cases hg₁
        exact .func hg (hgrows.kind.trans hk) (hgrows₁.ret_resolved hret)
    · rw [hrun, hset]
  · exact (hs h.ok).elim
  · cases h.ok

theorem Expr.adopts_iff {e : Expr} {ty : Ty} : e.adopts ty = true ↔
    (∃ slot loc elem, e = .array [] slot loc ∧ ty = .array elem) ∨
      ∃ slot loc key value, e = .dict [] slot loc ∧ ty = .dict key value := by
  constructor
  · intro h
    unfold Expr.adopts at h
    split at h
    · exact .inl ⟨_, _, _, rfl, rfl⟩
    · exact .inr ⟨_, _, _, _, rfl, rfl⟩
    · cases h
  · rintro (⟨_, _, _, rfl, rfl⟩ | ⟨_, _, _, _, rfl, rfl⟩) <;> rfl

/-- An empty literal has no derivation of its own, so neither tree of a derivation adopts a type. -/
theorem Expr.Resolves.not_adopts {σ : Scope} {Γ : Context} {e e' : Expr} {ty : Ty}
    (h : e.Resolves σ Γ e' ty) (other : Ty) :
    ¬ e.adopts other = true ∧ ¬ e'.adopts other = true := by
  cases h with
  | array helems =>
    cases helems
    exact ⟨Bool.false_ne_true, Bool.false_ne_true⟩
  | dict hentries =>
    cases hentries
    exact ⟨Bool.false_ne_true, Bool.false_ne_true⟩
  | _ => exact ⟨Bool.false_ne_true, Bool.false_ne_true⟩

/-- A name with a derivation is bound, so it is not the name of a function. -/
theorem Expr.Resolves.functionName?_eq_none {σ : Scope} {env : Env} {e e' : Expr} {ty : Ty}
    (h : e.Resolves σ env.context e' ty) :
    e.functionName? env = none ∧ e'.functionName? env = none := by
  cases h with
  | var hb => simp [Expr.functionName?, Env.lookup?_eq, hb]
  | _ => exact ⟨rfl, rfl⟩

section

variable {σ : Scope} {d : Demand} (hd : d.Sound σ)

include hd

theorem Demand.Sound.closed : ClosedStmt d fun _ x => ∀ s, Toward σ (x s).2 → Toward σ s :=
  Toward.evolves.closed fun s f _ _ _ => hd.back f.definition s

theorem Demand.Sound.context_expr (e : Expr) (s : Progress) :
    (e.resolve d s).2.env = s.env :=
  (hd.discreet.closed.expr e s).1

theorem Demand.Sound.context_exprs (es : List Expr) (s : Progress) :
    (Expr.resolveAll d es s).2.env = s.env :=
  (hd.discreet.closed.exprs es s).1

mutual

theorem Expr.resolve_sound : ∀ (e : Expr) (s : Progress), Toward σ (e.resolve d s).2 →
    ∃ ty, e.Resolves σ s.env.context (e.resolve d s).1 ty
  | .literal value ty loc, s, h => by
    simp only [Expr.resolve, bind_apply, pure_apply] at h ⊢
    obtain ⟨hs, rfl, result, hrule, hrun⟩ := Toward.settle h
    cases hrule
    rw [hrun]
    exact ⟨_, .literal⟩
  | .array elems ty loc, s, h => by
    simp only [Expr.resolve, bind_apply, pure_apply] at h ⊢
    obtain ⟨hs, rfl, result, hrule, hrun⟩ := Toward.settle h
    obtain ⟨tys, helems⟩ := Expr.resolveAll_sound elems s hs
    rw [helems.types] at hrule
    obtain ⟨first, rest, rfl, hall, rfl⟩ := Typing.array_eq_ok.mp hrule
    rw [hrun]
    exact ⟨_, .array helems hall⟩
  | .tuple elems ty loc, s, h => by
    simp only [Expr.resolve, bind_apply, pure_apply] at h ⊢
    obtain ⟨hs, rfl, result, hrule, hrun⟩ := Toward.settle h
    obtain ⟨tys, helems⟩ := Expr.resolveAll_sound elems s hs
    rw [helems.types] at hrule
    cases hrule
    rw [hrun]
    exact ⟨_, .tuple helems⟩
  | .dict entries ty loc, s, h => by
    simp only [Expr.resolve, bind_apply, pure_apply] at h ⊢
    obtain ⟨hs, rfl, result, hrule, hrun⟩ := Toward.settle h
    obtain ⟨tys, hentries⟩ := Expr.resolveEntries_sound entries s hs
    rw [hentries.types] at hrule
    obtain ⟨key, value, rest, rfl, hall, rfl⟩ := Typing.dict_eq_ok.mp hrule
    rw [hrun]
    exact ⟨_, .dict hentries hall⟩
  | .var name ty loc, s, h => by
    simp only [Expr.resolve, bind_apply, pure_apply] at h ⊢
    obtain ⟨hs, rfl, result, hrule, hrun⟩ := Toward.settle h
    rw [Env.lookup?_eq] at hrule
    cases hb : s.env.context.lookup name with
    | none =>
      rw [hb] at hrule
      cases hrule
    | some binding =>
      rw [hb] at hrule
      cases hrule
      rw [hrun]
      exact ⟨_, .var hb⟩
  | .call child args callee ty loc, s, h => by
    simp only [Expr.resolve, bind_apply, get_apply] at h ⊢
    cases hf : child.functionName? s.env with
    | some name =>
      obtain ⟨slot, nameLoc, rfl, hfree⟩ := Expr.functionName?_eq_some.mp hf
      simp only [hf, bind_apply, pure_apply] at h ⊢
      obtain ⟨hs, rfl, rfl, tys, id, result, htys, hid, hcall, hrun⟩ := bindCall_sound hd h
      obtain ⟨tys', hargs⟩ := Expr.resolveAll_sound args s hs
      rw [hargs.types] at htys
      cases htys
      rw [hrun]
      exact ⟨_, .named hfree hargs hid hcall⟩
    | none =>
      simp only [hf, bind_apply, pure_apply] at h ⊢
      obtain ⟨hs, rfl, result, hrule, hrun⟩ := Toward.settle h
      obtain ⟨f, hchild⟩ := Expr.resolve_sound child s (hd.closed.exprs args _ hs)
      obtain ⟨tys, hargs⟩ := Expr.resolveAll_sound args _ hs
      rw [hchild.type, hargs.types] at hrule
      rw [hd.context_expr] at hargs
      rw [hrun]
      exact ⟨_, .applied hchild hargs (Typing.call_eq_ok.mp hrule)⟩
  | .construct written args ty loc, s, h => by
    simp only [Expr.resolve, bind_apply, pure_apply] at h ⊢
    obtain ⟨hs, rfl, result, hrule, hrun⟩ := Toward.settle h
    obtain ⟨tys, hargs⟩ := Expr.resolveAll_sound args s hs
    rw [hrun]
    exact ⟨_, .construct hargs (hs.resolve_written hrule)⟩
  | .index child position ty loc, s, h => by
    simp only [Expr.resolve, bind_apply, pure_apply] at h ⊢
    obtain ⟨hs, rfl, result, hrule, hrun⟩ := Toward.settle h
    obtain ⟨held, hchild⟩ := Expr.resolve_sound child s (hd.closed.expr position _ hs)
    obtain ⟨at_, hposition⟩ := Expr.resolve_sound position _ hs
    rw [hchild.type, hposition.type] at hrule
    rw [hd.context_expr] at hposition
    rw [hrun]
    exact ⟨_, .index hchild hposition (Typing.index_eq_ok.mp hrule)⟩
  | .member child name callee ty loc, s, h => by
    simp only [Expr.resolve, bind_apply, pure_apply] at h ⊢
    obtain ⟨hs, rfl, rfl, tys, id, result, htys, hid, hcall, hrun⟩ := bindCall_sound hd h
    obtain ⟨receiver, hchild⟩ := Expr.resolve_sound child s hs
    have hone : Expr.ResolvesAll σ s.env.context [child] [(child.resolve d s).1] [receiver] :=
      .cons hchild .nil
    rw [hone.types] at htys
    cases htys
    rw [hrun]
    exact ⟨_, .member hchild hid hcall⟩
  | .unary op operand ty loc, s, h => by
    simp only [Expr.resolve, bind_apply, pure_apply] at h ⊢
    obtain ⟨hs, rfl, result, hrule, hrun⟩ := Toward.settle h
    obtain ⟨from_, hoperand⟩ := Expr.resolve_sound operand s hs
    obtain ⟨ty, hty, htakes⟩ := Typing.unary_eq_ok.mp hrule
    rw [hoperand.ty] at hty
    cases hty
    rw [hrun]
    exact ⟨_, .unary hoperand htakes⟩
  | .cast child written ty loc, s, h => by
    simp only [Expr.resolve, bind_apply, pure_apply] at h ⊢
    obtain ⟨hs, rfl, result, hrule, hrun⟩ := Toward.settle h
    obtain ⟨from_, hchild⟩ := Expr.resolve_sound child s hs
    rw [hrun]
    exact ⟨_, .cast hchild (hs.resolve_written hrule)⟩
  | .binary lhs op rhs ty loc, s, h => by
    simp only [Expr.resolve, bind_apply, pure_apply] at h ⊢
    obtain ⟨hs, rfl, result, hrule, hrun⟩ := Toward.settle h
    obtain ⟨right, hrhs⟩ := Expr.resolve_sound rhs s (hd.closed.expr lhs _ hs)
    obtain ⟨left, hlhs⟩ := Expr.resolve_sound lhs _ hs
    rw [hlhs.type, hrhs.type] at hrule
    rw [hd.context_expr] at hlhs
    rw [hrun]
    exact ⟨_, .binary hlhs hrhs (Typing.binary_eq_ok.mp hrule)⟩
  | .choice cond yes no ty loc, s, h => by
    simp only [Expr.resolve, bind_apply, pure_apply] at h ⊢
    obtain ⟨hs, rfl, result, hrule, hrun⟩ := Toward.settle h
    have hy := hd.closed.expr no _ hs
    obtain ⟨_, hcond⟩ := Expr.resolve_sound cond s (hd.closed.expr yes _ hy)
    obtain ⟨_, hyes⟩ := Expr.resolve_sound yes _ hy
    obtain ⟨_, hno⟩ := Expr.resolve_sound no _ hs
    obtain ⟨hc, hy, other, hn, heq⟩ := Typing.choice_eq_ok.mp hrule
    rw [hcond.ty] at hc
    rw [hyes.ty] at hy
    rw [hno.ty] at hn
    cases hc
    cases hy
    cases hn
    rw [hd.context_expr, hd.context_expr] at hno
    rw [hd.context_expr] at hyes
    rw [hrun]
    exact ⟨_, .choice hcond hyes hno heq⟩
  | .typed child written ty loc, s, h => by
    simp only [Expr.resolve, bind_apply] at h ⊢
    rcases attempt_cases (fun s => written.resolve s.scope) s with
      ⟨ascribed, _, hw, hrun⟩ | ⟨hs, hrun⟩ | ⟨_, _, _, hrun⟩
    · rw [hrun] at h ⊢
      dsimp only at h ⊢
      by_cases ha : child.adopts ascribed = true
      · simp only [ha, if_true, bind_apply, pure_apply] at h ⊢
        obtain ⟨h₁, rfl, result, hrule, hrun₁⟩ := Toward.settle h
        rw [hrun₁]
        rcases Expr.adopts_iff.mp ha with
          ⟨slot, inner, elem, rfl, rfl⟩ | ⟨slot, inner, key, value, rfl, rfl⟩
        · simp only [Expr.adopt, bind_apply, pure_apply] at h₁ hrule ⊢
          obtain ⟨h₂, rfl, filled, hfilled, hrun₂⟩ := Toward.settle h₁
          cases hfilled
          rw [hrun₂] at hrule ⊢
          obtain ⟨_, rfl⟩ := Typing.ascription_eq_ok.mp hrule
          exact ⟨_, .typedArray (h₂.resolve_written hw)⟩
        · simp only [Expr.adopt, bind_apply, pure_apply] at h₁ hrule ⊢
          obtain ⟨h₂, rfl, filled, hfilled, hrun₂⟩ := Toward.settle h₁
          cases hfilled
          rw [hrun₂] at hrule ⊢
          obtain ⟨_, rfl⟩ := Typing.ascription_eq_ok.mp hrule
          exact ⟨_, .typedDict (h₂.resolve_written hw)⟩
      · rw [if_neg ha] at h ⊢
        simp only [bind_apply, pure_apply] at h ⊢
        obtain ⟨h₁, rfl, result, hrule, hrun₁⟩ := Toward.settle h
        obtain ⟨found, hchild⟩ := Expr.resolve_sound child s h₁
        have hs := hd.closed.expr child s h₁
        rw [hchild.type] at hrule
        obtain ⟨heq, rfl⟩ := Typing.ascription_eq_ok.mp hrule
        rw [hrun₁]
        exact ⟨_, .typed (hs.resolve_written hw) hchild heq⟩
    · rw [hrun] at h
      exact (hs h.ok).elim
    · rw [hrun] at h
      cases h.ok

theorem Expr.resolveAll_sound : ∀ (es : List Expr) (s : Progress),
    Toward σ (Expr.resolveAll d es s).2 →
      ∃ tys, Expr.ResolvesAll σ s.env.context es (Expr.resolveAll d es s).1 tys
  | [], _, _ => ⟨[], .nil⟩
  | e :: es, s, h => by
    obtain ⟨ty, he⟩ := Expr.resolve_sound e s (hd.closed.exprs es _ h)
    obtain ⟨tys, hes⟩ := Expr.resolveAll_sound es _ h
    rw [hd.context_expr] at hes
    exact ⟨ty :: tys, .cons he hes⟩

theorem Expr.resolveEntries_sound : ∀ (es : List (Expr × Expr)) (s : Progress),
    Toward σ (Expr.resolveEntries d es s).2 →
      ∃ tys, Expr.ResolvesEntries σ s.env.context es (Expr.resolveEntries d es s).1 tys
  | [], _, _ => ⟨[], .nil⟩
  | (key, value) :: es, s, h => by
    have hv := hd.closed.entries es _ h
    obtain ⟨k, hkey⟩ := Expr.resolve_sound key s (hd.closed.expr value _ hv)
    obtain ⟨v, hvalue⟩ := Expr.resolve_sound value _ hv
    obtain ⟨tys, hes⟩ := Expr.resolveEntries_sound es _ h
    rw [hd.context_expr, hd.context_expr] at hes
    rw [hd.context_expr] at hvalue
    exact ⟨(k, v) :: tys, .cons hkey hvalue hes⟩

end

end

end Semant
