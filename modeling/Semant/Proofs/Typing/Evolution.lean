import Semant.Proofs.Outcome
import Semant.Proofs.Scope.Overload
import Semant.Proofs.Typing.Names
import Semant.Proofs.Typing.Traversal

/-! What type resolution does to its state, on success and on failure alike: which relations hold
between the state before and the state after, and that local names are left as they were found. -/

namespace Semant

open Resolve

namespace Resolve

variable {α : Type}

theorem attempt_of_failed {step : Progress → Except Error α} {s : Progress} (h : s.error ≠ none) :
    attempt step s = (none, s) := by
  have hf : s.failed = true := Option.isSome_iff_ne_none.mpr h
  simp only [attempt, hf, if_true]

theorem attempt_of_ok {step : Progress → Except Error α} {s : Progress} {a : α}
    (h : s.error = none) (ha : step s = .ok a) : attempt step s = (some a, s) := by
  simp [attempt, Progress.failed, h, ha]

theorem attempt_of_error {step : Progress → Except Error α} {s : Progress} {error : Error}
    (h : s.error = none) (he : step s = .error error) :
    attempt step s = (none, { s with error := some error }) := by
  simp [attempt, Progress.failed, h, he]

/-- An attempt changes the state only when it is the first to be refused. -/
theorem attempt_cases (step : Progress → Except Error α) (s : Progress) :
    (∃ a, s.error = none ∧ step s = .ok a ∧ attempt step s = (some a, s)) ∨
    (s.error ≠ none ∧ attempt step s = (none, s)) ∨
    (∃ error, s.error = none ∧ step s = .error error ∧
      attempt step s = (none, { s with error := some error })) := by
  by_cases h : s.error = none
  · cases hs : step s with
    | ok a => exact .inl ⟨a, h, rfl, attempt_of_ok h hs⟩
    | error error => exact .inr (.inr ⟨error, h, rfl, attempt_of_error h hs⟩)
  · exact .inr (.inl ⟨h, attempt_of_failed h⟩)

theorem settle_apply (slot : Slot α) (rule : Progress → Except Error α) (s : Progress) :
    settle slot rule s =
      ((attempt (fun s => rule s >>= slot.fill) s).1.getD slot,
        (attempt (fun s => rule s >>= slot.fill) s).2) := rfl

theorem settle_of_failed {slot : Slot α} {rule : Progress → Except Error α} {s : Progress}
    (h : s.error ≠ none) : settle slot rule s = (slot, s) := by
  rw [settle_apply, attempt_of_failed h]
  rfl

theorem settle_of_ok {rule : Progress → Except Error α} {s : Progress} {a : α}
    (h : s.error = none) (ha : rule s = .ok a) :
    settle .unresolved rule s = (.resolved a, s) := by
  have hstep : (fun s => rule s >>= Slot.fill .unresolved) s = .ok (.resolved a) := by
    dsimp only
    rw [ha]
    rfl
  rw [settle_apply, attempt_of_ok h hstep]
  rfl

end Resolve

/-- The demand that a call of a symbol makes. -/
def demanded (d : Demand) (f : FuncSymbol) (s : Progress) : Progress :=
  if f.isInferred then (d f.definition s).2 else s

/-- The first step of a call: the best overload, and its symbol in the callee slot. -/
def Scope.bound (σ : Scope) (name : String) (args : Except Error (List Ty))
    (callee : Slot SymbolId) (loc : Location) : Except Error (Overload × Slot SymbolId) := do
  let args ← args
  match σ.bestOverload? name args with
  | none => reject loc (σ.noOverload name args)
  | some overload => return (overload, ← callee.fill overload.id)

theorem Scope.bound_eq_ok {σ : Scope} {name : String} {args : Except Error (List Ty)}
    {callee : Slot SymbolId} {loc : Location} {r : Overload × Slot SymbolId} :
    σ.bound name args callee loc = .ok r ↔ ∃ tys o, args = .ok tys ∧
      σ.bestOverload? name tys = some o ∧ callee = .unresolved ∧ r = (o, .resolved o.id) := by
  unfold bound
  cases args with
  | error => simp
  | ok tys =>
    simp only [Outcome.ok_bind, Except.ok.injEq, exists_and_left, exists_eq_left']
    cases σ.bestOverload? name tys with
    | none => simp [reject]
    | some o => cases callee <;> simp [Slot.fill, eq_comm]

/-- A call either finds an overload, and then its type is settled after the demand, or only its
first step has an effect. -/
theorem bindCall_cases (d : Demand) (name : String) (args : Except Error (List Ty))
    (callee : Slot SymbolId) (ty : Slot Ty) (loc : Location) (s : Progress) :
    (∃ tys o r, s.error = none ∧ args = .ok tys ∧ s.scope.bestOverload? name tys = some o ∧
      callee = .unresolved ∧
      r = settle ty (fun s => Typing.result o.symbol (s.scope.returnType? o.id) loc)
        (demanded d o.symbol s) ∧
      bindCall d name args callee ty loc s = ((.resolved o.id, r.1), r.2)) ∨
    (s.error ≠ none ∧ bindCall d name args callee ty loc s = ((callee, ty), s)) ∨
    (∃ error, s.error = none ∧ s.scope.bound name args callee loc = .error error ∧
      bindCall d name args callee ty loc s = ((callee, ty), { s with error := some error })) := by
  have hstop : ∀ {t}, attempt (fun s => s.scope.bound name args callee loc) s = (none, t) →
      bindCall d name args callee ty loc s = ((callee, ty), t) := by
    intro t hrun
    change (attempt (fun s => s.scope.bound name args callee loc) >>= _) s = _
    rw [bind_apply, hrun]
    rfl
  rcases attempt_cases (fun s => s.scope.bound name args callee loc) s with
    ⟨a, hs, ha, hrun⟩ | ⟨hs, hrun⟩ | ⟨error, hs, he, hrun⟩
  · obtain ⟨tys, o, hargs, ho, hcallee, rfl⟩ := Scope.bound_eq_ok.mp ha
    refine .inl ⟨tys, o, _, hs, hargs, ho, hcallee, rfl, ?_⟩
    change (attempt (fun s => s.scope.bound name args callee loc) >>= _) s = _
    rw [bind_apply, hrun]
    simp only [demanded]
    cases o.symbol.isInferred <;> rfl
  · exact .inr (.inl ⟨hs, hstop hrun⟩)
  · exact .inr (.inr ⟨error, hs, he, hstop hrun⟩)

/-- A relation that every step of a body respects, as far as no demand is made. -/
structure Evolves (E : Progress → Progress → Prop) : Prop where
  refl : ∀ s, E s s
  trans : ∀ {s t u}, E s t → E t u → E s u
  fail : ∀ {s : Progress} (error : Error), s.error = none → E s { s with error := some error }
  env : ∀ (s : Progress) (env : Env), E s { s with env }
  returns : ∀ (s : Progress) (returns : Option Returns), E s { s with returns }

namespace Evolves

variable {E : Progress → Progress → Prop} {α : Type} {d : Demand}

theorem attempt (h : Evolves E) (step : Progress → Except Error α) (s : Progress) :
    E s (Resolve.attempt step s).2 := by
  rcases attempt_cases step s with ⟨_, _, _, hrun⟩ | ⟨_, hrun⟩ | ⟨error, hs, _, hrun⟩
  · rw [hrun]
    exact h.refl s
  · rw [hrun]
    exact h.refl s
  · rw [hrun]
    exact h.fail error hs

theorem settle (h : Evolves E) (slot : Slot α) (rule : Progress → Except Error α) (s : Progress) :
    E s (Resolve.settle slot rule s).2 :=
  h.attempt (fun s => rule s >>= slot.fill) s

theorem call (h : Evolves E)
    (hd : ∀ s f, s.error = none → f ∈ s.scope.functions → f.isInferred → E s (d f.definition s).2)
    (name : String) (args : Except Error (List Ty)) (callee : Slot SymbolId) (ty : Slot Ty)
    (loc : Location) (s : Progress) : E s (bindCall d name args callee ty loc s).2 := by
  rcases bindCall_cases d name args callee ty loc s with
    ⟨tys, o, r, hs, _, ho, _, rfl, hrun⟩ | ⟨_, hrun⟩ | ⟨error, hs, _, hrun⟩
  · rw [hrun]
    dsimp only
    refine h.trans ?_ (h.settle ty _ (demanded d o.symbol s))
    unfold demanded
    split
    · exact hd s _ hs (List.mem_of_getElem? (Scope.bestOverload?_mem ho).1) ‹_›
    · exact h.refl s
  · rw [hrun]
    exact h.refl s
  · rw [hrun]
    exact h.fail error hs

theorem closed (h : Evolves E)
    (hd : ∀ s f, s.error = none → f ∈ s.scope.functions → f.isInferred →
      E s (d f.definition s).2) : ClosedStmt d (fun _ x => ∀ s, E s (x s).2) where
  pure _ s := h.refl s
  bind hx hf s := h.trans (hx s) (hf _ _)
  get s := h.refl s
  attempt := h.attempt
  call := h.call hd
  define name binding s := h.env s (s.env.define name binding)
  inScope hx s := h.trans (h.trans (h.env s s.env.push) (hx _)) (h.env _ _)
  checkReturn values loc s := by
    refine h.trans (h.attempt (fun s => do
      Typing.returned s.returns (← Expr.types values) loc) s) ?_
    unfold Stmt.checkReturn
    rw [bind_apply]
    generalize Resolve.attempt _ s = r
    obtain ⟨_ | returns, t⟩ := r
    · exact h.refl t
    · exact h.returns t (some returns)

end Evolves

/-- What an analysis on demand must not touch. -/
def Demand.Discreet (d : Demand) : Prop :=
  ∀ id s, (d id s).2.env = s.env ∧ (d id s).2.returns = s.returns

namespace Demand.Discreet

variable {d : Demand} {α : Type}

theorem attempt (step : Progress → Except Error α) (s : Progress) :
    (Resolve.attempt step s).2.env = s.env ∧ (Resolve.attempt step s).2.returns = s.returns := by
  rcases attempt_cases step s with ⟨_, _, _, hrun⟩ | ⟨_, hrun⟩ | ⟨_, _, _, hrun⟩ <;>
    rw [hrun] <;> exact ⟨rfl, rfl⟩

theorem demanded (hd : d.Discreet) (f : FuncSymbol) (s : Progress) :
    (demanded d f s).env = s.env ∧ (Semant.demanded d f s).returns = s.returns := by
  unfold Semant.demanded
  split
  · exact hd f.definition s
  · exact ⟨rfl, rfl⟩

theorem call (hd : d.Discreet) (name : String) (args : Except Error (List Ty))
    (callee : Slot SymbolId) (ty : Slot Ty) (loc : Location) (s : Progress) :
    (bindCall d name args callee ty loc s).2.env = s.env ∧
      (bindCall d name args callee ty loc s).2.returns = s.returns := by
  rcases bindCall_cases d name args callee ty loc s with
    ⟨_, o, r, _, _, _, _, rfl, hrun⟩ | ⟨_, hrun⟩ | ⟨_, _, _, hrun⟩
  · rw [hrun]
    have hd' := hd.demanded o.symbol s
    have ha := attempt (fun s => Typing.result o.symbol (s.scope.returnType? o.id) loc >>= ty.fill)
      (Semant.demanded d o.symbol s)
    exact ⟨ha.1.trans hd'.1, ha.2.trans hd'.2⟩
  · rw [hrun]
    exact ⟨rfl, rfl⟩
  · rw [hrun]
    exact ⟨rfl, rfl⟩

theorem closed (hd : d.Discreet) :
    Closed d (fun _ x => ∀ s, (x s).2.env = s.env ∧ (x s).2.returns = s.returns) where
  pure _ _ := ⟨rfl, rfl⟩
  bind hx hf s := ⟨(hf _ _).1.trans (hx s).1, (hf _ _).2.trans (hx s).2⟩
  get _ := ⟨rfl, rfl⟩
  attempt := attempt
  call := hd.call

/-- A statement may add names to the innermost scope only. -/
theorem closedStmt (hd : d.Discreet) :
    ClosedStmt d (fun _ x => ∀ s, (x s).2.env.enclosing = s.env.enclosing) where
  pure _ _ := rfl
  bind hx hf s := (hf _ _).trans (hx s)
  get _ := rfl
  attempt step s := by rw [(attempt step s).1]
  call name args callee ty loc s := by rw [(hd.call name args callee ty loc s).1]
  define _ _ _ := rfl
  inScope hx s := congrArg Env.enclosing (Env.pop_eq (hx { s with env := s.env.push }))
  checkReturn values loc s := by
    unfold Stmt.checkReturn
    rw [bind_apply]
    have ha := attempt (fun s => do Typing.returned s.returns (← Expr.types values) loc) s
    generalize Resolve.attempt _ s = r at ha
    obtain ⟨_ | returns, t⟩ := r <;> exact congrArg Env.enclosing ha.1

theorem env_inScope {x : Resolve α} (hx : ∀ s, (x s).2.env.enclosing = s.env.enclosing)
    (s : Progress) : (Resolve.inScope x s).2.env = s.env :=
  Env.pop_eq (hx { s with env := s.env.push })

theorem env_block (hd : d.Discreet) (b : Block) (s : Progress) : (b.resolve d s).2.env = s.env := by
  obtain ⟨stmts, loc⟩ := b
  refine env_inScope (fun s => ?_) s
  exact hd.closedStmt.stmts stmts s

theorem env_elseIfs (hd : d.Discreet) (clauses : List (Clause Expr Block)) (s : Progress) :
    (Stmt.resolveElseIfs d clauses s).2.env = s.env := by
  induction clauses generalizing s with
  | nil => rfl
  | cons clause rest ih =>
    have hcond := (hd.closed.expr clause.test s).1
    have hbody := hd.env_block clause.body (clause.test.resolve d s).2
    exact (ih _).trans (hbody.trans hcond)

theorem env_whens (hd : d.Discreet) (clauses : List (Clause (List Expr) Block)) (s : Progress) :
    (Stmt.resolveWhens d clauses s).2.env = s.env := by
  induction clauses generalizing s with
  | nil => rfl
  | cons clause rest ih =>
    have hconds := (hd.closed.exprs clause.test s).1
    have hbody := hd.env_block clause.body (Expr.resolveAll d clause.test s).2
    exact (ih _).trans (hbody.trans hconds)

theorem env_otherwise (hd : d.Discreet) (body : Option Block) (s : Progress) :
    (Stmt.resolveOtherwise d body s).2.env = s.env := by
  cases body with
  | none => rfl
  | some body => exact hd.env_block body s

end Demand.Discreet

end Semant
