import Semant.Proofs.Typing.Soundness.Stmt
import Semant.Typing.Function

/-! The analysis of one function: what it may do, what it leaves alone, and that a scope only grows
by it. -/

namespace Semant

open Resolve Outcome

theorem FuncDef.resolveBody_apply (d : Demand) (f : FuncDef) (s : Progress) :
    f.resolveBody d s =
      let body := f.body.resolve d s
      let ensure := Stmt.resolveOtherwise d f.ensure { body.2 with returns := none }
      (({ f with body := body.1, ensure := ensure.1 }, body.2.returns.bind Returns.expected),
        ensure.2) := rfl

/-- The analysis of a function that is entered with the local names `env`. -/
def FuncDef.analyzed (d : Demand) (f : FuncDef) (id : DefId) (env : Env) (s : Progress) :
    FuncDef × Progress :=
  let r := f.resolveBody d (s.enter id env f.returns)
  r.1.1.settleReturn id r.1.2 (r.2.leave id s)

theorem analyzeFunc_cases (budget : Nat) (id : DefId) (s : Progress) :
    ((s.error ≠ none ∨ id ∈ s.done ∨ s.funcs[id]? = none) ∧ analyzeFunc (budget + 1) id s = ((), s)) ∨
    (∃ f, s.error = none ∧ id ∉ s.done ∧ s.funcs[id]? = some f ∧ id ∈ s.active ∧
      analyzeFunc (budget + 1) id s =
        ((), { s with error := some ((Cause.recursive f.name).error f.loc) })) ∨
    (∃ f error, s.error = none ∧ id ∉ s.done ∧ s.funcs[id]? = some f ∧ id ∉ s.active ∧
      f.entry = .error error ∧
      analyzeFunc (budget + 1) id s = ((), { s with error := some error })) ∨
    (∃ f env r, s.error = none ∧ id ∉ s.done ∧ s.funcs[id]? = some f ∧ id ∉ s.active ∧
      f.entry = .ok env ∧ r = f.analyzed (analyzeFunc budget) id env s ∧
      analyzeFunc (budget + 1) id s = ((), r.2.store id r.1)) := by
  rw [analyzeFunc, bind_apply, get_apply]
  dsimp only
  by_cases hskip : (s.failed || s.done.contains id) = true
  · rw [if_pos hskip]
    refine .inl ⟨?_, rfl⟩
    rw [Bool.or_eq_true, List.contains_iff_mem] at hskip
    exact hskip.imp Option.isSome_iff_ne_none.mp Or.inl
  rw [if_neg hskip]
  rw [Bool.or_eq_true, List.contains_iff_mem, not_or] at hskip
  obtain ⟨hfailed, hdone⟩ := hskip
  have hs : s.error = none := by simpa [Progress.failed] using hfailed
  cases hf : s.funcs[id]? with
  | none => exact .inl ⟨.inr (.inr rfl), rfl⟩
  | some f =>
    dsimp only
    by_cases ha : s.active.contains id = true
    · rw [if_pos ha]
      refine .inr (.inl ⟨f, hs, hdone, rfl, List.contains_iff_mem.mp ha, ?_⟩)
      rw [check, bind_apply, attempt_of_error hs rfl]
      rfl
    rw [if_neg ha, bind_apply]
    rw [List.contains_iff_mem] at ha
    cases he : f.entry with
    | error error =>
      rw [attempt_of_error hs rfl]
      exact .inr (.inr (.inl ⟨f, error, hs, hdone, rfl, ha, he, rfl⟩))
    | ok env =>
      have hrun : attempt (fun _ => (.ok env : Except Error Env)) s = (some env, s) :=
        attempt_of_ok hs rfl
      rw [hrun]
      exact .inr (.inr (.inr ⟨f, env, _, hs, hdone, rfl, ha, he, rfl, rfl⟩))

theorem Scope.noteReturn_eq_ok {σ τ : Scope} {id : DefId} {name : String} {ty : Ty} :
    σ.noteReturn id name ty = .ok τ ↔ ∃ k f, σ.symbolOf? id = some k ∧
      σ.functions[k]? = some f ∧ f.ret = .unresolved ∧
      τ = { σ with functions := σ.functions.set k { f with ret := .resolved ty } } := by
  unfold noteReturn
  cases hk : σ.symbolOf? id with
  | none => simp
  | some k =>
    obtain ⟨f, hf, _⟩ := symbolOf?_eq_some hk
    simp [setReturnType_eq_ok hf, hf]

theorem Scope.noteReturn_grows {σ τ : Scope} {id : DefId} {name : String} {ty : Ty}
    (h : σ.noteReturn id name ty = .ok τ) : σ.Grows τ := by
  obtain ⟨k, f, _, hf, hret, rfl⟩ := Scope.noteReturn_eq_ok.mp h
  exact Scope.set_grows hf hret _

namespace FuncDef

theorem settleReturn_cases (f : FuncDef) (id : DefId) (found : Option Ty) (s : Progress) :
    (f.ret.isResolved = true ∧ f.settleReturn id found s = (f, s)) ∨
    (f.ret = .unresolved ∧ s.error ≠ none ∧ f.settleReturn id found s = (f, s)) ∨
    (∃ scope, f.ret = .unresolved ∧ s.error = none ∧
      s.scope.noteReturn id f.name (found.getD .unit) = .ok scope ∧
      f.settleReturn id found s =
        ({ f with ret := .resolved (found.getD .unit) }, { s with scope })) ∨
    (∃ error, f.ret = .unresolved ∧ s.error = none ∧
      s.scope.noteReturn id f.name (found.getD .unit) = .error error ∧
      f.settleReturn id found s =
        ({ f with ret := .resolved (found.getD .unit) }, { s with error := some error })) := by
  unfold settleReturn
  cases hret : f.ret with
  | resolved ty => exact .inl ⟨rfl, rfl⟩
  | unresolved =>
    have hopen : ¬ (Slot.unresolved : Slot Ty).isResolved = true := by decide
    rw [if_neg hopen, bind_apply]
    by_cases hs : s.error = none
    · have hset : settle .unresolved (fun _ => .ok (found.getD .unit)) s =
          (.resolved (found.getD .unit), s) := settle_of_ok hs rfl
      rw [hset, bind_apply]
      cases hn : s.scope.noteReturn id f.name (found.getD .unit) with
      | ok scope =>
        rw [attempt_of_ok hs hn]
        exact .inr (.inr (.inl ⟨scope, rfl, hs, rfl, rfl⟩))
      | error error =>
        rw [attempt_of_error hs hn]
        exact .inr (.inr (.inr ⟨error, rfl, hs, rfl, rfl⟩))
    · rw [settle_of_failed hs, bind_apply, attempt_of_failed hs, ← hret]
      exact .inr (.inl ⟨rfl, hs, rfl⟩)

/-- Only the scope and the error can change. -/
theorem settleReturn_frame (f : FuncDef) (id : DefId) (found : Option Ty) (s : Progress) :
    (f.settleReturn id found s).2 =
      { s with
        scope := (f.settleReturn id found s).2.scope
        error := (f.settleReturn id found s).2.error } := by
  rcases f.settleReturn_cases id found s with
    ⟨_, h⟩ | ⟨_, _, h⟩ | ⟨_, _, _, _, h⟩ | ⟨_, _, _, _, h⟩ <;> rw [h]

/-- Leaving a function changes only the scope and the error besides. -/
theorem analyzed_frame (d : Demand) (f : FuncDef) (id : DefId) (env : Env) (s : Progress) :
    (f.analyzed d id env s).2 =
      { (f.resolveBody d (s.enter id env f.returns)).2.leave id s with
        scope := (f.analyzed d id env s).2.scope
        error := (f.analyzed d id env s).2.error } :=
  settleReturn_frame ..

theorem settleReturn_grows (f : FuncDef) (id : DefId) (found : Option Ty) (s : Progress)
    (h : (f.settleReturn id found s).2.error = none) :
    s.error = none ∧ s.scope.Grows (f.settleReturn id found s).2.scope := by
  rcases f.settleReturn_cases id found s with
    ⟨_, hrun⟩ | ⟨_, _, hrun⟩ | ⟨_, _, hs, hnote, hrun⟩ | ⟨_, _, _, _, hrun⟩
  · rw [hrun] at h ⊢
    exact ⟨h, .refl _⟩
  · rw [hrun] at h ⊢
    exact ⟨h, .refl _⟩
  · rw [hrun]
    exact ⟨hs, Scope.noteReturn_grows hnote⟩
  · rw [hrun] at h
    cases h

end FuncDef

theorem Evolves.resolveBody {E : Progress → Progress → Prop} {d : Demand} (h : Evolves E)
    (hc : ClosedStmt d fun _ x => ∀ s, E s (x s).2) (f : FuncDef) (s : Progress) :
    E s (f.resolveBody d s).2 := by
  have hbody := hc.block f.body s
  have hreturns := h.returns (f.body.resolve d s).2 none
  exact h.trans (h.trans hbody hreturns) (hc.otherwise f.ensure _)

theorem analyzeFunc_discreet (budget : Nat) : (analyzeFunc budget).Discreet := by
  intro id s
  cases budget with
  | zero => exact ⟨rfl, rfl⟩
  | succ budget =>
    rcases analyzeFunc_cases budget id s with
      ⟨_, h⟩ | ⟨_, _, _, _, _, h⟩ | ⟨_, _, _, _, _, _, _, h⟩ | ⟨f, env, r, _, _, _, _, _, hr, h⟩
    · rw [h]
      exact ⟨rfl, rfl⟩
    · rw [h]
      exact ⟨rfl, rfl⟩
    · rw [h]
      exact ⟨rfl, rfl⟩
    · rw [h, hr, FuncDef.analyzed, Progress.store]
      dsimp only
      rw [FuncDef.settleReturn_frame]
      exact ⟨rfl, rfl⟩

/-- Return types are noted in the scope and nothing else happens to it. -/
theorem Scope.growing : Evolves fun s t : Progress =>
    t.error = none → s.error = none ∧ s.scope.Grows t.scope where
  refl _ h := ⟨h, .refl _⟩
  trans h h' hu := ⟨(h (h' hu).1).1, (h (h' hu).1).2.trans (h' hu).2⟩
  fail _ _ h := by cases h
  env _ _ h := ⟨h, .refl _⟩
  returns _ _ h := ⟨h, .refl _⟩

theorem analyzeFunc_grows (budget : Nat) (id : DefId) (s : Progress)
    (h : (analyzeFunc budget id s).2.error = none) :
    s.error = none ∧ s.scope.Grows (analyzeFunc budget id s).2.scope := by
  induction budget generalizing id s with
  | zero => exact ⟨h, .refl _⟩
  | succ budget ih =>
    rcases analyzeFunc_cases budget id s with
      ⟨_, hrun⟩ | ⟨_, _, _, _, _, hrun⟩ | ⟨_, _, _, _, _, _, _, hrun⟩ |
        ⟨f, env, r, hs, _, _, _, _, hr, hrun⟩
    · rw [hrun] at h ⊢
      exact ⟨h, .refl _⟩
    · rw [hrun] at h
      cases h
    · rw [hrun] at h
      cases h
    · rw [hrun] at h ⊢
      subst hr
      have hclosed := Scope.growing.closed fun s g _ _ _ => ih g.definition s
      obtain ⟨h₁, hsettled⟩ := FuncDef.settleReturn_grows _ _ _ _ h
      obtain ⟨_, hbody⟩ := Scope.growing.resolveBody hclosed f (s.enter id env f.returns) h₁
      exact ⟨hs, hbody.trans hsettled⟩

theorem analyzeFunc_sound (budget : Nat) (σ : Scope) : (analyzeFunc budget).Sound σ where
  discreet := analyzeFunc_discreet budget
  back id s h := by
    obtain ⟨hs, hgrows⟩ := analyzeFunc_grows budget id s h.ok
    exact ⟨hs, hgrows.trans h.grows⟩

/-- An active function does not become done while others are analyzed. -/
structure Progress.Keeps (s t : Progress) : Prop where
  length : t.funcs.length = s.funcs.length
  active : t.active = s.active
  done : s.done ⊆ t.done
  busy : ∀ id ∈ s.active, id ∈ t.done → id ∈ s.done

theorem Progress.keeping : Evolves Progress.Keeps where
  refl _ := ⟨rfl, rfl, fun _ h => h, fun _ _ h => h⟩
  trans h h' := by
    refine ⟨h'.length.trans h.length, h'.active.trans h.active, fun _ hid => h'.done (h.done hid),
      fun id ha hd => ?_⟩
    exact h.busy id ha (h'.busy id (h.active ▸ ha) hd)
  fail _ _ := ⟨rfl, rfl, fun _ h => h, fun _ _ h => h⟩
  env _ _ := ⟨rfl, rfl, fun _ h => h, fun _ _ h => h⟩
  returns _ _ := ⟨rfl, rfl, fun _ h => h, fun _ _ h => h⟩

theorem analyzeFunc_keeps (budget : Nat) (id : DefId) (s : Progress) :
    s.Keeps (analyzeFunc budget id s).2 := by
  induction budget generalizing id s with
  | zero => exact Progress.keeping.refl s
  | succ budget ih =>
    rcases analyzeFunc_cases budget id s with
      ⟨_, hrun⟩ | ⟨_, hs, _, _, _, hrun⟩ | ⟨_, _, hs, _, _, _, _, hrun⟩ |
        ⟨f, env, r, _, hid, _, hidle, _, hr, hrun⟩
    · rw [hrun]
      exact Progress.keeping.refl s
    · rw [hrun]
      exact Progress.keeping.fail _ hs
    · rw [hrun]
      exact Progress.keeping.fail _ hs
    · have hclosed := Progress.keeping.closed fun s g _ _ _ => ih g.definition s
      have hbody := Progress.keeping.resolveBody hclosed f (s.enter id env f.returns)
      have hactive : r.2.active = s.active := by
        rw [hr, FuncDef.analyzed, FuncDef.settleReturn_frame]
        change List.erase (f.resolveBody _ _).2.active id = _
        rw [hbody.active]
        exact List.erase_cons_head id s.active
      have hdone : r.2.done =
          (f.resolveBody (analyzeFunc budget) (s.enter id env f.returns)).2.done := by
        rw [hr, FuncDef.analyzed, FuncDef.settleReturn_frame]
        rfl
      rw [hrun]
      refine ⟨?_, hactive, fun j hj => ?_, fun j hj hjd => ?_⟩
      · rw [Progress.store, List.length_set, hr, FuncDef.analyzed, FuncDef.settleReturn_frame]
        exact hbody.length
      · have hjr : j ∈ r.2.done := hdone ▸ hbody.done hj
        by_cases hfailed : r.2.failed = true
        · simpa [Progress.store, hfailed] using hjr
        · simpa [Progress.store, hfailed] using Or.inr hjr
      · have hne : j ≠ id := fun h => hidle (h ▸ hj)
        have hjr : j ∈ r.2.done := by
          by_cases hfailed : r.2.failed = true
          · simpa [Progress.store, hfailed] using hjd
          · simpa [Progress.store, hfailed, hne] using hjd
        exact hbody.busy j (List.mem_cons_of_mem _ hj) (hdone ▸ hjr)

theorem Returned.of_none {rets : List (List Ty)} {r : Option Returns} (h : Returned none rets r) :
    rets = [] := by
  cases h
  rfl

namespace FuncDef

theorem foldlM_bindParam {f : FuncDef} {params : List Binder} {env env' : Env} :
    params.foldlM f.bindParam env = .ok env' ↔ ∃ bindings, params.mapM Binder.binding? = some bindings ∧
      env' = { env with current := bindings.reverse ++ env.current } := by
  induction params generalizing env with
  | nil => simp [eq_comm]
  | cons b params ih =>
    rw [List.foldlM_cons, bind_eq_ok]
    cases hty : b.ty with
    | unresolved => simp [bindParam, Binder.binding?, hty, Slot.get?, List.mapM_cons]
    | resolved ty =>
      have hbind : f.bindParam env b = .ok (env.define b.name { ty, isVar := b.isVar }) := by
        simp [bindParam, hty, Slot.get?]
      have hbinding : b.binding? = some (b.name, { ty, isVar := b.isVar }) := by
        simp [Binder.binding?, hty, Slot.get?]
      simp only [hbind, Except.ok.injEq, exists_eq_left', ih, List.mapM_cons, hbinding]
      cases params.mapM Binder.binding? <;> simp [Env.define]

theorem entry_eq_ok {f : FuncDef} {env : Env} :
    f.entry = .ok env ↔ ∃ bindings, f.params.mapM Binder.binding? = some bindings ∧
      env = { current := bindings.reverse } := by
  simp [entry, foldlM_bindParam]

theorem resolveBody_sound {σ : Scope} {d : Demand} (hd : d.Sound σ) {f : FuncDef} {s : Progress}
    (henv : f.entry = .ok s.env) (hreturns : s.returns = some f.returns)
    (h : Toward σ (f.resolveBody d s).2) :
    ∃ body ensure, (f.resolveBody d s).1.1 = { f with body, ensure } ∧
      f.Resolves σ { f with
        body, ensure
        ret := .resolved (f.ret.get?.getD ((f.resolveBody d s).1.2.getD .unit)) } := by
  have h₁ : Toward σ (f.body.resolve d s).2 := by
    have hback := hd.closed.otherwise f.ensure _ h
    exact ⟨hback.ok, hback.grows⟩
  obtain ⟨bindings, hparams, henv⟩ := entry_eq_ok.mp henv
  have hcontext : s.env.context = bindings.reverse := by simp [henv, Env.context, Env.frames]
  obtain ⟨rets, hbody, hr⟩ := Block.resolve_sound hd f.body s h₁
  obtain ⟨rets', hensure, hr'⟩ := Stmt.resolveOtherwise_sound hd f.ensure _ h
  cases Returned.of_none hr'
  rw [hreturns] at hr
  change Stmt.ResolvesOtherwise σ (f.body.resolve d s).2.env.context _ _ _ at hensure
  rw [hd.discreet.env_block, hcontext] at hensure
  rw [hcontext] at hbody
  have hreturning : Returning f.kind f.ret rets
      (settledReturn f.ret (f.body.resolve d s).2.returns) := Returned.returning rfl hr
  exact ⟨_, _, rfl, .mk hparams hbody hensure hreturning⟩

end FuncDef

/-- The turn of one function in the order of definition. -/
def Progress.visit (budget : Nat) (s : Progress) (p : FuncDef × DefId) : Progress :=
  if p.1.isTemplate then s else (analyzeFunc budget p.2 s).2

theorem Resolve.forM_apply {α : Type} (step : α → Resolve Unit) (todo : List α) (s : Progress) :
    ((todo.forM step : Resolve Unit) s).2 = todo.foldl (fun s a => (step a s).2) s := by
  induction todo generalizing s with
  | nil => rfl
  | cons a todo ih =>
    rw [List.foldl_cons, ← ih]
    rfl

theorem Progress.ofFuncs_eq (fs : List FuncDef) (σ : Scope) :
    Progress.ofFuncs fs σ =
      fs.zipIdx.foldl (Progress.visit (fs.length + 1)) { funcs := fs, scope := σ } := by
  rw [Progress.ofFuncs, analyzeFuncs, forM_apply]
  congr 1
  funext s ⟨f, id⟩
  unfold Progress.visit
  dsimp only
  by_cases htemplate : f.isTemplate = true
  · rw [if_pos htemplate, if_pos htemplate]
    rfl
  · rw [if_neg htemplate, if_neg htemplate]

end Semant
