import Semant.Proofs.Typing.Repetition.Stmt

/-! Typing functions a second time. A function in whose blocks nothing was filled is passed over,
since its return type is known; the first other one ends the run. -/

namespace Semant

open Resolve

/-- Typing filled no slot in the blocks. -/
def FuncDef.SameBlocks (f f' : FuncDef) : Prop :=
  f'.body = f.body ∧ f'.ensure = f.ensure

theorem FuncDef.Resolves.resolveBody_again {τ : Scope} {f f' : FuncDef} (h : f.Resolves τ f')
    (d : Demand) {s : Progress} (hs : Toward τ s) (henv : f'.entry = .ok s.env)
    (hreturns : s.returns = some f'.returns) :
    ∃ found t, f'.resolveBody d s = ((f', found), t) ∧
      ((f.SameBlocks f' ∧ t = { s with returns := none }) ∨
        (¬ f.SameBlocks f' ∧ t = { s.refused with returns := none })) := by
  cases h with
  | @mk params body ensure rets ret hparams hbody hensure hreturning =>
    obtain ⟨bindings, hbindings, henv⟩ := FuncDef.entry_eq_ok.mp henv
    obtain rfl : params = bindings := Option.some.inj (hparams.symm.trans hbindings)
    have hΓ : s.env.context = params.reverse := by simp [henv, Env.context, Env.frames]
    have hret : s.Returned rets := by
      intro tys htys
      rw [hreturns]
      refine (Returned.of_expected rfl).mpr ⟨rfl, ?_, ?_⟩
      · exact List.forall_mem_singleton.mpr (hreturning.agree tys htys)
      · exact fun hproc => List.forall_mem_singleton.mpr (hreturning.valueless hproc tys htys)
    rw [FuncDef.resolveBody_apply]
    dsimp only
    rcases hbody.again (d := d) hs hΓ hret with ⟨hb, hrun⟩ | ⟨hb, hrun⟩
    · have hopen : Toward τ { s with returns := none } := ⟨hs.ok, hs.grows⟩
      rw [hrun]
      rcases hensure.again (d := d) hopen hΓ (List.forall_mem_nil _) with ⟨he, hrun'⟩ | ⟨he, hrun'⟩
      · rw [hrun']
        exact ⟨_, _, rfl, .inl ⟨⟨hb, he⟩, rfl⟩⟩
      · rw [hrun']
        exact ⟨_, _, rfl, .inr ⟨fun hsame => he hsame.2, rfl⟩⟩
    · have hfailed : { s.refused with returns := none }.error ≠ none := s.refused_failed
      rw [hrun, Stmt.resolveOtherwise_failed d hfailed]
      exact ⟨_, _, rfl, .inr ⟨fun hsame => hb hsame.1, rfl⟩⟩

theorem FuncDef.Resolves.entry {τ : Scope} {f f' : FuncDef} (h : f.Resolves τ f') :
    ∃ env, f'.entry = .ok env := by
  cases h with
  | mk hparams _ _ _ => exact ⟨_, FuncDef.entry_eq_ok.mpr ⟨_, hparams, rfl⟩⟩

theorem FuncDef.Resolves.ret_isResolved {τ : Scope} {f f' : FuncDef} (h : f.Resolves τ f') :
    f'.ret.isResolved = true := by
  cases h
  rfl

/-- A turn of a typed function ends well if its blocks have no slots, and is refused otherwise. -/
theorem FuncDef.Resolves.analyzeFunc_again {τ : Scope} {f f' : FuncDef} (h : f.Resolves τ f')
    (budget : Nat) {id : DefId} {s : Progress} (hs : Toward τ s) (hdone : id ∉ s.done)
    (hidle : id ∉ s.active) (hf : s.funcs[id]? = some f') :
    ∃ t, analyzeFunc (budget + 1) id s = ((), t) ∧ t.funcs = s.funcs ∧
      ((f.SameBlocks f' ∧ t.error = none ∧ t.scope = s.scope ∧ t.active = s.active ∧
          t.done = id :: s.done) ∨
        (¬ f.SameBlocks f' ∧ t.error = some .writtenTwice)) := by
  have hset : s.funcs.set id f' = s.funcs := by
    obtain ⟨hlt, rfl⟩ := List.getElem?_eq_some_iff.mp hf
    exact List.set_getElem_self hlt
  rcases analyzeFunc_cases budget id s with
    ⟨hskip, _⟩ | ⟨_, _, _, _, hactive, _⟩ | ⟨_, _, _, _, hf₁, _, hentry, _⟩ |
      ⟨f₁, env, r, _, _, hf₁, _, hentry, hr, hrun⟩
  · rcases hskip with herror | hid | hnone
    · exact (herror hs.ok).elim
    · exact (hdone hid).elim
    · rw [hf] at hnone
      cases hnone
  · exact (hidle hactive).elim
  · rw [hf] at hf₁
    cases hf₁
    obtain ⟨env, henv⟩ := h.entry
    rw [henv] at hentry
    cases hentry
  · rw [hf] at hf₁
    cases hf₁
    have hentered : Toward τ (s.enter id env f'.returns) := ⟨hs.ok, hs.grows⟩
    obtain ⟨found, t, hbody, hend⟩ :=
      h.resolveBody_again (analyzeFunc budget) hentered hentry rfl
    have hsettle : f'.settleReturn id found (t.leave id s) = (f', t.leave id s) := by
      rw [FuncDef.settleReturn, if_pos h.ret_isResolved]
      rfl
    have hleft : r = (f', t.leave id s) := by rw [hr, FuncDef.analyzed, hbody, hsettle]
    subst hleft
    rcases hend with ⟨hsame, rfl⟩ | ⟨hdiffer, rfl⟩
    · have hactive : (id :: s.active).erase id = s.active := List.erase_cons_head id s.active
      refine ⟨_, hrun, hset, .inl ⟨hsame, hs.ok, rfl, hactive, ?_⟩⟩
      simp [Progress.store, Progress.failed, Progress.leave, Progress.enter, hs.ok]
    · exact ⟨_, hrun, hset, .inr ⟨hdiffer, rfl⟩⟩

theorem analyzeFunc_of_done (budget : Nat) {id : DefId} {s : Progress} (h : id ∈ s.done) :
    analyzeFunc (budget + 1) id s = ((), s) := by
  rcases analyzeFunc_cases budget id s with
    ⟨_, hrun⟩ | ⟨_, _, hdone, _⟩ | ⟨_, _, _, hdone, _⟩ | ⟨_, _, _, _, hdone, _⟩
  · exact hrun
  · exact (hdone h).elim
  · exact (hdone h).elim
  · exact (hdone h).elim

section

variable {fs typed : List FuncDef} {σ τ : Scope}

/-- A second run over `typed` that was not refused so far. -/
structure Progress.Repeating (fs typed : List FuncDef) (σ : Scope) (s : Progress) : Prop where
  ok : s.error = none
  funcs : s.funcs = typed
  scope : s.scope = σ
  idle : s.active = []
  done : ∀ id ∈ s.done, ∀ f f' : FuncDef, fs[id]? = some f → typed[id]? = some f' → f.SameBlocks f'

variable (hgrows : σ.Grows τ)
  (htyped : ∀ (id : DefId) (f f' : FuncDef), fs[id]? = some f → typed[id]? = some f' →
    (f.isTemplate = true → f' = f) ∧ (f.isTemplate = false → f.Resolves τ f'))

include hgrows htyped

theorem Progress.Repeating.visit {s : Progress} (h : s.Repeating fs typed σ) (budget : Nat)
    {id : DefId} {f f' : FuncDef} (hf : fs[id]? = some f) (hf' : typed[id]? = some f') :
    (f.SameBlocks f' ∧ (s.visit (budget + 1) (f', id)).Repeating fs typed σ) ∨
      (¬ f.SameBlocks f' ∧ (s.visit (budget + 1) (f', id)).funcs = typed ∧
        (s.visit (budget + 1) (f', id)).error = some .writtenTwice) := by
  obtain ⟨htemplate, hres⟩ := htyped id f f' hf hf'
  by_cases hplain : f.isTemplate = true
  · obtain rfl := htemplate hplain
    have hvisit : s.visit (budget + 1) (f', id) = s := if_pos hplain
    rw [hvisit]
    exact .inl ⟨⟨rfl, rfl⟩, h⟩
  have hres := hres (by simpa using hplain)
  have hplain' : ¬ f'.isTemplate = true := by
    cases hres
    exact hplain
  have hvisit : s.visit (budget + 1) (f', id) = (analyzeFunc (budget + 1) id s).2 :=
    if_neg hplain'
  rw [hvisit]
  by_cases hdone : id ∈ s.done
  · rw [analyzeFunc_of_done budget hdone]
    exact .inl ⟨h.done id hdone f f' hf hf', h⟩
  have hs : Toward τ s := ⟨h.ok, h.scope ▸ hgrows⟩
  have hidle : id ∉ s.active := by simp [h.idle]
  obtain ⟨t, hrun, hfuncs, hend⟩ :=
    hres.analyzeFunc_again budget hs hdone hidle (h.funcs ▸ hf')
  rw [hrun]
  rcases hend with ⟨hsame, ht, hscope, hactive, hids⟩ | ⟨hdiffer, ht⟩
  · refine .inl ⟨hsame, ht, hfuncs.trans h.funcs, hscope.trans h.scope, hactive.trans h.idle, ?_⟩
    intro k hk
    rw [hids] at hk
    rcases List.mem_cons.mp hk with rfl | hk
    · intro g g' hg hg'
      rw [hf] at hg
      rw [hf'] at hg'
      cases hg
      cases hg'
      exact hsame
    · exact h.done k hk
  · exact .inr ⟨hdiffer, hfuncs.trans h.funcs, ht⟩

theorem Progress.Repeating.foldl_visit {s : Progress} (h : s.Repeating fs typed σ) (budget : Nat)
    {todo : List (FuncDef × DefId)} (htodo : ∀ p ∈ todo, typed[p.2]? = some p.1)
    (hlen : typed.length = fs.length) :
    (todo.foldl (Progress.visit (budget + 1)) s).funcs = typed ∧
      (((∀ p ∈ todo, ∀ f, fs[p.2]? = some f → f.SameBlocks p.1) ∧
          (todo.foldl (Progress.visit (budget + 1)) s).error = none) ∨
        ((∃ p ∈ todo, ∃ f, fs[p.2]? = some f ∧ ¬ f.SameBlocks p.1) ∧
          (todo.foldl (Progress.visit (budget + 1)) s).error = some .writtenTwice)) := by
  induction todo generalizing s with
  | nil => exact ⟨h.funcs, .inl ⟨List.forall_mem_nil _, h.ok⟩⟩
  | cons p todo ih =>
    obtain ⟨hp, htodo⟩ := List.forall_mem_cons.mp htodo
    have hlt : p.2 < fs.length := hlen ▸ (List.getElem?_eq_some_iff.mp hp).1
    have hf := List.getElem?_eq_getElem hlt
    rw [List.foldl_cons]
    rcases h.visit hgrows htyped budget hf hp with ⟨hsame, hnext⟩ | ⟨hdiffer, hfuncs, herror⟩
    · obtain ⟨hfuncs, hend⟩ := ih hnext htodo
      refine ⟨hfuncs, ?_⟩
      rcases hend with ⟨hall, hok⟩ | ⟨⟨p', hp', hdiffer⟩, herror⟩
      · refine .inl ⟨List.forall_mem_cons.mpr ⟨fun f hf' => ?_, hall⟩, hok⟩
        rw [hf] at hf'
        cases hf'
        exact hsame
      · exact .inr ⟨⟨p', List.mem_cons_of_mem _ hp', hdiffer⟩, herror⟩
    · have hfailed : (s.visit (budget + 1) p).error ≠ none := herror ▸ Option.some_ne_none _
      rw [foldl_visit_failed (budget + 1) todo hfailed]
      exact ⟨hfuncs, .inr ⟨⟨p, List.mem_cons_self, _, hf, hdiffer⟩, herror⟩⟩

/-- A second run ends well if no block has a slot. Otherwise it is refused, and in both cases it
leaves the functions as they are. -/
theorem Progress.ofFuncs_again (hlen : typed.length = fs.length) :
    (Progress.ofFuncs typed σ).funcs = typed ∧
      ((List.Forall₂ FuncDef.SameBlocks fs typed ∧ (Progress.ofFuncs typed σ).error = none) ∨
        (¬ List.Forall₂ FuncDef.SameBlocks fs typed ∧
          (Progress.ofFuncs typed σ).error = some .writtenTwice)) := by
  have hstart : Progress.Repeating fs typed σ { funcs := typed, scope := σ } :=
    ⟨rfl, rfl, rfl, rfl, fun _ hid => by cases hid⟩
  have htodo : ∀ p ∈ typed.zipIdx, typed[p.2]? = some p.1 :=
    fun p hp => List.mem_zipIdx_iff_getElem?.mp hp
  obtain ⟨hfuncs, hend⟩ := hstart.foldl_visit hgrows htyped typed.length htodo hlen
  rw [Progress.ofFuncs_eq]
  refine ⟨hfuncs, hend.imp (And.imp_left fun hall => ?_) (And.imp_left fun hdiffer hall => ?_)⟩
  · refine List.forall₂_iff_get.mpr ⟨hlen.symm, fun id hid hid' => ?_⟩
    have hmem : (typed[id], id) ∈ typed.zipIdx :=
      List.mem_zipIdx_iff_getElem?.mpr (List.getElem?_eq_getElem hid')
    exact hall _ hmem _ (List.getElem?_eq_getElem hid)
  · obtain ⟨p, hp, f, hf, hne⟩ := hdiffer
    obtain ⟨hid, rfl⟩ := List.getElem?_eq_some_iff.mp hf
    obtain ⟨hid', heq⟩ := List.getElem?_eq_some_iff.mp (htodo p hp)
    exact hne (heq ▸ hall.get hid hid')

end

end Semant
