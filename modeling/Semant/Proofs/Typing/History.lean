import Semant.Proofs.Typing.Function

/-! What has become of the functions in the middle of an analysis. The ones that are not done are as
they were; the others were typed one after another, each in a scope that knew the return types of
those before it. -/

namespace Semant

open Resolve Outcome

/-- A symbol that belongs to the function defined at `id`. -/
structure FuncDef.Signs (f : FuncDef) (id : DefId) (g : FuncSymbol) : Prop where
  definition : g.definition = id
  template : g.isTemplate = f.isTemplate
  ret : f.ret = .unresolved → g.ret = .unresolved

structure Scope.Signs (σ : Scope) (fs : List FuncDef) : Prop where
  length : σ.functions.length = fs.length
  symbol : ∀ {id : DefId} {f : FuncDef} {g : FuncSymbol},
    fs[id]? = some f → σ.functions[id]? = some g → f.Signs id g

/-- The symbol of a function once its body is typed. -/
def FuncSymbol.noted (g : FuncSymbol) (before after : FuncDef) : FuncSymbol :=
  if before.ret.isResolved then g else { g with ret := after.ret }

/-- The scope in which the functions of `l` are known to have become those of `typed`. -/
def Scope.known (σ : Scope) (fs typed : List FuncDef) (l : List DefId) : Scope :=
  { σ with
    functions := σ.functions.mapIdx fun id g =>
      if id ∈ l then
        match fs[id]?, typed[id]? with
        | some f, some f' => g.noted f f'
        | _, _ => g
      else g }

/-- The functions of `l` are typed, the latest first. -/
inductive Completed (fs : List FuncDef) (σ : Scope) (typed : List FuncDef) : List DefId → Prop
  | nil : Completed fs σ typed []
  | cons {id : DefId} {l : List DefId} {f f' : FuncDef} :
      id ∉ l → fs[id]? = some f → typed[id]? = some f' → f.isTemplate = false →
      (∀ τ, (σ.known fs typed l).Grows τ → f.Resolves τ f') → Completed fs σ typed l →
      Completed fs σ typed (id :: l)

structure History (fs : List FuncDef) (σ : Scope) (s : Progress) : Prop where
  scope : s.scope = σ.known fs s.funcs s.done
  pending : ∀ id, id ∉ s.done → s.funcs[id]? = fs[id]?
  completed : Completed fs σ s.funcs s.done

/-- The definition `f` at `id` has the symbol `g`, which can take a return type if `f` can. -/
structure Scope.Holds (σ : Scope) (id : DefId) (f : FuncDef) (g : FuncSymbol) : Prop where
  symbol : σ.symbolOf? id = some id
  function : σ.functions[id]? = some g
  ret : f.ret = .unresolved → g.ret = .unresolved

/-- The return type of a typed body is settled in the function and in its symbol. -/
theorem Scope.Holds.settleReturn {s : Progress} {id : DefId} {f f₁ : FuncDef} {g : FuncSymbol}
    (h : s.scope.Holds id f g) (hs : s.error = none) (hret : f₁.ret = f.ret) {found : Option Ty} :
    f₁.settleReturn id found s =
      ({ f₁ with ret := .resolved (f.ret.get?.getD (found.getD .unit)) },
        { s with scope := { s.scope with functions := s.scope.functions.set id (g.noted f
          { f₁ with ret := .resolved (f.ret.get?.getD (found.getD .unit)) }) } }) := by
  rcases f₁.settleReturn_cases id found s with
    ⟨hresolved, hrun⟩ | ⟨_, hs', _⟩ | ⟨scope, hopen, _, hnote, hrun⟩ | ⟨_, hopen, _, hnote, _⟩
  · rw [hret] at hresolved
    obtain ⟨ty, hty⟩ := Option.isSome_iff_exists.mp hresolved
    have hsame : Slot.resolved (f.ret.get?.getD (found.getD .unit)) = f₁.ret := by
      rw [hret, hty]
      exact (Slot.get?_eq_some.mp hty).symm
    have hset : s.scope.functions.set id g = s.scope.functions := by
      obtain ⟨hlt, rfl⟩ := List.getElem?_eq_some_iff.mp h.function
      exact List.set_getElem_self hlt
    rw [hrun, FuncSymbol.noted, if_pos hresolved, hset, hsame]
  · exact (hs' hs).elim
  · obtain ⟨k, g', hk, hg', _, rfl⟩ := Scope.noteReturn_eq_ok.mp hnote
    rw [h.symbol] at hk
    cases hk
    rw [h.function] at hg'
    cases hg'
    rw [hret] at hopen
    have hunresolved : ¬ f.ret.isResolved = true := by rw [hopen]; decide
    rw [hrun, FuncSymbol.noted, if_neg hunresolved, hopen]
    rfl
  · have hg := h.ret (hret ▸ hopen)
    rw [Scope.noteReturn_eq_ok.mpr ⟨id, g, h.symbol, h.function, hg, rfl⟩] at hnote
    cases hnote

namespace Scope

variable {σ : Scope} {fs typed typed' : List FuncDef} {l : List DefId} {id : DefId}

theorem known_not_mem (h : id ∉ l) :
    (σ.known fs typed l).functions[id]? = σ.functions[id]? := by
  simp [known, h]

theorem known_mem {f f' : FuncDef} (h : id ∈ l) (hf : fs[id]? = some f)
    (hf' : typed[id]? = some f') :
    (σ.known fs typed l).functions[id]? = σ.functions[id]?.map (·.noted f f') := by
  simp [known, h, hf, hf']

theorem known_nil : σ.known fs typed [] = σ := by
  have hid : σ.functions.mapIdx (fun _ g => g) = σ.functions :=
    List.ext_getElem? fun k => by simp
  simp only [known, List.not_mem_nil, if_false, hid]

theorem known_congr (h : ∀ id ∈ l, typed[id]? = typed'[id]?) :
    σ.known fs typed l = σ.known fs typed' l := by
  unfold known
  congr 1
  refine List.mapIdx_eq_mapIdx_iff.mpr fun id _ => ?_
  split
  · rw [h id ‹_›]
  · rfl

theorem known_of_mem_iff {l' : List DefId} (h : ∀ id, id ∈ l ↔ id ∈ l') :
    σ.known fs typed l = σ.known fs typed l' := by
  simp only [known, h]

theorem known_cons {f f' : FuncDef} {g : FuncSymbol} (hg : σ.functions[id]? = some g)
    (hf : fs[id]? = some f) (hf' : typed[id]? = some f') :
    σ.known fs typed (id :: l) =
      { σ.known fs typed l with
        functions := (σ.known fs typed l).functions.set id (g.noted f f') } := by
  unfold known
  congr 1
  refine List.ext_getElem? fun k => ?_
  rw [List.getElem?_set]
  by_cases hk : id = k
  · subst k
    obtain ⟨hlt, rfl⟩ := List.getElem?_eq_some_iff.mp hg
    simp [hf, hf', hlt]
  · have hk' : ¬ k = id := fun h => hk h.symm
    simp [hk, hk']

theorem Signs.exists_symbol (h : σ.Signs fs) {f : FuncDef} (hf : fs[id]? = some f) :
    ∃ g, σ.functions[id]? = some g ∧ f.Signs id g := by
  have hlt := (List.getElem?_eq_some_iff.mp hf).1
  have hg := List.getElem?_eq_getElem (h.length ▸ hlt)
  exact ⟨_, hg, h.symbol hf hg⟩

theorem Signs.exists_function (h : σ.Signs fs) {g : FuncSymbol} (hg : σ.functions[id]? = some g) :
    ∃ f, fs[id]? = some f ∧ f.Signs id g := by
  have hlt := (List.getElem?_eq_some_iff.mp hg).1
  have hf := List.getElem?_eq_getElem (h.length ▸ hlt)
  exact ⟨_, hf, h.symbol hf hg⟩

theorem noted_grows {f f' : FuncDef} {g : FuncSymbol} (h : f.Signs id g) :
    g.Grows (g.noted f f') := by
  unfold FuncSymbol.noted
  cases hret : f.ret with
  | resolved => exact .refl g
  | unresolved => exact ⟨rfl, .inl (h.ret hret)⟩

theorem Signs.known_mono (h : σ.Signs fs) (typed : List FuncDef) {l l' : List DefId}
    (hsub : l ⊆ l') :
    (σ.known fs typed l).Grows (σ.known fs typed l') := by
  refine ⟨rfl, List.forall₂_iff_get.mpr ⟨by simp [known], fun id hid hid' => ?_⟩⟩
  have hlt : id < σ.functions.length := by simpa [known] using hid
  obtain ⟨f, hf, hsigns⟩ := h.exists_function (List.getElem?_eq_getElem hlt)
  simp only [known, List.get_eq_getElem, List.getElem_mapIdx, hf]
  by_cases hmem : id ∈ l
  · rw [if_pos hmem, if_pos (hsub hmem)]
    exact .refl _
  · rw [if_neg hmem]
    split
    · split
      · rename_i f₁ f' hf₁ _
        cases hf₁
        exact noted_grows hsigns
      · exact .refl _
    · exact .refl _

theorem Signs.known_grows (h : σ.Signs fs) (typed : List FuncDef) (l : List DefId) :
    σ.Grows (σ.known fs typed l) := by
  have hgrows := h.known_mono typed (List.nil_subset l)
  rwa [known_nil] at hgrows

/-- A symbol of a later scope belongs to the same function. -/
theorem Signs.later (h : σ.Signs fs) {τ : Scope} (hτ : σ.Grows τ) {g : FuncSymbol}
    (hg : τ.functions[id]? = some g) :
    ∃ f, fs[id]? = some f ∧ g.definition = id ∧ g.isTemplate = f.isTemplate := by
  obtain ⟨g₀, hg₀, hgrows⟩ := hτ.earlier_function hg
  obtain ⟨f, hf, hsigns⟩ := h.exists_function hg₀
  exact ⟨f, hf, hgrows.definition.trans hsigns.definition, hgrows.isTemplate.trans hsigns.template⟩

/-- A call asks for the body of no template. -/
theorem Signs.plain (h : σ.Signs fs) {τ : Scope} (hτ : σ.Grows τ) {g : FuncSymbol}
    (hg : g ∈ τ.functions) (hinferred : g.isInferred) :
    ∀ f, fs[g.definition]? = some f → f.isTemplate = false := by
  intro f hf
  obtain ⟨id, hid⟩ := List.mem_iff_getElem?.mp hg
  obtain ⟨f₁, hf₁, hdef, htemplate⟩ := h.later hτ hid
  rw [hdef, hf₁] at hf
  cases hf
  rw [← htemplate]
  simp only [FuncSymbol.isInferred, Bool.and_eq_true, Bool.not_eq_true'] at hinferred
  exact hinferred.2

theorem Signs.symbolOf? (h : σ.Signs fs) {τ : Scope} (hτ : σ.Grows τ) (hid : id < fs.length) :
    τ.symbolOf? id = some id := by
  have hlt : id < τ.functions.length := by
    rw [← hτ.functions.length_eq, h.length]
    exact hid
  have hg := List.getElem?_eq_getElem hlt
  obtain ⟨_, _, hdef, _⟩ := h.later hτ hg
  have hsome : (τ.functions.zipIdx.reverse.find? (·.1.definition == id)).isSome := by
    rw [List.find?_isSome]
    refine ⟨(τ.functions[id], id), ?_, by simpa using hdef⟩
    exact List.mem_reverse.mpr (List.mem_zipIdx_iff_getElem?.mpr hg)
  obtain ⟨p, hp⟩ := Option.isSome_iff_exists.mp hsome
  have hk : τ.symbolOf? id = some p.2 := by rw [Scope.symbolOf?, hp]; rfl
  obtain ⟨g, hg, hgdef⟩ := symbolOf?_eq_some hk
  obtain ⟨_, _, hdef', _⟩ := h.later hτ hg
  rw [hk, ← hdef', hgdef]

/-- A function that is not known yet has the symbol from the start. -/
theorem Signs.holds (h : σ.Signs fs) {f : FuncDef} (hid : id ∉ l) (hf : fs[id]? = some f) :
    ∃ g, σ.functions[id]? = some g ∧ (σ.known fs typed l).Holds id f g := by
  obtain ⟨g, hg, hsigns⟩ := h.exists_symbol hf
  have hlt := (List.getElem?_eq_some_iff.mp hf).1
  exact ⟨g, hg, h.symbolOf? (h.known_grows typed l) hlt, by rw [known_not_mem hid, hg], hsigns.ret⟩

end Scope

theorem Completed.congr {fs : List FuncDef} {σ : Scope} {typed typed' : List FuncDef}
    {l : List DefId} (h : Completed fs σ typed l) (heq : ∀ id ∈ l, typed[id]? = typed'[id]?) :
    Completed fs σ typed' l := by
  induction h with
  | nil => exact .nil
  | @cons id l f f' hid hf hf' htemplate hres _ ih =>
    have htail : ∀ k ∈ l, typed[k]? = typed'[k]? := fun k hk => heq k (List.mem_cons_of_mem _ hk)
    refine .cons hid hf (heq id List.mem_cons_self ▸ hf') htemplate ?_ (ih htail)
    rw [← Scope.known_congr htail]
    exact hres

theorem Completed.resolves {fs : List FuncDef} {σ : Scope} (hsig : σ.Signs fs)
    {typed : List FuncDef} {l l' : List DefId} (h : Completed fs σ typed l) (hsub : l ⊆ l')
    {id : DefId} (hid : id ∈ l) :
    ∃ f f', fs[id]? = some f ∧ typed[id]? = some f' ∧ f.Resolves (σ.known fs typed l') f' := by
  induction h with
  | nil => cases hid
  | @cons id₁ l f f' _ hf hf' _ hres _ ih =>
    have hsub' : l ⊆ l' := fun k hk => hsub (List.mem_cons_of_mem _ hk)
    rcases List.mem_cons.mp hid with rfl | hid
    · exact ⟨f, f', hf, hf', hres _ (hsig.known_mono typed hsub')⟩
    · exact ih hsub' hid

namespace History

variable {fs : List FuncDef} {σ : Scope} {s : Progress}

theorem start (fs : List FuncDef) (σ : Scope) : History fs σ { funcs := fs, scope := σ } where
  scope := Scope.known_nil.symm
  pending _ _ := rfl
  completed := .nil

theorem congr {t : Progress} (h : History fs σ s) (hfuncs : t.funcs = s.funcs)
    (hscope : t.scope = s.scope) (hdone : t.done = s.done) : History fs σ t where
  scope := by rw [hfuncs, hscope, hdone, h.scope]
  pending := by rw [hfuncs, hdone]; exact h.pending
  completed := by rw [hfuncs, hdone]; exact h.completed

theorem store {id : DefId} {f f' : FuncDef} {g : FuncSymbol} (h : History fs σ s)
    (hs : s.error = none) (hid : id ∉ s.done) (hf : fs[id]? = some f)
    (hg : σ.functions[id]? = some g) (htemplate : f.isTemplate = false)
    (hres : ∀ τ, s.scope.Grows τ → f.Resolves τ f') {scope : Scope}
    (hscope : scope = { s.scope with functions := s.scope.functions.set id (g.noted f f') }) :
    History fs σ ({ s with scope }.store id f') := by
  have hdone : ({ s with scope }.store id f').done = id :: s.done := by
    simp [Progress.store, Progress.failed, hs]
  have hlt : id < s.funcs.length := by
    have hsome := h.pending id hid
    rw [hf] at hsome
    exact (List.getElem?_eq_some_iff.mp hsome).1
  have hset : (s.funcs.set id f')[id]? = some f' := by simp [hlt]
  have hsame : ∀ k ∈ s.done, s.funcs[k]? = (s.funcs.set id f')[k]? := by
    intro k hk
    have hne : id ≠ k := fun heq => hid (heq ▸ hk)
    rw [List.getElem?_set_ne hne]
  refine ⟨?_, ?_, ?_⟩
  · rw [hdone]
    change scope = σ.known fs (s.funcs.set id f') (id :: s.done)
    rw [Scope.known_cons hg hf hset, ← Scope.known_congr hsame, ← h.scope, hscope]
  · rw [hdone]
    intro k hk
    rw [List.mem_cons, not_or] at hk
    have hne : id ≠ k := fun heq => hk.1 heq.symm
    change (s.funcs.set id f')[k]? = fs[k]?
    rw [List.getElem?_set_ne hne, h.pending k hk.2]
  · rw [hdone]
    refine .cons hid hf hset htemplate ?_ (h.completed.congr hsame)
    change ∀ τ, (σ.known fs (s.funcs.set id f') s.done).Grows τ → _
    rw [← Scope.known_congr hsame, ← h.scope]
    exact hres

/-- While nothing fails, the history goes on. -/
theorem going : Evolves fun s t : Progress =>
    t.error = none → s.error = none ∧ (History fs σ s → History fs σ t) where
  refl _ h := ⟨h, id⟩
  trans h h' hu := ⟨(h (h' hu).1).1, (h' hu).2 ∘ (h (h' hu).1).2⟩
  fail _ _ h := by cases h
  env _ _ h := ⟨h, fun hist => hist.congr rfl rfl rfl⟩
  returns _ _ h := ⟨h, fun hist => hist.congr rfl rfl rfl⟩

end History

section

variable {fs : List FuncDef} {σ : Scope} (hsig : σ.Signs fs)

include hsig

theorem History.plain {s : Progress} (h : History fs σ s) {g : FuncSymbol}
    (hg : g ∈ s.scope.functions) (hinferred : g.isInferred) :
    ∀ f, fs[g.definition]? = some f → f.isTemplate = false :=
  hsig.plain (h.scope ▸ hsig.known_grows s.funcs s.done) hg hinferred

theorem History.symbol {s : Progress} (h : History fs σ s) {id : DefId} (hid : id ∉ s.done)
    {f : FuncDef} (hf : fs[id]? = some f) :
    ∃ g, σ.functions[id]? = some g ∧ s.scope.Holds id f g := by
  rw [h.scope]
  exact hsig.holds hid hf

theorem History.settle {s : Progress} {f f₁ : FuncDef} {id : DefId} {found : Option Ty}
    (h : History fs σ s) (hid : id ∉ s.done) (hf : fs[id]? = some f)
    (htemplate : f.isTemplate = false)
    (hret : f₁.ret = f.ret)
    (hres : ∀ τ, s.scope.Grows τ →
      f.Resolves τ { f₁ with ret := .resolved (f.ret.get?.getD (found.getD .unit)) })
    (hok : (f₁.settleReturn id found s).2.error = none) :
    History fs σ ((f₁.settleReturn id found s).2.store id (f₁.settleReturn id found s).1) := by
  obtain ⟨hs, _⟩ := f₁.settleReturn_grows id found s hok
  obtain ⟨g, hg, hholds⟩ := h.symbol hsig hid hf
  rw [hholds.settleReturn hs hret]
  exact h.store hs hid hf hg htemplate hres rfl

theorem analyzeFunc_history (budget : Nat) (id : DefId) (s : Progress)
    (hplain : ∀ f, fs[id]? = some f → f.isTemplate = false)
    (h : (analyzeFunc budget id s).2.error = none) (hist : History fs σ s) :
    History fs σ (analyzeFunc budget id s).2 := by
  induction budget generalizing id s with
  | zero => exact hist
  | succ budget ih =>
    rcases analyzeFunc_cases budget id s with
      ⟨_, hrun⟩ | ⟨_, _, _, _, _, hrun⟩ | ⟨_, _, _, _, _, _, _, hrun⟩ |
        ⟨f, env, r, hs, hid, hfuncs, hidle, hentry, hr, hrun⟩
    · rw [hrun]
      exact hist
    · rw [hrun] at h
      cases h
    · rw [hrun] at h
      cases h
    · rw [hrun] at h ⊢
      subst hr
      let entered := s.enter id env f.returns
      have hclosed : ClosedStmt (analyzeFunc budget) _ := History.going.closed
        fun t g ht hg hinferred hok =>
          ⟨ht, fun hist => ih g.definition t (hist.plain hsig hg hinferred) hok hist⟩
      have hkeeps := Progress.keeping.resolveBody
        (Progress.keeping.closed fun t g _ _ _ => analyzeFunc_keeps budget g.definition t) f entered
      obtain ⟨h₁, _⟩ := FuncDef.settleReturn_grows _ _ _ _ h
      have hist₁ := (History.going.resolveBody hclosed f entered h₁).2 (hist.congr rfl rfl rfl)
      have hid₁ : id ∉ (f.resolveBody (analyzeFunc budget) entered).2.done :=
        fun hmem => hid (hkeeps.busy id List.mem_cons_self hmem)
      have hf : fs[id]? = some f := by rw [← hist.pending id hid, hfuncs]
      refine History.settle hsig (hist₁.congr rfl rfl rfl) hid₁ hf (hplain f hf) rfl ?_ h
      intro τ hτ
      obtain ⟨body, ensure, hbody, hres⟩ := FuncDef.resolveBody_sound (s := entered)
        (analyzeFunc_sound budget τ) hentry rfl ⟨h₁, hτ⟩
      rw [hbody]
      exact hres

omit hsig in
theorem analyzeFunc_done {budget : Nat} {id : DefId} {f : FuncDef} {s : Progress}
    (h : (analyzeFunc (budget + 1) id s).2.error = none) (hist : History fs σ s)
    (hf : fs[id]? = some f) : id ∈ (analyzeFunc (budget + 1) id s).2.done := by
  rcases analyzeFunc_cases budget id s with
    ⟨hskip, hrun⟩ | ⟨_, _, _, _, _, hrun⟩ | ⟨_, _, _, _, _, _, _, hrun⟩ |
      ⟨_, _, r, _, _, _, _, _, _, hrun⟩
  · rw [hrun] at h ⊢
    rcases hskip with hfail | hdone | hnone
    · exact (hfail h).elim
    · exact hdone
    · by_contra hid
      rw [hist.pending id hid, hf] at hnone
      cases hnone
  · rw [hrun] at h
    cases h
  · rw [hrun] at h
    cases h
  · rw [hrun] at h ⊢
    change r.2.error = none at h
    simp [Progress.store, Progress.failed, h]

omit hsig in
theorem Progress.foldl_visit_error {budget : Nat} {todo : List (FuncDef × DefId)} {s : Progress}
    (h : (todo.foldl (Progress.visit budget) s).error = none) : s.error = none := by
  induction todo generalizing s with
  | nil => exact h
  | cons p todo ih =>
    have h₁ := ih h
    unfold Progress.visit at h₁
    split at h₁
    · exact h₁
    · exact (analyzeFunc_grows budget p.2 s h₁).1

theorem foldl_visit_history {budget : Nat} {todo : List (FuncDef × DefId)}
    (htodo : ∀ p ∈ todo, fs[p.2]? = some p.1) {s : Progress} (hist : History fs σ s)
    (h : (todo.foldl (Progress.visit (budget + 1)) s).error = none) :
    History fs σ (todo.foldl (Progress.visit (budget + 1)) s) ∧
      s.done ⊆ (todo.foldl (Progress.visit (budget + 1)) s).done ∧
      ∀ p ∈ todo, p.1.isTemplate = false →
        p.2 ∈ (todo.foldl (Progress.visit (budget + 1)) s).done := by
  induction todo generalizing s with
  | nil => exact ⟨hist, fun _ hid => hid, fun _ hp => by cases hp⟩
  | cons p todo ih =>
    obtain ⟨hp, htodo⟩ := List.forall_mem_cons.mp htodo
    rw [List.foldl_cons] at h ⊢
    have herror := Progress.foldl_visit_error h
    by_cases htemplate : p.1.isTemplate = true
    · have hvisit : s.visit (budget + 1) p = s := if_pos htemplate
      rw [hvisit] at h ⊢
      obtain ⟨hist', hsub, hall⟩ := ih htodo hist h
      refine ⟨hist', hsub, List.forall_mem_cons.mpr ⟨fun hplain => ?_, hall⟩⟩
      rw [htemplate] at hplain
      cases hplain
    · have hvisit : s.visit (budget + 1) p = (analyzeFunc (budget + 1) p.2 s).2 := if_neg htemplate
      rw [hvisit] at h herror ⊢
      have hplain : ∀ f, fs[p.2]? = some f → f.isTemplate = false := by
        intro f hf
        rw [hp] at hf
        cases hf
        simpa using htemplate
      have hist₁ := analyzeFunc_history hsig (budget + 1) p.2 s hplain herror hist
      obtain ⟨hist', hsub, hall⟩ := ih htodo hist₁ h
      have hdone := analyzeFunc_done herror hist hp
      have hkeeps := analyzeFunc_keeps (budget + 1) p.2 s
      exact ⟨hist', fun _ hid => hsub (hkeeps.done hid),
        List.forall_mem_cons.mpr ⟨fun _ => hsub hdone, hall⟩⟩

/-- A successful analysis leaves every function typed that is not a template. -/
theorem Progress.ofFuncs_history (h : (Progress.ofFuncs fs σ).error = none) :
    History fs σ (Progress.ofFuncs fs σ) ∧
      ∀ id f, fs[id]? = some f → f.isTemplate = false → id ∈ (Progress.ofFuncs fs σ).done := by
  rw [Progress.ofFuncs_eq] at h ⊢
  have htodo : ∀ p ∈ fs.zipIdx, fs[p.2]? = some p.1 := fun p hp => List.mem_zipIdx_iff_getElem?.mp hp
  obtain ⟨hist, _, hall⟩ := foldl_visit_history hsig htodo (.start fs σ) h
  exact ⟨hist, fun id f hf => hall (f, id) (List.mem_zipIdx_iff_getElem?.mpr hf)⟩

theorem Progress.ofFuncs_resolves (h : (Progress.ofFuncs fs σ).error = none) {id : DefId}
    {f : FuncDef} (hf : fs[id]? = some f) (htemplate : f.isTemplate = false) :
    ∃ f', (Progress.ofFuncs fs σ).funcs[id]? = some f' ∧
      f.Resolves (Progress.ofFuncs fs σ).scope f' := by
  obtain ⟨hist, hdone⟩ := Progress.ofFuncs_history hsig h
  obtain ⟨f₁, f', hf₁, hf', hres⟩ :=
    hist.completed.resolves hsig (List.Subset.refl _) (hdone id f hf htemplate)
  rw [hf] at hf₁
  cases hf₁
  rw [← hist.scope] at hres
  exact ⟨f', hf', hres⟩

end

end Semant
