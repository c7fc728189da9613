import Mathlib.Data.List.Perm.Subperm
import Semant.Proofs.Typing.Completeness.Stmt
import Semant.Proofs.Typing.History

/-! The analysis of the functions is complete. If the functions can be typed in some order, each with
the return types of those before it, then the analysis gives the same trees, whatever order it takes
and wherever a call makes it turn aside. -/

namespace Semant

open Resolve Outcome

/-- The functions of `l` can be typed one after another, the first one last. -/
inductive Staged (fs : List FuncDef) (σ : Scope) (typed : List FuncDef) : List DefId → Prop
  | nil : Staged fs σ typed []
  | cons {id : DefId} {l : List DefId} {f f' : FuncDef} :
      id ∉ l → fs[id]? = some f → typed[id]? = some f' → f.isTemplate = false →
      f.Resolves (σ.known fs typed l) f' → Staged fs σ typed l → Staged fs σ typed (id :: l)

/-- Some functions of `goal` are typed, and nothing else has happened. -/
structure Heading (fs : List FuncDef) (σ : Scope) (typed : List FuncDef) (goal : List DefId)
    (s : Progress) : Prop where
  ok : s.error = none
  scope : s.scope = σ.known fs typed s.done
  funcs : ∀ id, s.funcs[id]? = if id ∈ s.done then typed[id]? else fs[id]?
  done : s.done ⊆ goal

variable {fs typed : List FuncDef} {σ : Scope} {goal : List DefId}

namespace Staged

theorem congr {typed' : List FuncDef} {l : List DefId} (h : Staged fs σ typed l)
    (heq : ∀ id ∈ l, typed[id]? = typed'[id]?) : Staged fs σ typed' l := by
  induction h with
  | nil => exact .nil
  | @cons id l f f' hid hf hf' hplain hres _ ih =>
    have htail : ∀ k ∈ l, typed[k]? = typed'[k]? := fun k hk => heq k (List.mem_cons_of_mem _ hk)
    refine .cons hid hf (heq id List.mem_cons_self ▸ hf') hplain ?_ (ih htail)
    rw [← Scope.known_congr htail]
    exact hres

theorem get {l : List DefId} (h : Staged fs σ typed l) {id : DefId} (hid : id ∈ l) :
    ∃ f f', fs[id]? = some f ∧ typed[id]? = some f' ∧ f.isTemplate = false := by
  induction h with
  | nil => cases hid
  | @cons id₁ l f f' _ hf hf' hplain _ _ ih =>
    rcases List.mem_cons.mp hid with rfl | hid
    · exact ⟨f, f', hf, hf', hplain⟩
    · exact ih hid

theorem nodup {l : List DefId} (h : Staged fs σ typed l) : l.Nodup := by
  induction h with
  | nil => exact List.nodup_nil
  | cons hid _ _ _ _ _ ih => exact List.nodup_cons.mpr ⟨hid, ih⟩

theorem length_le {l : List DefId} (h : Staged fs σ typed l) : l.length ≤ fs.length := by
  have hsub : l ⊆ List.range fs.length := by
    intro id hid
    obtain ⟨f, _, hf, _⟩ := h.get hid
    exact List.mem_range.mpr (List.getElem?_eq_some_iff.mp hf).1
  have hle := (List.subperm_of_subset h.nodup hsub).length_le
  rwa [List.length_range] at hle

end Staged

namespace Heading

theorem start (fs : List FuncDef) (σ : Scope) (typed : List FuncDef) (goal : List DefId) :
    Heading fs σ typed goal { funcs := fs, scope := σ } where
  ok := rfl
  scope := Scope.known_nil.symm
  funcs _ := by simp
  done := List.nil_subset _

theorem congr {s t : Progress} (h : Heading fs σ typed goal s) (herror : t.error = s.error)
    (hfuncs : t.funcs = s.funcs) (hscope : t.scope = s.scope) (hdone : t.done = s.done) :
    Heading fs σ typed goal t where
  ok := herror.trans h.ok
  scope := by rw [hscope, hdone, h.scope]
  funcs := by rw [hfuncs, hdone]; exact h.funcs
  done := by rw [hdone]; exact h.done

theorem store {s : Progress} (h : Heading fs σ typed goal s) {id : DefId} {f f' : FuncDef}
    {g : FuncSymbol} (hgoal : id ∈ goal) (hf : fs[id]? = some f)
    (hf' : typed[id]? = some f') (hg : σ.functions[id]? = some g) (hid : id ∉ s.done) {scope : Scope}
    (hscope : scope = { s.scope with functions := s.scope.functions.set id (g.noted f f') }) :
    Heading fs σ typed goal ({ s with scope }.store id f') := by
  have hdone : ({ s with scope }.store id f').done = id :: s.done := by
    simp [Progress.store, Progress.failed, h.ok]
  have hnow : s.funcs[id]? = some f := by rw [h.funcs, if_neg hid, hf]
  have hlt : id < s.funcs.length := (List.getElem?_eq_some_iff.mp hnow).1
  refine ⟨h.ok, ?_, fun k => ?_, ?_⟩
  · rw [hdone, Scope.known_cons hg hf hf', ← h.scope, ← hscope]
    rfl
  · rw [hdone]
    change (s.funcs.set id f')[k]? = _
    by_cases hk : k = id
    · subst k
      simp [hlt, hf']
    · have hne : id ≠ k := fun heq => hk heq.symm
      have hmem : k ∈ id :: s.done ↔ k ∈ s.done := by simp [hk]
      simp only [List.getElem?_set_ne hne, h.funcs k, hmem]
  · rw [hdone]
    exact List.cons_subset.mpr ⟨hgoal, h.done⟩

end Heading

/-- A function is typed as its derivation has it, and the return type that it leaves is the one that
will be settled. -/
theorem FuncDef.resolveBody_complete {τ last : Scope} {d : Demand} {G : Progress → Prop}
    (hv : Serves τ last d G) {f f' : FuncDef} {s : Progress} (h : f.Resolves τ f')
    (henv : f.entry = .ok s.env) (hreturns : s.returns = some f.returns) (hs : G s) :
    ∃ f₁ found t, f.resolveBody d s = ((f₁, found), t) ∧ G t ∧ f₁.ret = f.ret ∧
      f' = { f₁ with ret := .resolved (f.ret.get?.getD (found.getD .unit)) } := by
  cases h with
  | @mk params body ensure rets ret hparams hbody hensure hreturning =>
    obtain ⟨bindings, hbindings, henv⟩ := FuncDef.entry_eq_ok.mp henv
    rw [hparams] at hbindings
    cases hbindings
    have hcontext : s.env.context = params.reverse := by simp [henv, Env.context, Env.frames]
    rw [← hcontext] at hbody hensure
    obtain ⟨r, hr, hsettled⟩ := Returning.returned (r := f.returns) rfl hreturning
    rw [← hreturns] at hr
    obtain ⟨t, hrun, ht, hreturns'⟩ := Block.resolve_complete hv f.body hbody hr hs
    rw [← hv.env_block hrun] at hensure
    let t₁ : Progress := { t with returns := none }
    obtain ⟨u, hrun', hu, _⟩ :=
      Stmt.resolveOtherwise_complete hv f.ensure (s := t₁) hensure .nil (hv.returns none ht)
    refine ⟨{ f with body, ensure }, t.returns.bind Returns.expected, u, ?_, hu, rfl, ?_⟩
    · have hbodyRun : f.resolveBody d s =
          (({ f with body := (f.body.resolve d s).1
                     ensure := (Stmt.resolveOtherwise d f.ensure
                       { (f.body.resolve d s).2 with returns := none }).1 },
            (f.body.resolve d s).2.returns.bind Returns.expected),
            (Stmt.resolveOtherwise d f.ensure { (f.body.resolve d s).2 with returns := none }).2) :=
        rfl
      rw [hbodyRun, hrun]
      dsimp only
      rw [hrun']
    · rw [← hsettled, hreturns']
      rfl

section

variable (hsig : σ.Signs fs)

include hsig

theorem Heading.grows {s : Progress} (h : Heading fs σ typed goal s) : σ.Grows s.scope :=
  h.scope ▸ hsig.known_grows typed s.done

theorem Heading.settle {s : Progress} (h : Heading fs σ typed goal s) {id : DefId} {f f₁ : FuncDef}
    {found : Option Ty} (hgoal : id ∈ goal) (hid : id ∉ s.done) (hf : fs[id]? = some f)
    (hret : f₁.ret = f.ret)
    (hf' : typed[id]? = some { f₁ with ret := .resolved (f.ret.get?.getD (found.getD .unit)) }) :
    Heading fs σ typed goal
      ((f₁.settleReturn id found s).2.store id (f₁.settleReturn id found s).1) := by
  obtain ⟨g, hg, hholds⟩ : ∃ g, σ.functions[id]? = some g ∧ s.scope.Holds id f g := by
    rw [h.scope]
    exact hsig.holds hid hf
  rw [hholds.settleReturn h.ok hret]
  exact h.store hgoal hf hf' hg hid rfl

omit hsig in
theorem FuncSymbol.isInferred_iff {g : FuncSymbol} : g.isInferred = true ↔
    g.kind = .func ∧ g.ret.isResolved = false ∧ g.isTemplate = false := by
  simp [FuncSymbol.isInferred, and_assoc]

omit hsig in
theorem Scope.known_of_mem {l l' : List DefId} {id : DefId} (hid : id ∈ l) (hid' : id ∈ l') :
    (σ.known fs typed l).functions[id]? = (σ.known fs typed l').functions[id]? := by
  simp [Scope.known, hid, hid']

/-- While a function is typed, the functions that its derivation needs are analyzed on demand. -/
theorem Staged.serves {l : List DefId} (h : Staged fs σ typed l) (hl : l ⊆ goal) {budget : Nat}
    {active : List DefId}
    (hdemand : ∀ id ∈ l, ∀ s : Progress, Heading fs σ typed goal s → s.active = active →
      Heading fs σ typed goal (analyzeFunc budget id s).2 ∧ id ∈ (analyzeFunc budget id s).2.done) :
    Serves (σ.known fs typed l) (σ.known fs typed goal) (analyzeFunc budget)
      fun s => Heading fs σ typed goal s ∧ s.active = active where
  grows := hsig.known_mono typed hl
  discreet := analyzeFunc_discreet budget
  ok hs := hs.1.ok
  scope hs := hs.1.scope ▸ hsig.known_mono typed hs.1.done
  env _ hs := ⟨hs.1.congr rfl rfl rfl rfl, hs.2⟩
  returns _ hs := ⟨hs.1.congr rfl rfl rfl rfl, hs.2⟩
  serve {s f id ty} hs hf hcall := by
    have hgrows := hs.1.grows hsig
    obtain ⟨f₀, hf₀, hdef, htemplate⟩ := hsig.later hgrows hf
    by_cases hid : id ∈ l
    · obtain ⟨_, _, hf₁, _, hplain⟩ := h.get hid
      rw [hf₀] at hf₁
      cases hf₁
      rw [hplain] at htemplate
      by_cases hinferred : f.isInferred = true
      · have hdemanded : demanded (analyzeFunc budget) f s = (analyzeFunc budget id s).2 := by
          rw [demanded, if_pos hinferred, hdef]
        obtain ⟨hhead, hdone⟩ := hdemand id hid s hs.1 hs.2
        rw [hdemanded]
        have hactive := (analyzeFunc_keeps budget id s).active
        refine ⟨⟨hhead, hactive.trans hs.2⟩, fun hkind => ?_⟩
        rw [hhead.scope, Scope.known_of_mem hdone hid]
        cases hcall with
        | proc hg hproc =>
          obtain ⟨g₀, hg₀, hsame⟩ := (hsig.known_grows typed l).earlier_function hg
          obtain ⟨g₁, hg₁, hsame'⟩ := hgrows.earlier_function hf
          rw [hg₀] at hg₁
          cases hg₁
          rw [hsame'.kind, ← hsame.kind, hproc] at hkind
          cases hkind
        | func hg _ hret => exact ⟨_, hg, by rw [hret]; rfl⟩
      · have hdemanded : demanded (analyzeFunc budget) f s = s := if_neg hinferred
        rw [hdemanded]
        refine ⟨hs, fun hkind => ⟨f, hf, ?_⟩⟩
        by_contra hopen
        exact hinferred (FuncSymbol.isInferred_iff.mpr ⟨hkind, by simpa using hopen, htemplate⟩)
    · -- the return type was written, or there is none
      have hstart : σ.CallType id ty := by
        cases hcall with
        | proc hg hproc => exact .proc (Scope.known_not_mem hid ▸ hg) hproc
        | func hg hfunc hret => exact .func (Scope.known_not_mem hid ▸ hg) hfunc hret
      have hknown : f.kind = .func → f.ret.isResolved = true := by
        intro hkind
        cases hgrows.callType hstart with
        | proc hg hproc =>
          rw [hf] at hg
          cases hg
          rw [hproc] at hkind
          cases hkind
        | func hg _ hret =>
          rw [hf] at hg
          cases hg
          rw [hret]
          rfl
      have hinferred : ¬ f.isInferred = true := by
        intro hinferred
        obtain ⟨hkind, hopen, _⟩ := FuncSymbol.isInferred_iff.mp hinferred
        rw [hknown hkind] at hopen
        cases hopen
      have hdemanded : demanded (analyzeFunc budget) f s = s := if_neg hinferred
      rw [hdemanded]
      exact ⟨hs, fun hkind => ⟨f, hf, hknown hkind⟩⟩

omit hsig in
theorem Progress.mem_store_done {s : Progress} {id : DefId} {f : FuncDef}
    (h : (s.store id f).error = none) : id ∈ (s.store id f).done := by
  change s.error = none at h
  simp [Progress.store, Progress.failed, h]

/-- A function whose turn can come is analyzed to what its derivation has, from wherever it is
called. -/
theorem Staged.reaches {l : List DefId} (h : Staged fs σ typed l) (hl : l ⊆ goal) {budget : Nat}
    (hbudget : l.length ≤ budget) {id : DefId} (hid : id ∈ l) {s : Progress}
    (hs : Heading fs σ typed goal s) (hidle : ∀ k ∈ l, k ∉ s.active) :
    Heading fs σ typed goal (analyzeFunc budget id s).2 ∧ id ∈ (analyzeFunc budget id s).2.done := by
  induction h generalizing budget id s with
  | nil => cases hid
  | @cons id₀ l f f' hnew hf hf' hplain hres hrest ih =>
    obtain ⟨hgoal, hsub⟩ := List.cons_subset.mp hl
    obtain ⟨hfree, hothers⟩ := List.forall_mem_cons.mp hidle
    rw [List.length_cons] at hbudget
    rcases List.mem_cons.mp hid with rfl | hid
    · obtain ⟨extra, rfl⟩ := Nat.exists_eq_add_of_lt hbudget
      have hnow : id ∉ s.done → s.funcs[id]? = some f := by
        intro hpending
        rw [hs.funcs, if_neg hpending, hf]
      rcases analyzeFunc_cases (l.length + extra) id s with
        ⟨hskip, hrun⟩ | ⟨_, _, _, _, hactive, _⟩ | ⟨f₀, error, _, hpending, hfuncs, _, hentry, _⟩ |
          ⟨f₀, env, r, _, hpending, hfuncs, _, hentry, hr, hrun⟩
      · rw [hrun]
        refine ⟨hs, ?_⟩
        by_contra hpending
        rcases hskip with hfailed | hdone | hnone
        · exact hfailed hs.ok
        · exact hpending hdone
        · rw [hnow hpending] at hnone
          cases hnone
      · exact (hfree hactive).elim
      · rw [hnow hpending] at hfuncs
        cases hfuncs
        cases hres with
        | mk hparams _ _ _ =>
          rw [FuncDef.entry_eq_ok.mpr ⟨_, hparams, rfl⟩] at hentry
          cases hentry
      · rw [hnow hpending] at hfuncs
        cases hfuncs
        have hserves : Serves (σ.known fs typed l) (σ.known fs typed goal)
            (analyzeFunc (l.length + extra))
            fun t => Heading fs σ typed goal t ∧ t.active = id :: s.active := by
          refine hrest.serves hsig hsub fun k hk t ht hactive => ih hsub (by omega) hk ht ?_
          intro j hj
          rw [hactive, List.mem_cons, not_or]
          exact ⟨fun heq => hnew (heq ▸ hj), hothers j hj⟩
        obtain ⟨f₁, found, t, hbody, ⟨ht, _⟩, hret, rfl⟩ := FuncDef.resolveBody_complete hserves
          (s := s.enter id env f.returns) hres hentry rfl ⟨hs.congr rfl rfl rfl rfl, rfl⟩
        have hkeeps := Progress.keeping.resolveBody
          (Progress.keeping.closed fun t g _ _ _ =>
            analyzeFunc_keeps (l.length + extra) g.definition t)
          f (s.enter id env f.returns)
        rw [hbody] at hkeeps
        have hid₁ : id ∉ t.done := fun hmem => hpending (hkeeps.busy id List.mem_cons_self hmem)
        have hleft : Heading fs σ typed goal (t.leave id s) := ht.congr rfl rfl rfl rfl
        have hstored := hleft.settle hsig hgoal hid₁ hf hret hf'
        rw [hrun, hr, FuncDef.analyzed, hbody]
        exact ⟨hstored, Progress.mem_store_done hstored.ok⟩
    · exact ih hsub (by omega) hid hs hothers

theorem Staged.foldl_visit (h : Staged fs σ typed goal) {budget : Nat}
    (hbudget : goal.length ≤ budget) {todo : List (FuncDef × DefId)}
    (htodo : ∀ p ∈ todo, p.1.isTemplate = false → p.2 ∈ goal) {s : Progress}
    (hs : Heading fs σ typed goal s) (hidle : s.active = []) :
    Heading fs σ typed goal (todo.foldl (Progress.visit budget) s) ∧
      s.done ⊆ (todo.foldl (Progress.visit budget) s).done ∧
      ∀ p ∈ todo, p.1.isTemplate = false → p.2 ∈ (todo.foldl (Progress.visit budget) s).done := by
  induction todo generalizing s with
  | nil => exact ⟨hs, List.Subset.refl _, List.forall_mem_nil _⟩
  | cons p todo ih =>
    obtain ⟨hp, htodo⟩ := List.forall_mem_cons.mp htodo
    rw [List.foldl_cons]
    by_cases htemplate : p.1.isTemplate = true
    · have hvisit : s.visit budget p = s := if_pos htemplate
      rw [hvisit]
      obtain ⟨hend, hsub, hall⟩ := ih htodo hs hidle
      refine ⟨hend, hsub, List.forall_mem_cons.mpr ⟨fun hplain => ?_, hall⟩⟩
      rw [htemplate] at hplain
      cases hplain
    · have hvisit : s.visit budget p = (analyzeFunc budget p.2 s).2 := if_neg htemplate
      have hgoal := hp (by simpa using htemplate)
      have hnone : ∀ k ∈ goal, k ∉ s.active := by simp [hidle]
      have hkeeps := analyzeFunc_keeps budget p.2 s
      rw [hvisit]
      obtain ⟨hhead, hdone⟩ := h.reaches hsig (List.Subset.refl _) hbudget hgoal hs hnone
      obtain ⟨hend, hsub, hall⟩ := ih htodo hhead (hkeeps.active.trans hidle)
      exact ⟨hend, fun _ hk => hsub (hkeeps.done hk),
        List.forall_mem_cons.mpr ⟨fun _ => hsub hdone, hall⟩⟩

/-- If all functions but the templates can be typed in some order, then the analysis succeeds and
gives what they can be typed as. -/
theorem Progress.ofFuncs_complete (h : Staged fs σ typed goal)
    (hall : ∀ id f, fs[id]? = some f → f.isTemplate = false → id ∈ goal) :
    Heading fs σ typed goal (Progress.ofFuncs fs σ) ∧ goal ⊆ (Progress.ofFuncs fs σ).done := by
  have htodo : ∀ p ∈ fs.zipIdx, p.1.isTemplate = false → p.2 ∈ goal :=
    fun p hp hplain => hall p.2 p.1 (List.mem_zipIdx_iff_getElem?.mp hp) hplain
  have hbudget : goal.length ≤ fs.length + 1 := Nat.le_succ_of_le h.length_le
  rw [Progress.ofFuncs_eq]
  obtain ⟨hend, _, hdone⟩ := h.foldl_visit hsig hbudget htodo (.start fs σ typed goal) rfl
  refine ⟨hend, fun id hid => ?_⟩
  obtain ⟨f, _, hf, _, hplain⟩ := h.get hid
  exact hdone (f, id) (List.mem_zipIdx_iff_getElem?.mpr hf) hplain

end

end Semant
