import Semant.Proofs.Typing.Failures.Stmt
import Semant.Proofs.Typing.History

/-! What the analysis of the functions can fail with. A function that is entered is as it was at the
start, its parameters have types, and its symbol has no return type yet if the function has none. -/

namespace Semant

open Resolve Outcome

/-- A function that can be entered, and what is refused in it is refused with errors of `P`. -/
structure FuncDef.Prepared (P : Error → Prop) (f : FuncDef) : Prop where
  entry : ∃ env, f.entry = .ok env
  place : CoversAt P f.loc
  body : f.body.outline.All (Node.Guarded P)
  ensure : Outline.AllOf (Node.Guarded P) (Stmt.outlineOtherwise f.ensure)

structure Orderly (P : Error → Prop) (fs : List FuncDef) (σ : Scope) (s : Progress) : Prop where
  failure : ∀ error, s.error = some error → P error
  history : s.error = none → History fs σ s

variable {P : Error → Prop} {fs : List FuncDef} {σ : Scope}

theorem Orderly.congr {s t : Progress} (h : Orderly P fs σ s) (herror : t.error = s.error)
    (hfuncs : t.funcs = s.funcs) (hscope : t.scope = s.scope) (hdone : t.done = s.done) :
    Orderly P fs σ t where
  failure := by rw [herror]; exact h.failure
  history := by rw [herror]; exact fun hok => (h.history hok).congr hfuncs hscope hdone

theorem Guards.resolveBody {d : Demand} {Good : Progress → Prop} (hg : Guards P d Good)
    {f : FuncDef} {s : Progress} (hf : f.Prepared P) (hs : Good s) :
    Good (f.resolveBody d s).2 := by
  have hbody := hg.block f.body s hf.body hs
  exact hg.otherwise f.ensure _ hf.ensure (hg.returns none hbody)

theorem Orderly.settleReturn_error (hsig : σ.Signs fs) {s : Progress} (h : Orderly P fs σ s)
    {id : DefId} (hid : id ∉ s.done) {f f₁ : FuncDef} (hf : fs[id]? = some f) (hret : f₁.ret = f.ret)
    (found : Option Ty) : (f₁.settleReturn id found s).2.error = s.error := by
  by_cases hs : s.error = none
  · obtain ⟨g, _, hholds⟩ := (h.history hs).symbol hsig hid hf
    rw [hholds.settleReturn hs hret]
  · rcases f₁.settleReturn_cases id found s with
      ⟨_, hrun⟩ | ⟨_, _, hrun⟩ | ⟨_, _, hok, _⟩ | ⟨_, _, hok, _⟩
    · rw [hrun]
    · rw [hrun]
    · exact (hs hok).elim
    · exact (hs hok).elim

theorem Orderly.guards (hsig : σ.Signs fs) {budget : Nat}
    (hdemand : ∀ id s, (∀ f, fs[id]? = some f → f.isTemplate = false) → Orderly P fs σ s →
      Orderly P fs σ (analyzeFunc budget id s).2) :
    Guards P (analyzeFunc budget) (Orderly P fs σ) where
  sound := analyzeFunc_sound budget
  fail _ he := ⟨fun _ heq => by cases heq; exact he, fun hok => by cases hok⟩
  env _ h := h.congr rfl rfl rfl rfl
  returns _ h := h.congr rfl rfl rfl rfl
  call {s f} h hok hf hinferred := by
    have hplain := (h.history hok).plain hsig hf hinferred
    exact hdemand f.definition s hplain h

theorem analyzeFunc_orderly (hsig : σ.Signs fs)
    (hfs : ∀ f ∈ fs, f.isTemplate = false → f.Prepared P) (budget : Nat) (id : DefId) (s : Progress)
    (hplain : ∀ f, fs[id]? = some f → f.isTemplate = false) (h : Orderly P fs σ s) :
    Orderly P fs σ (analyzeFunc budget id s).2 := by
  induction budget generalizing id s with
  | zero => exact h
  | succ budget ih =>
    refine ⟨?_, fun hok => ?_⟩
    · have hg := Orderly.guards hsig ih
      rcases analyzeFunc_cases budget id s with
        ⟨_, hrun⟩ | ⟨f, hs, hid, hfuncs, _, hrun⟩ | ⟨f, error, hs, hid, hfuncs, _, hentry, hrun⟩ |
          ⟨f, env, r, hs, hid, hfuncs, hidle, hentry, hr, hrun⟩
      · rw [hrun]
        exact h.failure
      · have hf : fs[id]? = some f := by rw [← (h.history hs).pending id hid, hfuncs]
        have hprepared := hfs f (List.mem_of_getElem? hf) (hplain f hf)
        rw [hrun]
        exact (hg.fail h (hprepared.place (.recursive f.name) nofun)).failure
      · have hf : fs[id]? = some f := by rw [← (h.history hs).pending id hid, hfuncs]
        obtain ⟨env, henv⟩ := (hfs f (List.mem_of_getElem? hf) (hplain f hf)).entry
        rw [henv] at hentry
        cases hentry
      · have hf : fs[id]? = some f := by rw [← (h.history hs).pending id hid, hfuncs]
        have hprepared := hfs f (List.mem_of_getElem? hf) (hplain f hf)
        let entered := s.enter id env f.returns
        have hbody : Orderly P fs σ (f.resolveBody (analyzeFunc budget) entered).2 :=
          hg.resolveBody hprepared (h.congr rfl rfl rfl rfl)
        have hleft : Orderly P fs σ ((f.resolveBody (analyzeFunc budget) entered).2.leave id s) :=
          hbody.congr rfl rfl rfl rfl
        have hkeeps := Progress.keeping.resolveBody
          (Progress.keeping.closed fun t g _ _ _ => analyzeFunc_keeps budget g.definition t) f entered
        have hid₁ : id ∉ (f.resolveBody (analyzeFunc budget) entered).2.done :=
          fun hmem => hid (hkeeps.busy id List.mem_cons_self hmem)
        have hret : (f.resolveBody (analyzeFunc budget) entered).1.1.ret = f.ret := rfl
        rw [hrun, hr]
        change ∀ error, (f.analyzed (analyzeFunc budget) id env s).2.error = some error → P error
        rw [FuncDef.analyzed, hleft.settleReturn_error hsig hid₁ hf hret]
        exact hbody.failure
    · obtain ⟨hs, _⟩ := analyzeFunc_grows (budget + 1) id s hok
      exact analyzeFunc_history hsig (budget + 1) id s hplain hok (h.history hs)

/-- The analysis of functions that are prepared for it fails with an error of `P` or not at all. -/
theorem Progress.ofFuncs_fails (hsig : σ.Signs fs)
    (hfs : ∀ f ∈ fs, f.isTemplate = false → f.Prepared P) :
    ∀ error, (Progress.ofFuncs fs σ).error = some error → P error := by
  have hturns : ∀ (todo : List (FuncDef × DefId)) (s : Progress),
      (∀ p ∈ todo, fs[p.2]? = some p.1) → Orderly P fs σ s →
        Orderly P fs σ (todo.foldl (Progress.visit (fs.length + 1)) s) := by
    intro todo
    induction todo with
    | nil => exact fun _ _ h => h
    | cons p todo ih =>
      intro s htodo h
      obtain ⟨hp, htodo⟩ := List.forall_mem_cons.mp htodo
      refine ih _ htodo ?_
      unfold Progress.visit
      split
      · exact h
      · rename_i hplain
        refine analyzeFunc_orderly hsig hfs _ p.2 s (fun f hf => ?_) h
        rw [hp] at hf
        cases hf
        simpa using hplain
  rw [Progress.ofFuncs_eq]
  refine (hturns fs.zipIdx _ (fun p hp => List.mem_zipIdx_iff_getElem?.mp hp) ?_).failure
  exact ⟨nofun, fun _ => .start fs σ⟩

end Semant
