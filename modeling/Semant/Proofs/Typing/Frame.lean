import Semant.Proofs.Typing.History

/-! What type resolution leaves alone, whether it ends well or not: signatures, but for an inferred
return type, and everything about a template. -/

namespace Semant

open Resolve

/-- Typing a body changes the blocks of a function and the slot for its return type. -/
structure FuncDef.Kept (f f' : FuncDef) : Prop where
  signature : f' = { f with body := f'.body, ensure := f'.ensure, ret := f'.ret }
  template : f.isTemplate = true → f' = f

theorem FuncDef.Kept.refl (f : FuncDef) : f.Kept f :=
  ⟨rfl, fun _ => rfl⟩

/-- What is not a template may be typed further. -/
theorem FuncDef.Kept.update {f f' f'' : FuncDef} (h : f.Kept f') (hplain : f.isTemplate = false)
    (heq : f'' = { f' with body := f''.body, ensure := f''.ensure, ret := f''.ret }) :
    f.Kept f'' := by
  constructor
  · rw [heq, h.signature]
  · intro htemplate
    rw [hplain] at htemplate
    cases htemplate

theorem FuncDef.settleReturn_eq (f : FuncDef) (id : DefId) (found : Option Ty) (s : Progress) :
    (f.settleReturn id found s).1 = { f with ret := (f.settleReturn id found s).1.ret } := by
  rcases f.settleReturn_cases id found s with
    ⟨_, h⟩ | ⟨_, _, h⟩ | ⟨_, _, _, _, h⟩ | ⟨_, _, _, _, h⟩ <;> rw [h]

theorem FuncDef.analyzed_eq (d : Demand) (f : FuncDef) (id : DefId) (env : Env) (s : Progress) :
    (f.analyzed d id env s).1 = { f with
      body := (f.analyzed d id env s).1.body
      ensure := (f.analyzed d id env s).1.ensure
      ret := (f.analyzed d id env s).1.ret } := by
  rw [FuncDef.analyzed, FuncDef.settleReturn_eq]
  rfl

/-- Unlike `settleReturn_grows`, of failures too. -/
theorem FuncDef.settleReturn_scope (f : FuncDef) (id : DefId) (found : Option Ty) (s : Progress) :
    s.scope.Grows (f.settleReturn id found s).2.scope := by
  rcases f.settleReturn_cases id found s with
    ⟨_, h⟩ | ⟨_, _, h⟩ | ⟨_, _, _, hnote, h⟩ | ⟨_, _, _, _, h⟩
  · rw [h]
    exact .refl _
  · rw [h]
    exact .refl _
  · rw [h]
    exact Scope.noteReturn_grows hnote
  · rw [h]
    exact .refl _

theorem forall₂_set {α β : Type} {R : α → β → Prop} {as : List α} {bs : List β}
    (h : List.Forall₂ R as bs) {i : Nat} {b : β} (hb : ∀ a, as[i]? = some a → R a b) :
    List.Forall₂ R as (bs.set i b) := by
  induction h generalizing i with
  | nil => exact .nil
  | cons hab hrest ih =>
    cases i with
    | zero => exact .cons (hb _ rfl) hrest
    | succ i => exact .cons hab (ih hb)

/-- The functions of `fs`, which have their symbols in `σ`, are kept. -/
structure Progress.Frames (fs : List FuncDef) (σ : Scope) (s : Progress) : Prop where
  scope : σ.Grows s.scope
  funcs : List.Forall₂ FuncDef.Kept fs s.funcs

section

variable {fs : List FuncDef} {σ : Scope}

theorem Progress.Frames.congr {s t : Progress} (h : s.Frames fs σ) (hscope : t.scope = s.scope)
    (hfuncs : t.funcs = s.funcs) : t.Frames fs σ :=
  ⟨hscope ▸ h.scope, hfuncs ▸ h.funcs⟩

theorem Progress.framing : Evolves fun s t : Progress => s.Frames fs σ → t.Frames fs σ where
  refl _ := id
  trans h h' := h' ∘ h
  fail _ _ h := h.congr rfl rfl
  env _ _ h := h.congr rfl rfl
  returns _ _ h := h.congr rfl rfl

theorem Progress.Frames.kept {s : Progress} (h : s.Frames fs σ) {id : DefId} {f f' : FuncDef}
    (hf : fs[id]? = some f) (hf' : s.funcs[id]? = some f') : f.Kept f' := by
  obtain ⟨hi, rfl⟩ := List.getElem?_eq_some_iff.mp hf
  obtain ⟨hi', rfl⟩ := List.getElem?_eq_some_iff.mp hf'
  exact h.funcs.get hi hi'

variable (hsig : σ.Signs fs)

include hsig

theorem analyzeFunc_frames (budget : Nat) (id : DefId) (s : Progress)
    (hplain : ∀ f, fs[id]? = some f → f.isTemplate = false) (h : s.Frames fs σ) :
    (analyzeFunc budget id s).2.Frames fs σ := by
  induction budget generalizing id s with
  | zero => exact h
  | succ budget ih =>
    rcases analyzeFunc_cases budget id s with
      ⟨_, hrun⟩ | ⟨_, _, _, _, _, hrun⟩ | ⟨_, _, _, _, _, _, _, hrun⟩ |
        ⟨f, env, r, _, _, hf, _, _, hr, hrun⟩
    · rw [hrun]
      exact h
    · rw [hrun]
      exact h.congr rfl rfl
    · rw [hrun]
      exact h.congr rfl rfl
    · have hclosed : ClosedStmt (analyzeFunc budget) _ := Progress.framing.closed
        fun t g _ hg hinferred ht => ih g.definition t (hsig.plain ht.scope hg hinferred) ht
      have hbody : (f.resolveBody (analyzeFunc budget) (s.enter id env f.returns)).2.Frames fs σ :=
        Progress.framing.resolveBody hclosed f _ (h.congr rfl rfl)
      have hfuncs : r.2.funcs =
          (f.resolveBody (analyzeFunc budget) (s.enter id env f.returns)).2.funcs := by
        rw [hr, FuncDef.analyzed, FuncDef.settleReturn_frame]
        rfl
      rw [hrun]
      refine ⟨hbody.scope.trans ?_, ?_⟩
      · subst hr
        exact FuncDef.settleReturn_scope _ id _ (Progress.leave _ id s)
      · change List.Forall₂ FuncDef.Kept fs (r.2.funcs.set id r.1)
        rw [hfuncs]
        refine forall₂_set hbody.funcs fun f₀ hf₀ => ?_
        rw [hr]
        exact (h.kept hf₀ hf).update (hplain f₀ hf₀) (FuncDef.analyzed_eq ..)

/-- The analysis of all functions keeps what it has to, also where it fails. -/
theorem Progress.ofFuncs_frames : (Progress.ofFuncs fs σ).Frames fs σ := by
  have hturns : ∀ (todo : List (FuncDef × DefId)) (s : Progress),
      (∀ p ∈ todo, fs[p.2]? = some p.1) → s.Frames fs σ →
        (todo.foldl (Progress.visit (fs.length + 1)) s).Frames fs σ := by
    intro todo
    induction todo with
    | nil => exact fun _ _ h => h
    | cons p todo ih =>
      intro s htodo h
      obtain ⟨hp, htodo⟩ := List.forall_mem_cons.mp htodo
      refine ih _ htodo ?_
      unfold Progress.visit
      split
      · exact h
      · rename_i hplain
        refine analyzeFunc_frames hsig _ _ _ (fun f hf => ?_) h
        rw [hp] at hf
        cases hf
        simpa using hplain
  rw [Progress.ofFuncs_eq]
  refine hturns _ _ (fun p hp => List.mem_zipIdx_iff_getElem?.mp hp) ⟨.refl σ, ?_⟩
  exact List.forall₂_same.mpr fun f _ => .refl f

end

end Semant
