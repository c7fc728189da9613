import Semant.Analysis.Basic
import Semant.Proofs.Analysis.Collection

/-! The phases of an analysis. Functions keep their places in the program from phase to phase, so
what is known of the list of functions carries over to the program. -/

namespace Semant

namespace Definition

theorem func?_replaceFuncs (defs : List Definition) (fs : List FuncDef)
    (h : fs.length = (defs.filterMap func?).length) :
    (replaceFuncs defs fs).filterMap func? = fs := by
  induction defs generalizing fs with
  | nil => simpa [replaceFuncs, eq_comm] using h
  | cons definition defs ih =>
    cases definition with
    | classDef c =>
      rw [replaceFuncs, List.filterMap_cons_none rfl]
      exact ih fs h
    | funcDef f =>
      cases fs with
      | nil => simp [func?] at h
      | cons f' fs =>
        have hlen : fs.length = (defs.filterMap func?).length := by simpa [func?] using h
        simp [replaceFuncs, func?, ih fs hlen]

theorem replaceFuncs_replaceFuncs (defs : List Definition) (fs fs' : List FuncDef)
    (h : fs'.length = fs.length) :
    replaceFuncs (replaceFuncs defs fs) fs' = replaceFuncs defs fs' := by
  induction defs generalizing fs fs' with
  | nil => rfl
  | cons definition defs ih =>
    cases definition with
    | classDef c => simp [replaceFuncs, ih fs fs' h]
    | funcDef f =>
      cases fs with
      | nil =>
        rw [List.length_nil, List.length_eq_zero_iff] at h
        simp [replaceFuncs, h, ih [] [] rfl]
      | cons f₁ fs =>
        cases fs' with
        | nil => cases h
        | cons f₂ fs' => simp [replaceFuncs, ih fs fs' (Nat.succ.inj h)]

end Definition

namespace Program

theorem funcs_withFuncs {p : Program} {fs : List FuncDef} (h : fs.length = p.funcs.length) :
    (p.withFuncs fs).funcs = fs :=
  Definition.func?_replaceFuncs p.definitions fs h

theorem withFuncs_withFuncs (p : Program) {fs fs' : List FuncDef} (h : fs'.length = fs.length) :
    (p.withFuncs fs).withFuncs fs' = p.withFuncs fs' := by
  simp only [withFuncs, Definition.replaceFuncs_replaceFuncs p.definitions fs fs' h]

end Program

theorem Progress.length_ofFuncs (fs : List FuncDef) (σ : Scope) :
    (Progress.ofFuncs fs σ).funcs.length = fs.length := by
  have hturns : ∀ (todo : List (FuncDef × DefId)) (s : Progress),
      (todo.foldl (Progress.visit (fs.length + 1)) s).funcs.length = s.funcs.length := by
    intro todo
    induction todo with
    | nil => exact fun _ => rfl
    | cons p todo ih =>
      intro s
      rw [List.foldl_cons, ih, Progress.visit]
      split
      · rfl
      · exact (analyzeFunc_keeps _ _ _).length
  rw [Progress.ofFuncs_eq, hturns]

namespace Program

/-- Without an error in it, collection leads to the typing of the functions that it gives. -/
theorem typed_of_collect {p : Program} {fs : List FuncDef} {σ : Scope}
    (h : p.collect = (fs, .ok σ)) :
    p.typed.program = p.withFuncs (Progress.ofFuncs fs σ).funcs ∧
      p.typed.outcome = match (Progress.ofFuncs fs σ).error with
        | some error => .error error
        | none => .ok (Progress.ofFuncs fs σ).scope := by
  obtain ⟨_, hall, _, _⟩ := collect_eq_ok.mp h
  have hfuncs : (p.withFuncs fs).funcs = fs := funcs_withFuncs hall.length.1
  have hlen := Progress.length_ofFuncs fs σ
  have htyped : p.typed = (p.withFuncs fs).resolve σ := by rw [typed, h]
  rw [htyped, Program.resolve, hfuncs]
  exact ⟨withFuncs_withFuncs p hlen, rfl⟩

theorem funcs_typed {p : Program} {fs : List FuncDef} {σ : Scope} (h : p.collect = (fs, .ok σ)) :
    p.typed.program.funcs = (Progress.ofFuncs fs σ).funcs := by
  obtain ⟨_, hall, _, _⟩ := collect_eq_ok.mp h
  rw [(typed_of_collect h).1]
  exact funcs_withFuncs ((Progress.length_ofFuncs fs σ).trans hall.length.1)

theorem typed_eq_ok {p : Program} {τ : Scope} : p.typed.outcome = .ok τ ↔
    ∃ fs σ, p.collect = (fs, .ok σ) ∧ (Progress.ofFuncs fs σ).error = none ∧
      τ = (Progress.ofFuncs fs σ).scope := by
  constructor
  · intro h
    cases hcollect : p.collect with
    | mk fs collected =>
      cases collected with
      | error error =>
        simp only [typed, hcollect] at h
        cases h
      | ok σ =>
        obtain ⟨_, houtcome⟩ := typed_of_collect hcollect
        rw [houtcome] at h
        cases herror : (Progress.ofFuncs fs σ).error with
        | some error =>
          rw [herror] at h
          cases h
        | none =>
          rw [herror] at h
          exact ⟨fs, σ, rfl, herror, (Except.ok.inj h).symm⟩
  · rintro ⟨fs, σ, hcollect, herror, rfl⟩
    rw [(typed_of_collect hcollect).2, herror]

theorem program_analyze (p : Program) (o : Options) : (p.analyze o).program = p.typed.program := by
  unfold analyze Analysis.inFile Analysis.verified
  split
  · dsimp only
    split <;> rfl
  · rfl

theorem typed_of_analyze {p : Program} {o : Options} {τ : Scope}
    (h : (p.analyze o).outcome = .ok τ) : p.typed.outcome = .ok τ := by
  have hverified : p.typed.verified.outcome = .ok τ → p.typed.outcome = .ok τ := by
    unfold Analysis.verified
    split
    · intro h
      cases h
    · exact id
  have hfile : ∀ a : Analysis, (a.inFile o.file).outcome = .ok τ → a.outcome = .ok τ := by
    rintro ⟨_, _ | σ⟩ h
    · cases h
    · cases h
      rfl
  have h := hfile _ h
  cases hv : o.verify with
  | true =>
    rw [hv, if_pos rfl] at h
    exact hverified h
  | false =>
    rw [hv, if_neg (by decide)] at h
    exact h

end Program

end Semant
