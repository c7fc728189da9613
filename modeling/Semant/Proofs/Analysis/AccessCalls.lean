import Semant.Proofs.Analysis.EmptySlot
import Semant.Proofs.Analysis.Extension
import Semant.Proofs.Analysis.Repetition
import Semant.Proofs.Typing.AccessCalls.Function

/-! A member access is a call. To write accesses as calls and then to analyze the program comes to
the same as to analyze it first. -/

namespace Semant

variable {σ : Scope}

/-- Collection reads the signature and leaves the rest alone. -/
theorem FuncDef.collect_withBlocks (id : DefId) (f : FuncDef) (body : Block)
    (ensure : Option Block) :
    { f with body, ensure }.collect σ id =
      ({ (f.collect σ id).1 with body, ensure }, (f.collect σ id).2) := by
  unfold FuncDef.collect
  dsimp only
  cases Binder.collectAll σ f.params with
  | mk params outcome =>
    cases outcome with
    | error => rfl
    | ok types =>
      have hsame : FuncDef.collectReturn σ { f with params, body, ensure } =
          FuncDef.collectReturn σ { f with params } := rfl
      dsimp only
      rw [hsame]
      cases FuncDef.collectReturn σ { f with params } with
      | error => rfl
      | ok slots => rfl

theorem FuncDef.collect_asCalls (id : DefId) (f : FuncDef) (marks : Marks) :
    (f.asCalls marks).collect σ id = ((f.collect σ id).1.asCalls marks, (f.collect σ id).2) := by
  have hgains : f.Gains (fun _ => True) (f.collect σ id).1 :=
    FuncDef.collect_gains .trivial ⟨fun _ _ _ => trivial, fun _ _ _ _ => trivial⟩ id f
  have hsignature := FuncDef.collect_eq σ id f
  have hbody : (f.collect σ id).1.body = f.body := by rw [hsignature]
  have hensure : (f.collect σ id).1.ensure = f.ensure := by rw [hsignature]
  rw [FuncDef.asCalls, FuncDef.collect_withBlocks, FuncDef.asCalls, hbody, hensure,
    FuncDef.isFree_congr hgains.same]

theorem FuncDef.collectAll_asCalls (id : DefId) (fs : List FuncDef) (marks : Nat → Marks) :
    FuncDef.collectAll σ id (fs.mapIdx fun i f => f.asCalls (marks i)) =
      ((FuncDef.collectAll σ id fs).1.mapIdx fun i f => f.asCalls (marks i),
        (FuncDef.collectAll σ id fs).2) := by
  induction fs generalizing σ id marks with
  | nil => rfl
  | cons f fs ih =>
    rw [List.mapIdx_cons, FuncDef.collectAll, FuncDef.collectAll, FuncDef.collect_asCalls]
    cases f.collect σ id with
    | mk f' outcome =>
      cases outcome with
      | error error => simp [List.mapIdx_cons]
      | ok τ => simp [List.mapIdx_cons, ih]

namespace Program

theorem funcs_asCalls (p : Program) (marks : Marks) :
    (p.asCalls marks).funcs = FuncDef.asCallsAll marks p.funcs :=
  funcs_withFuncs List.length_mapIdx

theorem collect_asCalls (p : Program) (marks : Marks) :
    (p.asCalls marks).collect = (FuncDef.asCallsAll marks p.collect.1, p.collect.2) := by
  have hclasses : (p.asCalls marks).classes = p.classes := p.classes_withFuncs _
  unfold collect
  rw [funcs_asCalls, hclasses]
  cases Scope.collectClasses p.classes with
  | error => rfl
  | ok scope => exact FuncDef.collectAll_asCalls 0 p.funcs marks.below

theorem withFuncs_asCalls (p : Program) (marks : Marks) {fs : List FuncDef}
    (h : fs.length = p.funcs.length) :
    (p.withFuncs fs).asCalls marks = (p.asCalls marks).withFuncs (FuncDef.asCallsAll marks fs) := by
  have hlen : (FuncDef.asCallsAll marks fs).length = fs.length := List.length_mapIdx
  have hlen' : (FuncDef.asCallsAll marks p.funcs).length = p.funcs.length := List.length_mapIdx
  rw [asCalls, funcs_withFuncs h, withFuncs_withFuncs p hlen, asCalls,
    withFuncs_withFuncs p (hlen.trans (h.trans hlen'.symm))]

theorem typed_asCalls (p : Program) (marks : Marks) :
    (p.asCalls marks).typed =
      { program := p.typed.program.asCalls marks, outcome := p.typed.outcome } := by
  have hgains := (p.collect_gains .trivial ⟨fun _ _ _ => trivial, fun _ _ _ _ => trivial⟩).1
  have hlen := hgains.length_eq.symm
  have hcalls := p.collect_asCalls marks
  cases hcollect : p.collect with
  | mk fs outcome =>
    rw [hcollect] at hlen hcalls
    cases outcome with
    | error error => rw [typed, hcalls, typed, hcollect, withFuncs_asCalls p marks hlen]
    | ok σ =>
      obtain ⟨hprogram, houtcome⟩ := typed_of_collect hcollect
      obtain ⟨hprogram', houtcome'⟩ := typed_of_collect hcalls
      rw [Progress.ofFuncs_asCalls] at hprogram' houtcome'
      have hreached := (Progress.length_ofFuncs fs σ).trans hlen
      rw [hprogram, withFuncs_asCalls p marks hreached]
      exact congrArg₂ Analysis.mk hprogram' (houtcome'.trans houtcome.symm)

/-- The accesses of any choice of places may be written as calls before or after the analysis, with
the same tree in the end, the same scope and the same error. -/
theorem analyze_asCalls (p : Program) (marks : Marks) (o : Options) :
    (p.asCalls marks).analyze o =
      { program := (p.analyze o).program.asCalls marks, outcome := (p.analyze o).outcome } := by
  rw [analyze_eq, analyze_eq, typed_asCalls]
  rfl

/-- Of the two accesses in `n.next.next` the inner one is chosen, and both programs are accepted. -/
example :
    let n : Expr := .var "n" .unresolved {}
    let access (e : Expr) : Expr := .member e "next" .unresolved .unresolved {}
    let func (name : String) (e : Expr) : Definition := .funcDef
      { kind := .func, name, params := [⟨false, "n", some (.named "int" [] {}), .unresolved, {}⟩],
        written := none, body := .mk [.ret [e] {}] {}, ensure := none, ret := .unresolved,
        loc := {} }
    let written (e : Expr) : Program := ⟨[func "next" n, func "second" e], {}⟩
    let before := written (access (access n))
    let after := written (access (.named "next" [n] .unresolved .unresolved {}))
    before.asCalls (· == [1, 0, 0, 0, 0, 0, 0]) = after ∧
      (before.analyze {}).outcome.isOk = true ∧ (after.analyze {}).outcome.isOk = true := by
  refine ⟨rfl, ?_, ?_⟩
  all_goals decide +kernel

end Program

end Semant
