import Semant.Proofs.Analysis.Failures
import Semant.Proofs.Typing.Script
import Semant.Typing.Node

/-! The first error is the last thing that type resolution finds out. Where there is an error, the
walk of any node leaves the node and the state alone. So an analysis gives what one gives that
returns as soon as a check is refused: the same error and the same slots. -/

namespace Semant

open Resolve

section

variable (d : Demand) {s : Progress} (h : s.error ≠ none)

include h

theorem FuncDef.resolveBlocks_failed (f : FuncDef) : f.resolveBlocks d s = (f, s) := by
  simp only [FuncDef.resolveBlocks, bind_apply, pure_apply, Block.resolve_failed d h,
    Stmt.resolveOtherwise_failed d h]

theorem Definition.resolve_failed (definition : Definition) :
    definition.resolve d s = (definition, s) := by
  cases definition with
  | classDef c => rfl
  | funcDef f =>
    simp only [Definition.resolve, bind_apply, pure_apply, FuncDef.resolveBlocks_failed d h]

theorem Definition.resolveAll_failed (defs : List Definition) :
    Definition.resolveAll d defs s = (defs, s) := by
  induction defs with
  | nil => rfl
  | cons definition defs ih =>
    simp only [Definition.resolveAll, bind_apply, pure_apply, Definition.resolve_failed d h, ih]

theorem Node.resolve_failed (node : Node) : node.resolve d s = (node, s) := by
  cases node with
  | program p =>
    simp only [Node.resolve, bind_apply, pure_apply, Definition.resolveAll_failed d h]
  | funcDef f => simp only [Node.resolve, bind_apply, pure_apply, FuncDef.resolveBlocks_failed d h]
  | block b => simp only [Node.resolve, bind_apply, pure_apply, Block.resolve_failed d h]
  | stmt st => simp only [Node.resolve, bind_apply, pure_apply, Stmt.resolve_failed d h]
  | expr e => simp only [Node.resolve, bind_apply, pure_apply, Expr.resolve_failed d h]
  | classDef | param | decl | type => rfl

end

/-- Notes a return type that is still open. -/
def FuncDef.noteReturn (f : FuncDef) (id : DefId) (found : Option Ty) (s : Progress) :
    FuncDef × Progress :=
  match f.ret with
  | .resolved _ => (f, s)
  | .unresolved =>
    let ty := found.getD .unit
    ({ f with ret := .resolved ty },
      match s.scope.noteReturn id f.name ty with
      | .ok scope => { s with scope }
      | .error error => { s with error := some error })

/-- Types a function that is entered with the local names `env`, up to the first error. The local
names of `s` are given back in any case. -/
def FuncDef.untilError (d : Demand) (f : FuncDef) (id : DefId) (env : Env) (s : Progress) :
    FuncDef × Progress :=
  let body := (Script.block f.body).untilError d (s.enter id env f.returns)
  if body.2.failed then ({ f with body := body.1 }, body.2.leave id s)
  else
    let ensure := (Script.otherwise f.ensure).untilError d { body.2 with returns := none }
    let f := { f with body := body.1, ensure := ensure.1 }
    if ensure.2.failed then (f, ensure.2.leave id s)
    else f.noteReturn id (body.2.returns.bind Returns.expected) (ensure.2.leave id s)

/-- Analyzes a function up to the first error. It is put back with the slots that are filled. -/
def analyzeUntilError : (budget : Nat) → Demand
  | 0, _ => return
  | budget + 1, id => fun s =>
    if s.done.contains id then ((), s)
    else
      match s.funcs[id]? with
      | none => ((), s)
      | some f =>
        if s.active.contains id then
          ((), { s with error := some ((Cause.recursive f.name).error f.loc) })
        else
          match f.entry with
          | .error error => ((), { s with error := some error })
          | .ok env =>
            let r := f.untilError (analyzeUntilError budget) id env s
            ((), r.2.store id r.1)

/-- The turns of functions, up to the first error. -/
def Progress.turnsUntilError (budget : Nat) : List (FuncDef × DefId) → Progress → Progress
  | [], s => s
  | (f, id) :: todo, s =>
    let t := if f.isTemplate then s else (analyzeUntilError budget id s).2
    if t.failed then t else turnsUntilError budget todo t

/-- The analysis of a program, up to the first error. -/
def Program.untilError (p : Program) : Analysis :=
  match p.collect with
  | (funcs, .error error) => { program := p.withFuncs funcs, outcome := .error error }
  | (funcs, .ok scope) =>
    let reached := Progress.turnsUntilError (funcs.length + 1) funcs.zipIdx { funcs, scope }
    { program := p.withFuncs reached.funcs
      outcome := match reached.error with
        | some error => .error error
        | none => .ok reached.scope }

theorem FuncDef.settleReturn_failed {s : Progress} (h : s.error ≠ none) (f : FuncDef) (id : DefId)
    (found : Option Ty) : f.settleReturn id found s = (f, s) := by
  rcases f.settleReturn_cases id found s with
    ⟨_, hrun⟩ | ⟨_, _, hrun⟩ | ⟨_, _, hs, _⟩ | ⟨_, _, hs, _⟩
  · exact hrun
  · exact hrun
  · exact (h hs).elim
  · exact (h hs).elim

theorem FuncDef.settleReturn_eq_noteReturn {s : Progress} (h : s.error = none) (f : FuncDef)
    (id : DefId) (found : Option Ty) : f.settleReturn id found s = f.noteReturn id found s := by
  rcases f.settleReturn_cases id found s with
    ⟨hret, hrun⟩ | ⟨_, hs, _⟩ | ⟨scope, hret, _, hnote, hrun⟩ | ⟨error, hret, _, hnote, hrun⟩
  · rw [hrun, FuncDef.noteReturn]
    cases hslot : f.ret with
    | resolved => rfl
    | unresolved =>
      rw [hslot] at hret
      cases hret
  · exact (hs h).elim
  · rw [hrun, FuncDef.noteReturn, hret]
    dsimp only
    rw [hnote]
  · rw [hrun, FuncDef.noteReturn, hret]
    dsimp only
    rw [hnote]

theorem FuncDef.analyzed_eq_untilError {d d' : Demand} (hd : d.StopsAs d') (f : FuncDef)
    (id : DefId) (env : Env) {s : Progress} (hs : s.error = none) :
    f.analyzed d id env s = f.untilError d' id env s := by
  have henter : (s.enter id env f.returns).error = none := hs
  rw [FuncDef.analyzed, FuncDef.resolveBody_apply, FuncDef.untilError]
  dsimp only
  rw [(Script.block f.body).run_eq_untilError hd henter]
  generalize (Script.block f.body).untilError d' (s.enter id env f.returns) = body
  by_cases hbody : body.2.failed = true
  · -- What can be returned was still taken away, but leaving the function gives it back.
    have hfailed : { body.2 with returns := none }.error ≠ none := Progress.failed_iff.mp hbody
    have hleft : ({ body.2 with returns := none }.leave id s).error ≠ none := hfailed
    rw [if_pos hbody, Stmt.resolveOtherwise_failed d hfailed, FuncDef.settleReturn_failed hleft]
    rfl
  · have hok : { body.2 with returns := none }.error = none := Progress.not_failed_iff.mp hbody
    rw [if_neg hbody, (Script.otherwise f.ensure).run_eq_untilError hd hok]
    generalize (Script.otherwise f.ensure).untilError d' { body.2 with returns := none } = ensure
    by_cases hensure : ensure.2.failed = true
    · have hleft : (ensure.2.leave id s).error ≠ none := Progress.failed_iff.mp hensure
      rw [if_pos hensure, FuncDef.settleReturn_failed hleft]
    · have hleft : (ensure.2.leave id s).error = none := Progress.not_failed_iff.mp hensure
      rw [if_neg hensure, FuncDef.settleReturn_eq_noteReturn hleft]

theorem analyzeFunc_stopsAs (budget : Nat) :
    (analyzeFunc budget).StopsAs (analyzeUntilError budget) := by
  induction budget with
  | zero => exact ⟨fun _ _ _ => rfl, fun _ _ _ => rfl⟩
  | succ budget ih =>
    refine ⟨fun id s => analyzeFunc_failed (budget + 1) id, fun id s hs => ?_⟩
    rw [analyzeUntilError]
    dsimp only
    rcases analyzeFunc_cases budget id s with
      ⟨hskip, hrun⟩ | ⟨f, _, hdone, hf, hactive, hrun⟩ |
        ⟨f, error, _, hdone, hf, hidle, hentry, hrun⟩ |
        ⟨f, env, r, _, hdone, hf, hidle, hentry, hr, hrun⟩
    · rw [hrun]
      rcases hskip with h | h | h
      · exact (h hs).elim
      · rw [if_pos (List.contains_iff_mem.mpr h)]
      · rw [h]
        split <;> rfl
    · rw [hrun, if_neg (mt List.contains_iff_mem.mp hdone), hf]
      dsimp only
      rw [if_pos (List.contains_iff_mem.mpr hactive)]
    · rw [hrun, if_neg (mt List.contains_iff_mem.mp hdone), hf]
      dsimp only
      rw [if_neg (mt List.contains_iff_mem.mp hidle), hentry]
    · rw [hrun, if_neg (mt List.contains_iff_mem.mp hdone), hf]
      dsimp only
      rw [if_neg (mt List.contains_iff_mem.mp hidle), hentry, hr,
        FuncDef.analyzed_eq_untilError ih f id env hs]

theorem Progress.turns_eq_untilError (budget : Nat) (todo : List (FuncDef × DefId)) {s : Progress}
    (hs : s.error = none) :
    todo.foldl (Progress.visit budget) s = Progress.turnsUntilError budget todo s := by
  induction todo generalizing s with
  | nil => rfl
  | cons p todo ih =>
    obtain ⟨f, id⟩ := p
    rw [List.foldl_cons, Progress.turnsUntilError, Progress.visit,
      (analyzeFunc_stopsAs budget).agrees id s hs]
    dsimp only
    generalize (if f.isTemplate then s else (analyzeUntilError budget id s).2) = t
    by_cases ht : t.failed = true
    · rw [if_pos ht, foldl_visit_failed budget todo (Progress.failed_iff.mp ht)]
    · rw [if_neg ht]
      exact ih (Progress.not_failed_iff.mp ht)

theorem Program.typed_eq_untilError (p : Program) : p.typed = p.untilError := by
  rw [Program.untilError]
  cases hcollect : p.collect with
  | mk fs collected =>
    cases collected with
    | error error => simp only [Program.typed, hcollect]
    | ok σ =>
      obtain ⟨hprogram, houtcome⟩ := Program.typed_of_collect hcollect
      have hreached : Progress.ofFuncs fs σ = _ :=
        (Progress.ofFuncs_eq fs σ).trans (Progress.turns_eq_untilError _ _ rfl)
      rw [hreached] at hprogram houtcome
      generalize p.typed = a at hprogram houtcome
      obtain ⟨program, outcome⟩ := a
      subst hprogram houtcome
      rfl

/-- Where there is an error, the walk of a node of any sort leaves the node and the whole state as
they are. Hence an analysis gives the error of the first check that is refused, and the slots that
were filled until then: it does not differ from one that returns there. -/
theorem Program.analyze_stops :
    (∀ (d : Demand) (node : Node) (s : Progress), s.error ≠ none → node.resolve d s = (node, s)) ∧
    ∀ (o : Options) (p : Program), p.analyze o = p.untilError.inFile o.file :=
  ⟨fun d node _ hs => Node.resolve_failed d hs node,
    fun o p => by rw [Program.analyze_eq, Program.typed_eq_untilError]⟩

/-- The function that the first one asks for uses a name that is not declared. Another such name
comes after the call. -/
def twoFaults : Program where
  definitions :=
    let func (name : String) (body : List Stmt) : Definition := .funcDef
      { kind := .func, name, params := [], written := none, body := .mk body {}, ensure := none,
        ret := .unresolved, loc := {} }
    let one : Expr := .literal (.int 1) .unresolved {}
    let missing : Expr := .var "missing" .unresolved { line := 7, column := 3 }
    [func "lead"
        [.declare ⟨[⟨true, "n", none, .unresolved, {}⟩], some [one], {}⟩,
          .assign [.var "n" .unresolved {}] [.named "follow" [] .unresolved .unresolved {}] {},
          .ret [.var "lost" .unresolved {}] {}],
      func "follow" [.ret [.binary missing .add one .unresolved {}] {}]]
  loc := {}

/-- Only the first fault is reported. The call is bound by then and has no type yet, and nothing
after it is typed. -/
theorem Program.analyze_stops_twoFaults :
    let s : Progress :=
      { funcs := [], scope := {}, env := ⟨[("n", ⟨.bool, true⟩)], [[]]⟩, active := [1, 0],
        error := some (.internal "lost") }
    let node := Node.program twoFaults
    let left := (Node.program (twoFaults.analyze {}).program).preorder
    s.error ≠ none ∧ node.resolve (analyzeFunc 2) s = (node, s) ∧
      (twoFaults.analyze {}).error? = some (.semantic .undefinedVariable
        "variable 'missing' is not declared" { line := 7, column := 3 }) ∧
      (left.filterMap Node.calleeSlot?).map Slot.isResolved = [true] ∧
      (left.filterMap Node.typeSlot?).map Slot.isResolved =
        [false, true, true, true, false, false, false, false, false, true, false] := by
  intro s node left
  obtain ⟨hinert, hstops⟩ := Program.analyze_stops
  have hs : s.error ≠ none := by
    intro h
    cases h
  have herror : (twoFaults.untilError.inFile none).error? = some (.semantic .undefinedVariable
      "variable 'missing' is not declared" { line := 7, column := 3 }) := by
    decide +kernel
  have hcallees : ((Node.program (twoFaults.untilError.inFile none).program).preorder.filterMap
      Node.calleeSlot?).map Slot.isResolved = [true] := by
    decide +kernel
  have htypes : ((Node.program (twoFaults.untilError.inFile none).program).preorder.filterMap
      Node.typeSlot?).map Slot.isResolved =
        [false, true, true, true, false, false, false, false, false, true, false] := by
    decide +kernel
  rw [← hstops {}] at herror hcallees htypes
  exact ⟨hs, hinert _ node s hs, herror, hcallees, htypes⟩

end Semant
