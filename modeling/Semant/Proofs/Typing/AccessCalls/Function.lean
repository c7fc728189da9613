import Semant.Proofs.Typing.AccessCalls.Stmt
import Semant.Proofs.Typing.Extension.Function

/-! The analysis of functions in which accesses are written as calls. Every state it goes through is
that of the analysis of the functions themselves, with the same accesses as calls. -/

namespace Semant

open Resolve

namespace FuncDef

theorem isFree_eq (f : FuncDef) (name : String) :
    f.isFree name = f.outline.nodes.all fun n => n.binder?.all (·.name != name) := by
  rw [isFree, Node.preorder_eq]
  rfl

theorem isFree_emptied (f : FuncDef) : f.emptied.isFree = f.isFree := by
  have hnode : ∀ (name : String) (n : Node),
      n.emptied.binder?.all (·.name != name) = n.binder?.all (·.name != name) := by
    intro name n
    cases n <;> rfl
  funext name
  rw [isFree_eq, isFree_eq, nodes_emptied, List.all_map]
  exact congrArg (List.all _) (funext (hnode name))

/-- What is free in a function is a matter of its names, not of its slots. -/
theorem isFree_congr {f f' : FuncDef} (h : f'.emptied = f.emptied) : f'.isFree = f.isFree := by
  rw [← isFree_emptied f', h, isFree_emptied]

theorem shuns_isFree (f : FuncDef) : f.outline.All (Node.Shuns f.isFree) := by
  rw [Outline.all_iff_nodes]
  intro n hn b hb
  by_contra hfree
  rw [Bool.not_eq_false, isFree_eq, List.all_eq_true] at hfree
  have hname := hfree n hn
  rw [Option.mem_def.mp hb] at hname
  simp at hname

theorem clear_entry {f : FuncDef} {env : Env} (h : f.entry = .ok env) : env.Clear f.isFree := by
  have hall := f.shuns_isFree
  simp only [outline, Outline.all_mk, Outline.allOf_append] at hall
  have hparams := Binder.shuns_params hall.2.1.1
  obtain ⟨bindings, hbindings, rfl⟩ := entry_eq_ok.mp h
  have hnames : ∀ entry ∈ bindings, f.isFree entry.1 = false :=
    forall₂_forall (R := Binder.Means Eq) (fun b entry hmeans hb => by rw [hmeans.name]; exact hb)
      (Binder.means_of_mapM hbindings) hparams
  intro entry hentry
  rw [Env.context, Env.frames, List.flatten_cons, List.flatten_nil, List.append_nil,
    List.mem_reverse] at hentry
  exact hnames entry hentry

end FuncDef

variable {F : List FuncDef → List FuncDef} {d d' : Demand}

theorem RespellsDemand.resolveBody (hd : RespellsDemand F d d') (f : FuncDef) (marks : Marks)
    {s : Progress} (hs : s.env.Clear f.isFree) :
    (f.asCalls marks).resolveBody d' (s.mapFuncs F) =
      (((f.resolveBody d s).1.1.asCalls marks, (f.resolveBody d s).1.2),
        (f.resolveBody d s).2.mapFuncs F) := by
  have hall := f.shuns_isFree
  simp only [FuncDef.outline, Outline.all_mk, Outline.allOf_cons, Outline.allOf_append] at hall
  obtain ⟨hbody, hclear⟩ := hd.block f.body (marks.below 0) hall.2.2.1 s hs
  let after : Progress := { (f.body.resolve d s).2 with returns := none }
  obtain ⟨hensure, _⟩ := hd.otherwise f.ensure (marks.below 1) hall.2.2.2 after hclear
  -- The result is rewritten with the names that are free in it, and those are the same.
  have hfree : (f.resolveBody d s).1.1.isFree = f.isFree := by
    refine FuncDef.isFree_congr ?_
    rw [FuncDef.resolveBody_apply]
    simp only [FuncDef.emptied, FuncDef.blank, Block.blank_resolve, Stmt.blank_resolveOtherwise]
  have hresult : (f.resolveBody d s).1.1.asCalls marks =
      { f with
        body := (f.body.resolve d s).1.asCalls f.isFree (marks.below 0)
        ensure := Stmt.asCallsOtherwise f.isFree (marks.below 1)
          (Stmt.resolveOtherwise d f.ensure after).1 } := by
    rw [FuncDef.asCalls, hfree]
    rfl
  rw [hresult, FuncDef.resolveBody_apply, FuncDef.asCalls]
  dsimp only
  rw [hbody]
  have hafter : { (f.body.resolve d s).2.mapFuncs F with returns := none } = after.mapFuncs F := rfl
  rw [hafter, hensure]
  rfl

theorem Env.clear_none (env : Env) : env.Clear fun _ => false :=
  fun _ _ => rfl

theorem Respells.settleReturn (free : String → Bool) (f : FuncDef) (place : DefId)
    (found : Option Ty) (marks : Marks) :
    Respells F free (FuncDef.asCalls marks) (f.settleReturn place found)
      ((f.asCalls marks).settleReturn place found) := by
  have hdone : ∀ ret, Respells F free (FuncDef.asCalls marks) (Pure.pure { f with ret := ret })
      (Pure.pure { f.asCalls marks with ret := ret }) := by
    intro ret
    have hfree : { f with ret := ret }.isFree = f.isFree := FuncDef.isFree_congr rfl
    have hret : { f.asCalls marks with ret := ret } = { f with ret := ret }.asCalls marks := by
      rw [FuncDef.asCalls, FuncDef.asCalls, hfree]
    rw [hret]
    exact .pure _ _
  have hsame : (f.asCalls marks).ret = f.ret := rfl
  rw [FuncDef.settleReturn, FuncDef.settleReturn, hsame]
  split
  · exact .pure _ _
  · refine .bind (.settle _ fun _ => rfl) fun ret => .bind (.attempt fun _ => rfl) fun noted => ?_
    cases noted with
    | none => exact hdone ret
    | some scope => exact .bind (g := id) (fun _ hs => ⟨rfl, hs⟩) fun _ => hdone ret

theorem RespellsDemand.analyzed (hd : RespellsDemand F d d') {f : FuncDef} {env : Env}
    (henv : f.entry = .ok env) (marks : Marks) (id : DefId) (s : Progress) :
    (f.asCalls marks).analyzed d' id env (s.mapFuncs F) =
      ((f.analyzed d id env s).1.asCalls marks, (f.analyzed d id env s).2.mapFuncs F) := by
  have hentered : (s.mapFuncs F).enter id env (f.asCalls marks).returns =
      (s.enter id env f.returns).mapFuncs F := rfl
  have hbody := hd.resolveBody f marks (s := s.enter id env f.returns) (FuncDef.clear_entry henv)
  let r := f.resolveBody d (s.enter id env f.returns)
  rw [FuncDef.analyzed, hentered, hbody]
  exact (Respells.settleReturn _ r.1.1 id r.1.2 marks (r.2.leave id s) (Env.clear_none _)).1

theorem Progress.store_mapFuncs (marks : Marks) (s : Progress) (id : DefId) (f : FuncDef) :
    (s.mapFuncs (FuncDef.asCallsAll marks)).store id (f.asCalls (marks.below id)) =
      (s.store id f).mapFuncs (FuncDef.asCallsAll marks) := by
  have hset : (FuncDef.asCallsAll marks s.funcs).set id (f.asCalls (marks.below id)) =
      FuncDef.asCallsAll marks (s.funcs.set id f) := by
    rw [FuncDef.asCallsAll, FuncDef.asCallsAll, List.mapIdx_set]
  rw [Progress.store, Progress.mapFuncs, hset]
  rfl

/-- Analyzing a function on demand comes to the same slots, scope and error. -/
theorem analyzeFunc_asCalls (marks : Marks) (budget : Nat) :
    RespellsDemand (FuncDef.asCallsAll marks) (analyzeFunc budget) (analyzeFunc budget) := by
  refine ⟨?_, analyzeFunc_discreet budget⟩
  induction budget with
  | zero => exact fun _ _ => rfl
  | succ budget ih =>
    intro id s
    have hd : RespellsDemand (FuncDef.asCallsAll marks) (analyzeFunc budget) (analyzeFunc budget) :=
      ⟨ih, analyzeFunc_discreet budget⟩
    have hfuncs : (s.mapFuncs (FuncDef.asCallsAll marks)).funcs[id]? =
        s.funcs[id]?.map (FuncDef.asCalls (marks.below id)) :=
      List.getElem?_mapIdx
    have hfailed : (s.mapFuncs (FuncDef.asCallsAll marks)).failed = s.failed := rfl
    have hdone : (s.mapFuncs (FuncDef.asCallsAll marks)).done = s.done := rfl
    have hactive : (s.mapFuncs (FuncDef.asCallsAll marks)).active = s.active := rfl
    -- The two runs take the same branch, since nothing that they test is rewritten.
    rw [analyzeFunc, bind_apply, bind_apply, get_apply, get_apply]
    dsimp only
    rw [hfuncs, hfailed, hdone, hactive]
    by_cases hskip : (s.failed || s.done.contains id) = true
    · rw [if_pos hskip, if_pos hskip]
      rfl
    rw [if_neg hskip, if_neg hskip]
    cases s.funcs[id]? with
    | none => rfl
    | some f =>
      rw [Option.map_some]
      dsimp only
      by_cases hbusy : s.active.contains id = true
      · rw [if_pos hbusy, if_pos hbusy]
        exact (Respells.check (fun _ => rfl) s s.env.clear_none).1
      · have hentry : attempt (fun _ => (f.asCalls (marks.below id)).entry)
            (s.mapFuncs (FuncDef.asCallsAll marks)) = ((attempt (fun _ => f.entry) s).1,
              (attempt (fun _ => f.entry) s).2.mapFuncs (FuncDef.asCallsAll marks)) :=
          (Respells.attempt (fun _ => rfl) s s.env.clear_none).1
        rw [if_neg hbusy, if_neg hbusy, bind_apply, bind_apply, hentry]
        rcases attempt_cases (fun _ => f.entry) s with
          ⟨env, _, henv, hrun⟩ | ⟨_, hrun⟩ | ⟨_, _, _, hrun⟩
        · rw [hrun]
          have hanalyzed := hd.analyzed henv (marks.below id) id s
          exact (congrArg (fun r => ((), r.2.store id r.1)) hanalyzed).trans
            (congrArg (Prod.mk ()) (Progress.store_mapFuncs marks _ id _))
        · rw [hrun]
          rfl
        · rw [hrun]
          rfl

theorem Progress.visit_asCalls (marks : Marks) (budget : Nat) (s : Progress)
    (p : FuncDef × DefId) :
    (s.mapFuncs (FuncDef.asCallsAll marks)).visit budget (p.1.asCalls (marks.below p.2), p.2) =
      (s.visit budget p).mapFuncs (FuncDef.asCallsAll marks) := by
  have htemplate : (p.1.asCalls (marks.below p.2)).isTemplate = p.1.isTemplate := rfl
  rw [Progress.visit, Progress.visit, htemplate]
  split
  · rfl
  · rw [(analyzeFunc_asCalls marks budget).demand]

theorem FuncDef.zipIdx_asCallsAll (marks : Marks) (fs : List FuncDef) :
    (FuncDef.asCallsAll marks fs).zipIdx =
      fs.zipIdx.map fun p => (p.1.asCalls (marks.below p.2), p.2) := by
  refine List.ext_getElem? fun i => ?_
  simp [FuncDef.asCallsAll, Function.comp_def]

/-- The analysis of all functions with accesses as calls is that of the functions themselves, with
the same accesses as calls in the end. -/
theorem Progress.ofFuncs_asCalls (marks : Marks) (fs : List FuncDef) (σ : Scope) :
    Progress.ofFuncs (FuncDef.asCallsAll marks fs) σ =
      (Progress.ofFuncs fs σ).mapFuncs (FuncDef.asCallsAll marks) := by
  have hlength : (FuncDef.asCallsAll marks fs).length = fs.length := List.length_mapIdx
  have hstart : { funcs := FuncDef.asCallsAll marks fs, scope := σ } =
      Progress.mapFuncs (FuncDef.asCallsAll marks) { funcs := fs, scope := σ } := rfl
  rw [Progress.ofFuncs_eq, Progress.ofFuncs_eq, hlength, FuncDef.zipIdx_asCallsAll, List.foldl_map,
    hstart]
  refine List.foldl_hom (Progress.mapFuncs (FuncDef.asCallsAll marks)) ?_
  exact Progress.visit_asCalls marks (fs.length + 1)

end Semant
