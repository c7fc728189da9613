import Semant.Proofs.Typing.Extension.Stmt
import Semant.Proofs.Typing.Frame
import Semant.Proofs.Typing.Sites

/-! What the analysis of the functions does to them: slots take values and nothing else changes. -/

namespace Semant

open Resolve Outcome

variable {Q : Ty → Prop} {fs : List FuncDef} {s : Progress}

theorem FuncDef.Gains.refl (f : FuncDef) : f.Gains Q f :=
  ⟨rfl, .refl _⟩

theorem FuncDef.Gains.trans {f f' f'' : FuncDef} (h : f.Gains Q f') (h' : f'.Gains Q f'') :
    f.Gains Q f'' :=
  ⟨h'.same.trans h.same, h.nodes.trans h'.nodes⟩

theorem FuncDef.Gains.forall_holds {fs fs' : List FuncDef}
    (h : List.Forall₂ (FuncDef.Gains Q) fs fs') (hfs : ∀ f ∈ fs, f.outline.All (Node.Holds Q)) :
    ∀ f ∈ fs', f.outline.All (Node.Holds Q) :=
  forall₂_forall (fun _ _ hf => hf.nodes.holds) h hfs

/-- The types in the signature of a function and in its blocks are of `Q`. -/
structure FuncDef.Holds (Q : Ty → Prop) (f : FuncDef) : Prop where
  params : ∀ b ∈ f.params, ∀ ty ∈ b.ty.get?, Q ty
  ret : ∀ ty ∈ f.ret.get?, Q ty
  body : f.body.outline.All (Node.Holds Q)
  ensure : Outline.AllOf (Node.Holds Q) (Stmt.outlineOtherwise f.ensure)

theorem FuncDef.holds {f : FuncDef} (h : f.outline.All (Node.Holds Q)) : f.Holds Q := by
  simp only [FuncDef.outline, Outline.all_mk, Outline.allOf_cons, Outline.allOf_append] at h
  obtain ⟨hnode, ⟨hparams, _⟩, hbody, hensure⟩ := h
  refine ⟨fun b hb => ?_, hnode f.ret rfl, hbody, hensure⟩
  have hparam := Outline.allOf_iff.mp hparams b.paramOutline (List.mem_map_of_mem hb)
  exact (Outline.all_mk.mp hparam).1 b.ty rfl

theorem FuncDef.Holds.entry {f : FuncDef} (h : f.Holds Q) {env : Env} (henv : f.entry = .ok env) :
    ∀ entry ∈ env.context, Q entry.2.ty := by
  obtain ⟨bindings, hbindings, rfl⟩ := FuncDef.entry_eq_ok.mp henv
  have hall := Binder.Means.forall_ty (Binder.means_of_mapM hbindings) h.params
  intro entry hentry
  rw [Env.context, Env.frames, List.flatten_cons, List.flatten_nil, List.append_nil,
    List.mem_reverse] at hentry
  exact hall entry hentry

theorem Extending.resolveBody {d : Demand} (hd : Extending Q fs d) {f : FuncDef} (hf : f.Holds Q)
    (hs : s.Within Q fs) :
    f.Gains Q (f.resolveBody d s).1.1 ∧ (∀ ty ∈ (f.resolveBody d s).1.2, Q ty) ∧
      (f.resolveBody d s).2.Within Q fs := by
  obtain ⟨hbody, hs⟩ := hd.block f.body s hf.body hs
  have hreturns : Progress.Within Q fs { (f.body.resolve d s).2 with returns := none } :=
    ⟨hs.env, by rintro _ ⟨⟩, hs.scope, hs.funcs⟩
  obtain ⟨hensure, hend⟩ := hd.otherwise f.ensure _ hf.ensure hreturns
  rw [FuncDef.resolveBody_apply]
  refine ⟨⟨?_, ?_⟩, fun ty hty => ?_, hend⟩
  · simp only [FuncDef.emptied, FuncDef.blank, Block.blank_resolve, Stmt.blank_resolveOtherwise]
  · exact .mk ⟨.some (.kept f.ret), .none⟩ (.append (.refl _) (.cons hbody hensure))
  · obtain ⟨returns, hreturned, hexpected⟩ := Option.bind_eq_some_iff.mp hty
    exact hs.returns returns hreturned ty hexpected

theorem Scope.Within.noteReturn {σ τ : Scope} (h : σ.Within Q) {id : DefId} {name : String}
    {ty : Ty} (hty : Q ty) (hτ : σ.noteReturn id name ty = .ok τ) : τ.Within Q := by
  refine ⟨fun t found hfound => ?_, ?_⟩
  · rw [TypeExpr.resolve_congr (Scope.noteReturn_grows hτ).lookupClass?] at hfound
    exact h.written t found hfound
  · obtain ⟨k, g, _, hg, _, rfl⟩ := Scope.noteReturn_eq_ok.mp hτ
    intro g' hmem
    rcases List.mem_or_eq_of_mem_set hmem with hmem | rfl
    · exact h.symbols g' hmem
    · rintro _ ⟨⟩
      exact hty

theorem Progress.Within.settleReturn (hQ : Ty.Closed Q) (h : s.Within Q fs) (f : FuncDef)
    (id : DefId) {found : Option Ty} (hfound : ∀ ty ∈ found, Q ty) :
    f.Gains Q (f.settleReturn id found s).1 ∧ (f.settleReturn id found s).2.Within Q fs := by
  have hty : Q (found.getD .unit) := by
    cases found with
    | none => exact hQ.unit
    | some ty => exact hfound ty rfl
  have hfilled : f.ret = .unresolved →
      f.Gains Q { f with ret := .resolved (found.getD .unit) } := by
    intro hret
    refine ⟨rfl, .mk ⟨.some ?_, .none⟩ (.refl _)⟩
    rw [hret]
    exact .filled hty
  rcases f.settleReturn_cases id found s with
    ⟨_, hrun⟩ | ⟨_, _, hrun⟩ | ⟨scope, hret, _, hscope, hrun⟩ | ⟨error, hret, _, _, hrun⟩
  · rw [hrun]
    exact ⟨.refl f, h⟩
  · rw [hrun]
    exact ⟨.refl f, h⟩
  · rw [hrun]
    exact ⟨hfilled hret, h.env, h.returns, h.scope.noteReturn hty hscope, h.funcs⟩
  · rw [hrun]
    exact ⟨hfilled hret, h.fail error⟩

theorem FuncDef.analyzed_within {d : Demand} (hd : Extending Q fs d) {f : FuncDef} (hf : f.Holds Q)
    (hs : s.Within Q fs) (id : DefId) {env : Env} (henv : f.entry = .ok env) :
    f.Gains Q (f.analyzed d id env s).1 ∧ (f.analyzed d id env s).2.Within Q fs := by
  have hentered : (s.enter id env f.returns).Within Q fs := by
    refine ⟨hf.entry henv, ?_, hs.scope, hs.funcs⟩
    rintro _ ⟨⟩
    exact hf.ret
  obtain ⟨hbody, hfound, hend⟩ := hd.resolveBody hf hentered
  have hleft : ((f.resolveBody d (s.enter id env f.returns)).2.leave id s).Within Q fs :=
    ⟨hs.env, hs.returns, hend.scope, hend.funcs⟩
  obtain ⟨hsettled, hfinal⟩ := hleft.settleReturn hd.types _ id hfound
  exact ⟨hbody.trans hsettled, hfinal⟩

section

variable (hQ : Ty.Closed Q) (hfs : ∀ f ∈ fs, f.outline.All (Node.Holds Q))

include hQ hfs

theorem analyzeFunc_within (budget : Nat) (id : DefId) (s : Progress) (h : s.Within Q fs) :
    (analyzeFunc budget id s).2.Within Q fs := by
  induction budget generalizing id s with
  | zero => exact h
  | succ budget ih =>
    rcases analyzeFunc_cases budget id s with
      ⟨_, hrun⟩ | ⟨_, _, _, _, _, hrun⟩ | ⟨_, error, _, _, _, _, _, hrun⟩ |
        ⟨f, env, r, _, _, hf, _, hentry, hr, hrun⟩
    · rw [hrun]
      exact h
    · rw [hrun]
      exact h.fail _
    · rw [hrun]
      exact h.fail error
    · obtain ⟨hid, rfl⟩ := List.getElem?_eq_some_iff.mp hf
      have hid₀ : id < fs.length := h.funcs.length_eq ▸ hid
      have hbefore : fs[id].Gains Q s.funcs[id] := h.funcs.get hid₀ hid
      have hholds := FuncDef.holds (hbefore.nodes.holds (hfs fs[id] (List.getElem_mem hid₀)))
      obtain ⟨hgains, hend⟩ := FuncDef.analyzed_within ⟨hQ, ih⟩ hholds h id hentry
      rw [hrun, hr]
      refine ⟨hend.env, hend.returns, hend.scope, ?_⟩
      refine forall₂_set hend.funcs fun f₀ hf₀ => ?_
      rw [List.getElem?_eq_getElem hid₀] at hf₀
      cases hf₀
      exact hbefore.trans hgains

/-- The analysis of all functions fills slots with types of `Q`, also where it fails. -/
theorem Progress.ofFuncs_within {σ : Scope} (hσ : σ.Within Q) :
    (Progress.ofFuncs fs σ).Within Q fs := by
  have hturns : ∀ (todo : List (FuncDef × DefId)) (s : Progress), s.Within Q fs →
      (todo.foldl (Progress.visit (fs.length + 1)) s).Within Q fs := by
    intro todo
    induction todo with
    | nil => exact fun _ h => h
    | cons p todo ih =>
      intro s h
      refine ih _ ?_
      unfold Progress.visit
      split
      · exact h
      · exact analyzeFunc_within hQ hfs _ p.2 s h
  rw [Progress.ofFuncs_eq]
  refine hturns _ _ ⟨List.forall_mem_nil _, by rintro _ ⟨⟩, hσ, ?_⟩
  exact List.forall₂_same.mpr fun f _ => .refl f

end

end Semant
