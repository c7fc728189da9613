import Semant.Proofs.Analysis.KnownTypes
import Semant.Proofs.Analysis.Nesting
import Semant.Proofs.Analysis.Repetition
import Semant.Proofs.Analysis.WellFormedTypes
import Semant.Proofs.Scope.Definition
import Semant.Proofs.Typing.Completeness.Function

/-! A return type that was found may be written down. With it the function is no longer typed when a
call asks for it, so bodies come in another order, but each of them is typed in a scope that knows no
less than before. -/

namespace Semant

open Outcome

def FuncDef.annotate (te : TypeExpr) (f : FuncDef) : FuncDef :=
  { f with written := some te }

/-- The program with a return type written for the function at `id`. -/
def Program.annotate (p : Program) (id : DefId) (te : TypeExpr) : Program :=
  p.withFuncs (p.funcs.modify id (FuncDef.annotate te))

/-- A body agrees with a written return type that is the one it tells. -/
theorem FuncDef.Resolves.annotate {σ : Scope} {f f' : FuncDef} (h : f.Resolves σ f') {ty : Ty}
    (hret : f'.ret = .resolved ty) (te : TypeExpr) :
    FuncDef.Resolves σ { f with written := some te, ret := .resolved ty } (f'.annotate te) := by
  cases h with
  | mk hparams hbody hensure hreturning =>
    cases hret
    exact .mk hparams hbody hensure ⟨hreturning.agree, hreturning.valueless, rfl⟩

section

variable {fs typed : List FuncDef} {σ : Scope} {id : DefId} {f f' : FuncDef} {ty : Ty}
  {te : TypeExpr}

/-- With a written return type, the function at `id` is known from the start. -/
theorem Scope.known_annotate (l : List DefId) :
    (σ.known fs typed [id]).known (fs.set id { f with written := some te, ret := .resolved ty })
      (typed.set id (f'.annotate te)) l = σ.known fs typed (id :: l) := by
  unfold Scope.known
  congr 1
  rw [List.mapIdx_mapIdx]
  refine List.mapIdx_eq_mapIdx_iff.mpr fun k hk => ?_
  by_cases hid : id = k
  · subst hid
    simp only [Function.comp_apply, List.mem_cons, true_or, if_true]
    split
    · split
      · rename_i f₁ f₁' hf₁ _
        have hresolved : f₁.ret.isResolved = true := by
          rw [List.getElem?_set_self'] at hf₁
          obtain ⟨_, _, rfl⟩ := Option.map_eq_some_iff.mp hf₁
          rfl
        rw [FuncSymbol.noted, if_pos hresolved]
      · rfl
    · rfl
  · have hid' : ¬ k = id := fun h => hid h.symm
    simp only [Function.comp_apply, List.mem_cons, hid', false_or, List.not_mem_nil, if_false,
      List.getElem?_set_ne hid]

/-- The bodies in the order in which they were typed can be typed so with the return type written. -/
theorem Completed.annotate (hsig : σ.Signs fs) {l : List DefId} (h : Completed fs σ typed l)
    (hf : fs[id]? = some f) (hf' : typed[id]? = some f') (hret : f'.ret = .resolved ty)
    (te : TypeExpr) :
    Staged (fs.set id { f with written := some te, ret := .resolved ty }) (σ.known fs typed [id])
      (typed.set id (f'.annotate te)) l := by
  induction h with
  | nil => exact .nil
  | @cons k l f₁ f₁' hk hf₁ hf₁' hplain hres _ ih =>
    have hbody := hres _ (hsig.known_mono typed (List.subset_cons_self id l))
    by_cases hid : id = k
    · subst hid
      cases hf.symm.trans hf₁
      cases hf'.symm.trans hf₁'
      have hlt := (List.getElem?_eq_some_iff.mp hf).1
      have hlt' := (List.getElem?_eq_some_iff.mp hf').1
      refine .cons hk (List.getElem?_set_self hlt) (List.getElem?_set_self hlt') hplain ?_ ih
      rw [Scope.known_annotate]
      exact hbody.annotate hret te
    · rw [← List.getElem?_set_ne hid] at hf₁ hf₁'
      refine .cons hk hf₁ hf₁' hplain ?_ ih
      rw [Scope.known_annotate]
      exact hbody

theorem Progress.ofFuncs_annotate (hsig : σ.Signs fs)
    (hok : (Progress.ofFuncs fs σ).error = none) (hf : fs[id]? = some f)
    (hplain : f.isTemplate = false) (hf' : (Progress.ofFuncs fs σ).funcs[id]? = some f')
    (hret : f'.ret = .resolved ty)
    (hsig' : (σ.known fs (Progress.ofFuncs fs σ).funcs [id]).Signs
      (fs.set id { f with written := some te, ret := .resolved ty })) :
    let s := Progress.ofFuncs fs σ
    let t := Progress.ofFuncs (fs.set id { f with written := some te, ret := .resolved ty })
      (σ.known fs s.funcs [id])
    t.error = none ∧ t.scope = s.scope ∧ t.funcs = s.funcs.set id (f'.annotate te) := by
  intro s t
  obtain ⟨hist, hdone⟩ := Progress.ofFuncs_history hsig hok
  have hid : id ∈ s.done := hdone id f hf hplain
  have hstaged := hist.completed.annotate hsig hf hf' hret te
  have hgoal : ∀ k f₁, (fs.set id { f with written := some te, ret := .resolved ty })[k]? = some f₁ →
      f₁.isTemplate = false → k ∈ s.done := by
    intro k f₁ hf₁ hplain₁
    by_cases hk : id = k
    · exact hk ▸ hid
    · rw [List.getElem?_set_ne hk] at hf₁
      exact hdone k f₁ hf₁ hplain₁
  obtain ⟨hend, hall⟩ := Progress.ofFuncs_complete hsig' hstaged hgoal
  have hsame : ∀ k, k ∈ t.done ↔ k ∈ s.done := fun k => ⟨fun hk => hend.done hk, fun hk => hall hk⟩
  refine ⟨hend.ok, ?_, List.ext_getElem? fun k => ?_⟩
  · rw [hend.scope, Scope.known_annotate, hist.scope]
    -- In the end the function at `id` is done in both runs.
    refine Scope.known_of_mem_iff fun k => ?_
    rw [List.mem_cons, hsame, or_iff_right_of_imp]
    rintro rfl
    exact hid
  · rw [hend.funcs]
    split
    · rfl
    · rename_i hk
      rw [hsame] at hk
      have hne : id ≠ k := fun heq => hk (heq ▸ hid)
      rw [List.getElem?_set_ne hne, List.getElem?_set_ne hne, hist.pending k hk]

end

theorem FuncDef.Collects.annotate {σ : Scope} {id : DefId} {f₀ f : FuncDef} {g : FuncSymbol}
    (h : f₀.Collects σ id f g) (hinferred : f₀.isInferred = true) (hempty : f₀.ret = .unresolved)
    {te : TypeExpr} {ty : Ty} (hte : te.resolve σ = .ok ty) :
    f.ret = .unresolved ∧ (f₀.annotate te).Collects σ id
      { f with written := some te, ret := .resolved ty } { g with ret := .resolved ty } := by
  obtain ⟨hkind, hnone, _⟩ := FuncDef.isInferred_iff.mp hinferred
  obtain ⟨hparams, hret⟩ := h
  refine ⟨?_, .mk hparams (.written hkind rfl hte hempty)⟩
  cases hret with
  | proc hproc =>
    rw [hkind] at hproc
    cases hproc
  | written _ hw =>
    rw [hnone] at hw
    cases hw
  | inferred => exact hempty

/-- The symbol of an annotated function has the return type from the start. -/
theorem Program.collect_annotate {p : Program} {fs typed : List FuncDef} {σ : Scope}
    (h : p.collect = (fs, .ok σ)) {id : DefId} {f₀ f f' : FuncDef} (hf₀ : p.funcs[id]? = some f₀)
    (hinferred : f₀.isInferred = true) (hempty : f₀.ret = .unresolved) (hf : fs[id]? = some f)
    (hf' : typed[id]? = some f') {te : TypeExpr} {ty : Ty} (hret : f'.ret = .resolved ty)
    (hte : te.resolve σ = .ok ty) :
    (p.annotate id te).collect = (fs.set id { f with written := some te, ret := .resolved ty },
      .ok (σ.known fs typed [id])) := by
  have hsig := Program.collect_signs h
  obtain ⟨hnodup, hall, hpair, hclasses⟩ := Program.collect_eq_ok.mp h
  have hsame : (p.annotate id te).classes = p.classes := p.classes_withFuncs _
  have hfuncs : (p.annotate id te).funcs = p.funcs.modify id (FuncDef.annotate te) :=
    Program.funcs_withFuncs (List.length_modify ..)
  refine Program.collect_eq_ok.mpr ⟨hsame ▸ hnodup, ?_, (hsig.known_grows typed [id]).signatures hpair,
    hsame ▸ hclasses⟩
  rw [Program.classScope, hsame, hfuncs]
  have hlen := hall.length
  refine .of_get (by simp [hlen.1]) (by simp [Scope.known, hlen.2]) fun k f₁ f₁' g hf₁ hf₁' hg => ?_
  by_cases hid : id = k
  · subst hid
    obtain ⟨_, g₀, hf₂, hg₀, hcollects⟩ := hall.get hf₀
    cases hf.symm.trans hf₂
    obtain ⟨hopen, hannotated⟩ := hcollects.annotate hinferred hempty
      ((TypeExpr.resolve_of_classes hclasses te).symm.trans hte)
    have hopen' : ¬ f.ret.isResolved = true := by rw [hopen]; decide
    rw [Scope.known_mem (List.mem_singleton_self id) hf hf', hg₀, Option.map_some, FuncSymbol.noted,
      if_neg hopen', hret] at hg
    rw [List.getElem?_set_self (List.getElem?_eq_some_iff.mp hf).1] at hf₁'
    rw [List.getElem?_modify_eq, hf₀] at hf₁
    cases hf₁
    cases hf₁'
    cases hg
    exact hannotated
  · rw [List.getElem?_modify_ne _ _ hid] at hf₁
    rw [List.getElem?_set_ne hid] at hf₁'
    rw [Scope.known_not_mem (List.mem_singleton.not.mpr (Ne.symm hid))] at hg
    obtain ⟨_, _, hf₂, hg₂, hcollects⟩ := hall.get hf₁
    cases hf₂.symm.trans hf₁'
    cases hg₂.symm.trans hg
    exact hcollects

theorem Program.withFuncs_annotate (p : Program) {fs : List FuncDef}
    (hlen : fs.length = p.funcs.length) (id : DefId) (te : TypeExpr) :
    (p.annotate id te).withFuncs fs = p.withFuncs fs :=
  Program.withFuncs_withFuncs p (hlen.trans (List.length_modify ..).symm)

theorem Program.annotate_withFuncs (p : Program) {fs : List FuncDef} {id : DefId} {f : FuncDef}
    (hlen : fs.length = p.funcs.length) (hf : fs[id]? = some f) (te : TypeExpr) :
    (p.withFuncs fs).annotate id te = p.withFuncs (fs.set id (f.annotate te)) := by
  have hmodify : fs.modify id (FuncDef.annotate te) = fs.set id (f.annotate te) := by
    rw [List.modify_eq_set_getElem?, hf]
    rfl
  rw [Program.annotate, Program.funcs_withFuncs hlen, hmodify,
    Program.withFuncs_withFuncs p (List.length_set ..)]

/-- A function without a written return type gets one, and to write it down for the function changes
nothing else: the program is accepted again, with the same scope, and every slot of its tree holds
what it held before. -/
theorem Program.analyze_annotate {p : Program} {o : Options} {σ : Scope} (hfresh : p.isFresh = true)
    (h : (p.analyze o).outcome = .ok σ) {id : DefId} {f : FuncDef} (hf : p.funcs[id]? = some f)
    (hinferred : f.isInferred = true) :
    ∃ (f' : FuncDef) (ret : Ty), (p.analyze o).program.funcs[id]? = some f' ∧
      f'.ret = .resolved ret ∧ ∀ (te : TypeExpr) (ty : Ty), te.resolve σ = .ok ty → ty == ret →
        ∀ o' : Options, (p.annotate id te).analyze o' =
          { program := (p.analyze o).program.annotate id te, outcome := .ok σ } := by
  obtain ⟨fs, σ₀, hcollect, hok, rfl⟩ := Program.typed_eq_ok.mp (Program.typed_of_analyze h)
  obtain ⟨_, hall, _, _⟩ := Program.collect_eq_ok.mp hcollect
  have hsig := Program.collect_signs hcollect
  have hblank := Program.all_func (Program.isFresh_iff.mp hfresh) (List.mem_of_getElem? hf)
  have hempty := (FuncDef.blank_signature hblank).2
  obtain ⟨signed, _, hsigned, _, hcollects⟩ := hall.get hf
  have hplain : signed.isTemplate = false :=
    hcollects.isTemplate.trans (FuncDef.isInferred_iff.mp hinferred).2.2
  obtain ⟨f', hf', hres⟩ := Progress.ofFuncs_resolves hsig hok hsigned hplain
  obtain ⟨ret, hret⟩ := Option.isSome_iff_exists.mp hres.ret_isResolved
  rw [Program.program_analyze, Program.funcs_typed hcollect]
  refine ⟨f', ret, hf', Slot.get?_eq_some.mp hret, fun te ty hte hty o' => ?_⟩
  have hte₀ : te.resolve σ₀ = .ok ty :=
    (TypeExpr.resolve_of_classes (Progress.ofFuncs_classes hsig hok) te).symm.trans hte
  obtain ⟨hσ, hfs⟩ := Program.collect_admits hfresh hcollect
  have hadmits := Progress.ofFuncs_admits hsig hσ hfs hok f' (List.mem_of_getElem? hf') ret hret
  -- Equal types of one scope hold the same handles, so the two runs give the same tree.
  obtain rfl : ty = ret := (TypeExpr.admits hte₀).eq_of_same hadmits hty
  have hcollect' := Program.collect_annotate hcollect hf hinferred hempty hsigned hf'
    (Slot.get?_eq_some.mp hret) hte₀
  obtain ⟨hok', hscope, hfuncs⟩ := Progress.ofFuncs_annotate hsig hok hsigned hplain hf'
    (Slot.get?_eq_some.mp hret) (Program.collect_signs hcollect')
  obtain ⟨hprogram, houtcome⟩ := Program.typed_of_collect hcollect'
  have hlen : (Progress.ofFuncs fs σ₀).funcs.length = p.funcs.length :=
    (Progress.length_ofFuncs fs σ₀).trans hall.length.1
  have hsame : (p.annotate id te).typed.program = p.typed.program.annotate id te := by
    rw [hprogram, hfuncs, p.withFuncs_annotate ((List.length_set ..).trans hlen),
      (Program.typed_of_collect hcollect).1, p.annotate_withFuncs hlen hf']
  rw [hok', hscope] at houtcome
  rw [Program.analyze_eq, Analysis.inFile, houtcome, hsame]
  rfl

/-- The function `pair` asks for the return type of `wrap`, which comes after it. -/
def wrapping : Program where
  definitions :=
    let func (name : String) (values : List Expr) : Definition :=
      .funcDef
        { kind := .func, name, params := [], written := none, body := .mk [.ret values {}] {},
          ensure := none, ret := .unresolved, loc := {} }
    let call : Expr := .call (.var "wrap" .unresolved {}) [] .unresolved .unresolved {}
    [.classDef ⟨"Box", {}⟩,
      func "pair" [call, .literal (.bool true) .unresolved {}],
      func "wrap" [.construct (.named "Box" [] {}) [] .unresolved {}]]
  loc := {}

theorem Program.analyze_annotate_wrapping :
    let box : TypeExpr := .named "Box" [] {}
    wrapping.isFresh = true ∧ (wrapping.analyze {}).outcome.isOk = true ∧
      (wrapping.annotate 1 box).analyze { verify := false } =
        { program := (wrapping.analyze {}).program.annotate 1 box
          outcome := (wrapping.analyze {}).outcome } := by
  intro box
  have hfresh : wrapping.isFresh = true := by decide +kernel
  have hok : (wrapping.analyze {}).outcome.isOk = true := by decide +kernel
  obtain ⟨σ, h⟩ := exists_of_isOk hok
  have hf : wrapping.funcs[1]? = some _ := rfl
  obtain ⟨f', ret, hf', hret, hsame⟩ := Program.analyze_annotate hfresh h hf rfl
  have hfound : ((wrapping.analyze {}).program.funcs[1]?.bind (·.ret.get?)).any
      (.object "Box" [] (some 0) == ·) = true := by decide +kernel
  rw [hf', Option.bind_some, hret] at hfound
  have hbox : box.resolve σ = .ok (.object "Box" [] (some 0)) := by
    have hclasses : σ.classes = wrapping.classScope.classes := Program.analyze_classes h
    rw [TypeExpr.resolve_of_classes hclasses]
    rfl
  rw [h]
  exact ⟨hfresh, rfl, hsame box _ hbox hfound { verify := false }⟩

end Semant
