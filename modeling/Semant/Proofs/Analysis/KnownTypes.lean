import Semant.Proofs.Analysis.Filling
import Semant.Proofs.Typing.KnownTypes

/-! The types that are written in an accepted program are known, in the signatures of all functions
and in the blocks of those that are not templates. The one exception is a return type that is written
for a procedure: nothing depends on it, and it is not looked up. -/

namespace Semant

open Outline

variable {σ : Scope}

theorem Binder.CollectsAll.known {bs bs' : List Binder} {types : List ParamType}
    (h : Binder.CollectsAll σ bs bs' types) :
    ∀ b ∈ bs, AllOf σ.Knows (TypeExpr.outlineOption b.written) := by
  induction h with
  | nil => exact List.forall_mem_nil _
  | cons hb _ ih =>
    refine List.forall_mem_cons.mpr ⟨?_, ih⟩
    cases hb with
    | template hnone =>
      rw [hnone]
      exact allOf_nil
    | concrete hw hty =>
      rw [hw]
      exact allOf_cons.mpr ⟨TypeExpr.known hty, allOf_nil⟩

theorem FuncDef.CollectsReturn.known {f : FuncDef} {own ret : Slot Ty}
    (h : f.CollectsReturn σ own ret) (hkind : f.kind = .func) {t : TypeExpr}
    (ht : f.written = some t) : t.outline.All σ.Knows := by
  cases h with
  | proc hproc =>
    rw [hkind] at hproc
    cases hproc
  | written _ hw hty =>
    rw [ht] at hw
    cases hw
    exact TypeExpr.known hty
  | inferred _ hnone =>
    rw [ht] at hnone
    cases hnone

theorem FuncDef.Resolves.known {f f' : FuncDef} (h : f.Resolves σ f') :
    ∀ b ∈ f.blocks, b.outline.All σ.Knows := by
  obtain ⟨_, hbody, hensure, _⟩ := h
  refine List.forall_mem_cons.mpr ⟨hbody.known, fun b hb => ?_⟩
  have hknown := hensure.known
  rw [Option.mem_toList.mp hb] at hknown
  exact (allOf_cons.mp hknown).1

theorem Program.analyze_classes {p : Program} {o : Options} (h : (p.analyze o).outcome = .ok σ) :
    σ.classes = p.classes.map ClassDef.symbol := by
  obtain ⟨fs, σ₀, hcollect, herror, rfl⟩ := Program.typed_eq_ok.mp (Program.typed_of_analyze h)
  obtain ⟨_, _, _, hclasses⟩ := Program.collect_eq_ok.mp hcollect
  exact (Progress.ofFuncs_classes (Program.collect_signs hcollect) herror).trans hclasses

/-- Every name of a type that a walk meets in a parameter, in the return type of a function, or in
the body or the `ensure` block of what is not a template, is that of a builtin type or of a class in
the scope. -/
theorem Program.analyze_knows {p : Program} {o : Options} (h : (p.analyze o).outcome = .ok σ) :
    ∀ f ∈ p.funcs,
      (∀ b ∈ f.params, ∀ node ∈ (Node.param b).preorder, σ.Knows node) ∧
      (f.kind = .func → ∀ t, f.written = some t →
        ∀ node ∈ (Node.type t).preorder, σ.Knows node) ∧
      (f.isTemplate = false →
        ∀ b ∈ f.blocks, ∀ node ∈ (Node.block b).preorder, σ.Knows node) := by
  have hclasses := Program.analyze_classes h
  obtain ⟨fs, σ₀, hcollect, herror, rfl⟩ := Program.typed_eq_ok.mp (Program.typed_of_analyze h)
  obtain ⟨_, hall, _, _⟩ := Program.collect_eq_ok.mp hcollect
  have hsig := Program.collect_signs hcollect
  intro f hf
  obtain ⟨id, hid⟩ := List.mem_iff_getElem?.mp hf
  obtain ⟨signed, g, hsigned, _, hcollects⟩ := hall.get hid
  have htemplate := hcollects.isTemplate
  cases hcollects.of_classes hclasses with
  | mk hparams hret =>
    simp only [Node.forall_preorder]
    refine ⟨fun b hb => all_mk.mpr ⟨trivial, hparams.known b hb⟩, fun hkind t => hret.known hkind,
      fun hplain => ?_⟩
    obtain ⟨f', _, hres⟩ :=
      Progress.ofFuncs_resolves hsig herror hsigned (htemplate.trans hplain)
    exact hres.known

/-- A template whose parameter is a box of arrays, and a function that writes types in a
declaration, a loop, a construction, an ascription and a cast. -/
def packing : Program where
  definitions :=
    let int : TypeExpr := .named "int" [] {}
    let box (arg : TypeExpr) : TypeExpr := .named "Box" [arg] {}
    let binder (name : String) (written : Option TypeExpr) : Binder :=
      { isVar := false, name, written, ty := .unresolved, loc := {} }
    let func (name : String) (params : List Binder) (written : Option TypeExpr)
        (body : List Stmt) : Definition :=
      .funcDef
        { kind := .func, name, params, written, body := .mk body {}, ensure := none,
          ret := .unresolved, loc := {} }
    let empty : Expr := .typed (.array [] .unresolved {}) (.array int {}) .unresolved {}
    let wrapped (n : Expr) : Expr := .construct (box (.maybe int {})) [n] .unresolved {}
    [.classDef ⟨"Box", {}⟩,
      func "keep" [binder "x" none, binder "b" (some (box (.array int {})))]
        (some (box (box int))) [],
      func "pack" [binder "n" (some int)] none
        [.declare ⟨[binder "ns" (some (.array int {}))], some [empty], {}⟩,
          .forIn [binder "m" (some int)] (.var "ns" .unresolved {})
            (.mk [.expr (wrapped (.var "m" .unresolved {}))] {}) {},
          .ret [.cast (.var "n" .unresolved {}) (box int) .unresolved {}] {}]]
  loc := {}

theorem Program.analyze_knows_packing :
    ∃ (σ : Scope) (f : FuncDef), (packing.analyze {}).outcome = .ok σ ∧ f ∈ packing.funcs ∧
      f.name = "pack" ∧ f.isTemplate = false ∧
      (∀ b ∈ f.params, ∀ node ∈ (Node.param b).preorder, σ.Knows node) ∧
      ∀ b ∈ f.blocks, ∀ node ∈ (Node.block b).preorder, σ.Knows node := by
  have hok : (packing.analyze {}).outcome.isOk = true := by decide +kernel
  obtain ⟨σ, h⟩ := Outcome.exists_of_isOk hok
  have hf : packing.funcs[1]? = some _ := rfl
  have hmem := List.mem_of_getElem? hf
  obtain ⟨hparams, _, hblocks⟩ := Program.analyze_knows h _ hmem
  exact ⟨σ, _, h, hmem, rfl, rfl, hparams, hblocks rfl⟩

/-- A procedure for which the return type `Missing` is written. -/
def mislabelled : Program where
  definitions :=
    [.funcDef
      { kind := .proc, name := "note", params := [], written := some (.named "Missing" [] {}),
        body := .mk [] {}, ensure := none, ret := .unresolved, loc := {} }]
  loc := {}

/-- The return type that is written for a procedure may be unknown. -/
theorem Program.analyze_mislabelled :
    mislabelled.isFresh = true ∧ ∃ (σ : Scope) (f : FuncDef) (t : TypeExpr) (node : Node),
      (mislabelled.analyze {}).outcome = .ok σ ∧ f ∈ mislabelled.funcs ∧ f.written = some t ∧
        node ∈ (Node.type t).preorder ∧ ¬ σ.Knows node := by
  have hfresh : mislabelled.isFresh = true := by decide +kernel
  have hok : (mislabelled.analyze {}).outcome.isOk = true := by decide +kernel
  have hbuiltin : Builtin.ofName? "Missing" = none := by decide +kernel
  obtain ⟨σ, h⟩ := Outcome.exists_of_isOk hok
  have hclasses : σ.classes = [] := Program.analyze_classes h
  refine ⟨hfresh, σ, _, _, .type (.named "Missing" [] {}), h, List.mem_singleton_self _, rfl,
    List.mem_singleton_self _, ?_⟩
  simp [Scope.Knows, hbuiltin, hclasses]

end Semant
