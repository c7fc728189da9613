import Semant.Proofs.Analysis.Binding
import Semant.Proofs.Typing.Frame
import Semant.Proofs.Typing.Places

/-! Which slots an analysis fills. An accepted program has every slot filled that can be: of a
template only what is written, of other functions everything but the names of bound calls. Whether
the program is accepted or not, no template is entered and no parameter gets a type that is not
written. -/

namespace Semant

/-- The slot of a parameter is filled from its written type only. -/
structure Binder.Spared (b b' : Binder) : Prop where
  rest : b' = { b with ty := b'.ty }
  unwritten : b.written = none → b' = b

structure FuncDef.Spared (f f' : FuncDef) : Prop where
  rest : f' = { f with params := f'.params, body := f'.body, ensure := f'.ensure, ret := f'.ret }
  params : List.Forall₂ Binder.Spared f.params f'.params
  template : f.isTemplate = true → f'.body = f.body ∧ f'.ensure = f.ensure

theorem Binder.Spared.refl (b : Binder) : b.Spared b :=
  ⟨rfl, fun _ => rfl⟩

theorem FuncDef.Spared.refl (f : FuncDef) : f.Spared f :=
  ⟨rfl, List.forall₂_same.mpr fun b _ => .refl b, fun _ => ⟨rfl, rfl⟩⟩

theorem Binder.Collects.spared {σ : Scope} {b b' : Binder} {param : ParamType}
    (h : b.Collects σ b' param) : b.Spared b' := by
  cases h with
  | template => exact .refl b
  | concrete hw =>
    refine ⟨rfl, fun hnone => ?_⟩
    rw [hw] at hnone
    cases hnone

theorem Binder.collectAll_spared (σ : Scope) (bs : List Binder) :
    List.Forall₂ Binder.Spared bs (Binder.collectAll σ bs).1 := by
  induction bs with
  | nil => exact .nil
  | cons b bs ih =>
    rw [Binder.collectAll]
    cases hb : b.collect σ with
    | error => exact List.forall₂_same.mpr fun b _ => .refl b
    | ok r => exact .cons (Binder.collect_eq_ok.mp hb).spared ih

/-- The parameters and the slot for the return type are all that collection changes. -/
theorem FuncDef.collect_eq (σ : Scope) (id : DefId) (f : FuncDef) :
    (f.collect σ id).1 =
      { f with params := (Binder.collectAll σ f.params).1, ret := (f.collect σ id).1.ret } := by
  unfold FuncDef.collect
  cases hparams : Binder.collectAll σ f.params with
  | mk params outcome =>
    cases outcome with
    | error => rfl
    | ok types =>
      dsimp only
      cases hret : FuncDef.collectReturn σ { f with params } with
      | error => rfl
      | ok slots => rfl

theorem FuncDef.collect_spared (σ : Scope) (id : DefId) (f : FuncDef) :
    f.Spared (f.collect σ id).1 := by
  rw [FuncDef.collect_eq]
  exact ⟨rfl, Binder.collectAll_spared σ f.params, fun _ => ⟨rfl, rfl⟩⟩

theorem FuncDef.collectAll_spared (σ : Scope) (id : DefId) (fs : List FuncDef) :
    List.Forall₂ FuncDef.Spared fs (FuncDef.collectAll σ id fs).1 := by
  induction fs generalizing σ id with
  | nil => exact .nil
  | cons f fs ih =>
    have hf := FuncDef.collect_spared σ id f
    rw [FuncDef.collectAll]
    cases hrun : f.collect σ id with
    | mk f' outcome =>
      rw [hrun] at hf
      cases outcome with
      | error => exact .cons hf (List.forall₂_same.mpr fun f _ => .refl f)
      | ok τ => exact .cons hf (ih τ (id + 1))

theorem Program.collect_spared (p : Program) :
    List.Forall₂ FuncDef.Spared p.funcs p.collect.1 := by
  unfold Program.collect
  cases Scope.collectClasses p.classes with
  | error => exact List.forall₂_same.mpr fun f _ => .refl f
  | ok σ => exact FuncDef.collectAll_spared σ 0 p.funcs

theorem FuncDef.Spared.isTemplate {f f' : FuncDef} (h : f.Spared f') :
    f'.isTemplate = f.isTemplate := by
  have hparams := h.params
  simp only [FuncDef.isTemplate]
  generalize f.params = bs at hparams ⊢
  generalize f'.params = bs' at hparams ⊢
  induction hparams with
  | nil => rfl
  | cons hb _ ih =>
    rw [List.any_cons, List.any_cons, ih, hb.rest]
    rfl

theorem FuncDef.Spared.kept {f signed f' : FuncDef} (h : f.Spared signed) (hk : signed.Kept f') :
    f.Spared f' := by
  refine ⟨?_, ?_, fun htemplate => ?_⟩
  · rw [hk.signature, h.rest]
  · rw [hk.signature]
    exact h.params
  · rw [hk.template (h.isTemplate.trans htemplate)]
    exact h.template htemplate

/-- No run enters a template or gives a parameter a type that is not written. -/
theorem Program.typed_spared (p : Program) :
    List.Forall₂ FuncDef.Spared p.funcs p.typed.program.funcs := by
  have hcollected := p.collect_spared
  cases hcollect : p.collect with
  | mk fs outcome =>
    rw [hcollect] at hcollected
    have hlen : fs.length = p.funcs.length := hcollected.length_eq.symm
    cases outcome with
    | error error =>
      have hprogram : p.typed.program = p.withFuncs fs := by rw [Program.typed, hcollect]
      rw [hprogram, Program.funcs_withFuncs hlen]
      exact hcollected
    | ok σ =>
      have hframes := Progress.ofFuncs_frames (Program.collect_signs hcollect)
      have hlen' := hframes.funcs.length_eq
      rw [Program.funcs_typed hcollect]
      refine List.forall₂_iff_get.mpr ⟨hlen.symm.trans hlen', fun i hi hi' => ?_⟩
      have hi₁ : i < fs.length := hlen ▸ hi
      exact (hcollected.get hi hi₁).kept (hframes.funcs.get hi₁ hi')

/-- The body and the `ensure` block. -/
def FuncDef.blocks (f : FuncDef) : List Block :=
  f.body :: f.ensure.toList

/-- The slots of a definition in an accepted program. -/
structure FuncDef.Filled (f : FuncDef) : Prop where
  params : ∀ b ∈ f.params, b.ty.isResolved = b.written.isSome
  ret : f.ret.isResolved = (!f.isTemplate || f.kind == .proc || f.written.isSome)
  template : f.isTemplate = true →
    ∀ b ∈ f.blocks, ∀ node ∈ (Node.block b).preorder, node.isBlank = true
  plain : f.isTemplate = false → ∀ b ∈ f.blocks,
    (Node.block b).places.map Place.node = (Node.block b).preorder ∧
      ∀ place ∈ (Node.block b).places, place.isComplete = true

theorem Binder.CollectsAll.filled {σ : Scope} {bs bs' : List Binder} {types : List ParamType}
    (h : Binder.CollectsAll σ bs bs' types) (hblank : ∀ b ∈ bs, b.ty = .unresolved) :
    ∀ b ∈ bs', b.ty.isResolved = b.written.isSome := by
  induction h with
  | nil => exact List.forall_mem_nil _
  | cons hb _ ih =>
    obtain ⟨hslot, hrest⟩ := List.forall_mem_cons.mp hblank
    refine List.forall_mem_cons.mpr ⟨?_, ih hrest⟩
    cases hb with
    | template hw =>
      rw [hslot, hw]
      rfl
    | concrete hw =>
      rw [hw]
      rfl

theorem FuncDef.CollectsReturn.filled {σ : Scope} {f : FuncDef} {own slot : Slot Ty}
    (h : f.CollectsReturn σ own slot) (hret : f.ret = .unresolved) :
    own.isResolved = (f.kind == .proc || f.written.isSome) := by
  cases h with
  | proc hkind =>
    rw [hkind]
    rfl
  | written hkind hw =>
    rw [hkind, hw]
    rfl
  | inferred hkind hw =>
    rw [hret, hkind, hw]
    rfl

theorem FuncDef.Untyped.blocks {f : FuncDef} (h : f.Untyped) :
    ∀ b ∈ f.blocks, b.outline.All (·.isBlank = true) := by
  refine List.forall_mem_cons.mpr ⟨h.body, fun b hb => ?_⟩
  have hensure := h.ensure
  rw [Option.mem_toList.mp hb] at hensure
  exact (Outline.allOf_cons.mp hensure).1

theorem FuncDef.Resolves.complete {σ : Scope} {f f' : FuncDef} (h : f.Resolves σ f')
    (hblank : f.Untyped) : ∀ b ∈ f'.blocks, b.outline.Complete false := by
  obtain ⟨_, hbody, hensure, _⟩ := h
  refine List.forall_mem_cons.mpr ⟨hbody.complete hblank.body, fun b hb => ?_⟩
  cases Option.mem_toList.mp hb
  exact (Outline.completeOf_cons.mp (hensure.complete hblank.ensure)).1

section

variable {σ : Scope} {id : DefId} {f signed : FuncDef} {g : FuncSymbol}

theorem FuncDef.Collects.filled_of_template (h : f.Collects σ id signed g)
    (hblank : f.outline.All (·.isBlank = true)) (htemplate : signed.isTemplate = true) :
    signed.Filled := by
  obtain ⟨hparams, hret⟩ := FuncDef.blank_signature hblank
  have huntyped := h.untyped (FuncDef.untyped_of_blank hblank)
  refine ⟨?_, ?_, fun _ b hb => Node.forall_preorder.mpr (huntyped.blocks b hb), fun hplain => ?_⟩
  · cases h with
    | mk hcollects => exact hcollects.filled hparams
  · rw [htemplate]
    cases h with
    | mk _ hreturn => exact hreturn.filled hret
  · rw [htemplate] at hplain
    cases hplain

theorem FuncDef.Collects.filled_of_plain {τ : Scope} {f' : FuncDef} (h : f.Collects σ id signed g)
    (hblank : f.outline.All (·.isBlank = true)) (hplain : signed.isTemplate = false)
    (hres : signed.Resolves τ f') : f'.Filled := by
  have hparams := (FuncDef.blank_signature hblank).1
  have hcomplete := hres.complete (h.untyped (FuncDef.untyped_of_blank hblank))
  obtain ⟨_, _, _, _⟩ := hres
  refine ⟨?_, ?_, fun htemplate => ?_, fun _ b hb => ⟨Node.map_node_places _, hcomplete b hb⟩⟩
  · cases h with
    | mk hcollects => exact hcollects.filled hparams
  · change true = (!signed.isTemplate || _ || _)
    rw [hplain]
    rfl
  · change signed.isTemplate = true at htemplate
    rw [hplain] at htemplate
    cases htemplate

end

theorem Program.typed_filled {p : Program} {τ : Scope} (hfresh : p.isFresh = true)
    (h : p.typed.outcome = .ok τ) : ∀ f ∈ p.typed.program.funcs, f.Filled := by
  obtain ⟨fs, σ, hcollect, herror, -⟩ := Program.typed_eq_ok.mp h
  obtain ⟨_, hall, _, _⟩ := Program.collect_eq_ok.mp hcollect
  have hsig := Program.collect_signs hcollect
  have hframes := Progress.ofFuncs_frames hsig
  intro f' hf'
  rw [Program.funcs_typed hcollect] at hf'
  obtain ⟨id, hid⟩ := List.mem_iff_getElem?.mp hf'
  have hlt : id < fs.length :=
    hframes.funcs.length_eq ▸ (List.getElem?_eq_some_iff.mp hid).1
  have hsigned := List.getElem?_eq_getElem hlt
  obtain ⟨f, g, hf, _, hcollects⟩ := hall.source hsigned
  have hblank : f.outline.All (·.isBlank = true) :=
    Program.all_func (Program.isFresh_iff.mp hfresh) (List.mem_of_getElem? hf)
  cases htemplate : fs[id].isTemplate with
  | true =>
    -- a template is as it was collected
    rw [(hframes.kept hsigned hid).template htemplate]
    exact hcollects.filled_of_template hblank htemplate
  | false =>
    obtain ⟨f₁, hf₁, hres⟩ := Progress.ofFuncs_resolves hsig herror hsigned htemplate
    rw [hid] at hf₁
    cases hf₁
    exact hcollects.filled_of_plain hblank htemplate hres

/-- An accepted program has the slots filled that it should have, and no others. What is never to be
filled is not filled by a program that is refused either. -/
theorem Program.analyze_fills (p : Program) (o : Options) :
    (p.isFresh = true → (p.analyze o).outcome.isOk = true →
      ∀ f ∈ (p.analyze o).program.funcs, f.Filled) ∧
    List.Forall₂ FuncDef.Spared p.funcs (p.analyze o).program.funcs := by
  rw [Program.program_analyze]
  refine ⟨fun hfresh hok => ?_, p.typed_spared⟩
  obtain ⟨σ, h⟩ := Outcome.exists_of_isOk hok
  exact Program.typed_filled hfresh (Program.typed_of_analyze h)

/-- Three templates, one of them a procedure and one with a written return type, and two functions
that call the others by name, as a member and through a parameter. -/
def mixed : Program where
  definitions :=
    let int : TypeExpr := .named "int" [] {}
    let var (name : String) : Expr := .var name .unresolved {}
    let call (name : String) (args : List Expr) : Expr :=
      .named name args .unresolved .unresolved {}
    let func (kind : FuncKind) (name : String) (params : List (String × Option TypeExpr))
        (written : Option TypeExpr) (body : List Stmt) (ensure : Option Block) : Definition :=
      .funcDef
        { kind, name, written, body := .mk body {}, ensure, ret := .unresolved, loc := {}
          params := params.map fun (name, written) =>
            { isVar := false, name, written, ty := .unresolved, loc := {} } }
    [func .func "same" [("x", none)] (some int) [.ret [var "x"] {}] none,
      func .proc "note" [("x", none), ("n", some int)] none [.expr (var "x")] none,
      func .func "loose" [("x", none)] none [.ret [call "same" [var "x"]] {}] none,
      func .func "pick" [("n", some int)] none [.ret [call "same" [var "n"]] {}]
        (some (.mk [.expr (call "note" [var "n", var "n"])] {})),
      func .func "apply" [("f", some (.func [int] (some int) {})), ("n", some int)] none
        [.ret [call "f" [.member (var "n") "pick" .unresolved .unresolved {}]] {}] none]
  loc := {}

theorem Program.analyze_fills_mixed :
    mixed.isFresh = true ∧ (mixed.analyze {}).outcome.isOk = true ∧
      ((mixed.analyze {}).program.funcs.map fun f => (f.isTemplate, f.ret.isResolved)) =
        [(true, true), (true, true), (true, false), (false, true), (false, true)] ∧
      (∀ f ∈ (mixed.analyze {}).program.funcs, f.Filled) ∧
      List.Forall₂ FuncDef.Spared mixed.funcs (mixed.analyze {}).program.funcs := by
  have hfresh : mixed.isFresh = true := by decide +kernel
  have hok : (mixed.analyze {}).outcome.isOk = true := by decide +kernel
  obtain ⟨hfilled, hspared⟩ := Program.analyze_fills mixed {}
  exact ⟨hfresh, hok, by decide +kernel, hfilled hfresh hok, hspared⟩

end Semant
