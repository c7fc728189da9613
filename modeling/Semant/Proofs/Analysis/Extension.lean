import Semant.Proofs.Analysis.Filling
import Semant.Proofs.Typing.Extension.Function

/-! An analysis only fills empty slots. Whether it accepts the program or not, the tree that it
leaves is the tree that it was given, and a slot that had a value has it still. -/

namespace Semant

open Outcome

variable {Q : Ty → Prop} {σ : Scope}

theorem Binder.Gains.refl (b : Binder) : b.Gains Q b :=
  ⟨rfl, .kept b.ty⟩

theorem Binder.Gains.blank {bs bs' : List Binder} (h : List.Forall₂ (Binder.Gains Q) bs bs') :
    bs'.map Binder.blank = bs.map Binder.blank := by
  induction h with
  | nil => rfl
  | cons hb _ ih => rw [List.map_cons, List.map_cons, hb.same, ih]

theorem Binder.Collects.gains {b b' : Binder} {param : ParamType} (h : b.Collects σ b' param)
    (hσ : σ.Within Q) : b.Gains Q b' := by
  cases h with
  | template _ => exact .refl b
  | concrete _ hty hempty =>
    refine ⟨rfl, ?_⟩
    rw [hempty]
    exact .filled (hσ.written _ _ hty)

theorem Binder.collectAll_gains (hσ : σ.Within Q) (bs : List Binder) :
    List.Forall₂ (Binder.Gains Q) bs (Binder.collectAll σ bs).1 := by
  induction bs with
  | nil => exact .nil
  | cons b bs ih =>
    rw [Binder.collectAll]
    cases hb : b.collect σ with
    | error => exact List.forall₂_same.mpr fun b _ => .refl b
    | ok r => exact .cons ((Binder.collect_eq_ok.mp hb).gains hσ) ih

theorem FuncDef.CollectsReturn.gains {f : FuncDef} {own ret : Slot Ty}
    (h : f.CollectsReturn σ own ret) (hQ : Ty.Closed Q) (hσ : σ.Within Q) :
    f.ret.Gains Q own ∧ ∀ ty ∈ ret.get?, Q ty := by
  cases h with
  | proc _ hempty =>
    rw [hempty]
    exact ⟨.filled hQ.unit, by rintro _ ⟨⟩⟩
  | written _ _ hty hempty =>
    have hfound := hσ.written _ _ hty
    rw [hempty]
    refine ⟨.filled hfound, ?_⟩
    rintro _ ⟨⟩
    exact hfound
  | inferred _ _ => exact ⟨.kept f.ret, by rintro _ ⟨⟩⟩

/-- A signature may be resolved in part only. -/
theorem FuncDef.collect_ret (hQ : Ty.Closed Q) (hσ : σ.Within Q) (id : DefId) (f : FuncDef) :
    f.ret.Gains Q (f.collect σ id).1.ret := by
  unfold FuncDef.collect
  cases hparams : Binder.collectAll σ f.params with
  | mk params outcome =>
    cases outcome with
    | error => exact .kept f.ret
    | ok types =>
      dsimp only
      cases hret : FuncDef.collectReturn σ { f with params } with
      | error => exact .kept f.ret
      | ok slots =>
        have hreturn := FuncDef.collectReturn_eq_ok.mp hret
        exact (hreturn.gains hQ hσ).1

theorem FuncDef.collect_gains (hQ : Ty.Closed Q) (hσ : σ.Within Q) (id : DefId) (f : FuncDef) :
    f.Gains Q (f.collect σ id).1 := by
  have hparams := Binder.collectAll_gains hσ f.params
  have hret := FuncDef.collect_ret hQ hσ id f
  rw [FuncDef.collect_eq]
  refine ⟨?_, .mk ⟨.some hret, .none⟩ ?_⟩
  · simp only [FuncDef.emptied, FuncDef.blank, Binder.Gains.blank hparams]
  · exact .append (.append (Binder.Gains.pairs hparams).1 (.refl _)) (.refl _)

theorem Scope.Within.of_classes {τ : Scope} (h : σ.Within Q) (hclasses : τ.classes = σ.classes)
    (hsymbols : ∀ g ∈ τ.functions, ∀ ty ∈ g.ret.get?, Q ty) : τ.Within Q := by
  refine ⟨fun t ty hty => h.written t ty ?_, hsymbols⟩
  rw [← TypeExpr.resolve_of_classes hclasses, hty]

theorem Scope.Within.collect {τ : Scope} (hσ : σ.Within Q) (hQ : Ty.Closed Q) {id : DefId}
    {f f' : FuncDef} (h : f.collect σ id = (f', .ok τ)) : τ.Within Q := by
  obtain ⟨g, hcollects, _, rfl⟩ := FuncDef.collect_eq_ok.mp h
  refine hσ.of_classes rfl (List.forall_mem_append.mpr ⟨hσ.symbols, ?_⟩)
  cases hcollects with
  | mk _ hreturn => exact List.forall_mem_singleton.mpr (hreturn.gains hQ hσ).2

theorem FuncDef.collectAll_gains (hQ : Ty.Closed Q) (hσ : σ.Within Q) (id : DefId)
    (fs : List FuncDef) : List.Forall₂ (FuncDef.Gains Q) fs (FuncDef.collectAll σ id fs).1 := by
  induction fs generalizing σ id with
  | nil => exact .nil
  | cons f fs ih =>
    have hf := FuncDef.collect_gains hQ hσ id f
    rw [FuncDef.collectAll]
    cases hrun : f.collect σ id with
    | mk f' outcome =>
      rw [hrun] at hf
      cases outcome with
      | error => exact .cons hf (List.forall₂_same.mpr fun f _ => .refl f)
      | ok τ => exact .cons hf (ih (hσ.collect hQ hrun) (id + 1))

theorem Scope.Within.collectAll {τ : Scope} (hσ : σ.Within Q) (hQ : Ty.Closed Q) {id : DefId}
    {fs fs' : List FuncDef} (h : FuncDef.collectAll σ id fs = (fs', .ok τ)) : τ.Within Q := by
  induction fs generalizing σ id fs' with
  | nil =>
    cases h
    exact hσ
  | cons f fs ih =>
    rw [FuncDef.collectAll] at h
    cases hrun : f.collect σ id with
    | mk f' outcome =>
      rw [hrun] at h
      cases outcome with
      | error => cases h
      | ok τ' =>
        obtain ⟨_, houtcome⟩ := Prod.mk.inj h
        exact ih (hσ.collect hQ hrun) (Prod.ext rfl houtcome)

/-- Functions that gain types in their places make a program that gains them. -/
theorem Definition.replaceFuncs_gains {definitions : List Definition} {fs : List FuncDef}
    (h : List.Forall₂ (FuncDef.Gains Q) (definitions.filterMap Definition.func?) fs) :
    (replaceFuncs definitions fs).map Definition.emptied = definitions.map Definition.emptied ∧
      Outline.PairsAll (Node.Gains Q) (definitions.map Definition.outline)
        ((replaceFuncs definitions fs).map Definition.outline) := by
  induction definitions generalizing fs with
  | nil => exact ⟨rfl, .nil⟩
  | cons definition definitions ih =>
    cases definition with
    | classDef c =>
      obtain ⟨hsame, hnodes⟩ := ih h
      exact ⟨congrArg (Definition.classDef c :: ·) hsame, .cons (.refl _) hnodes⟩
    | funcDef f =>
      cases h with
      | cons hf hrest =>
        obtain ⟨hsame, hnodes⟩ := ih hrest
        refine ⟨?_, .cons hf.nodes hnodes⟩
        rw [replaceFuncs, List.map_cons, List.map_cons, Definition.emptied, hf.same, hsame]
        rfl

theorem Program.collect_gains (hQ : Ty.Closed Q) (p : Program) (hclasses : p.classScope.Within Q) :
    List.Forall₂ (FuncDef.Gains Q) p.funcs p.collect.1 ∧ ∀ σ, p.collect.2 = .ok σ → σ.Within Q := by
  unfold Program.collect
  cases hσ : Scope.collectClasses p.classes with
  | error error =>
    exact ⟨List.forall₂_same.mpr fun f _ => .refl f, by rintro _ ⟨⟩⟩
  | ok σ =>
    obtain ⟨_, rfl⟩ := Scope.collectClasses_eq_ok.mp hσ
    refine ⟨FuncDef.collectAll_gains hQ hclasses 0 p.funcs, fun τ hτ => ?_⟩
    exact hclasses.collectAll hQ (Prod.ext rfl hτ)

/-- What an analysis leaves of a program, accepted or not. -/
theorem Program.typed_gains (hQ : Ty.Closed Q) (p : Program) (hp : p.outline.All (Node.Holds Q))
    (hclasses : p.classScope.Within Q) :
    p.typed.program.emptied = p.emptied ∧
      p.outline.Pairs (Node.Gains Q) p.typed.program.outline := by
  obtain ⟨hcollected, hscope⟩ := p.collect_gains hQ hclasses
  have hprogram : ∃ fs, p.typed.program = p.withFuncs fs ∧
      List.Forall₂ (FuncDef.Gains Q) p.funcs fs := by
    cases hcollect : p.collect with
    | mk fs outcome =>
      rw [hcollect] at hcollected hscope
      cases outcome with
      | error error => exact ⟨fs, by rw [Program.typed, hcollect], hcollected⟩
      | ok σ =>
        have hfs : ∀ f ∈ fs, f.outline.All (Node.Holds Q) :=
          FuncDef.Gains.forall_holds hcollected fun f hf => Program.all_func hp hf
        have hwithin := Progress.ofFuncs_within hQ hfs (hscope σ rfl)
        refine ⟨_, (Program.typed_of_collect hcollect).1, ?_⟩
        exact forall₂_trans (R := FuncDef.Gains Q) (fun _ _ _ => FuncDef.Gains.trans) hcollected
          hwithin.funcs
  obtain ⟨fs, heq, hgains⟩ := hprogram
  obtain ⟨hsame, hnodes⟩ := Definition.replaceFuncs_gains hgains
  rw [heq]
  exact ⟨congrArg (Program.mk · p.loc) hsame, .mk ⟨.none, .none⟩ hnodes⟩

/-- The node `m` is `n` with some of the empty slots in it and below it filled. -/
structure Node.Extends (n m : Node) : Prop where
  same : n.emptied = m.emptied
  type : ∀ ty, n.typeSlot? = some (.resolved ty) → m.typeSlot? = some (.resolved ty)
  callee : ∀ id, n.calleeSlot? = some (.resolved id) → m.calleeSlot? = some (.resolved id)

/-- The tree is the same but for its slots, and node by node a slot that had a value keeps it. -/
theorem Program.analyze_extends (p : Program) (o : Options) :
    (p.analyze o).program.emptied = p.emptied ∧
      List.Forall₂ Node.Extends (Node.program p).preorder
        (Node.program (p.analyze o).program).preorder := by
  have hany : p.outline.All (Node.Holds fun _ => True) :=
    Outline.all_of_forall (fun _ _ _ _ _ => trivial) p.outline
  obtain ⟨hsame, hnodes⟩ := p.typed_gains Ty.Closed.trivial hany
    ⟨fun _ _ _ => trivial, fun _ _ _ _ => trivial⟩
  have hemptied : (Node.program p).preorder.map Node.emptied =
      (Node.program p.typed.program).preorder.map Node.emptied := by
    rw [← Program.preorder_emptied, ← Program.preorder_emptied, hsame]
  rw [← List.forall₂_eq_eq_eq, List.forall₂_map_left_iff, List.forall₂_map_right_iff] at hemptied
  rw [Program.program_analyze]
  refine ⟨hsame, ?_⟩
  rw [Node.preorder_eq, Node.preorder_eq] at hemptied ⊢
  refine List.Forall₂.mp (fun n m heq hgains => ?_) hemptied hnodes
  exact ⟨heq, fun _ => Slot.Gains.option_resolved hgains.type,
    fun _ => Slot.Gains.option_resolved hgains.callee⟩

end Semant
