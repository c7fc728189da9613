import Semant.Proofs.Scope.Tables
import Semant.Proofs.TypeText
import Semant.Proofs.Typing.EqualTypes

/-! Equal types are interchangeable. What is asked about the arguments of a call has the answer that
it has for arguments without class handles, and a function cannot be defined after one of its name
with equal parameters. -/

namespace Semant

namespace Ty

theorem text_erase (ty : Ty) : ty.erase.text = ty.text :=
  text_mapHandle _ ty

/-- What does not depend on handles is the same for equal arguments. -/
theorem eq_of_equal_args {α : Type} {answer : List Ty → α}
    (h : ∀ args, answer (args.map erase) = answer args) {args args' : List Ty}
    (hargs : List.Forall₂ (fun a b => a == b) args args') : answer args = answer args' := by
  rw [← h args, forall₂_beq_iff.mp hargs, h]

end Ty

namespace ParamType

/-- The type of a concrete parameter without its handles. -/
def shape (p : ParamType) : Option Ty :=
  p.ty?.map Ty.erase

theorem beq_iff_shape_eq {p q : ParamType} : (p == q) = true ↔ p.shape = q.shape := by
  change (p.ty? == q.ty?) = true ↔ p.ty?.map Ty.erase = q.ty?.map Ty.erase
  cases p.ty? <;> cases q.ty? <;> simp [Ty.beq_iff_erase_eq]

end ParamType

namespace FuncSymbol

theorem params_beq_iff {ps qs : List ParamType} :
    (ps == qs) = true ↔ ps.map ParamType.shape = qs.map ParamType.shape := by
  induction ps generalizing qs with
  | nil => cases qs <;> simp
  | cons p ps ih =>
    cases qs with
    | nil => simp
    | cons q qs => simp [ParamType.beq_iff_shape_eq, ih]

theorem sameSignature_iff {f g : FuncSymbol} :
    f.sameSignature g = true ↔
      f.name = g.name ∧ f.params.map ParamType.shape = g.params.map ParamType.shape := by
  rw [sameSignature, Bool.and_eq_true, beq_iff_eq, params_beq_iff]

theorem sameSignature_trans {f g h : FuncSymbol} (hfg : f.sameSignature g)
    (hgh : g.sameSignature h) : f.sameSignature h := by
  rw [sameSignature_iff] at hfg hgh ⊢
  exact ⟨hfg.1.trans hgh.1, hfg.2.trans hgh.2⟩

theorem sameSignature_of_equal {f g : FuncSymbol} (hname : f.name = g.name)
    (hparams : List.Forall₂ (fun p q => p == q) f.params g.params) : f.sameSignature g := by
  refine sameSignature_iff.mpr ⟨hname, ?_⟩
  refine List.forall₂_eq_eq_eq ▸ List.forall₂_map_left_iff.mpr (List.forall₂_map_right_iff.mpr ?_)
  exact hparams.imp fun _ _ => ParamType.beq_iff_shape_eq.mp

end FuncSymbol

theorem Scope.better_erase (args : List Ty) : better (args.map Ty.erase) = better args := by
  funext best candidate
  simp only [better, FuncSymbol.score_erase]

theorem Scope.resolve?_erase (σ : Scope) (name : String) (args : List Ty) :
    σ.resolve? name (args.map Ty.erase) = σ.resolve? name args := by
  rw [resolve?, bestOverload?, better_erase, resolve?, bestOverload?]

theorem Scope.setReturnType_grows {σ τ : Scope} {id : SymbolId} {ty : Ty}
    (h : σ.setReturnType id ty = .ok τ) : σ.Grows τ := by
  cases hf : σ.functions[id]? with
  | none =>
    rw [setReturnType, hf] at h
    cases h
    exact .refl σ
  | some f =>
    obtain ⟨hret, rfl⟩ := (setReturnType_eq_ok hf).mp h
    exact set_grows hf hret _

theorem Tables.resolve?_erase (t : Tables) (name : String) (args : List Ty) :
    t.resolve? name (args.map Ty.erase) = t.resolve? name args := by
  rw [Tables.resolve?, Scope.better_erase, Tables.resolve?]

theorem callText_erase (name : String) (args : List Ty) :
    callText name (args.map Ty.erase) = callText name args := by
  simp only [callText, List.map_map, Function.comp_def, Ty.text_erase]

/-- Nothing that is asked about a call tells the arguments apart. -/
structure Ty.Alike (args args' : List Ty) : Prop where
  score : ∀ f : FuncSymbol, f.score args = f.score args'
  resolve : ∀ (σ : Scope) (name : String), σ.resolve? name args = σ.resolve? name args'
  find : ∀ (t : Tables) (name : String), t.resolve? name args = t.resolve? name args'
  text : ∀ name : String, callText name args = callText name args'

theorem Ty.Alike.of_equal {args args' : List Ty}
    (h : List.Forall₂ (fun a b => a == b) args args') : Ty.Alike args args' where
  score f := eq_of_equal_args f.score_erase h
  resolve σ name := eq_of_equal_args (σ.resolve?_erase name) h
  find t name := eq_of_equal_args (t.resolve?_erase name) h
  text name := eq_of_equal_args (callText_erase name) h

namespace Tables

/-- A signature that is taken stays so, whatever is asked for. -/
theorem conflicts_perform {t : Tables} {g : FuncSymbol} (r : Request)
    (h : (Request.defineFunction g).Conflicts t) :
    (Request.defineFunction g).Conflicts (t.perform r).2 := by
  obtain ⟨f, hf, hsame⟩ := h
  cases r with
  | defineFunction symbol =>
    refine ⟨f, ?_, hsame⟩
    unfold perform defineFunction
    dsimp only
    split
    · simpa using hf
    · simpa [addFunction] using .inl hf
  | defineClass symbol =>
    refine ⟨f, ?_, hsame⟩
    unfold perform defineClass
    dsimp only
    split <;> exact hf
  | setReturnType id ty =>
    unfold perform setReturnType
    dsimp only
    split
    · exact ⟨f, hf, hsame⟩
    next σ hσ =>
      obtain ⟨i, hi⟩ := List.getElem?_of_mem hf
      obtain ⟨f', hf', hgrows⟩ := (Scope.setReturnType_grows hσ).function hi
      refine ⟨f', List.mem_of_getElem? hf', ?_⟩
      rw [FuncSymbol.sameSignature_iff] at hsame ⊢
      rwa [hgrows.name, hgrows.params]

theorem conflicts_defined (t : Tables) (f : FuncSymbol) :
    (Request.defineFunction f).Conflicts (t.perform (.defineFunction f)).2 := by
  unfold perform defineFunction
  dsimp only
  split
  next earlier hearlier =>
    have hsame := List.find?_some hearlier
    obtain ⟨id, -, hid⟩ := List.mem_filterMap.mp (List.mem_of_find?_eq_some hearlier)
    obtain ⟨symbol, hsymbol, rfl⟩ := Option.map_eq_some_iff.mp hid
    exact ⟨symbol, List.mem_of_getElem? hsymbol, hsame⟩
  · exact ⟨f, by simp [addFunction], FuncSymbol.sameSignature_iff.mpr ⟨rfl, rfl⟩⟩

/-- Once a function is asked for, its signature is taken. -/
theorem conflicts_run (before between : List Request) (f : FuncSymbol) :
    (Request.defineFunction f).Conflicts (run (before ++ .defineFunction f :: between)) := by
  rw [run, List.foldl_append, List.foldl_cons]
  have hdefined := conflicts_defined (run before) f
  rw [run] at hdefined
  generalize (perform _ _).2 = t at hdefined ⊢
  induction between generalizing t with
  | nil => exact hdefined
  | cons r rest ih => exact ih _ (conflicts_perform r hdefined)

/-- The refusal names a function that is there and has the signature. -/
theorem InStep.defineFunction_conflict {t : Tables} (h : t.InStep) {g : FuncSymbol}
    (hg : (Request.defineFunction g).Conflicts t) :
    ∃ earlier ∈ t.functions, earlier.sameSignature g ∧
      t.defineFunction g = (reject g.loc (.sameFunction g earlier), t) := by
  have hfind : t.functions.find? (·.sameSignature g) =
      ((t.candidates g.name).find? (·.symbol.sameSignature g)).map Overload.symbol := by
    rw [h.candidates]
    exact (t.scope.find?_overloads g).symm
  cases hc : (t.candidates g.name).find? (·.symbol.sameSignature g) with
  | none =>
    rw [hc] at hfind
    obtain ⟨f, hf, hfg⟩ := hg
    exact absurd hfg (List.find?_eq_none.mp hfind f hf)
  | some o =>
    rw [hc] at hfind
    have hrun : t.defineFunction g =
        (reject g.loc (.sameFunction g o.symbol), t.enter g.name) := by
      simp only [Tables.defineFunction, enter_candidates, hc]
    have hentered : t.enter g.name = t := by
      have hkept := ((h.defineFunction g).1.refused _ (congrArg Prod.fst hrun)).2
      exact (congrArg Prod.snd hrun).symm.trans hkept
    rw [hentered] at hrun
    have hsame := List.find?_some hfind
    exact ⟨o.symbol, List.mem_of_find?_eq_some hfind, hsame, hrun⟩

end Tables

/-- Equality of types is identity without class handles. It is an equivalence that no text, score,
overload or call tells from identity. Functions of one name with equal parameters are the same to a
scope: once one is asked for, another is refused as a duplicate of a function that is there. -/
theorem Ty.equal_interchangeable :
    (∀ a b : Ty, (a == b) = true ↔ a.erase = b.erase) ∧
    (∀ a : Ty, a == a) ∧ (∀ a b : Ty, a == b → b == a) ∧
    (∀ a b c : Ty, a == b → b == c → a == c) ∧
    (∀ a b : Ty, a == b → a.text = b.text) ∧
    (∀ args args' : List Ty, List.Forall₂ (fun a b => a == b) args args' → Ty.Alike args args') ∧
    ∀ f g : FuncSymbol, f.name = g.name → List.Forall₂ (fun p q => p == q) f.params g.params →
      f.sameSignature g ∧
      (∀ σ : Scope, f ∈ σ.functions →
        ∃ earlier ∈ σ.functions, earlier.sameSignature g ∧
          σ.defineFunction g = reject g.loc (.sameFunction g earlier)) ∧
      ∀ before between : List Request,
        let t := Tables.run (before ++ .defineFunction f :: between)
        ∃ earlier ∈ t.functions, earlier.sameSignature g ∧
          t.defineFunction g = (reject g.loc (.sameFunction g earlier), t) := by
  refine ⟨fun a b => beq_iff_erase_eq, fun _ => BEq.rfl, fun _ _ => BEq.symm,
    fun _ _ _ => BEq.trans, fun _ _ => text_eq_of_beq, fun _ _ => Alike.of_equal, ?_⟩
  intro f g hname hparams
  have hsame := FuncSymbol.sameSignature_of_equal hname hparams
  refine ⟨hsame, fun σ hf => ?_, fun before between => ?_⟩
  · have hsome : (σ.functions.find? (·.sameSignature g)).isSome = true :=
      List.find?_isSome.mpr ⟨f, hf, hsame⟩
    obtain ⟨earlier, hearlier⟩ := Option.isSome_iff_exists.mp hsome
    have hfound := List.find?_some hearlier
    refine ⟨earlier, List.mem_of_find?_eq_some hearlier, hfound, ?_⟩
    simp only [Scope.defineFunction, hearlier]
  · obtain ⟨h, hh, hfh⟩ := Tables.conflicts_run before between f
    exact (Tables.inStep_run _).defineFunction_conflict
      ⟨h, hh, FuncSymbol.sameSignature_trans hfh hsame⟩

/-- Two `Point` classes, each from another run, deep inside equal types. -/
theorem Ty.equal_interchangeable_points :
    let points (decl : ClassId) : Ty := .array (.maybe (.object "Point" [] (some decl)))
    let plot (decl : ClassId) : FuncSymbol :=
      ⟨.func, "plot", [.concrete (points decl), .template], .unresolved, decl, ⟨decl, 1, none⟩⟩
    (points 0 == points 7) = true ∧ (points 0).text = (points 7).text ∧
      Ty.Alike [points 0, .char] [points 7, .char] ∧
      ∃ earlier, (Tables.run [.defineFunction (plot 0), .setReturnType 0 .bool]).defineFunction
          (plot 7) = (reject ⟨7, 1, none⟩ (.sameFunction (plot 7) earlier),
            Tables.run [.defineFunction (plot 0), .setReturnType 0 .bool]) := by
  intro points plot
  obtain ⟨-, -, -, -, htext, halike, hsecond⟩ := Ty.equal_interchangeable
  have hpoints : (points 0 == points 7) = true := by decide
  have hparams : List.Forall₂ (fun p q => (p == q) = true) (plot 0).params (plot 7).params :=
    .cons (by decide) (.cons (by decide) .nil)
  obtain ⟨earlier, -, -, hrefused⟩ :=
    (hsecond (plot 0) (plot 7) rfl hparams).2.2 [] [.setReturnType 0 .bool]
  exact ⟨hpoints, htext _ _ hpoints, halike _ _ (.cons hpoints (.cons (by decide) .nil)),
    earlier, hrefused⟩

end Semant
