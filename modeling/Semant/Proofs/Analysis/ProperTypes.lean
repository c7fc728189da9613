import Semant.Proofs.Analysis.Repetition
import Semant.Proofs.Analysis.WellFormedTypes
import Semant.Proofs.Typing.TypeParts

/-! The types that an analysis leaves behind, in a tree and in its symbols, whether it accepts the
program or not. A class type names a class of the scope, the ends of a range have one type, and there
is no range where only written types can stand. -/

namespace Semant

/-- What is asked of each part of a type. -/
def Ty.Proper (σ : Scope) : Ty → Prop
  | .object name args decl =>
    (∃ id c, decl = some id ∧ σ.classes[id]? = some c ∧ c.name = name) ∧
      ∀ arg ∈ args, arg.RangeFree
  | .func params ret => (∀ param ∈ params, param.RangeFree) ∧ ret.RangeFree
  | .proc params => ∀ param ∈ params, param.RangeFree
  | .maybe inner => inner.RangeFree
  | .range first last => first = last
  | .builtin _ | .tuple _ | .dict _ _ | .array _ => True

namespace Ty.WellFormed

variable {lookup : String → Option ClassId} {ty : Ty}

theorem proper_parts {σ : Scope} (h : WellFormed lookup true ty)
    (hlookup : ∀ name id, lookup name = some id →
      ∃ c, σ.classes[id]? = some c ∧ c.name = name) : ∀ part ∈ ty.parts, part.Proper σ := by
  intro part hpart
  cases h.parts part hpart with
  | builtin | tuple | dict | array => trivial
  | object hid hargs =>
    obtain ⟨c, hc, hname⟩ := hlookup _ _ hid
    exact ⟨⟨_, c, rfl, hc, hname⟩, fun arg harg => (hargs arg harg).rangeFree⟩
  | func hparams hret =>
    exact ⟨fun param hparam => (hparams param hparam).rangeFree, hret.rangeFree⟩
  | proc hparams => exact fun param hparam => (hparams param hparam).rangeFree
  | range hfirst hlast heq => exact hfirst.eq_of_same hlast heq
  | maybe hinner => exact hinner.rangeFree

end Ty.WellFormed

/-- The scope with the classes up to the first one that is refused. -/
def Scope.reachClasses (σ : Scope) : List ClassDef → Scope
  | [] => σ
  | c :: classes =>
    match σ.defineClass c.symbol with
    | .error _ => σ
    | .ok (_, τ) => reachClasses τ classes

/-- The scope with the functions up to the first one that is refused, numbered from `id` on. -/
def Scope.reachFuncs (σ : Scope) (id : DefId) : List FuncDef → Scope
  | [] => σ
  | f :: fs =>
    match (f.collect σ id).2 with
    | .error _ => σ
    | .ok τ => reachFuncs τ (id + 1) fs

/-- The symbols that an analysis has got to when it ends. -/
def Program.reached (p : Program) : Scope :=
  match Scope.collectClasses p.classes with
  | .error _ => Scope.reachClasses {} p.classes
  | .ok σ =>
    match p.collect with
    | (_, .error _) => σ.reachFuncs 0 p.funcs
    | (fs, .ok τ) => (Progress.ofFuncs fs τ).scope

theorem Scope.functions_reachClasses (σ : Scope) (classes : List ClassDef) :
    (σ.reachClasses classes).functions = σ.functions := by
  induction classes generalizing σ with
  | nil => rfl
  | cons c classes ih =>
    rw [Scope.reachClasses]
    cases h : σ.defineClass c.symbol with
    | error => rfl
    | ok r =>
      obtain ⟨_, rfl⟩ := Scope.defineClass_eq_ok.mp h
      exact ih _

theorem Scope.Within.reachFuncs {Q : Ty → Prop} {σ : Scope} (hσ : σ.Within Q) (hQ : Ty.Closed Q)
    (id : DefId) (fs : List FuncDef) :
    (σ.reachFuncs id fs).Within Q ∧ (σ.reachFuncs id fs).classes = σ.classes := by
  induction fs generalizing σ id with
  | nil => exact ⟨hσ, rfl⟩
  | cons f fs ih =>
    rw [Scope.reachFuncs]
    cases h : (f.collect σ id).2 with
    | error => exact ⟨hσ, rfl⟩
    | ok τ =>
      have hcollect : f.collect σ id = (_, .ok τ) := Prod.ext rfl h
      obtain ⟨_, _, _, hτ⟩ := FuncDef.collect_eq_ok.mp hcollect
      obtain ⟨hwithin, hclasses⟩ := ih (hσ.collect hQ hcollect) (id + 1)
      refine ⟨hwithin, hclasses.trans ?_⟩
      rw [hτ]

theorem Program.reached_eq {p : Program} {σ : Scope} (h : p.typed.outcome = .ok σ) :
    p.reached = σ := by
  obtain ⟨fs, σ₀, hcollect, _, rfl⟩ := Program.typed_eq_ok.mp h
  obtain ⟨hnodup, _⟩ := Program.collect_eq_ok.mp hcollect
  rw [Program.reached, Scope.collectClasses_eq_ok.mpr ⟨hnodup, rfl⟩, hcollect]

/-- Once its classes are collected, the scope has them to the end and only gets well formed types. -/
theorem Program.reached_within {p : Program} (hfresh : p.isFresh = true)
    (hnodup : (p.classes.map ClassDef.name).Nodup) :
    p.reached.Within p.classScope.Admits ∧ p.reached.classes = p.classScope.classes := by
  rw [Program.reached, Scope.collectClasses_eq_ok.mpr ⟨hnodup, rfl⟩]
  obtain ⟨hgains, hscope⟩ := p.collect_gains Ty.WellFormed.closed p.classScope_within
  cases hcollect : p.collect with
  | mk fs outcome =>
    cases outcome with
    | error error => exact p.classScope_within.reachFuncs Ty.WellFormed.closed 0 p.funcs
    | ok σ =>
      rw [hcollect] at hgains hscope
      have hfs := FuncDef.Gains.forall_holds hgains fun f hf =>
        Program.all_func (Program.holds_of_isFresh hfresh) hf
      have hwithin := Progress.ofFuncs_within Ty.WellFormed.closed hfs (hscope σ rfl)
      have hframes := Progress.ofFuncs_frames (Program.collect_signs hcollect)
      obtain ⟨_, _, _, hclasses⟩ := Program.collect_eq_ok.mp hcollect
      exact ⟨hwithin.scope, hframes.scope.classes.trans hclasses⟩

/-- A program whose classes are refused is left as it was. -/
theorem Program.typed_of_classes {p : Program} {error : Error}
    (h : Scope.collectClasses p.classes = .error error) : p.typed.program = p := by
  have hcollect : p.collect = (p.funcs, .error error) := by rw [Program.collect, h]
  rw [Program.typed, hcollect]
  exact p.withFuncs_self

theorem Program.proper_of_admits {p : Program} (hclasses : p.reached.classes = p.classScope.classes)
    {ty : Ty} (h : p.classScope.Admits ty) : ∀ part ∈ ty.parts, part.Proper p.reached := by
  refine h.proper_parts fun name id hid => ?_
  obtain ⟨c, hc, hname⟩ := Program.lookupClass?_eq_some hid
  refine ⟨c.symbol, ?_, hname⟩
  rw [hclasses, Program.classScope, List.getElem?_map, hc]
  rfl

/-- Every type that is found, in the tree or for a symbol, is proper in each of its parts. -/
theorem Program.analyze_proper {p : Program} (hfresh : p.isFresh = true) (o : Options) :
    (∀ n ∈ (Node.program (p.analyze o).program).preorder, ∀ slot ∈ n.typeSlot?, ∀ ty ∈ slot.get?,
        ∀ part ∈ ty.parts, part.Proper p.reached) ∧
      (∀ g ∈ p.reached.functions, ∀ ty ∈ g.ret.get?, ∀ part ∈ ty.parts, part.Proper p.reached) ∧
      ∀ σ, (p.analyze o).outcome = .ok σ → p.reached = σ := by
  rw [Program.program_analyze]
  have hholds {Q : Ty → Prop} : p.outline.All (Node.Holds Q) := Program.holds_of_isFresh hfresh
  cases hcollected : Scope.collectClasses p.classes with
  | error error =>
    refine ⟨Node.forall_preorder.mpr ?_, ?_,
      fun σ h => Program.reached_eq (Program.typed_of_analyze h)⟩
    · rw [Program.typed_of_classes hcollected]
      exact hholds
    · rw [Program.reached, hcollected]
      dsimp only
      rw [Scope.functions_reachClasses]
      exact List.forall_mem_nil _
  | ok σ =>
    obtain ⟨hnodup, _⟩ := Scope.collectClasses_eq_ok.mp hcollected
    obtain ⟨hwithin, hclasses⟩ := Program.reached_within hfresh hnodup
    obtain ⟨_, hnodes⟩ := p.typed_gains Ty.WellFormed.closed hholds p.classScope_within
    refine ⟨fun n hn slot hslot ty hty => ?_, fun g hg ty hty => ?_,
      fun σ h => Program.reached_eq (Program.typed_of_analyze h)⟩
    · have hnode := Node.forall_preorder.mpr (hnodes.holds hholds) n hn
      exact Program.proper_of_admits hclasses (hnode slot hslot ty hty)
    · exact Program.proper_of_admits hclasses (hwithin.symbols g hg ty hty)

/-- A range is declared, and a class is the return type, before the body asks for an unknown name. -/
def spanning : Program where
  definitions :=
    let int (i : Int) : Expr := .literal (.int i) .unresolved {}
    let span : Binder :=
      { isVar := false, name := "span", written := none, ty := .unresolved, loc := {} }
    let box : TypeExpr := .named "Box" [] {}
    [.classDef ⟨"Box", {}⟩,
      .funcDef
        { kind := .func, name := "fill", params := [], written := some (.maybe box {}),
          body := .mk
            [.declare ⟨[span], some [.binary (int 1) .range (int 9) .unresolved {}], {}⟩,
              .expr (.var "missing" .unresolved {})] {},
          ensure := none, ret := .unresolved, loc := {} }]
  loc := {}

theorem Program.analyze_proper_spanning :
    let nodes := (Node.program (spanning.analyze {}).program).preorder
    let σ := spanning.reached
    spanning.isFresh = true ∧ (spanning.analyze {}).outcome.isOk = false ∧
      nodes.any (fun n => (n.typeSlot?.bind Slot.get?).any Ty.isRange) = true ∧
      σ.functions.any (fun g => g.ret.get?.any (· == .maybe (.object "Box" [] none))) = true ∧
      (∀ n ∈ nodes, ∀ slot ∈ n.typeSlot?, ∀ ty ∈ slot.get?, ∀ part ∈ ty.parts, part.Proper σ) ∧
      ∀ g ∈ σ.functions, ∀ ty ∈ g.ret.get?, ∀ part ∈ ty.parts, part.Proper σ := by
  have hfresh : spanning.isFresh = true := by decide +kernel
  obtain ⟨hnodes, hsymbols, _⟩ := Program.analyze_proper hfresh {}
  refine ⟨hfresh, ?_, ?_, ?_, hnodes, hsymbols⟩
  all_goals decide +kernel

end Semant
