import Semant.Proofs.Analysis.EmptySlot
import Semant.Proofs.Typing.Failures.Function

/-! What an analysis can fail with. Slots that are empty at the start are filled once, so a fresh
program is refused with a cause and a place; and no program is refused for a slot left empty. The
place is always that of a node of the program. -/

namespace Semant

open Outcome

variable {P : Error → Prop}

theorem Scope.collectClasses_fails {classes : List ClassDef}
    (h : ∀ c ∈ classes, CoversAt P c.loc) : FailsWith P (Scope.collectClasses classes) := by
  refine .foldlM (fun c hc σ => FailsWith.bind ?_ fun _ => .ok _) _
  unfold Scope.defineClass
  split
  · exact (h c hc).reject rfl
  · exact .ok _

theorem Scope.defineFunction_fails (σ : Scope) {g : FuncSymbol} (hg : CoversAt P g.loc) :
    FailsWith P (σ.defineFunction g) := by
  unfold Scope.defineFunction
  split
  · exact hg.reject rfl
  · exact .ok _

theorem Binder.collect_fails (σ : Scope) {b : Binder} (hb : b.Guarded P) :
    FailsWith P (b.collect σ) := by
  unfold Binder.collect
  split
  · exact .ok _
  · refine (TypeExpr.resolve_fails_of_some σ hb.written ‹_›).bind fun ty => ?_
    exact (hb.slot ty).bind fun _ => .ok _

theorem Binder.collectAll_fails (σ : Scope) {bs : List Binder} (hbs : ∀ b ∈ bs, b.Guarded P) :
    FailsWith P (Binder.collectAll σ bs).2 := by
  induction bs with
  | nil => exact .ok _
  | cons b bs ih =>
    obtain ⟨hb, hbs⟩ := List.forall_mem_cons.mp hbs
    have hfails := Binder.collect_fails σ hb
    rw [Binder.collectAll]
    cases hc : b.collect σ with
    | error error => exact .error (hfails error hc)
    | ok p => exact (ih hbs).map _

/-- What collection looks at is refused with errors of `P`. -/
structure FuncDef.Guarded (P : Error → Prop) (f : FuncDef) : Prop where
  place : CoversAt P f.loc
  params : ∀ b ∈ f.params, b.Guarded P
  written : Outline.CoverAll P (TypeExpr.outlineOption f.written)
  ret : f.ret.Fillable P

theorem FuncDef.collectReturn_fails (σ : Scope) {f : FuncDef}
    (hwritten : Outline.CoverAll P (TypeExpr.outlineOption f.written)) (hret : f.ret.Fillable P) :
    FailsWith P (f.collectReturn σ) := by
  unfold FuncDef.collectReturn
  split
  · exact (hret _).bind fun _ => .ok _
  · refine (TypeExpr.resolve_fails_of_some σ hwritten ‹_›).bind fun ty => ?_
    exact (hret ty).bind fun _ => .ok _
  · exact .ok _

theorem FuncDef.collect_fails (σ : Scope) (id : DefId) {f : FuncDef} (hf : f.Guarded P) :
    FailsWith P (f.collect σ id).2 := by
  have htypes := Binder.collectAll_fails σ hf.params
  unfold FuncDef.collect
  generalize Binder.collectAll σ f.params = r at htypes
  obtain ⟨params, error | types⟩ := r
  · exact .error (htypes error rfl)
  · have hfails : FailsWith P (FuncDef.collectReturn σ { f with params }) :=
      FuncDef.collectReturn_fails σ hf.written hf.ret
    dsimp only
    generalize FuncDef.collectReturn σ { f with params } = r at hfails
    obtain error | ⟨own, ret⟩ := r
    · exact .error (hfails error rfl)
    · exact (Scope.defineFunction_fails σ hf.place).map _

theorem FuncDef.collectAll_fails (σ : Scope) (id : DefId) {fs : List FuncDef}
    (hfs : ∀ f ∈ fs, f.Guarded P) : FailsWith P (FuncDef.collectAll σ id fs).2 := by
  induction fs generalizing σ id with
  | nil => exact .ok _
  | cons f fs ih =>
    obtain ⟨hf, hfs⟩ := List.forall_mem_cons.mp hfs
    have hfails := FuncDef.collect_fails σ id hf
    rw [FuncDef.collectAll]
    generalize f.collect σ id = r at hfails
    obtain ⟨f', error | τ⟩ := r
    · exact .error (hfails error rfl)
    · exact ih τ (id + 1) hfs

theorem Binder.CollectsAll.bindings {σ : Scope} {bs bs' : List Binder} {params : List ParamType}
    (h : Binder.CollectsAll σ bs bs' params) (hplain : bs.any Binder.isTemplate = false) :
    ∃ bindings, bs'.mapM Binder.binding? = some bindings := by
  induction h with
  | nil => exact ⟨[], rfl⟩
  | cons hb _ ih =>
    rw [List.any_cons, Bool.or_eq_false_iff] at hplain
    obtain ⟨bindings, hbindings⟩ := ih hplain.2
    cases hb with
    | template hw => simp [Binder.isTemplate, hw] at hplain
    | concrete => simp [List.mapM_cons, hbindings, Binder.binding?, Slot.get?]

theorem Program.all_func {Q : Node → Prop} {p : Program} (h : p.outline.All Q) {f : FuncDef}
    (hf : f ∈ p.funcs) : f.outline.All Q := by
  rw [Program.outline, Outline.all_mk, Outline.allOf_iff] at h
  obtain ⟨definition, hmem, hfunc⟩ := List.mem_filterMap.mp hf
  cases definition with
  | classDef => cases hfunc
  | funcDef g =>
    cases hfunc
    exact h.2 _ (List.mem_map_of_mem hmem)

theorem Program.all_class {Q : Node → Prop} {p : Program} (h : p.outline.All Q) {c : ClassDef}
    (hc : c ∈ p.classes) : Q (.classDef c) := by
  rw [Program.outline, Outline.all_mk, Outline.allOf_iff] at h
  obtain ⟨definition, hmem, hclass⟩ := List.mem_filterMap.mp hc
  cases definition with
  | classDef c =>
    cases hclass
    exact (Outline.all_mk.mp (h.2 _ (List.mem_map_of_mem hmem))).1
  | funcDef => cases hclass

/-- If whatever is refused at a node of a program is refused with an error of `P`, then the program
is typed or refused with an error of `P`. -/
theorem Program.typed_guarded {p : Program} (h : p.outline.All (Node.Guarded P)) :
    FailsWith P p.typed.outcome := by
  have hfuncs : ∀ f ∈ p.funcs, f.Guarded P ∧ f.body.outline.All (Node.Guarded P) ∧
      Outline.AllOf (Node.Guarded P) (Stmt.outlineOtherwise f.ensure) := by
    intro f hf
    have hall := Program.all_func h hf
    simp only [FuncDef.outline, Outline.all_mk, Outline.allOf_append, Outline.allOf_cons] at hall
    obtain ⟨hnode, ⟨hparams, hwritten⟩, hbody, hensure⟩ := hall
    exact ⟨⟨hnode.covers, Binder.guarded_params hparams, hwritten.imp fun _ hn => hn.covers,
      hnode.type f.ret rfl⟩, hbody, hensure⟩
  have hcollect : FailsWith P p.collect.2 := by
    have hclasses := Scope.collectClasses_fails fun c hc => (Program.all_class h hc).covers
    unfold Program.collect
    generalize Scope.collectClasses p.classes = r at hclasses
    obtain error | σ := r
    · exact .error (hclasses error rfl)
    · exact FuncDef.collectAll_fails σ 0 fun f hf => (hfuncs f hf).1
  cases hc : p.collect with
  | mk fs collected =>
    cases collected with
    | error error =>
      simp only [Program.typed, hc]
      exact .error (hcollect error (by rw [hc]))
    | ok σ =>
      have hsig := Program.collect_signs hc
      obtain ⟨_, hall, _, _⟩ := Program.collect_eq_ok.mp hc
      have hprepared : ∀ f' ∈ fs, f'.isTemplate = false → f'.Prepared P := by
        intro f' hf' hplain
        obtain ⟨id, hid⟩ := List.mem_iff_getElem?.mp hf'
        obtain ⟨_, _, hsource, _, hcollects⟩ := hall.source hid
        obtain ⟨hguarded, hbody, hensure⟩ := hfuncs _ (List.mem_of_getElem? hsource)
        rw [hcollects.isTemplate] at hplain
        obtain ⟨hparams, _⟩ := hcollects
        obtain ⟨bindings, hbindings⟩ := hparams.bindings hplain
        exact ⟨⟨_, FuncDef.entry_eq_ok.mpr ⟨bindings, hbindings, rfl⟩⟩, hguarded.place, hbody,
          hensure⟩
      have hfails := Progress.ofFuncs_fails hsig hprepared
      rw [(Program.typed_of_collect hc).2]
      split
      · exact .error (hfails _ ‹_›)
      · exact .ok _

/-- If every slot of a program takes a value or refuses it with an error of `P`, then the program is
typed or refused with an error of `P`. -/
theorem Program.typed_fails (hP : Covers P) {p : Program} (h : p.outline.All (Node.Fillable P)) :
    FailsWith P p.typed.outcome :=
  Program.typed_guarded (h.imp fun n hn => ⟨hn, fun cause => hP cause n.loc⟩)

theorem Error.kind?_inFile (error : Error) (file : Option String) :
    (error.inFile file).kind? = error.kind? := by
  cases error <;> rfl

/-- An analysis that fails reports what the typing of the program was refused with. -/
theorem Program.typed_of_analyze_error {p : Program} {o : Options} {error : Error}
    (h : (p.analyze o).outcome = .error error) :
    ∃ first, p.typed.outcome = .error first ∧ error = first.inFile o.file := by
  rw [Program.analyze_eq, Analysis.inFile] at h
  cases houtcome : p.typed.outcome with
  | ok σ =>
    rw [houtcome] at h
    cases h
  | error first =>
    rw [houtcome] at h
    cases h
    exact ⟨first, rfl, rfl⟩

theorem Program.analyze_fails {p : Program} (h : FailsWith P p.typed.outcome) {o : Options}
    (hfile : ∀ error, P error → P (error.inFile o.file)) : FailsWith P (p.analyze o).outcome := by
  intro error herror
  obtain ⟨first, hfirst, rfl⟩ := Program.typed_of_analyze_error herror
  exact hfile first (h first hfirst)

theorem Slot.fillable_of_blank {α : Type} {slot : Slot α} (h : slot.isResolved = false) :
    slot.Fillable P := by
  cases slot with
  | unresolved => exact fun a => .ok _
  | resolved => cases h

theorem Slot.fillable_of_internal {α : Type} (h : ∀ message, P (.internal message)) (slot : Slot α) :
    slot.Fillable P := by
  cases slot with
  | unresolved => exact fun a => .ok _
  | resolved => exact fun a => .error (h _)

theorem Node.fillable_of_isBlank {n : Node} (h : n.isBlank = true) : n.Fillable P := by
  simp only [Node.isBlank, Bool.and_eq_true, Option.all_eq_true, Bool.not_eq_true'] at h
  exact ⟨fun slot hs => Slot.fillable_of_blank (h.1 slot hs),
    fun slot hs => Slot.fillable_of_blank (h.2 slot hs)⟩

/-- A fresh program is accepted or refused with a semantic error, never with an internal fault. -/
theorem Program.analyze_fresh_semantic {p : Program} (hfresh : p.isFresh = true) {o : Options}
    {error : Error} (h : (p.analyze o).outcome = .error error) :
    ∃ kind message loc, error = .semantic kind message loc := by
  have hblank : ∀ n ∈ (Node.program p).preorder, n.Fillable fun error => error.kind? ≠ none :=
    fun n hn => Node.fillable_of_isBlank (List.all_eq_true.mp hfresh n hn)
  have hcovers : Covers fun error => error.kind? ≠ none := by
    intro cause loc _ hnone
    cases hnone
  have htyped := Program.typed_fails hcovers (p := p) (Node.forall_preorder.mp hblank)
  have hkind : error.kind? ≠ none := by
    refine Program.analyze_fails htyped (fun error hkind => ?_) error h
    rwa [Error.kind?_inFile]
  cases error with
  | semantic kind message loc => exact ⟨kind, message, loc, rfl⟩
  | internal => exact (hkind rfl).elim

/-- A function whose return type is that of a call of itself. -/
def echo : Program where
  definitions :=
    let param : Binder :=
      { isVar := false, name := "n", written := some (.named "int" [] {}), ty := .unresolved,
        loc := {} }
    let again : Expr := .call (.var "echo" .unresolved {}) [.var "n" .unresolved {}]
      .unresolved .unresolved {}
    [.funcDef
      { kind := .func, name := "echo", params := [param], written := none,
        body := .mk [.ret [again] {}] {}, ensure := none, ret := .unresolved, loc := {} }]
  loc := {}

theorem Program.analyze_fresh_semantic_echo :
    echo.isFresh = true ∧ ∃ error, (echo.analyze {}).outcome = .error error ∧
      ∃ kind message loc, error = .semantic kind message loc := by
  have hfresh : echo.isFresh = true := by decide +kernel
  have hfail : (echo.analyze {}).outcome.isOk = false := by decide +kernel
  refine ⟨hfresh, ?_⟩
  cases h : (echo.analyze {}).outcome with
  | ok σ =>
    rw [h] at hfail
    cases hfail
  | error error => exact ⟨error, rfl, Program.analyze_fresh_semantic hfresh h⟩

/-- The check for empty slots finds none in a typed program, whatever its slots held at first. So it
makes no difference to an analysis, and no analysis reports an empty slot. -/
theorem Program.analyze_verify (p : Program) (o : Options) :
    (∀ σ, p.typed.outcome = .ok σ → p.typed.program.unresolved? = none) ∧
      p.analyze { o with verify := true } = p.analyze { o with verify := false } ∧
      ∀ error, (p.analyze o).outcome = .error error → error.kind? ≠ some .unresolvedSlot := by
  refine ⟨fun σ => Program.unresolved?_typed, ?_, ?_⟩
  · rw [Program.analyze_eq, Program.analyze_eq]
  · have hcovers : Covers fun error => error.kind? ≠ some .unresolvedSlot :=
      fun cause loc hkind heq => hkind (Option.some.inj heq)
    have hinternal : ∀ message, (Error.internal message).kind? ≠ some .unresolvedSlot := by
      intro message heq
      cases heq
    have hfillable : ∀ n : Node, n.Fillable fun error => error.kind? ≠ some .unresolvedSlot :=
      fun n => ⟨fun slot _ => slot.fillable_of_internal hinternal,
        fun slot _ => slot.fillable_of_internal hinternal⟩
    have htyped := Program.typed_fails hcovers (Outline.all_of_forall hfillable p.outline)
    refine Program.analyze_fails htyped fun error hkind => ?_
    rwa [Error.kind?_inFile]

/-- The name in a call has a type from the start, though it is no value. -/
def labelled : Program where
  definitions :=
    let func (name : String) (result : Expr) : Definition := .funcDef
      { kind := .func, name, params := [], written := none, body := .mk [.ret [result] {}] {},
        ensure := none, ret := .unresolved, loc := {} }
    [func "outer" (.call (.var "inner" (.resolved .unit) {}) [] .unresolved .unresolved {}),
      func "inner" (.literal (.int 1) .unresolved {})]
  loc := {}

theorem Program.analyze_verify_labelled :
    labelled.isFresh = false ∧ ∃ σ, labelled.typed.outcome = .ok σ ∧
      labelled.typed.program.unresolved? = none := by
  have hfilled : labelled.isFresh = false := by decide +kernel
  have hok : labelled.typed.outcome.isOk = true := by decide +kernel
  obtain ⟨σ, h⟩ := exists_of_isOk hok
  exact ⟨hfilled, σ, h, (Program.analyze_verify labelled {}).1 σ h⟩

/-- The place of a report, if it has one, is that of a node of the program. -/
def Program.Locates (p : Program) (error : Error) : Prop :=
  ∀ loc ∈ error.location?, ∃ n ∈ (Node.program p).preorder, loc = n.loc

theorem Node.guarded_of_mem {p : Program} {n : Node} (h : n ∈ (Node.program p).preorder) :
    n.Guarded p.Locates where
  type slot _ := slot.fillable_of_internal fun _ _ hloc => by cases hloc
  callee slot _ := slot.fillable_of_internal fun _ _ hloc => by cases hloc
  covers _ _ loc hloc := by
    cases hloc
    exact ⟨n, h, rfl⟩

/-- Every semantic error is reported at the line and the column of a node of the program. The file is
the one that the node names, and that of the options exactly where the node names none. -/
theorem Program.analyze_located {p : Program} {o : Options} {kind : ErrorKind} {message : String}
    {loc : Location} (h : (p.analyze o).outcome = .error (.semantic kind message loc)) :
    ∃ n ∈ (Node.program p).preorder, loc = n.loc.inFile o.file ∧
      loc.line = n.loc.line ∧ loc.column = n.loc.column ∧
      loc.file = if n.loc.file.isSome then n.loc.file else o.file := by
  have hnodes : ∀ n ∈ (Node.program p).preorder, n.Guarded p.Locates := fun _ => Node.guarded_of_mem
  have htyped := Program.typed_guarded (Node.forall_preorder.mp hnodes)
  obtain ⟨first, hfirst, hfile⟩ := Program.typed_of_analyze_error h
  cases first with
  | internal => cases hfile
  | semantic _ _ found =>
    cases hfile
    obtain ⟨n, hn, rfl⟩ := htyped _ hfirst found rfl
    refine ⟨n, hn, rfl, rfl, rfl, ?_⟩
    cases hnamed : n.loc.file with
    | none => simp [Location.inFile, hnamed]
    | some file => simp [Location.inFile, hnamed]

def Analysis.error? (a : Analysis) : Option Error :=
  match a.outcome with
  | .ok _ => none
  | .error error => some error

theorem Analysis.error?_eq_some {a : Analysis} {error : Error} :
    a.error? = some error ↔ a.outcome = .error error := by
  unfold Analysis.error?
  split <;> simp_all

/-- The function that is asked for by the other names an unknown type inside of a written one. Only
the outer function names its file. -/
def misspelt : Program where
  definitions :=
    let func (name : String) (body : List Stmt) (loc : Location) : Definition := .funcDef
      { kind := .func, name, params := [], written := none, body := .mk body loc, ensure := none,
        ret := .unresolved, loc }
    let missing : TypeExpr := .named "Missing" [] { line := 3, column := 7 }
    let list : Binder :=
      { isVar := false, name := "list", written := some (.array missing {}), ty := .unresolved,
        loc := { line := 3, column := 1 } }
    [func "outer" [.ret [.named "inner" [] .unresolved .unresolved {}] {}]
        { line := 1, column := 1, file := some "outer" },
      func "inner" [.declare ⟨[list], none, {}⟩] { line := 2, column := 1 }]
  loc := {}

theorem Program.analyze_located_misspelt :
    let place : Location := { line := 3, column := 7, file := some "main" }
    (misspelt.analyze { file := some "main" }).outcome =
        .error (.semantic .unknownType "unknown type 'Missing'" place) ∧
      ∃ n ∈ (Node.program misspelt).preorder, place = n.loc.inFile (some "main") ∧
        place.line = n.loc.line ∧ place.column = n.loc.column ∧
        place.file = if n.loc.file.isSome then n.loc.file else some "main" := by
  have herror : (misspelt.analyze { file := some "main" }).error? =
      some (.semantic .unknownType "unknown type 'Missing'"
        { line := 3, column := 7, file := some "main" }) := by
    decide +kernel
  have houtcome := Analysis.error?_eq_some.mp herror
  exact ⟨houtcome, Program.analyze_located houtcome⟩

end Semant
