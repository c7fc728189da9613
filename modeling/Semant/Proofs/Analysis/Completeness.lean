import Semant.Proofs.Analysis.Failures
import Semant.Proofs.Typing.Assignment.Stmt

/-! The analysis accepts every well-typed program whose functions have written return types: if
there are types for its trees that satisfy the rules, then it finds equal ones. -/

namespace Semant

/-- A return type that is written is there after the collection. -/
theorem FuncDef.Collects.exists_ret {σ : Scope} {id : DefId} {f signed : FuncDef} {g : FuncSymbol}
    (h : f.Collects σ id signed g) (hwritten : f.kind = .func → f.written.isSome = true) :
    ∃ ret, signed.ret = .resolved ret := by
  cases h with
  | mk _ hreturn =>
    cases hreturn with
    | proc | written => exact ⟨_, rfl⟩
    | inferred hkind hnone =>
      have hsome := hwritten hkind
      rw [hnone] at hsome
      cases hsome

theorem FuncDef.Collects.typable {σ τ : Scope} {id : DefId} {f signed a : FuncDef} {g : FuncSymbol}
    (h : f.Collects τ id signed g) (hwritten : f.kind = .func → f.written.isSome = true)
    (hplain : signed.isTemplate = false) (hblank : a.blank = signed) (ha : a.WellTyped σ) :
    signed.ret.isResolved = true ∧ ∃ f', signed.Resolves σ f' ∧ f'.outline.Follows a.outline := by
  obtain ⟨ret, hret⟩ := h.exists_ret hwritten
  rw [h.isTemplate] at hplain
  obtain ⟨bindings, hbindings⟩ :
      ∃ bindings, signed.params.mapM Binder.binding? = some bindings := by
    cases h with
    | mk hparams _ => exact hparams.bindings hplain
  subst hblank
  refine ⟨?_, ha.typable hbindings hret⟩
  rw [hret]
  rfl

section

variable {fs : List FuncDef} {σ : Scope}

/-- Functions whose return types are known from the start add nothing to the scope. -/
theorem Scope.known_eq_self {typed : List FuncDef} {l : List DefId}
    (h : ∀ id ∈ l, ∀ f, fs[id]? = some f → f.ret.isResolved = true) : σ.known fs typed l = σ := by
  have hnil : σ.known fs typed l = σ.known fs typed [] := by
    unfold Scope.known
    congr 1
    refine List.mapIdx_eq_mapIdx_iff.mpr fun id _ => ?_
    rw [if_neg List.not_mem_nil]
    by_cases hid : id ∈ l
    · rw [if_pos hid]
      split
      · rename_i f f' hf _
        rw [FuncSymbol.noted, if_pos (h id hid f hf)]
      · rfl
    · rw [if_neg hid]
  rw [hnil, Scope.known_nil]

/-- If no function waits for the return type of another, the order does not matter. -/
theorem Staged.of_resolves {typed : List FuncDef} {l : List DefId} (hnodup : l.Nodup)
    (h : ∀ id ∈ l, ∃ f f', fs[id]? = some f ∧ typed[id]? = some f' ∧ f.isTemplate = false ∧
      f.ret.isResolved = true ∧ f.Resolves σ f') : Staged fs σ typed l := by
  induction l with
  | nil => exact .nil
  | cons id l ih =>
    obtain ⟨hid, hnodup⟩ := List.nodup_cons.mp hnodup
    obtain ⟨hhead, hrest⟩ := List.forall_mem_cons.mp h
    obtain ⟨f, f', hf, hf', hplain, _, hres⟩ := hhead
    have hknown : σ.known fs typed l = σ := by
      apply Scope.known_eq_self
      intro k hk g hg
      obtain ⟨g', _, hg', _, _, hret, _⟩ := hrest k hk
      rw [hg] at hg'
      cases hg'
      exact hret
    rw [← hknown] at hres
    exact .cons hid hf hf' hplain hres (ih hnodup hrest)

theorem Progress.ofFuncs_of_resolves (hsig : σ.Signs fs) {typed : DefId → FuncDef}
    (h : ∀ (id : DefId) (f : FuncDef), fs[id]? = some f → f.isTemplate = false →
      f.ret.isResolved = true ∧ f.Resolves σ (typed id)) :
    (Progress.ofFuncs fs σ).error = none ∧ (Progress.ofFuncs fs σ).scope = σ ∧
      ∀ (id : DefId) (f : FuncDef), fs[id]? = some f → f.isTemplate = false →
        (Progress.ofFuncs fs σ).funcs[id]? = some (typed id) := by
  -- Every order will do, so the functions are taken in that of the program.
  let plain : DefId → Bool := fun id => fs[id]?.any fun f => !f.isTemplate
  let goal := (List.range fs.length).filter plain
  let results := (List.range fs.length).map typed
  have hresult : ∀ (id : DefId) (f : FuncDef), fs[id]? = some f →
      results[id]? = some (typed id) := by
    intro id f hf
    have hlt := (List.getElem?_eq_some_iff.mp hf).1
    simp [results, hlt]
  have hgoal : ∀ id, id ∈ goal ↔ ∃ f, fs[id]? = some f ∧ f.isTemplate = false := by
    intro id
    rw [List.mem_filter, List.mem_range]
    constructor
    · rintro ⟨_, hplain⟩
      cases hf : fs[id]? with
      | none => simp [plain, hf] at hplain
      | some f => exact ⟨f, rfl, by simpa [plain, hf] using hplain⟩
    · rintro ⟨f, hf, hplain⟩
      exact ⟨(List.getElem?_eq_some_iff.mp hf).1, by simp [plain, hf, hplain]⟩
  have hstaged : Staged fs σ results goal := by
    apply Staged.of_resolves (List.nodup_range.filter _)
    intro id hid
    obtain ⟨f, hf, hplain⟩ := (hgoal id).mp hid
    obtain ⟨hret, hres⟩ := h id f hf hplain
    exact ⟨f, typed id, hf, hresult id f hf, hplain, hret, hres⟩
  obtain ⟨hend, hdone⟩ := Progress.ofFuncs_complete hsig hstaged fun id f hf hplain =>
    (hgoal id).mpr ⟨f, hf, hplain⟩
  have hscope : (Progress.ofFuncs fs σ).scope = σ := by
    rw [hend.scope]
    apply Scope.known_eq_self
    intro id hid f hf
    obtain ⟨f₁, hf₁, hplain⟩ := (hgoal id).mp (hend.done hid)
    rw [hf] at hf₁
    cases hf₁
    exact (h id f hf hplain).1
  refine ⟨hend.ok, hscope, fun id f hf hplain => ?_⟩
  have hid := hdone ((hgoal id).mpr ⟨f, hf, hplain⟩)
  rw [hend.funcs, if_pos hid, hresult id f hf]

end

/-- The functions of `fs` are those of the program after the collection, and `assigned` has each of
them with types in the slots of its body and of its `ensure` block. -/
theorem Program.analyze_complete {p : Program} {fs : List FuncDef} {σ : Scope} {o : Options}
    (hcollect : p.collect = (fs, .ok σ))
    (hwritten : ∀ f ∈ p.funcs, f.isTemplate = false → f.kind = .func → f.written.isSome = true)
    {assigned : DefId → FuncDef}
    (hassigned : ∀ (id : DefId) (f : FuncDef), fs[id]? = some f → f.isTemplate = false →
      (assigned id).blank = f ∧ (assigned id).WellTyped σ) :
    (p.analyze o).outcome = .ok σ ∧
      ∀ (id : DefId) (f : FuncDef), fs[id]? = some f → f.isTemplate = false →
        ∃ f', (p.analyze o).program.funcs[id]? = some f' ∧
          List.Forall₂ Node.Follows (Node.funcDef f').preorder
            (Node.funcDef (assigned id)).preorder := by
  obtain ⟨_, hall, _, _⟩ := Program.collect_eq_ok.mp hcollect
  have htypable : ∀ id : DefId, ∃ f', ∀ f : FuncDef, fs[id]? = some f → f.isTemplate = false →
      f.ret.isResolved = true ∧ f.Resolves σ f' ∧ f'.outline.Follows (assigned id).outline := by
    intro id
    by_cases hid : ∃ f, fs[id]? = some f ∧ f.isTemplate = false
    · obtain ⟨f, hf, hplain⟩ := hid
      obtain ⟨f₀, g, hf₀, _, hcollects⟩ := hall.source hf
      obtain ⟨hblank, hwell⟩ := hassigned id f hf hplain
      have hfunc := hwritten f₀ (List.mem_of_getElem? hf₀) (hcollects.isTemplate.symm.trans hplain)
      obtain ⟨hret, f', hf'⟩ := hcollects.typable hfunc hplain hblank hwell
      refine ⟨f', fun f₁ hf₁ _ => ?_⟩
      rw [hf] at hf₁
      cases hf₁
      exact ⟨hret, hf'⟩
    · exact ⟨assigned id, fun f hf hplain => absurd ⟨f, hf, hplain⟩ hid⟩
  choose typed htyped using htypable
  obtain ⟨herror, hscope, hfuncs⟩ := Progress.ofFuncs_of_resolves (Program.collect_signs hcollect)
    fun id f hf hplain => ⟨(htyped id f hf hplain).1, (htyped id f hf hplain).2.1⟩
  have houtcome : p.typed.outcome = .ok σ :=
    Program.typed_eq_ok.mpr ⟨fs, σ, hcollect, herror, hscope.symm⟩
  refine ⟨Program.analyze_eq_ok.mpr houtcome, fun id f hf hplain => ⟨typed id, ?_, ?_⟩⟩
  · rw [Program.program_analyze, Program.funcs_typed hcollect]
    exact hfuncs id f hf hplain
  · rw [Node.preorder_eq, Node.preorder_eq]
    exact (htyped id f hf hplain).2.2

/-- A function that changes a variable, and a procedure that calls it. The slots of the signature
are filled if `signed` says so, those of the blocks if `typed` does. -/
def doubling (signed typed : Bool) (id : DefId) : FuncDef :=
  let int : TypeExpr := .named "int" [] {}
  let slot (filled : Bool) (ty : Ty) : Slot Ty := if filled then .resolved ty else .unresolved
  let var (name : String) : Expr := .var name (slot typed (.builtin .int)) {}
  let binder (name : String) (isVar : Bool) (written : Option TypeExpr) (filled : Bool) : Binder :=
    { isVar, name, written, ty := slot filled (.builtin .int), loc := {} }
  match id with
  | 0 =>
    { kind := .func, name := "double", params := [binder "n" false (some int) signed],
      written := some int, ensure := none, ret := slot signed (.builtin .int), loc := {}
      body := .mk
        [.declare ⟨[binder "m" true none typed], some [var "n"], {}⟩,
          .assign [var "m"] [.binary (var "m") .add (var "n") (slot typed (.builtin .int)) {}] {},
          .ret [var "m"] {}] {} }
  | _ =>
    let ints : Slot Ty := slot typed (.array (.builtin .int))
    { kind := .proc, name := "report", params := [binder "n" false (some int) signed],
      written := none, ret := slot signed .unit, loc := {}
      body := .mk
        [.expr (.named "double" [var "n"] .unresolved (slot typed (.builtin .int)) {}),
          .ret [] {}] {}
      ensure := some (.mk [.expr (.typed (.array [] ints {}) (.array int {}) ints {})] {}) }

def doubling.program : Program where
  definitions := [.funcDef (doubling false false 0), .funcDef (doubling false false 1)]
  loc := {}

def doubling.scope : Scope where
  functions :=
    [{ kind := .func, name := "double", params := [.concrete (.builtin .int)],
        ret := .resolved (.builtin .int), definition := 0, loc := {} },
      { kind := .proc, name := "report", params := [.concrete (.builtin .int)],
        ret := .unresolved, definition := 1, loc := {} }]

theorem doubling.collect :
    program.collect = ([doubling true false 0, doubling true false 1], .ok scope) := by
  rfl

theorem doubling.wellTyped_double : (doubling true true 0).WellTyped scope where
  body := by
    refine .mk (.cons (.declare (.valued (.cons (.var rfl rfl BEq.rfl) .nil) (.each rfl)
      (.cons ⟨_, _, rfl, .inferred rfl, BEq.rfl⟩ .nil))) (.cons ?_ (.cons ?_ .nil)))
    · refine .assign (.cons (.var rfl rfl BEq.rfl) .nil) (.cons (.binary (.var rfl rfl BEq.rfl)
        (.var rfl rfl BEq.rfl) (.arithmetic (by decide) rfl) BEq.rfl) .nil) (.each rfl)
        (.cons BEq.rfl .nil) (List.forall_mem_singleton.mpr ?_)
      intro b hb
      cases hb
      rfl
    · exact .ret (.cons (.var rfl rfl BEq.rfl) .nil) ⟨_, rfl, BEq.rfl, nofun⟩
  ensure := .none

theorem doubling.wellTyped_report : (doubling true true 1).WellTyped scope where
  body := .mk (.cons (.expr (.named rfl (.cons (.var rfl rfl BEq.rfl) .nil) rfl
    (.func rfl rfl rfl) BEq.rfl)) (.cons (.ret .nil ⟨_, rfl, BEq.rfl, fun _ => rfl⟩) .nil))
  ensure := .some (.mk (.cons (.expr (.typedArray rfl BEq.rfl BEq.rfl)) .nil))

theorem Program.analyze_complete_doubling :
    doubling.program.collect =
        ([doubling true false 0, doubling true false 1], .ok doubling.scope) ∧
      (doubling true true 0).WellTyped doubling.scope ∧
      (doubling.program.analyze {}).outcome = .ok doubling.scope ∧
      ∃ f', (doubling.program.analyze {}).program.funcs[0]? = some f' ∧
        List.Forall₂ Node.Follows (Node.funcDef f').preorder
          (Node.funcDef (doubling true true 0)).preorder := by
  have hwritten : ∀ f ∈ doubling.program.funcs, f.isTemplate = false → f.kind = .func →
      f.written.isSome = true :=
    List.forall_mem_cons.mpr ⟨fun _ _ => rfl, List.forall_mem_singleton.mpr fun _ => nofun⟩
  have hassigned : ∀ (id : DefId) (f : FuncDef),
      [doubling true false 0, doubling true false 1][id]? = some f → f.isTemplate = false →
        (doubling true true id).blank = f ∧ (doubling true true id).WellTyped doubling.scope := by
    intro id f hf _
    match id with
    | 0 =>
      cases hf
      exact ⟨rfl, doubling.wellTyped_double⟩
    | 1 =>
      cases hf
      exact ⟨rfl, doubling.wellTyped_report⟩
    | _ + 2 => cases hf
  obtain ⟨hok, htrees⟩ := Program.analyze_complete doubling.collect hwritten hassigned
  exact ⟨doubling.collect, doubling.wellTyped_double, hok, htrees 0 _ rfl rfl⟩

end Semant
