import Semant.Proofs.Analysis.Reordering
import Semant.Proofs.Typing.Sites

/-! What the names and the calls of an accepted program refer to: a name to its latest visible
declaration, a call of a name without one to the overload that the final scope finds. -/

namespace Semant

/-- A function is signed by the collection and typed in the final scope, which has its symbol. -/
structure FuncDef.Analyzed (σ : Scope) (id : DefId) (f signed f' : FuncDef) (g : FuncSymbol) :
    Prop where
  unset : f.ret = .unresolved
  collects : f.Collects σ id signed g
  untyped : signed.Untyped
  resolves : signed.Resolves σ f'
  symbol : σ.symbolOf? id = some id
  function : σ.functions[id]? = some (g.noted signed f')

theorem FuncDef.Collects.untyped {σ : Scope} {id : DefId} {f f' : FuncDef} {g : FuncSymbol}
    (h : f.Collects σ id f' g) (hblank : f.Untyped) : f'.Untyped := by
  cases h
  exact ⟨hblank.body, hblank.ensure⟩

section

variable {p : Program} {o : Options} {σ : Scope}

theorem Program.analyze_func (hfresh : p.isFresh = true) (h : (p.analyze o).outcome = .ok σ)
    {id : DefId} {f : FuncDef} (hf : p.funcs[id]? = some f) (hplain : f.isTemplate = false) :
    ∃ signed f' g, (p.analyze o).program.funcs[id]? = some f' ∧ f.Analyzed σ id signed f' g := by
  obtain ⟨fs, σ₀, hcollect, herror, rfl⟩ := Program.typed_eq_ok.mp (Program.typed_of_analyze h)
  obtain ⟨_, hall, _, hclasses⟩ := Program.collect_eq_ok.mp hcollect
  have hsig := Program.collect_signs hcollect
  obtain ⟨signed, g, hsigned, hg, hcollects⟩ := hall.get hf
  rw [Nat.zero_add] at hcollects
  have hplain' : signed.isTemplate = false := by rw [hcollects.isTemplate, hplain]
  obtain ⟨hist, hdone⟩ := Progress.ofFuncs_history hsig herror
  obtain ⟨f', hf', hres⟩ := Progress.ofFuncs_resolves hsig herror hsigned hplain'
  have hscope : (Progress.ofFuncs fs σ₀).scope.classes = p.classScope.classes :=
    (Progress.ofFuncs_classes hsig herror).trans hclasses
  have hblank : f.outline.All (·.isBlank = true) :=
    Program.all_func (Program.isFresh_iff.mp hfresh) (List.mem_of_getElem? hf)
  have hlt : id < fs.length := (List.getElem?_eq_some_iff.mp hsigned).1
  have huntyped := hcollects.untyped (FuncDef.untyped_of_blank hblank)
  refine ⟨signed, f', g, ?_, (FuncDef.blank_signature hblank).2, hcollects.of_classes hscope,
    huntyped, hres, ?_, ?_⟩
  · rw [Program.program_analyze, Program.funcs_typed hcollect]
    exact hf'
  · rw [hist.scope]
    exact hsig.symbolOf? (hsig.known_grows _ _) hlt
  · rw [hist.scope, Scope.known_mem (hdone id signed hsigned hplain') hsigned hf', hg]
    rfl

/-- The sites of a function are its nodes with what is visible there. -/
theorem Program.analyze_settled (hfresh : p.isFresh = true) (h : (p.analyze o).outcome = .ok σ)
    {id : DefId} {f : FuncDef} (hf : p.funcs[id]? = some f) (hplain : f.isTemplate = false) :
    ∃ f', (p.analyze o).program.funcs[id]? = some f' ∧
      (Node.funcDef f').sites.map Site.node = (Node.funcDef f').preorder ∧
      ∀ site ∈ (Node.funcDef f').sites, site.Settled σ := by
  obtain ⟨signed, f', g, hf', hfunc⟩ := Program.analyze_func hfresh h hf hplain
  exact ⟨f', hf', Node.map_node_sites _, hfunc.resolves.settled hfunc.untyped⟩

end

/-- A name has the type of its latest visible declaration, or no type if there is none, where it is
called. A name that is assigned to is declared as a variable. -/
def Site.Scoped (site : Site) : Prop :=
  match site.node with
  | .expr (.var name slot _) =>
    match site.declaration? name with
    | some b => b.ty.isResolved = true ∧ slot = b.ty
    | none => slot = .unresolved
  | .stmt (.assign targets _ _) => ∀ name slot loc, .var name slot loc ∈ targets →
      ∃ b, site.declaration? name = some b ∧ b.isVar = true
  | _ => True

/-- The latest visible declaration of a name and its binding. -/
theorem Site.declaration?_of_lookup {site : Site} {Γ : Context}
    (h : List.Forall₂ (Binder.Means Eq) site.visible Γ) {name : String} {binding : Binding}
    (hname : Γ.lookup name = some binding) :
    ∃ b, site.declaration? name = some b ∧ b.ty = .resolved binding.ty ∧
      b.isVar = binding.isVar := by
  obtain ⟨b, hb, hmeans⟩ := Binder.Means.find?_of_lookup h hname
  obtain ⟨ty, hty, rfl⟩ := hmeans.ty
  exact ⟨b, hb, hty, hmeans.isVar.symm⟩

theorem Site.declaration?_of_free {site : Site} {Γ : Context}
    (h : List.Forall₂ (Binder.Means Eq) site.visible Γ) {name : String}
    (hname : Γ.lookup name = none) : site.declaration? name = none :=
  (Binder.Means.find?_eq_none_iff h name).mpr hname

theorem Expr.ResolvesAll.source {σ : Scope} {Γ : Context} {es es' : List Expr} {tys : List Ty}
    (h : Expr.ResolvesAll σ Γ es es' tys) {e' : Expr} (he' : e' ∈ es') :
    ∃ (e : Expr) (ty : Ty), e.Resolves σ Γ e' ty := by
  induction es generalizing es' tys with
  | nil =>
    cases h
    cases he'
  | cons e es ih =>
    cases h with
    | cons he hes =>
      rcases List.mem_cons.mp he' with rfl | hmem
      · exact ⟨_, _, he⟩
      · exact ih hes hmem

theorem Site.Settled.scoped {σ : Scope} {site : Site} (h : site.Settled σ) : site.Scoped := by
  obtain ⟨ds, node⟩ := site
  cases node with
  | expr e =>
    obtain ⟨Γ, hds, he⟩ := h
    cases e with
    | var name slot loc =>
      show match Site.declaration? ⟨ds, .expr (.var name slot loc)⟩ name with
        | some b => b.ty.isResolved = true ∧ slot = b.ty
        | none => slot = .unresolved
      cases he with
      | value _ he =>
        cases he with
        | var hname =>
          obtain ⟨b, hb, hty, _⟩ := Site.declaration?_of_lookup hds hname
          rw [hb]
          exact ⟨by rw [hty]; rfl, hty.symm⟩
      | name hname =>
        rw [Site.declaration?_of_free hds hname]
    | _ => trivial
  | stmt st =>
    obtain ⟨Γ, st₀, Γ', rets, hds, hst⟩ := h
    cases hst with
    | assign htargets _ _ _ hassignable =>
      intro name slot loc hmem
      obtain ⟨_, _, htarget⟩ := htargets.source hmem
      have hvar := hassignable _ hmem
      cases htarget with
      | var hname =>
        obtain ⟨b, hb, _, hisVar⟩ := Site.declaration?_of_lookup hds hname
        exact ⟨b, hb, hisVar.trans (hvar _ hname)⟩
    | _ => trivial
  | _ => trivial

/-- Names in an accepted function mean what is declared around them, and nothing else. -/
theorem Program.analyze_scoped {p : Program} {o : Options} {σ : Scope} (hfresh : p.isFresh = true)
    (h : (p.analyze o).outcome = .ok σ) {id : DefId} {f : FuncDef} (hf : p.funcs[id]? = some f)
    (hplain : f.isTemplate = false) :
    ∃ f', (p.analyze o).program.funcs[id]? = some f' ∧
      (Node.funcDef f').sites.map Site.node = (Node.funcDef f').preorder ∧
      ∀ site ∈ (Node.funcDef f').sites, site.Scoped := by
  obtain ⟨f', hf', hnodes, hsettled⟩ := Program.analyze_settled hfresh h hf hplain
  exact ⟨f', hf', hnodes, fun site hsite => (hsettled site hsite).scoped⟩

/-- A parameter that a loop variable and then a `let` hide. The function that the loop calls has
names of its own, and its return type is found while the loop is typed. -/
def shadowing : Program where
  definitions :=
    let var (name : String) : Expr := .var name .unresolved {}
    let text (s : String) : Expr := .literal (.string s) .unresolved {}
    let binder (name : String) (isVar : Bool) (written : Option TypeExpr) : Binder :=
      { isVar, name, written, ty := .unresolved, loc := {} }
    let init (name : String) (isVar : Bool) (value : Expr) : Declaration :=
      ⟨[binder name isVar none], some [value], {}⟩
    let func (name param : String) (stmts : List Stmt) : Definition := .funcDef
      { kind := .func, name, params := [binder param false (some (.named "int" [] {}))],
        written := none, body := .mk stmts {}, ensure := none, ret := .unresolved, loc := {} }
    [func "entry" "x"
      [.declare (init "y" true (var "x")),
        .forIn [binder "x" false none]
          (.array [.literal (.bool true) .unresolved {}] .unresolved {})
          (.mk [.assign [var "y"] [.named "later" [var "y"] .unresolved .unresolved {}] {},
            .expr (var "x")] {}) {},
        .letIn [init "x" false (text "inner")] (.expr (var "x")) {},
        .ret [var "x"] {}],
      func "later" "n" [.declare (init "y" false (text "own")), .ret [var "n"] {}]]
  loc := {}

theorem Program.analyze_scoped_shadowing :
    shadowing.isFresh = true ∧ ∃ (σ : Scope) (f f' : FuncDef),
      (shadowing.analyze {}).outcome = .ok σ ∧ shadowing.funcs[0]? = some f ∧
        f.isTemplate = false ∧ (shadowing.analyze {}).program.funcs[0]? = some f' ∧
        (Node.funcDef f').sites.map Site.node = (Node.funcDef f').preorder ∧
        ∀ site ∈ (Node.funcDef f').sites, site.Scoped := by
  have hfresh : shadowing.isFresh = true := by decide +kernel
  have hok : (shadowing.analyze {}).outcome.isOk = true := by decide +kernel
  obtain ⟨σ, h⟩ := Outcome.exists_of_isOk hok
  have hf : shadowing.funcs[0]? = some _ := rfl
  obtain ⟨f', hf', hsites⟩ := Program.analyze_scoped hfresh h hf rfl
  exact ⟨hfresh, σ, _, f', h, hf, rfl, hf', hsites⟩

/-- A call of `name` with arguments of these types refers to `id` and gives the type in `slot`. -/
def Scope.Links (σ : Scope) (id : SymbolId) (name : String) (args : List (Slot Ty))
    (slot : Slot Ty) : Prop :=
  ∃ tys ty, args = tys.map .resolved ∧ σ.resolve? name tys = some id ∧ σ.CallType id ty ∧
    slot = .resolved ty

/-- A call that refers to a function is a call of its name, which no visible declaration has. Any
other call applies a value. -/
def Site.Linked (σ : Scope) (site : Site) : Prop :=
  match site.node with
  | .expr (.call child args (.resolved id) slot _) => ∃ name nameSlot loc,
      child = .var name nameSlot loc ∧ site.declaration? name = none ∧
        σ.Links id name (args.map Expr.ty) slot
  | .expr (.call child args .unresolved slot _) => ∃ f tys ty, child.ty = .resolved f ∧
      args.map Expr.ty = tys.map .resolved ∧ f.Applies tys ty ∧ slot = .resolved ty
  | .expr (.member child name callee slot _) => ∃ id, callee = .resolved id ∧
      σ.Links id name [child.ty] slot
  | _ => True

theorem Site.Settled.linked {σ : Scope} {site : Site} (h : site.Settled σ) : site.Linked σ := by
  obtain ⟨ds, node⟩ := site
  cases node with
  | expr e =>
    obtain ⟨Γ, hds, he⟩ := h
    cases he with
    | value hblank he =>
      cases he with
      | named hfree hargs hid hty =>
        exact ⟨_, _, _, rfl, Site.declaration?_of_free hds hfree, _, _, hargs.map_ty, hid, hty, rfl⟩
      | @applied _ _ _ _ callee _ _ _ _ hchild hargs happlies =>
        have hcallee : callee = .unresolved := by
          simp only [Node.isBlank, Bool.and_eq_true] at hblank
          exact Slot.eq_unresolved hblank.2
        subst hcallee
        exact ⟨_, _, _, hchild.ty, hargs.map_ty, happlies, rfl⟩
      | member hchild hid hty =>
        exact ⟨_, rfl, [_], _, by rw [hchild.ty]; rfl, hid, hty, rfl⟩
      | _ => trivial
    | _ => trivial
  | _ => trivial

/-- The scope that the analysis ends with answers each call as the call is bound. -/
theorem Program.analyze_linked {p : Program} {o : Options} {σ : Scope} (hfresh : p.isFresh = true)
    (h : (p.analyze o).outcome = .ok σ) {id : DefId} {f : FuncDef} (hf : p.funcs[id]? = some f)
    (hplain : f.isTemplate = false) :
    ∃ f', (p.analyze o).program.funcs[id]? = some f' ∧
      (Node.funcDef f').sites.map Site.node = (Node.funcDef f').preorder ∧
      ∀ site ∈ (Node.funcDef f').sites, site.Linked σ := by
  obtain ⟨f', hf', hnodes, hsettled⟩ := Program.analyze_settled hfresh h hf hplain
  exact ⟨f', hf', hnodes, fun site hsite => (hsettled site hsite).linked⟩

/-- A function value is applied to the result of a call whose overload has to be typed first, and
a procedure is called at the end. -/
def applying : Program where
  definitions :=
    let int : TypeExpr := .named "int" [] {}
    let var (name : String) : Expr := .var name .unresolved {}
    let call (name : String) (args : List Expr) : Expr :=
      .named name args .unresolved .unresolved {}
    let func (kind : FuncKind) (name : String) (params : List (String × TypeExpr))
        (body : List Stmt) (ensure : Option Block) : Definition := .funcDef
      { kind, name, written := none, body := .mk body {}, ensure, ret := .unresolved, loc := {}
        params := params.map fun (name, written) =>
          { isVar := false, name, written := some written, ty := .unresolved, loc := {} } }
    [func .func "apply" [("f", .func [int] (some int) {}), ("n", int)]
        [.ret [call "f" [call "pick" [var "n"]]] {}]
        (some (.mk [.expr (call "note" [var "n"])] {})),
      func .func "pick" [("b", .named "bool" [] {})] [.ret [var "b"] {}] none,
      func .func "pick" [("n", int)] [.ret [.member (var "n") "twin" .unresolved .unresolved {}] {}]
        none,
      func .func "twin" [("n", int)] [.ret [.binary (var "n") .add (var "n") .unresolved {}] {}]
        none,
      func .proc "note" [("n", int)] [] none]
  loc := {}

theorem Program.analyze_linked_applying :
    applying.isFresh = true ∧ ∃ (σ : Scope) (f f' : FuncDef),
      (applying.analyze {}).outcome = .ok σ ∧ applying.funcs[0]? = some f ∧
        f.isTemplate = false ∧ (applying.analyze {}).program.funcs[0]? = some f' ∧
        (Node.funcDef f').sites.map Site.node = (Node.funcDef f').preorder ∧
        ∀ site ∈ (Node.funcDef f').sites, site.Linked σ := by
  have hfresh : applying.isFresh = true := by decide +kernel
  have hok : (applying.analyze {}).outcome.isOk = true := by decide +kernel
  obtain ⟨σ, h⟩ := Outcome.exists_of_isOk hok
  have hf : applying.funcs[0]? = some _ := rfl
  obtain ⟨f', hf', hsites⟩ := Program.analyze_linked hfresh h hf rfl
  exact ⟨hfresh, σ, _, f', h, hf, rfl, hf', hsites⟩

end Semant
