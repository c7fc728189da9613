import Semant.Proofs.Analysis.Failures
import Semant.Proofs.Typing.Frame
import Semant.Typing.Node

/-! Type resolution closes every scope that it opens. A walk of any node leaves the enclosing scopes
alone, and only a declaration adds names to the innermost one; the analysis of a function gives back
the local names, what can be returned, and the functions that are active. All of this also holds
where the walk fails. -/

namespace Semant

open Resolve

/-- Whether names of the statement come into the scope that it stands in. -/
def Stmt.declares : Stmt → Bool
  | .declare _ => true
  | .trailingIf body _ _ _ => body.declares
  | _ => false

def Node.declares : Node → Bool
  | stmt s => s.declares
  | _ => false

section

variable {d : Demand} {R : ∀ ⦃α : Type⦄, Resolve α → Prop}
  (pure : ∀ {α : Type} (a : α), R (Pure.pure a : Resolve α))
  (bind : ∀ {α β : Type} {x : Resolve α} {f : α → Resolve β}, R x → (∀ a, R (f a)) → R (x >>= f))
  (block : ∀ b : Block, R (b.resolve d))

include pure bind block

theorem FuncDef.resolveBlocks_of (f : FuncDef) : R (f.resolveBlocks d) := by
  refine bind (block f.body) fun _ => bind ?_ fun _ => pure _
  cases f.ensure with
  | none => exact pure _
  | some ensure => exact bind (block ensure) fun _ => pure _

theorem Definition.resolveAll_of (defs : List Definition) : R (Definition.resolveAll d defs) := by
  induction defs with
  | nil => exact pure _
  | cons definition defs ih =>
    refine bind ?_ fun _ => bind ih fun _ => pure _
    cases definition with
    | classDef c => exact pure _
    | funcDef f => exact bind (FuncDef.resolveBlocks_of pure bind block f) fun _ => pure _

/-- What holds of blocks, and of the node itself if it is a statement or an expression, holds of the
walk of the node. -/
theorem Node.resolve_of (node : Node) (stmt : ∀ s, node = .stmt s → R (s.resolve d))
    (expr : ∀ e : Expr, R (e.resolve d)) : R (node.resolve d) := by
  cases node with
  | program p => exact bind (Definition.resolveAll_of pure bind block p.definitions) fun _ => pure _
  | funcDef f => exact bind (FuncDef.resolveBlocks_of pure bind block f) fun _ => pure _
  | block b => exact bind (block b) fun _ => pure _
  | stmt s => exact bind (stmt s rfl) fun _ => pure _
  | expr e => exact bind (expr e) fun _ => pure _
  | classDef | param | decl | type => exact pure _

end

theorem ClosedStmt.node {d : Demand} {R : ∀ ⦃α : Type⦄, Resolve α → Prop} (h : ClosedStmt d R)
    (node : Node) : R (node.resolve d) :=
  Node.resolve_of h.pure h.bind h.block node (fun s _ => h.stmt s) h.expr

/-- The step leaves all local names alone. -/
def Resolve.Quiet {α : Type} (x : Resolve α) : Prop :=
  ∀ s, (x s).2.env = s.env

namespace Resolve.Quiet

variable {α β : Type} {d : Demand}

theorem pure (a : α) : Quiet (Pure.pure a : Resolve α) :=
  fun _ => rfl

theorem bind {x : Resolve α} {f : α → Resolve β} (hx : Quiet x) (hf : ∀ a, Quiet (f a)) :
    Quiet (x >>= f) :=
  fun s => (hf _ _).trans (hx s)

theorem check (rule : Progress → Except Error Unit) : Quiet (Resolve.check rule) :=
  bind (fun s => (Demand.Discreet.attempt rule s).1) fun _ => pure ()

theorem checkReturn (values : List Expr) (loc : Location) :
    Quiet (Stmt.checkReturn values loc) := by
  refine bind (fun s => (Demand.Discreet.attempt _ s).1) fun returned => ?_
  cases returned with
  | none => exact pure ()
  | some returns => exact fun _ => rfl

theorem exprs (hd : d.Discreet) (es : List Expr) : Quiet (Expr.resolveAll d es) :=
  fun s => (hd.closed.exprs es s).1

theorem expr (hd : d.Discreet) (e : Expr) : Quiet (e.resolve d) :=
  fun s => (hd.closed.expr e s).1

/-- All that a statement binds is in a scope of its own, unless it declares. -/
theorem stmt (hd : d.Discreet) : ∀ st : Stmt, st.declares = false → Quiet (st.resolve d)
  | .declare _, h => by cases h
  | .assign targets values _, _ =>
    bind (exprs hd targets) fun _ => bind (exprs hd values) fun _ =>
      bind (check _) fun _ => pure _
  | .branch _ cond body elseIfs otherwise _, _ =>
    bind (expr hd cond) fun _ => bind (hd.env_block body) fun _ =>
      bind (hd.env_elseIfs elseIfs) fun _ => bind (hd.env_otherwise otherwise) fun _ =>
        bind (check _) fun _ => pure _
  | .ret values _, _ => bind (exprs hd values) fun _ => bind (checkReturn _ _) fun _ => pure _
  | .case whens otherwise _, _ =>
    bind (hd.env_whens whens) fun _ => bind (hd.env_otherwise otherwise) fun _ =>
      bind (check _) fun _ => pure _
  | .switch target whens otherwise _, _ =>
    bind (expr hd target) fun _ => bind (hd.env_whens whens) fun _ =>
      bind (hd.env_otherwise otherwise) fun _ => bind (check _) fun _ => pure _
  | .forIn _ range body _, _ => by
    have h := hd.closedStmt
    exact Demand.Discreet.env_inScope <|
      h.bind (h.expr range) fun _ => h.bind (h.attempt _) fun _ =>
        h.bind (h.bindLoop _ _) fun _ => h.bind (h.block body) fun _ => h.pure _
  | .whileDo cond body _, _ =>
    bind (expr hd cond) fun _ => bind (hd.env_block body) fun _ => bind (check _) fun _ => pure _
  | .trailingIf body _ cond _, h =>
    bind (stmt hd body h) fun _ => bind (expr hd cond) fun _ => bind (check _) fun _ => pure _
  | .letIn inits body _, _ => by
    have h := hd.closedStmt
    exact Demand.Discreet.env_inScope <|
      h.bind (h.declarations inits) fun _ => h.bind (h.stmt body) fun _ => h.pure _
  | .expr e, _ => bind (expr hd e) fun _ => pure _
  | .block b, _ => bind (hd.env_block b) fun _ => pure _

theorem node (hd : d.Discreet) (node : Node) (h : node.declares = false) :
    Quiet (node.resolve d) := by
  refine Node.resolve_of pure bind hd.env_block node (fun s hs => ?_) (expr hd)
  rw [hs] at h
  exact stmt hd s h

end Resolve.Quiet

/-- A state of the resolution of the functions `fs`, which have their symbols in `σ`. Any slot of a
body and any return type may be known already. -/
structure Progress.Over (fs : List FuncDef) (σ : Scope) (s : Progress) : Prop where
  scope : σ.Grows s.scope
  params : s.funcs.map FuncDef.params = fs.map FuncDef.params

section

variable {fs : List FuncDef} {σ : Scope}

theorem Progress.Over.evolving : Evolves fun s t : Progress => s.Over fs σ → t.Over fs σ where
  refl _ := id
  trans h h' := h' ∘ h
  fail _ _ h := ⟨h.scope, h.params⟩
  env _ _ h := ⟨h.scope, h.params⟩
  returns _ _ h := ⟨h.scope, h.params⟩

theorem Progress.Over.store {s : Progress} (h : s.Over fs σ) {id : DefId} {f : FuncDef}
    (hf : (fs.map FuncDef.params)[id]? = some f.params) : (s.store id f).Over fs σ := by
  refine ⟨h.scope, ?_⟩
  change (s.funcs.set id f).map FuncDef.params = _
  obtain ⟨_, heq⟩ := List.getElem?_eq_some_iff.mp hf
  rw [List.map_set, h.params, ← heq, List.set_getElem_self]

theorem analyzeFunc_over (budget : Nat) (id : DefId) (s : Progress) (h : s.Over fs σ) :
    (analyzeFunc budget id s).2.Over fs σ := by
  induction budget generalizing id s with
  | zero => exact h
  | succ budget ih =>
    rcases analyzeFunc_cases budget id s with
      ⟨_, hrun⟩ | ⟨_, hs, _, _, _, hrun⟩ | ⟨_, _, hs, _, _, _, _, hrun⟩ |
        ⟨f, env, r, _, _, hf, _, _, hr, hrun⟩
    · rw [hrun]
      exact h
    · rw [hrun]
      exact Progress.Over.evolving.fail _ hs h
    · rw [hrun]
      exact Progress.Over.evolving.fail _ hs h
    · have hclosed := Progress.Over.evolving.closed fun t g _ _ _ => ih g.definition t
      have hbody := Progress.Over.evolving.resolveBody hclosed f (s.enter id env f.returns)
        ⟨h.scope, h.params⟩
      have hr₂ : r.2.Over fs σ := by
        subst hr
        refine ⟨hbody.scope.trans (FuncDef.settleReturn_scope _ id _ (Progress.leave _ id s)), ?_⟩
        rw [FuncDef.analyzed_frame]
        exact hbody.params
      have hr₁ : r.1.params = f.params := by rw [hr, FuncDef.analyzed_eq]
      rw [hrun]
      refine hr₂.store ?_
      rw [hr₁, ← h.params, List.getElem?_map, hf]
      rfl

end

/-- Collection has given a type to every parameter of a function that is not a template. -/
theorem Program.entry_of_collect {p : Program} {fs : List FuncDef} {σ : Scope}
    (h : p.collect = (fs, .ok σ)) {s : Progress} (hs : s.Over fs σ) {id : DefId} {f : FuncDef}
    (hf : s.funcs[id]? = some f) (hplain : f.isTemplate = false) : ∃ env, f.entry = .ok env := by
  have hat : (fs.map FuncDef.params)[id]? = some f.params := by
    rw [← hs.params, List.getElem?_map, hf]
    rfl
  rw [List.getElem?_map] at hat
  obtain ⟨f', hf', hparams⟩ := Option.map_eq_some_iff.mp hat
  obtain ⟨_, hall, _, _⟩ := Program.collect_eq_ok.mp h
  obtain ⟨_, _, _, _, hcollects⟩ := hall.source hf'
  have hsource := hcollects.isTemplate
  rw [FuncDef.isTemplate, hparams] at hsource
  obtain ⟨bindings, hbindings⟩ : ∃ bindings, f'.params.mapM Binder.binding? = some bindings := by
    obtain ⟨hcollected, _⟩ := hcollects
    exact hcollected.bindings (hsource.symm.trans hplain)
  rw [hparams] at hbindings
  exact ⟨_, FuncDef.entry_eq_ok.mpr ⟨bindings, hbindings, rfl⟩⟩

/-- In the resolution of a program whose symbols are collected, the walk of any node leaves all
scopes but the innermost as they are, and that one too unless the node declares names. The analysis
of a function that is not a template, which can be entered, gives back the local names, what can be
returned and the active functions. Neither depends on whether an error is found, or on how many
functions are analyzed on the way. -/
theorem Program.resolve_balanced {p : Program} {fs : List FuncDef} {σ : Scope}
    (h : p.collect = (fs, .ok σ)) {s : Progress} (hs : s.Over fs σ) (budget : Nat) :
    (∀ node : Node,
      let t := (node.resolve (analyzeFunc budget) s).2
      t.env.frames.length = s.env.frames.length ∧ t.env.enclosing = s.env.enclosing ∧
        (node.declares = false → t.env = s.env) ∧ t.active = s.active ∧ t.Over fs σ) ∧
    ∀ (id : DefId) (f : FuncDef), s.funcs[id]? = some f → f.isTemplate = false →
      let t := (analyzeFunc budget id s).2
      (∃ env, f.entry = .ok env) ∧ t.env = s.env ∧ t.returns = s.returns ∧
        t.active = s.active ∧ t.Over fs σ := by
  have hd := analyzeFunc_discreet budget
  constructor
  · intro node t
    have henclosing : t.env.enclosing = s.env.enclosing := hd.closedStmt.node node s
    have hkeeps := Progress.keeping.closed fun s g _ _ _ => analyzeFunc_keeps budget g.definition s
    have hover : ClosedStmt (analyzeFunc budget) fun _ x => ∀ s, s.Over fs σ → (x s).2.Over fs σ :=
      Progress.Over.evolving.closed fun s g _ _ _ => analyzeFunc_over budget g.definition s
    refine ⟨?_, henclosing, fun hquiet => Quiet.node hd node hquiet s, (hkeeps.node node s).active,
      hover.node node s hs⟩
    rw [Env.frames, Env.frames, List.length_cons, List.length_cons, henclosing]
  · intro id f hf hplain t
    obtain ⟨henv, hreturns⟩ := hd id s
    exact ⟨Program.entry_of_collect h hs hf hplain, henv, hreturns,
      (analyzeFunc_keeps budget id s).active, analyzeFunc_over budget id s hs⟩

/-- A loop that runs over what `steps` returns, whose body uses an unknown name. -/
def stumble : Node :=
  .stmt (.forIn [⟨false, "i", none, .unresolved, {}⟩] (.named "steps" [] .unresolved .unresolved {})
    (.mk [.expr (.var "missing" .unresolved {})] {}) {})

def walkway : Program where
  definitions :=
    let two : Expr := .literal (.int 2) .unresolved {}
    [.funcDef
      { kind := .func, name := "steps", params := [], written := none,
        body := .mk [.ret [.array [two] .unresolved {}] {}] {}, ensure := none, ret := .unresolved,
        loc := {} }]
  loc := {}

/-- The walk of `stumble` types `steps` on demand and then fails inside two scopes. -/
theorem Program.resolve_balanced_stumbling :
    ∃ (fs : List FuncDef) (σ : Scope), walkway.collect = (fs, .ok σ) ∧
      let env : Env := ⟨[("x", ⟨.bool, true⟩)], [[], [("y", ⟨.char, false⟩)]]⟩
      let s : Progress := { funcs := fs, scope := σ, env, active := [4, 2] }
      let t := (stumble.resolve (analyzeFunc 2) s).2
      s.Over fs σ ∧ stumble.declares = false ∧ t.done = [0] ∧ t.failed = true ∧
        t.env = s.env ∧ t.active = s.active ∧
        (analyzeFunc 2 0 s).2.env = s.env ∧ (analyzeFunc 2 0 s).2.active = s.active := by
  have hok : walkway.collect.2.isOk = true := by decide +kernel
  obtain ⟨σ, hσ⟩ := Outcome.exists_of_isOk hok
  have h : walkway.collect = (walkway.collect.1, .ok σ) := Prod.ext rfl hσ
  refine ⟨_, σ, h, ?_⟩
  intro env s t
  have hs : s.Over walkway.collect.1 σ := ⟨.refl σ, rfl⟩
  have hrun : walkway.collect.2.toOption.map (fun σ =>
      let t := (stumble.resolve (analyzeFunc 2)
        { funcs := walkway.collect.1, scope := σ, env, active := [4, 2] }).2
      (t.done, t.failed)) = some ([0], true) := by
    decide +kernel
  rw [hσ] at hrun
  obtain ⟨hdone, hfailed⟩ := Prod.mk.inj (Option.some.inj hrun)
  obtain ⟨hnode, hfunc⟩ := Program.resolve_balanced h hs 2
  obtain ⟨_, _, henv, hactive, _⟩ := hnode stumble
  have hf : ∃ f, s.funcs[0]? = some f ∧ f.isTemplate = false := ⟨_, rfl, rfl⟩
  obtain ⟨f, hf, hplain⟩ := hf
  obtain ⟨_, henv', _, hactive', _⟩ := hfunc 0 f hf hplain
  exact ⟨hs, rfl, hdone, hfailed, henv rfl, hactive, henv', hactive'⟩

end Semant
