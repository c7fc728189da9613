import Semant.Proofs.Analysis.Binding
import Semant.Proofs.Typing.ReturnStatements

/-! The return type of a function of an accepted program: it is the one that is written, or else the
one that the return statements have, and the symbol of the function has it too. -/

namespace Semant

theorem TypedReturns.exists_types {returned : List (List Expr)} {rets : List (List Ty)}
    (h : TypedReturns returned rets) {values : List Expr} (hvalues : values ∈ returned) :
    ∃ tys ∈ rets, values.map Expr.ty = tys.map .resolved := by
  induction h with
  | nil => cases hvalues
  | cons hhead _ ih =>
    rcases List.mem_cons.mp hvalues with rfl | hmem
    · exact ⟨_, List.mem_cons_self, hhead⟩
    · obtain ⟨tys, htys, heq⟩ := ih hmem
      exact ⟨tys, List.mem_cons_of_mem _ htys, heq⟩

/-- The return type `ret` of a function `f` that is typed as `f'`. The types of the values of a
return statement stand in their slots. -/
structure FuncDef.ReturnsAs (σ : Scope) (f f' : FuncDef) (ret : Ty) : Prop where
  filled : f'.ret = .resolved ret
  agree : ∀ values ∈ f'.body.returned,
    ∃ tys, values.map Expr.ty = tys.map .resolved ∧ ret == returnedType tys
  ensure : ∀ block ∈ f'.ensure, block.returned = []
  written : f.kind = .func → ∀ w ∈ f.written, w.resolve σ = .ok ret
  unit : f.kind = .func → f.written = none → f'.body.returned = [] → ret = .unit
  valueless : f.kind = .proc → ret = .unit ∧ ∀ values ∈ f'.body.returned, values = []

namespace FuncDef.CollectsReturn

variable {σ : Scope} {f : FuncDef} {own slot : Slot Ty}

theorem of_proc (h : f.CollectsReturn σ own slot) (hkind : f.kind = .proc) :
    own = .resolved .unit ∧ slot = .unresolved := by
  cases h with
  | proc => exact ⟨rfl, rfl⟩
  | written hfunc | inferred hfunc =>
    rw [hkind] at hfunc
    cases hfunc

theorem of_written (h : f.CollectsReturn σ own slot) (hkind : f.kind = .func) {w : TypeExpr}
    (hw : f.written = some w) :
    ∃ ty, w.resolve σ = .ok ty ∧ own = .resolved ty ∧ slot = .resolved ty := by
  cases h with
  | proc hproc =>
    rw [hkind] at hproc
    cases hproc
  | @written _ ty _ hw' hty =>
    rw [hw] at hw'
    cases hw'
    exact ⟨ty, hty, rfl, rfl⟩
  | inferred _ hnone =>
    rw [hw] at hnone
    cases hnone

theorem of_inferred (h : f.CollectsReturn σ own slot) (hkind : f.kind = .func)
    (hnone : f.written = none) : own = f.ret := by
  cases h with
  | proc hproc =>
    rw [hkind] at hproc
    cases hproc
  | written _ hw =>
    rw [hnone] at hw
    cases hw
  | inferred => rfl

end FuncDef.CollectsReturn

namespace FuncDef.Analyzed

variable {σ : Scope} {id : DefId} {f signed f' : FuncDef} {g : FuncSymbol}

theorem returnsAs (h : f.Analyzed σ id signed f' g) : ∃ ret, f.ReturnsAs σ f' ret := by
  have hunset := h.unset
  have hcollects := h.collects
  have hresolves := h.resolves
  cases hcollects with
  | @mk params types own slot _ hreturn =>
    cases hresolves with
    | @mk _ body ensure rets ret _ hbody hensure hreturning =>
      have hreturned : TypedReturns body.returned rets := by
        rw [Block.returned_eq]
        exact hbody.returned
      have hgiven : own.get?.getD ((rets.head?.map returnedType).getD .unit) = ret :=
        hreturning.given
      refine ⟨ret, rfl, ?_, hensure.returned_eq_nil, ?_, ?_, ?_⟩
      · intro values hvalues
        obtain ⟨tys, htys, heq⟩ := hreturned.exists_types hvalues
        exact ⟨tys, heq, hreturning.agree tys htys⟩
      · intro hkind w hw
        obtain ⟨ty, hty, hown, _⟩ := hreturn.of_written hkind hw
        rw [hty, ← hgiven, hown]
        rfl
      · intro hkind hnone hno
        change body.returned = [] at hno
        rw [hno] at hreturned
        rw [← hgiven, hreturn.of_inferred hkind hnone, hunset,
          List.forall₂_nil_left_iff.mp hreturned]
        rfl
      · intro hkind
        refine ⟨?_, fun values hvalues => ?_⟩
        · rw [← hgiven, (hreturn.of_proc hkind).1]
          rfl
        · obtain ⟨tys, htys, heq⟩ := hreturned.exists_types hvalues
          rw [hreturning.valueless hkind tys htys] at heq
          exact List.map_eq_nil_iff.mp heq

/-- The symbol takes the return type of a function with its definition. -/
theorem ret_noted (h : f.Analyzed σ id signed f' g) (hkind : f.kind = .func) :
    (g.noted signed f').ret = f'.ret := by
  have hcollects := h.collects
  have hresolves := h.resolves
  cases hcollects with
  | @mk params types own slot _ hreturn =>
    cases hresolves with
    | @mk _ _ _ _ ret _ _ _ hreturning =>
      have hgiven : own.get?.getD _ = ret := hreturning.given
      cases hwritten : f.written with
      | some w =>
        obtain ⟨ty, _, hown, hslot⟩ := hreturn.of_written hkind hwritten
        subst hown hslot
        rw [← hgiven]
        rfl
      | none =>
        have hown := (hreturn.of_inferred hkind hwritten).trans h.unset
        subst hown
        rfl

theorem ret_noted_proc (h : f.Analyzed σ id signed f' g) (hkind : f.kind = .proc) :
    (g.noted signed f').ret = .unresolved := by
  have hcollects := h.collects
  cases hcollects with
  | mk _ hreturn =>
    obtain ⟨hown, hslot⟩ := hreturn.of_proc hkind
    subst hown hslot
    rfl

end FuncDef.Analyzed

theorem Program.analyze_returns {p : Program} {o : Options} {σ : Scope} (hfresh : p.isFresh = true)
    (h : (p.analyze o).outcome = .ok σ) {id : DefId} {f : FuncDef} (hf : p.funcs[id]? = some f)
    (hplain : f.isTemplate = false) :
    ∃ f' ret k g, (p.analyze o).program.funcs[id]? = some f' ∧ f.ReturnsAs σ f' ret ∧
      σ.symbolOf? id = some k ∧ σ.functions[k]? = some g ∧ (f.kind = .func → g.ret = f'.ret) ∧
      (f.kind = .proc → g.ret = .unresolved) := by
  obtain ⟨signed, f', g, hf', hfunc⟩ := Program.analyze_func hfresh h hf hplain
  obtain ⟨ret, hret⟩ := hfunc.returnsAs
  exact ⟨f', ret, id, g.noted signed f', hf', hret, hfunc.symbol, hfunc.function, hfunc.ret_noted,
    hfunc.ret_noted_proc⟩

/-- A return statement in a loop and one after it. The first one returns what a later function
gives, which has two values, and the `ensure` block calls a procedure that returns early. -/
def searching : Program where
  definitions :=
    let int : TypeExpr := .named "int" [] {}
    let n : Expr := .var "n" .unresolved {}
    let call (name : String) : Expr := .named name [n] .unresolved .unresolved {}
    let func (kind : FuncKind) (name : String) (body : List Stmt) (ensure : Option Block) :
        Definition := .funcDef
      { kind, name, written := none, body := .mk body {}, ensure, ret := .unresolved, loc := {}
        params :=
          [{ isVar := false, name := "n", written := some int, ty := .unresolved, loc := {} }] }
    [func .func "search"
        [.whileDo (.literal (.bool true) .unresolved {}) (.mk [.ret [call "pair"] {}] {}) {},
          .ret [n, n] {}]
        (some (.mk [.expr (call "note")] {})),
      func .func "pair" [.ret [n, n] {}] none,
      func .proc "note" [.ret [] {}] none]
  loc := {}

theorem Program.analyze_returns_searching :
    searching.isFresh = true ∧ ∃ (σ : Scope) (f f' : FuncDef) (ret : Ty) (k : SymbolId)
      (g : FuncSymbol), (searching.analyze {}).outcome = .ok σ ∧ searching.funcs[0]? = some f ∧
        f.isTemplate = false ∧ (searching.analyze {}).program.funcs[0]? = some f' ∧
        f.ReturnsAs σ f' ret ∧ σ.symbolOf? 0 = some k ∧ σ.functions[k]? = some g ∧
        g.ret = f'.ret := by
  have hfresh : searching.isFresh = true := by decide +kernel
  have hok : (searching.analyze {}).outcome.isOk = true := by decide +kernel
  obtain ⟨σ, h⟩ := Outcome.exists_of_isOk hok
  have hf : searching.funcs[0]? = some _ := rfl
  obtain ⟨f', ret, k, g, hf', hret, hk, hg, hfunc, _⟩ := Program.analyze_returns hfresh h hf rfl
  exact ⟨hfresh, σ, _, f', ret, k, g, h, hf, rfl, hf', hret, hk, hg, hfunc rfl⟩

end Semant
