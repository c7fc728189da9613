import Semant.Proofs.Analysis.Phases

/-! An accepted program is well typed: the judgment derives the body and the `ensure` block of every
function that is not a template, in the scope that the analysis ends with. -/

namespace Semant

theorem Progress.ofFuncs_classes {fs : List FuncDef} {σ : Scope} (hsig : σ.Signs fs)
    (h : (Progress.ofFuncs fs σ).error = none) :
    (Progress.ofFuncs fs σ).scope.classes = σ.classes := by
  rw [(Progress.ofFuncs_history hsig h).1.scope]
  rfl

/-- The parameters and the return type of a definition `f` are as they are written, and its body and
its `ensure` block are those of `f` with every slot filled as the typing rules have it. -/
theorem Program.analyze_sound {p : Program} {o : Options} {σ : Scope}
    (h : (p.analyze o).outcome = .ok σ) :
    (p.analyze o).program.funcs.length = p.funcs.length ∧
      ∀ (id : DefId) (f : FuncDef), p.funcs[id]? = some f → f.isTemplate = false →
        ∃ (signed f' : FuncDef) (g : FuncSymbol), (p.analyze o).program.funcs[id]? = some f' ∧
          f.Collects σ id signed g ∧ signed.Resolves σ f' := by
  obtain ⟨fs, σ₀, hcollect, herror, rfl⟩ := Program.typed_eq_ok.mp (Program.typed_of_analyze h)
  obtain ⟨_, hall, _, hclasses⟩ := Program.collect_eq_ok.mp hcollect
  have hsig := Program.collect_signs hcollect
  have hlen : (Progress.ofFuncs fs σ₀).funcs.length = p.funcs.length :=
    (Progress.length_ofFuncs fs σ₀).trans hall.length.1
  rw [Program.program_analyze, Program.funcs_typed hcollect]
  refine ⟨hlen, fun id f hf htemplate => ?_⟩
  obtain ⟨signed, g, hsigned, _, hcollects⟩ := hall.get hf
  rw [Nat.zero_add] at hcollects
  have hplain : signed.isTemplate = false := by rw [hcollects.isTemplate, htemplate]
  obtain ⟨f', hf', hres⟩ := Progress.ofFuncs_resolves hsig herror hsigned hplain
  have hscope : (Progress.ofFuncs fs σ₀).scope.classes = p.classScope.classes :=
    (Progress.ofFuncs_classes hsig herror).trans hclasses
  exact ⟨signed, f', g, hf', hcollects.of_classes hscope, hres⟩

/-- The first function calls the second one, whose return type only its body tells. -/
def pairing : Program where
  definitions :=
    let int : TypeExpr := .named "int" [] {}
    let n : Expr := .var "n" .unresolved {}
    let empty : Expr := .typed (.array [] .unresolved {}) (.array int {}) .unresolved {}
    let param : Binder :=
      { isVar := false, name := "n", written := some int, ty := .unresolved, loc := {} }
    let func (name : String) (result : List Expr) : Definition := .funcDef
      { kind := .func, name, params := [param], written := none, body := .mk [.ret result {}] {},
        ensure := none, ret := .unresolved, loc := {} }
    [func "pair" [.named "double" [n] .unresolved .unresolved {}, empty],
      func "double" [.binary n .add n .unresolved {}]]
  loc := {}

theorem Program.analyze_sound_pairing :
    ∃ (σ : Scope) (f signed f' : FuncDef) (g : FuncSymbol),
      (pairing.analyze {}).outcome = .ok σ ∧ pairing.funcs[0]? = some f ∧ f.isTemplate = false ∧
        (pairing.analyze {}).program.funcs[0]? = some f' ∧
        f.Collects σ 0 signed g ∧ signed.Resolves σ f' := by
  have hok : (pairing.analyze {}).outcome.isOk = true := by decide +kernel
  obtain ⟨σ, h⟩ := Outcome.exists_of_isOk hok
  obtain ⟨signed, f', g, hf', hcollects, hres⟩ := (Program.analyze_sound h).2 0 _ rfl rfl
  exact ⟨σ, _, signed, f', g, h, rfl, rfl, hf', hcollects, hres⟩

end Semant
