import Semant.Proofs.Analysis.Phases
import Semant.Proofs.Typing.Nesting

/-! Function bodies are typed in turns that may be nested. How deep they are nested, and that they
come to an end, in terms of what is written in the program. -/

namespace Semant

/-- A function whose return type is left to its body. -/
def FuncDef.isInferred (f : FuncDef) : Bool :=
  f.kind == .func && f.written.isNone && !f.isTemplate

theorem FuncDef.isInferred_iff {f : FuncDef} :
    f.isInferred = true ↔ f.kind = .func ∧ f.written = none ∧ f.isTemplate = false := by
  simp [FuncDef.isInferred, and_assoc]

theorem FuncDef.Collects.isInferred {σ : Scope} {id : DefId} {f f' : FuncDef} {g : FuncSymbol}
    (h : f.Collects σ id f' g) : g.isInferred = f.isInferred := by
  have htemplate : g.isTemplate = f.isTemplate := h.signs.template.trans h.isTemplate
  rw [FuncSymbol.isInferred, htemplate]
  obtain ⟨_, hret⟩ := h
  cases hret with
  | proc hk =>
    rw [FuncDef.isInferred, hk]
    rfl
  | written hk hw => simp [FuncDef.isInferred, hk, hw, Slot.isResolved, Slot.get?]
  | inferred hk hw => simp [FuncDef.isInferred, hk, hw, Slot.isResolved, Slot.get?]

theorem FuncDef.CollectsAll.countP_isInferred {σ : Scope} {id : DefId} {fs fs' : List FuncDef}
    {gs : List FuncSymbol} (h : FuncDef.CollectsAll σ id fs fs' gs) :
    gs.countP FuncSymbol.isInferred = fs.countP FuncDef.isInferred := by
  induction h with
  | nil => rfl
  | cons hf _ ih => rw [List.countP_cons, List.countP_cons, ih, hf.isInferred]

theorem Program.length_onDemand {p : Program} {fs : List FuncDef} {σ : Scope}
    (h : p.collect = (fs, .ok σ)) : σ.onDemand.length = p.funcs.countP FuncDef.isInferred := by
  obtain ⟨_, hall, _, _⟩ := Program.collect_eq_ok.mp h
  rw [Scope.onDemand, List.length_map, ← List.countP_eq_length_filter, hall.countP_isInferred]

/-- However the functions of a program call one another, the bodies that are being typed at any time
are distinct, all but one of them are bodies of functions without a written return type, and no body
is typed twice. So a limit on the depth of nesting that covers these functions has no effect. -/
theorem Program.typing_nests {p : Program} {fs : List FuncDef} {σ : Scope}
    (h : p.collect = (fs, .ok σ)) :
    let inferred := p.funcs.countP FuncDef.isInferred
    let journal := (Progress.ofFuncs fs σ).journal
    (∀ past, past <:+ journal → (nested past).Nodup ∧ (nested past).length ≤ 1 + inferred) ∧
      (journal.filterMap Visit.entered?).Nodup ∧ nested journal = [] ∧
      (∀ id ∈ (Progress.ofFuncs fs σ).done, .entered id ∈ journal) ∧
      ∀ budget, inferred + 2 ≤ budget →
        fs.zipIdx.foldl (Progress.visit budget) { funcs := fs, scope := σ } =
          Progress.ofFuncs fs σ := by
  have hlen := Program.length_onDemand h
  obtain ⟨hnests, hidle⟩ := Progress.ofFuncs_nests fs σ
  refine ⟨fun past hpast => ?_, hnests.once, hnests.active.trans hidle, hnests.done,
    fun budget hbudget => ?_⟩
  · obtain ⟨hnodup, hdepth⟩ := hnests.past past hpast
    exact ⟨hnodup, by omega⟩
  · exact Progress.ofFuncs_budget (Program.collect_signs h) (by omega)

/-- The procedure `start` calls `even`, which calls `odd`, which calls `even` again. -/
def ring : Program where
  definitions :=
    let call (name : String) : Expr := .named name [] .unresolved .unresolved {}
    let define (kind : FuncKind) (name : String) (body : List Stmt) (ensure : Option Block) :
        Definition :=
      .funcDef
        { kind, name, params := [], written := none, body := .mk body {}, ensure,
          ret := .unresolved, loc := {} }
    [define .proc "start" [.expr (call "even")] none,
      define .func "even" [.ret [call "odd"] {}] none,
      define .func "odd" [] (some (.mk [.expr (call "even")] {}))]
  loc := {}

theorem Program.typing_nests_ring :
    ∃ (fs : List FuncDef) (σ : Scope) (past : List Visit), ring.collect = (fs, .ok σ) ∧
      past <:+ (Progress.ofFuncs fs σ).journal ∧ nested past = [2, 1, 0] ∧
      (nested past).length ≤ 1 + ring.funcs.countP FuncDef.isInferred ∧
      fs.zipIdx.foldl (Progress.visit 4) { funcs := fs, scope := σ } = Progress.ofFuncs fs σ := by
  have hok : ring.collect.2.isOk = true := by decide +kernel
  obtain ⟨σ, hσ⟩ := Outcome.exists_of_isOk hok
  have h : ring.collect = (ring.collect.1, .ok σ) := Prod.ext rfl hσ
  have hinner : ring.collect.2.toOption.map
      (fun σ => nested ((Progress.ofFuncs ring.collect.1 σ).journal.drop 3)) = some [2, 1, 0] := by
    decide +kernel
  rw [hσ] at hinner
  obtain ⟨hpast, _, _, _, hbudget⟩ := Program.typing_nests h
  have hsuffix := List.drop_suffix 3 (Progress.ofFuncs ring.collect.1 σ).journal
  exact ⟨_, σ, _, h, hsuffix, Option.some.inj hinner, (hpast _ hsuffix).2,
    hbudget 4 (by decide +kernel)⟩

end Semant
