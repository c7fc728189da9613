import Semant.Proofs.Scope.Definition
import Semant.Proofs.Typing.Rules
import Semant.Scope.Tables

/-! The tables of a global scope stay in step over any requests, also over refused ones: every
index answers what a search through the symbols would. A request is refused exactly when it is in
conflict with a symbol that is there, and then it changes no table. -/

namespace Semant

/-- The same request on the symbols alone. -/
def Scope.perform (σ : Scope) : Request → Except Error (Nat × Scope)
  | .defineFunction symbol => σ.defineFunction symbol
  | .defineClass symbol => σ.defineClass symbol
  | .setReturnType id ty => (σ.setReturnType id ty).map fun τ => (id, τ)

namespace Tables

/-- Every index answers as a search through the symbols does. -/
structure InStep (t : Tables) : Prop where
  overloads : ∀ name, t.overloads name = (t.scope.overloads name).map Overload.id
  symbolOf : ∀ definition, t.symbolOf? definition = t.scope.symbolOf? definition
  lookupClass : ∀ name, t.lookupClass? name = t.scope.lookupClass? name
  signatures : t.functions.Pairwise fun f g => f.sameSignature g = false
  classNames : (t.classes.map ClassSymbol.name).Nodup

theorem lookup_cons_eq {κ α : Type} [DecidableEq κ] (key k : κ) (a : α) (index : List (κ × α)) :
    ((k, a) :: index).lookup key = if k = key then some a else index.lookup key := by
  rw [List.lookup_cons]
  by_cases h : k = key
  · simp [h]
  · simp [h, beq_false_of_ne (Ne.symm h)]

section

variable (t : Tables)

@[simp]
theorem enter_scope (name : String) : (t.enter name).scope = t.scope := by
  unfold enter
  split <;> rfl

@[simp]
theorem enter_functions (name : String) : (t.enter name).functions = t.functions :=
  congrArg Scope.functions (t.enter_scope name)

@[simp]
theorem enter_classes (name : String) : (t.enter name).classes = t.classes :=
  congrArg Scope.classes (t.enter_scope name)

@[simp]
theorem enter_symbolOf? (name : String) : (t.enter name).symbolOf? = t.symbolOf? := by
  unfold enter
  split <;> rfl

@[simp]
theorem enter_lookupClass? (name : String) : (t.enter name).lookupClass? = t.lookupClass? := by
  unfold enter
  split <;> rfl

@[simp]
theorem enter_overloads (name : String) : (t.enter name).overloads = t.overloads := by
  funext key
  unfold enter
  split
  · rfl
  next hnone =>
    simp only [overloads, lookup_cons_eq]
    split
    next h => rw [← h, hnone]; rfl
    · rfl

@[simp]
theorem enter_candidates (name : String) : (t.enter name).candidates = t.candidates := by
  funext key
  simp only [candidates, enter_overloads, enter_functions]

theorem scope_of_grows {τ : Scope} (h : t.scope.Grows τ) :
    { t with functions := τ.functions }.scope = τ := by
  obtain ⟨functions, classes⟩ := τ
  have hc : classes = t.classes := h.classes
  subst hc
  rfl

/-- A name with functions has its entry. -/
theorem enter_eq_self {name : String} (h : t.overloads name ≠ []) : t.enter name = t := by
  unfold enter
  split
  · rfl
  next hnone => exact absurd (by simp [overloads, hnone]) h

end

namespace InStep

theorem enter {t : Tables} (h : t.InStep) (name : String) : (t.enter name).InStep where
  overloads key := by simpa using h.overloads key
  symbolOf definition := by simpa using h.symbolOf definition
  lookupClass key := by simpa using h.lookupClass key
  signatures := by simpa using h.signatures
  classNames := by simpa using h.classNames

theorem addFunction {t : Tables} (h : t.InStep) {symbol : FuncSymbol}
    (hnew : ∀ f ∈ t.functions, f.sameSignature symbol = false) :
    (t.addFunction symbol).InStep where
  overloads name := by
    have hscope := t.scope.overloads_append symbol name
    change (t.addFunction symbol).scope.overloads name = _ at hscope
    rw [hscope, List.map_append, ← h.overloads]
    simp only [Tables.overloads, Tables.addFunction, lookup_cons_eq]
    split
    next hn => subst hn; rfl
    · simp
  symbolOf definition := by
    have hscope := t.scope.symbolOf?_append symbol definition
    change (t.addFunction symbol).scope.symbolOf? definition = _ at hscope
    rw [hscope, ← h.symbolOf]
    simp only [Tables.symbolOf?, Tables.addFunction, lookup_cons_eq]
    rfl
  lookupClass := h.lookupClass
  signatures := by
    refine List.pairwise_append.mpr ⟨h.signatures, List.pairwise_singleton .., ?_⟩
    simpa using hnew
  classNames := h.classNames

theorem addClass {t : Tables} (h : t.InStep) {symbol : ClassSymbol}
    (hnew : ∀ c ∈ t.classes, c.name ≠ symbol.name) : (t.addClass symbol).InStep where
  overloads := h.overloads
  symbolOf := h.symbolOf
  lookupClass name := by
    have hscope := t.scope.lookupClass?_append symbol name
    change (t.addClass symbol).scope.lookupClass? name = _ at hscope
    rw [hscope, ← h.lookupClass]
    simp only [Tables.lookupClass?, Tables.addClass, lookup_cons_eq]
    split
    next hn =>
      have hnone : t.lookupClass? name = none := by
        rw [h.lookupClass, Scope.lookupClass?, List.findIdx?_eq_none_iff]
        intro c hc
        exact beq_false_of_ne (hn ▸ hnew c hc)
      rw [Tables.lookupClass?] at hnone
      rw [hnone]
      rfl
    · rw [Option.or_none]
  signatures := h.signatures
  classNames := by
    simp only [Tables.addClass, List.map_append]
    refine List.pairwise_append.mpr ⟨h.classNames, List.pairwise_singleton .., ?_⟩
    simpa using hnew

/-- Known return types change no index. -/
theorem of_grows {t : Tables} {τ : Scope} (h : t.InStep) (hg : t.scope.Grows τ) :
    { t with functions := τ.functions }.InStep := by
  have hscope := t.scope_of_grows hg
  constructor
  · intro name
    rw [hscope, hg.overloads_id]
    exact h.overloads name
  · intro definition
    rw [hscope, hg.symbolOf?]
    exact h.symbolOf definition
  · intro name
    rw [hscope, hg.lookupClass?]
    exact h.lookupClass name
  · exact hg.signatures h.signatures
  · exact h.classNames

theorem candidates {t : Tables} (h : t.InStep) (name : String) :
    t.candidates name = t.scope.overloads name := by
  have hback : ∀ o ∈ t.scope.overloads name,
      (t.functions[o.id]?.map fun symbol => (⟨o.id, symbol⟩ : Overload)) = some o := by
    intro o ho
    have hf : t.functions[o.id]? = some o.symbol := (Scope.mem_overloads.mp ho).1
    rw [hf]
    rfl
  rw [Tables.candidates, h.overloads, List.filterMap_map]
  exact (List.filterMap_congr hback).trans List.filterMap_some

theorem resolve? {t : Tables} (h : t.InStep) (name : String) (args : List Ty) :
    t.resolve? name args = t.scope.resolve? name args := by
  simp only [Tables.resolve?, h.candidates, Scope.resolve?, Scope.bestOverload?]

theorem sameSignature_inj {t : Tables} (h : t.InStep) {i j : SymbolId} {f g : FuncSymbol}
    (hf : t.functions[i]? = some f) (hg : t.functions[j]? = some g) (hs : f.sameSignature g) :
    i = j := by
  obtain ⟨hi, rfl⟩ := List.getElem?_eq_some_iff.mp hf
  obtain ⟨hj, rfl⟩ := List.getElem?_eq_some_iff.mp hg
  have hpair := List.pairwise_iff_getElem.mp h.signatures
  rcases Nat.lt_trichotomy i j with hlt | heq | hgt
  · rw [hpair i j hi hj hlt] at hs
    cases hs
  · exact heq
  · rw [FuncSymbol.sameSignature_comm, hpair j i hj hi hgt] at hs
    cases hs

end InStep

end Tables

/-- A request for what is taken: a signature, a class name, or the return type of a function. -/
def Request.Conflicts (t : Tables) : Request → Prop
  | .defineFunction symbol => ∃ f ∈ t.functions, f.sameSignature symbol
  | .defineClass symbol => ∃ c ∈ t.classes, c.name = symbol.name
  | .setReturnType id _ => ∃ f, t.functions[id]? = some f ∧ f.ret.isResolved

/-- The kind of error that refuses a request; a second return type is an internal fault. -/
def Request.refusal : Request → Option ErrorKind
  | .defineFunction _ | .defineClass _ => some .duplicateDefinition
  | .setReturnType .. => none

namespace Tables

/-- A request is refused exactly in a conflict, and then no table changes. Its answer, and what it
does to the symbols, are the same without the indices. -/
structure Settles (t : Tables) (r : Request) : Prop where
  refused_iff : (∃ e, (t.perform r).1 = .error e) ↔ r.Conflicts t
  refused : ∀ e, (t.perform r).1 = .error e → e.kind? = r.refusal ∧ (t.perform r).2 = t
  scope : (t.perform r).1.map (fun id => (id, (t.perform r).2.scope)) = t.scope.perform r

theorem Settles.of_refused {t : Tables} {r : Request} {e : Error} (hr : r.Conflicts t)
    (hp : t.perform r = (.error e, t)) (hk : e.kind? = r.refusal)
    (hs : t.scope.perform r = .error e) : t.Settles r where
  refused_iff := by simp [hp, hr]
  refused e' he' := by
    rw [hp] at he' ⊢
    cases he'
    exact ⟨hk, rfl⟩
  scope := by rw [hp, hs]; rfl

theorem Settles.of_granted {t t' : Tables} {r : Request} {id : Nat} (hr : ¬ r.Conflicts t)
    (hp : t.perform r = (.ok id, t')) (hs : t.scope.perform r = .ok (id, t'.scope)) :
    t.Settles r where
  refused_iff := by simp [hp, hr]
  refused e he := by
    rw [hp] at he
    cases he
  scope := by rw [hp, hs]; rfl

namespace InStep

theorem defineFunction {t : Tables} (h : t.InStep) (symbol : FuncSymbol) :
    t.Settles (.defineFunction symbol) ∧ (t.defineFunction symbol).2.InStep := by
  have hfind : t.functions.find? (·.sameSignature symbol) =
      ((t.candidates symbol.name).find? (·.symbol.sameSignature symbol)).map Overload.symbol := by
    rw [h.candidates]
    exact (t.scope.find?_overloads symbol).symm
  cases hc : (t.candidates symbol.name).find? (·.symbol.sameSignature symbol) with
  | some earlier =>
    rw [hc, Option.map_some] at hfind
    have hmem := List.mem_of_find?_eq_some hfind
    have hsame := List.find?_some hfind
    -- the earlier function has given the name its entry
    have hentered : t.enter symbol.name = t := by
      refine t.enter_eq_self fun hnil => ?_
      simp [Tables.candidates, hnil] at hc
    have hp : t.defineFunction symbol =
        (reject symbol.loc (.sameFunction symbol earlier.symbol), t) := by
      simp only [Tables.defineFunction, hc, hentered]
    have hs : t.scope.defineFunction symbol =
        reject symbol.loc (.sameFunction symbol earlier.symbol) := by
      simp only [Scope.defineFunction, Tables.scope, hfind]
    exact ⟨.of_refused ⟨earlier.symbol, hmem, hsame⟩ hp rfl hs, by rw [hp]; exact h⟩
  | none =>
    rw [hc, Option.map_none] at hfind
    have hnew : ∀ f ∈ t.functions, f.sameSignature symbol = false := by
      simpa using List.find?_eq_none.mp hfind
    have hp : t.defineFunction symbol =
        (.ok t.functions.length, (t.enter symbol.name).addFunction symbol) := by
      simp only [Tables.defineFunction, enter_candidates, hc]
    have hs : t.scope.defineFunction symbol =
        .ok (t.functions.length, ((t.enter symbol.name).addFunction symbol).scope) := by
      simp only [Scope.defineFunction, hfind, Tables.addFunction, Tables.scope, enter_functions,
        enter_classes]
    have hfree : ¬ (Request.defineFunction symbol).Conflicts t := by
      rintro ⟨f, hf, hsame⟩
      rw [hnew f hf] at hsame
      cases hsame
    exact ⟨.of_granted hfree hp hs, by rw [hp]; exact (h.enter _).addFunction (by simpa using hnew)⟩

theorem defineClass {t : Tables} (h : t.InStep) (symbol : ClassSymbol) :
    t.Settles (.defineClass symbol) ∧ (t.defineClass symbol).2.InStep := by
  have hfind : t.classes.find? (·.name == symbol.name) =
      (t.lookupClass? symbol.name).bind (t.classes[·]?) := by
    rw [h.lookupClass]
    exact List.find?_eq_bind_findIdx?_getElem?
  cases hc : (t.lookupClass? symbol.name).bind (t.classes[·]?) with
  | some earlier =>
    rw [hc] at hfind
    have hmem := List.mem_of_find?_eq_some hfind
    have hname : earlier.name = symbol.name := by simpa using List.find?_some hfind
    have hp : t.defineClass symbol =
        (reject symbol.loc (.sameClass symbol.name earlier.loc), t) := by
      simp only [Tables.defineClass, hc]
    have hs : t.scope.defineClass symbol =
        reject symbol.loc (.sameClass symbol.name earlier.loc) := by
      simp only [Scope.defineClass, Tables.scope, hfind]
    exact ⟨.of_refused ⟨earlier, hmem, hname⟩ hp rfl hs, by rw [hp]; exact h⟩
  | none =>
    rw [hc] at hfind
    have hnew : ∀ c ∈ t.classes, c.name ≠ symbol.name := by
      simpa using List.find?_eq_none.mp hfind
    have hp : t.defineClass symbol = (.ok t.classes.length, t.addClass symbol) := by
      simp only [Tables.defineClass, hc]
    have hs : t.scope.defineClass symbol =
        .ok (t.classes.length, (t.addClass symbol).scope) := by
      simp only [Scope.defineClass, Tables.scope, hfind, Tables.addClass]
    have hfree : ¬ (Request.defineClass symbol).Conflicts t := by
      rintro ⟨c, hc, hname⟩
      exact hnew c hc hname
    exact ⟨.of_granted hfree hp hs, by rw [hp]; exact h.addClass hnew⟩

theorem setReturnType {t : Tables} (h : t.InStep) (id : SymbolId) (ty : Ty) :
    t.Settles (.setReturnType id ty) ∧ (t.setReturnType id ty).2.InStep := by
  cases hf : t.functions[id]? with
  | none =>
    have hs : t.scope.setReturnType id ty = .ok t.scope := by
      simp only [Scope.setReturnType, Tables.scope, hf]
    have hp : t.setReturnType id ty = (.ok id, t) := by
      simp only [Tables.setReturnType, hs]
      rfl
    have hfree : ¬ (Request.setReturnType id ty).Conflicts t := by
      rintro ⟨f, hf', -⟩
      rw [hf] at hf'
      cases hf'
    refine ⟨.of_granted hfree hp ?_, by rw [hp]; exact h⟩
    simp only [Scope.perform, hs]
    rfl
  | some f =>
    cases hret : f.ret with
    | resolved ty' =>
      have hs : t.scope.setReturnType id ty =
          .error (.internal "resolution slot written twice") := by
        simp only [Scope.setReturnType, Tables.scope, hf, hret]
        rfl
      have hp : t.setReturnType id ty =
          (.error (.internal "resolution slot written twice"), t) := by
        simp only [Tables.setReturnType, hs]
      refine ⟨.of_refused ⟨f, hf, by rw [hret]; rfl⟩ hp rfl ?_, by rw [hp]; exact h⟩
      simp only [Scope.perform, hs]
      rfl
    | unresolved =>
      obtain ⟨τ, hs, hgrows⟩ : ∃ τ, t.scope.setReturnType id ty = .ok τ ∧ t.scope.Grows τ :=
        ⟨_, (Scope.setReturnType_eq_ok hf).mpr ⟨hret, rfl⟩, Scope.set_grows hf hret _⟩
      have hp : t.setReturnType id ty = (.ok id, { t with functions := τ.functions }) := by
        simp only [Tables.setReturnType, hs]
      have hfree : ¬ (Request.setReturnType id ty).Conflicts t := by
        rintro ⟨g, hg, hr⟩
        rw [hf] at hg
        cases hg
        rw [hret] at hr
        cases hr
      refine ⟨.of_granted hfree hp ?_, by rw [hp]; exact h.of_grows hgrows⟩
      simp only [Scope.perform, hs, t.scope_of_grows hgrows]
      rfl

theorem perform {t : Tables} (h : t.InStep) (r : Request) :
    t.Settles r ∧ (t.perform r).2.InStep := by
  cases r with
  | defineFunction symbol => exact h.defineFunction symbol
  | defineClass symbol => exact h.defineClass symbol
  | setReturnType id ty => exact h.setReturnType id ty

theorem empty : ({} : Tables).InStep where
  overloads _ := rfl
  symbolOf _ := rfl
  lookupClass _ := rfl
  signatures := .nil
  classNames := .nil

end InStep

theorem inStep_foldl {t : Tables} (h : t.InStep) (requests : List Request) :
    (requests.foldl (fun t r => (t.perform r).2) t).InStep := by
  induction requests generalizing t with
  | nil => exact h
  | cons r requests ih => exact ih (h.perform r).2

theorem inStep_run (requests : List Request) : (run requests).InStep :=
  inStep_foldl .empty requests

/-- What the indices say about the symbols, in full. -/
structure Indexed (t : Tables) : Prop where
  overloads_sorted : ∀ name, (t.overloads name).Pairwise (· < ·)
  mem_overloads : ∀ name id,
    id ∈ t.overloads name ↔ ∃ f, t.functions[id]? = some f ∧ f.name = name
  hasFunction : ∀ name, t.hasFunction name = true ↔ ∃ f ∈ t.functions, f.name = name
  signatures : ∀ {i j : SymbolId} {f g : FuncSymbol}, t.functions[i]? = some f →
    t.functions[j]? = some g → f.sameSignature g → i = j
  /-- A definition leads to the last of its symbols. -/
  symbolOf_some : ∀ definition id, t.symbolOf? definition = some id ↔
    (∃ f, t.functions[id]? = some f ∧ f.definition = definition) ∧
      ∀ later g, t.functions[later]? = some g → g.definition = definition → later ≤ id
  symbolOf_none : ∀ definition,
    t.symbolOf? definition = none ↔ ∀ f ∈ t.functions, f.definition ≠ definition
  lookupClass : ∀ name id,
    t.lookupClass? name = some id ↔ ∃ c, t.classes[id]? = some c ∧ c.name = name
  classNames : (t.classes.map ClassSymbol.name).Nodup
  resolve : ∀ name args, t.resolve? name args = t.scope.resolve? name args

namespace InStep

theorem mem_overloads {t : Tables} (h : t.InStep) (name : String) (id : SymbolId) :
    id ∈ t.overloads name ↔ ∃ f, t.functions[id]? = some f ∧ f.name = name := by
  rw [h.overloads, List.mem_map]
  constructor
  · rintro ⟨o, ho, rfl⟩
    exact ⟨o.symbol, Scope.mem_overloads.mp ho⟩
  · rintro ⟨f, hf⟩
    exact ⟨⟨id, f⟩, Scope.mem_overloads.mpr hf, rfl⟩

theorem hasFunction {t : Tables} (h : t.InStep) (name : String) :
    t.hasFunction name = true ↔ ∃ f ∈ t.functions, f.name = name := by
  rw [Tables.hasFunction, Bool.not_eq_true', List.isEmpty_eq_false_iff_exists_mem]
  constructor
  · rintro ⟨id, hid⟩
    obtain ⟨f, hf, hn⟩ := (h.mem_overloads name id).mp hid
    exact ⟨f, List.mem_of_getElem? hf, hn⟩
  · rintro ⟨f, hf, hn⟩
    obtain ⟨id, hid⟩ := List.getElem?_of_mem hf
    exact ⟨id, (h.mem_overloads name id).mpr ⟨f, hid, hn⟩⟩

theorem indexed {t : Tables} (h : t.InStep) : t.Indexed where
  overloads_sorted name := by
    rw [h.overloads]
    exact List.pairwise_map.mpr (t.scope.pairwise_overloads name)
  mem_overloads := h.mem_overloads
  hasFunction := h.hasFunction
  signatures := h.sameSignature_inj
  symbolOf_some definition id := by
    rw [h.symbolOf]
    exact Scope.symbolOf?_eq_some_iff
  symbolOf_none definition := by
    rw [h.symbolOf]
    exact Scope.symbolOf?_eq_none_iff
  lookupClass name id := by
    rw [h.lookupClass]
    exact Scope.lookupClass?_eq_some_iff h.classNames
  classNames := h.classNames
  resolve := h.resolve?

end InStep

/-- After any requests, the refused ones included, the indices lead to the symbols they should,
and the next request is settled. -/
theorem run_settles (requests : List Request) :
    (run requests).Indexed ∧ ∀ r, (run requests).Settles r := by
  have h := inStep_run requests
  exact ⟨h.indexed, fun r => (h.perform r).1⟩

example :
    let f : FuncSymbol := ⟨.func, "f", [.template], .unresolved, 0, {}⟩
    let t := run [.defineFunction f, .defineFunction { f with params := [] },
      .defineFunction { f with definition := 1 }, .setReturnType 1 (.builtin .int)]
    t.overloads "f" = [0, 1] ∧ t.symbolOf? 0 = some 1 ∧ t.symbolOf? 1 = none := by decide

end Tables

end Semant
