import Semant.Analysis.Signature
import Semant.Proofs.Typing.History

/-! When symbol collection succeeds, and what it gives: no class name and no signature is taken
twice, every written type is known, and each function gets one symbol at its own position. -/

namespace Semant

open Outcome

/-- A parameter gets the type that is written for it. -/
inductive Binder.Collects (σ : Scope) : Binder → Binder → ParamType → Prop
  | template {b : Binder} : b.written = none → Collects σ b b .template
  | concrete {b : Binder} {w : TypeExpr} {ty : Ty} :
      b.written = some w → w.resolve σ = .ok ty → b.ty = .unresolved →
      Collects σ b { b with ty := .resolved ty } (.concrete ty)

inductive Binder.CollectsAll (σ : Scope) : List Binder → List Binder → List ParamType → Prop
  | nil : CollectsAll σ [] [] []
  | cons {b b' : Binder} {bs bs' : List Binder} {param : ParamType} {params : List ParamType} :
      b.Collects σ b' param → CollectsAll σ bs bs' params →
      CollectsAll σ (b :: bs) (b' :: bs') (param :: params)

/-- The return type of a definition, as far as it is written, and that of its symbol. -/
inductive FuncDef.CollectsReturn (σ : Scope) (f : FuncDef) : Slot Ty → Slot Ty → Prop
  | proc : f.kind = .proc → f.ret = .unresolved → CollectsReturn σ f (.resolved .unit) .unresolved
  | written {w : TypeExpr} {ty : Ty} :
      f.kind = .func → f.written = some w → w.resolve σ = .ok ty → f.ret = .unresolved →
      CollectsReturn σ f (.resolved ty) (.resolved ty)
  | inferred : f.kind = .func → f.written = none → CollectsReturn σ f f.ret .unresolved

inductive FuncDef.Collects (σ : Scope) (id : DefId) (f : FuncDef) : FuncDef → FuncSymbol → Prop
  | mk {params : List Binder} {types : List ParamType} {own ret : Slot Ty} :
      Binder.CollectsAll σ f.params params types → f.CollectsReturn σ own ret →
      Collects σ id f { f with params, ret := own }
        { kind := f.kind, name := f.name, params := types, ret, definition := id, loc := f.loc }

inductive FuncDef.CollectsAll (σ : Scope) :
    DefId → List FuncDef → List FuncDef → List FuncSymbol → Prop
  | nil {id : DefId} : CollectsAll σ id [] [] []
  | cons {id : DefId} {f f' : FuncDef} {fs fs' : List FuncDef} {g : FuncSymbol}
      {gs : List FuncSymbol} :
      f.Collects σ id f' g → CollectsAll σ (id + 1) fs fs' gs →
      CollectsAll σ id (f :: fs) (f' :: fs') (g :: gs)

theorem Binder.collect_eq_ok {σ : Scope} {b b' : Binder} {param : ParamType} :
    b.collect σ = .ok (b', param) ↔ b.Collects σ b' param := by
  unfold Binder.collect
  constructor
  · intro h
    cases hw : b.written with
    | none =>
      rw [hw] at h
      cases h
      exact .template hw
    | some w =>
      rw [hw] at h
      obtain ⟨ty, hty, h⟩ := bind_eq_ok.mp h
      obtain ⟨slot, hslot, heq⟩ := bind_eq_ok.mp h
      cases hb : b.ty with
      | resolved =>
        rw [hb] at hslot
        cases hslot
      | unresolved =>
        rw [hb] at hslot
        cases hslot
        cases heq
        rw [← hw]
        exact .concrete hw hty hb
  · rintro (hw | ⟨hw, hty, hb⟩)
    · rw [hw]
      rfl
    · rw [hw, hb]
      dsimp only
      rw [hty]
      rfl

theorem Binder.collectAll_eq_ok {σ : Scope} {bs bs' : List Binder} {params : List ParamType} :
    Binder.collectAll σ bs = (bs', .ok params) ↔ Binder.CollectsAll σ bs bs' params := by
  induction bs generalizing bs' params with
  | nil =>
    constructor
    · rintro ⟨⟩
      exact .nil
    · rintro ⟨⟩
      rfl
  | cons b bs ih =>
    rw [Binder.collectAll]
    constructor
    · intro h
      cases hb : b.collect σ with
      | error =>
        rw [hb] at h
        cases h
      | ok p =>
        obtain ⟨b', param⟩ := p
        rw [hb] at h
        cases hbs : Binder.collectAll σ bs with
        | mk rest outcome =>
          rw [hbs] at h
          cases outcome with
          | error => cases h
          | ok params =>
            cases h
            exact .cons (Binder.collect_eq_ok.mp hb) (ih.mp hbs)
    · rintro (_ | ⟨hb, hbs⟩)
      rw [Binder.collect_eq_ok.mpr hb]
      dsimp only
      rw [ih.mpr hbs]
      rfl

theorem Slot.fill_eq_ok {α : Type} {slot slot' : Slot α} {a : α} :
    slot.fill a = .ok slot' ↔ slot = .unresolved ∧ slot' = .resolved a := by
  cases slot with
  | unresolved => simp [Slot.fill, eq_comm]
  | resolved => simp [Slot.fill]

theorem FuncDef.collectReturn_eq_ok {σ : Scope} {f : FuncDef} {own ret : Slot Ty} :
    f.collectReturn σ = .ok (own, ret) ↔ f.CollectsReturn σ own ret := by
  unfold FuncDef.collectReturn
  cases hk : f.kind with
  | proc =>
    simp only [bind_eq_ok, Slot.fill_eq_ok]
    constructor
    · rintro ⟨_, ⟨hret, rfl⟩, heq⟩
      cases heq
      exact .proc hk hret
    · rintro (⟨_, hret⟩ | ⟨hk', _, _, _⟩ | ⟨hk', _⟩)
      · exact ⟨_, ⟨hret, rfl⟩, rfl⟩
      · rw [hk] at hk'
        cases hk'
      · rw [hk] at hk'
        cases hk'
  | func =>
    cases hw : f.written with
    | none =>
      constructor
      · rintro ⟨⟩
        exact .inferred hk hw
      · rintro (⟨hk', _⟩ | ⟨_, hw', _, _⟩ | ⟨_, _⟩)
        · rw [hk] at hk'
          cases hk'
        · rw [hw] at hw'
          cases hw'
        · rfl
    | some w =>
      simp only [bind_eq_ok, Slot.fill_eq_ok]
      constructor
      · rintro ⟨ty, hty, _, ⟨hret, rfl⟩, heq⟩
        cases heq
        exact .written hk hw hty hret
      · rintro (⟨hk', _⟩ | ⟨_, hw', hty, hret⟩ | ⟨_, hw'⟩)
        · rw [hk] at hk'
          cases hk'
        · rw [hw] at hw'
          cases hw'
          exact ⟨_, hty, _, ⟨hret, rfl⟩, rfl⟩
        · rw [hw] at hw'
          cases hw'

theorem Scope.defineFunction_eq_ok {σ : Scope} {g : FuncSymbol} {p : SymbolId × Scope} :
    σ.defineFunction g = .ok p ↔ (∀ earlier ∈ σ.functions, earlier.sameSignature g = false) ∧
      p = (σ.functions.length, { σ with functions := σ.functions ++ [g] }) := by
  unfold Scope.defineFunction
  cases hfind : σ.functions.find? (·.sameSignature g) with
  | none =>
    have hnone : ∀ earlier ∈ σ.functions, earlier.sameSignature g = false := by
      simpa using List.find?_eq_none.mp hfind
    constructor
    · rintro ⟨⟩
      exact ⟨hnone, rfl⟩
    · rintro ⟨_, rfl⟩
      rfl
  | some earlier =>
    have hmem := List.mem_of_find?_eq_some hfind
    have hsame := List.find?_some hfind
    simp only [reject_ne_ok, false_iff, not_and]
    intro hnone
    rw [hnone earlier hmem] at hsame
    cases hsame

theorem FuncDef.collect_eq_ok {σ τ : Scope} {id : DefId} {f f' : FuncDef} :
    f.collect σ id = (f', .ok τ) ↔ ∃ g, f.Collects σ id f' g ∧
      (∀ earlier ∈ σ.functions, earlier.sameSignature g = false) ∧
      τ = { σ with functions := σ.functions ++ [g] } := by
  unfold FuncDef.collect
  constructor
  · intro h
    cases hparams : Binder.collectAll σ f.params with
    | mk params outcome =>
      rw [hparams] at h
      cases outcome with
      | error => cases h
      | ok types =>
        dsimp only at h
        cases hret : FuncDef.collectReturn σ { f with params } with
        | error =>
          rw [hret] at h
          cases h
        | ok slots =>
          obtain ⟨own, ret⟩ := slots
          rw [hret] at h
          obtain ⟨rfl, hdefine⟩ := Prod.mk.inj h
          cases hdef : σ.defineFunction ⟨f.kind, f.name, types, ret, id, f.loc⟩ with
          | error =>
            rw [hdef] at hdefine
            cases hdefine
          | ok p =>
            rw [hdef] at hdefine
            cases hdefine
            obtain ⟨hnone, rfl⟩ := Scope.defineFunction_eq_ok.mp hdef
            have hreturn : f.CollectsReturn σ own ret := FuncDef.collectReturn_eq_ok.mp hret
            exact ⟨_, .mk (Binder.collectAll_eq_ok.mp hparams) hreturn, hnone, rfl⟩
  · rintro ⟨g, ⟨hparams, hret⟩, hnone, rfl⟩
    rename_i params types own ret
    have hreturn : f.collectReturn σ = .ok (own, ret) := FuncDef.collectReturn_eq_ok.mpr hret
    change FuncDef.collectReturn σ { f with params } = _ at hreturn
    rw [Binder.collectAll_eq_ok.mpr hparams]
    dsimp only
    rw [hreturn]
    dsimp only
    rw [Scope.defineFunction_eq_ok.mpr ⟨hnone, rfl⟩]
    rfl

section

variable {σ τ : Scope} (h : τ.classes = σ.classes)

include h

/-- Written types do not depend on the functions of a scope. -/
theorem TypeExpr.resolve_of_classes (t : TypeExpr) : t.resolve τ = t.resolve σ := by
  refine TypeExpr.resolve_congr ?_ t
  funext name
  simp only [Scope.lookupClass?, h]

theorem Binder.CollectsAll.of_classes {bs bs' : List Binder} {params : List ParamType}
    (hc : Binder.CollectsAll σ bs bs' params) : Binder.CollectsAll τ bs bs' params := by
  induction hc with
  | nil => exact .nil
  | cons hb _ ih =>
    refine .cons ?_ ih
    cases hb with
    | template hw => exact .template hw
    | concrete hw hty hslot => exact .concrete hw ((TypeExpr.resolve_of_classes h _).trans hty) hslot

theorem FuncDef.Collects.of_classes {id : DefId} {f f' : FuncDef} {g : FuncSymbol}
    (hc : f.Collects σ id f' g) : f.Collects τ id f' g := by
  obtain ⟨hparams, hret⟩ := hc
  refine .mk (hparams.of_classes h) ?_
  cases hret with
  | proc hk hslot => exact .proc hk hslot
  | written hk hw hty hslot => exact .written hk hw ((TypeExpr.resolve_of_classes h _).trans hty) hslot
  | inferred hk hw => exact .inferred hk hw

theorem FuncDef.CollectsAll.of_classes {id : DefId} {fs fs' : List FuncDef} {gs : List FuncSymbol}
    (hc : FuncDef.CollectsAll σ id fs fs' gs) : FuncDef.CollectsAll τ id fs fs' gs := by
  induction hc with
  | nil => exact .nil
  | cons hf _ ih => exact .cons (hf.of_classes h) ih

end

theorem FuncDef.collectAll_eq_ok {σ τ : Scope} {id : DefId} {fs fs' : List FuncDef} :
    FuncDef.collectAll σ id fs = (fs', .ok τ) ↔ ∃ gs, FuncDef.CollectsAll σ id fs fs' gs ∧
      (∀ g ∈ gs, ∀ earlier ∈ σ.functions, earlier.sameSignature g = false) ∧
      gs.Pairwise (fun earlier g => earlier.sameSignature g = false) ∧
      τ = { σ with functions := σ.functions ++ gs } := by
  induction fs generalizing σ id fs' with
  | nil =>
    constructor
    · rintro ⟨⟩
      exact ⟨[], .nil, by simp, .nil, by simp⟩
    · rintro ⟨_, ⟨⟩, _, _, rfl⟩
      simp [FuncDef.collectAll]
  | cons f fs ih =>
    rw [FuncDef.collectAll]
    constructor
    · intro h
      cases hf : f.collect σ id with
      | mk f₁ outcome =>
        rw [hf] at h
        cases outcome with
        | error => cases h
        | ok σ₁ =>
          obtain ⟨g, hcollects, hnone, rfl⟩ := FuncDef.collect_eq_ok.mp hf
          cases hfs : FuncDef.collectAll { σ with functions := σ.functions ++ [g] } (id + 1) fs with
          | mk fs₁ outcome =>
            dsimp only at h
            rw [hfs] at h
            cases h
            obtain ⟨gs, hall, hearlier, hpair, rfl⟩ := ih.mp hfs
            have hall' : FuncDef.CollectsAll σ (id + 1) fs fs₁ gs := hall.of_classes (by rfl)
            refine ⟨g :: gs, .cons hcollects hall', ?_, ?_, by simp⟩
            · refine List.forall_mem_cons.mpr ⟨hnone, fun g' hg' earlier he => ?_⟩
              exact hearlier g' hg' earlier (List.mem_append_left _ he)
            · refine List.pairwise_cons.mpr ⟨fun g' hg' => ?_, hpair⟩
              exact hearlier g' hg' g (List.mem_append_right _ (List.mem_singleton_self g))
    · rintro ⟨_, hc, hearlier, hpair, rfl⟩
      cases hc with
      | @cons _ _ f₁ _ fs₁ g gs hcollects hall =>
        obtain ⟨hnone, hearlier⟩ := List.forall_mem_cons.mp hearlier
        obtain ⟨hfirst, hpair⟩ := List.pairwise_cons.mp hpair
        have hrest : FuncDef.collectAll { σ with functions := σ.functions ++ [g] } (id + 1) fs =
            (fs₁, .ok { σ with functions := σ.functions ++ (g :: gs) }) := by
          refine ih.mpr ⟨gs, hall.of_classes (by rfl), fun g' hg' earlier he => ?_, hpair, by simp⟩
          rcases List.mem_append.mp he with he | he
          · exact hearlier g' hg' earlier he
          · rw [List.mem_singleton.mp he]
            exact hfirst g' hg'
        rw [FuncDef.collect_eq_ok.mpr ⟨g, hcollects, hnone, rfl⟩]
        dsimp only
        rw [hrest]

theorem Scope.defineClass_eq_ok {σ : Scope} {c : ClassSymbol} {p : ClassId × Scope} :
    σ.defineClass c = .ok p ↔ (∀ earlier ∈ σ.classes, earlier.name ≠ c.name) ∧
      p = (σ.classes.length, { σ with classes := σ.classes ++ [c] }) := by
  unfold Scope.defineClass
  cases hfind : σ.classes.find? (·.name == c.name) with
  | none =>
    have hnone : ∀ earlier ∈ σ.classes, earlier.name ≠ c.name := by
      simpa using List.find?_eq_none.mp hfind
    constructor
    · rintro ⟨⟩
      exact ⟨hnone, rfl⟩
    · rintro ⟨_, rfl⟩
      rfl
  | some earlier =>
    have hmem := List.mem_of_find?_eq_some hfind
    have hsame := List.find?_some hfind
    simp only [reject_ne_ok, false_iff, not_and]
    intro hnone
    exact (hnone earlier hmem (by simpa using hsame)).elim

theorem Scope.foldlM_defineClass {classes : List ClassDef} {σ τ : Scope} :
    classes.foldlM (fun scope c => return (← scope.defineClass c.symbol).2) σ = .ok τ ↔
      (∀ c ∈ classes, ∀ earlier ∈ σ.classes, earlier.name ≠ c.name) ∧
        (classes.map ClassDef.name).Nodup ∧
        τ = { σ with classes := σ.classes ++ classes.map ClassDef.symbol } := by
  induction classes generalizing σ with
  | nil => simp [eq_comm]
  | cons c classes ih =>
    simp only [List.foldlM_cons, bind_eq_ok, Scope.defineClass_eq_ok]
    constructor
    · rintro ⟨_, ⟨_, ⟨hnone, rfl⟩, heq⟩, hrest⟩
      cases heq
      obtain ⟨hearlier, hnodup, rfl⟩ := ih.mp hrest
      refine ⟨List.forall_mem_cons.mpr ⟨hnone, fun c' hc' e he => ?_⟩, ?_, by simp⟩
      · exact hearlier c' hc' e (List.mem_append_left _ he)
      · refine List.nodup_cons.mpr ⟨fun hmem => ?_, hnodup⟩
        obtain ⟨c', hc', hname⟩ := List.mem_map.mp hmem
        exact hearlier c' hc' c.symbol (List.mem_append_right _ (List.mem_singleton_self _)) hname.symm
    · rintro ⟨hearlier, hnodup, rfl⟩
      obtain ⟨hnone, hearlier⟩ := List.forall_mem_cons.mp hearlier
      obtain ⟨hfirst, hnodup⟩ := List.nodup_cons.mp hnodup
      refine ⟨_, ⟨_, ⟨hnone, rfl⟩, rfl⟩, ih.mpr ⟨fun c' hc' e he => ?_, hnodup, by simp⟩⟩
      rcases List.mem_append.mp he with he | he
      · exact hearlier c' hc' e he
      · rw [List.mem_singleton.mp he]
        intro hname
        have hmem := List.mem_map_of_mem (f := ClassDef.name) hc'
        rw [← hname] at hmem
        exact hfirst hmem

theorem Scope.collectClasses_eq_ok {classes : List ClassDef} {τ : Scope} :
    Scope.collectClasses classes = .ok τ ↔ (classes.map ClassDef.name).Nodup ∧
      τ = { classes := classes.map ClassDef.symbol } := by
  rw [Scope.collectClasses, Scope.foldlM_defineClass]
  simp

/-- The class scope of a program, in which its signatures are read. -/
def Program.classScope (p : Program) : Scope :=
  { classes := p.classes.map ClassDef.symbol }

theorem Program.collect_eq_ok {p : Program} {fs : List FuncDef} {σ : Scope} :
    p.collect = (fs, .ok σ) ↔ (p.classes.map ClassDef.name).Nodup ∧
      FuncDef.CollectsAll p.classScope 0 p.funcs fs σ.functions ∧
      σ.functions.Pairwise (fun earlier g => earlier.sameSignature g = false) ∧
      σ.classes = p.classes.map ClassDef.symbol := by
  unfold Program.collect
  cases hclasses : Scope.collectClasses p.classes with
  | error error =>
    have hdup : ¬ (p.classes.map ClassDef.name).Nodup := by
      intro hnodup
      rw [Scope.collectClasses_eq_ok.mpr ⟨hnodup, rfl⟩] at hclasses
      cases hclasses
    constructor
    · intro h
      cases h
    · intro h
      exact (hdup h.1).elim
  | ok scope =>
    obtain ⟨hnodup, rfl⟩ := Scope.collectClasses_eq_ok.mp hclasses
    dsimp only
    rw [FuncDef.collectAll_eq_ok]
    constructor
    · rintro ⟨gs, hall, _, hpair, rfl⟩
      exact ⟨hnodup, hall, hpair, rfl⟩
    · rintro ⟨_, hall, hpair, hσ⟩
      obtain ⟨functions, classes⟩ := σ
      cases hσ
      exact ⟨functions, hall, by simp, hpair, by simp⟩

theorem Binder.CollectsAll.isTemplate {σ : Scope} {bs bs' : List Binder} {params : List ParamType}
    (h : Binder.CollectsAll σ bs bs' params) :
    bs'.any Binder.isTemplate = bs.any Binder.isTemplate ∧
      params.any ParamType.isTemplate = bs'.any Binder.isTemplate := by
  induction h with
  | nil => exact ⟨rfl, rfl⟩
  | cons hb _ ih =>
    cases hb with
    | template hw => simp [ih, Binder.isTemplate, ParamType.isTemplate, hw]
    | concrete hw => simp [ih, Binder.isTemplate, ParamType.isTemplate, hw]

theorem FuncDef.Collects.signs {σ : Scope} {id : DefId} {f f' : FuncDef} {g : FuncSymbol}
    (h : f.Collects σ id f' g) : f'.Signs id g := by
  obtain ⟨hparams, hret⟩ := h
  refine ⟨rfl, hparams.isTemplate.2, fun hopen => ?_⟩
  cases hret with
  | proc => cases hopen
  | written => cases hopen
  | inferred => rfl

theorem FuncDef.Collects.isTemplate {σ : Scope} {id : DefId} {f f' : FuncDef} {g : FuncSymbol}
    (h : f.Collects σ id f' g) : f'.isTemplate = f.isTemplate := by
  obtain ⟨hparams, _⟩ := h
  exact hparams.isTemplate.1

namespace FuncDef.CollectsAll

variable {σ : Scope} {id : DefId} {fs fs' : List FuncDef} {gs : List FuncSymbol}

theorem length (h : FuncDef.CollectsAll σ id fs fs' gs) :
    fs'.length = fs.length ∧ gs.length = fs.length := by
  induction h with
  | nil => exact ⟨rfl, rfl⟩
  | cons _ _ ih => simp [ih]

theorem get (h : FuncDef.CollectsAll σ id fs fs' gs) {k : Nat} {f : FuncDef} (hf : fs[k]? = some f) :
    ∃ f' g, fs'[k]? = some f' ∧ gs[k]? = some g ∧ f.Collects σ (id + k) f' g := by
  induction h generalizing k with
  | nil => cases hf
  | @cons id f₁ f₁' fs fs' g gs hf₁ _ ih =>
    cases k with
    | zero =>
      cases hf
      exact ⟨f₁', g, rfl, rfl, hf₁⟩
    | succ k =>
      obtain ⟨f', g', hf', hg', hcollects⟩ := ih hf
      refine ⟨f', g', hf', hg', ?_⟩
      rwa [Nat.add_right_comm] at hcollects

theorem source (h : FuncDef.CollectsAll σ id fs fs' gs) {k : Nat} {f' : FuncDef}
    (hf' : fs'[k]? = some f') :
    ∃ f g, fs[k]? = some f ∧ gs[k]? = some g ∧ f.Collects σ (id + k) f' g := by
  have hlt : k < fs.length := h.length.1 ▸ (List.getElem?_eq_some_iff.mp hf').1
  obtain ⟨f₁, g, hf₁, hg, hcollects⟩ := h.get (List.getElem?_eq_getElem hlt)
  rw [hf'] at hf₁
  cases hf₁
  exact ⟨_, g, List.getElem?_eq_getElem hlt, hg, hcollects⟩

theorem symbol (h : FuncDef.CollectsAll σ id fs fs' gs) {k : Nat} {g : FuncSymbol}
    (hg : gs[k]? = some g) :
    ∃ f f', fs[k]? = some f ∧ fs'[k]? = some f' ∧ f.Collects σ (id + k) f' g := by
  have hlt : k < fs.length := h.length.2 ▸ (List.getElem?_eq_some_iff.mp hg).1
  obtain ⟨f', g', hf', hg', hcollects⟩ := h.get (List.getElem?_eq_getElem hlt)
  rw [hg] at hg'
  cases hg'
  exact ⟨_, f', List.getElem?_eq_getElem hlt, hf', hcollects⟩

theorem of_get (hlen : fs'.length = fs.length) (hlen' : gs.length = fs.length)
    (h : ∀ (k : Nat) (f f' : FuncDef) (g : FuncSymbol), fs[k]? = some f → fs'[k]? = some f' →
      gs[k]? = some g → f.Collects σ (id + k) f' g) : FuncDef.CollectsAll σ id fs fs' gs := by
  induction fs generalizing id fs' gs with
  | nil =>
    rw [List.length_nil, List.length_eq_zero_iff] at hlen hlen'
    subst hlen hlen'
    exact .nil
  | cons f fs ih =>
    obtain _ | ⟨f', fs'⟩ := fs'
    · cases hlen
    obtain _ | ⟨g, gs⟩ := gs
    · cases hlen'
    refine .cons (h 0 f f' g rfl rfl rfl) (ih (Nat.succ.inj hlen) (Nat.succ.inj hlen') ?_)
    intro k f₁ f₁' g₁ hf₁ hf₁' hg₁
    have hcollects := h (k + 1) f₁ f₁' g₁ hf₁ hf₁' hg₁
    rwa [Nat.add_right_comm]

end FuncDef.CollectsAll

theorem Program.collect_signs {p : Program} {fs : List FuncDef} {σ : Scope}
    (h : p.collect = (fs, .ok σ)) : σ.Signs fs := by
  obtain ⟨_, hall, _, _⟩ := Program.collect_eq_ok.mp h
  obtain ⟨hlen, hlen'⟩ := hall.length
  refine ⟨by rw [hlen, hlen'], fun {id f' g} hf' hg => ?_⟩
  obtain ⟨_, g₁, _, hg₁, hcollects⟩ := hall.source hf'
  rw [hg] at hg₁
  cases hg₁
  rw [Nat.zero_add] at hcollects
  exact hcollects.signs

end Semant
