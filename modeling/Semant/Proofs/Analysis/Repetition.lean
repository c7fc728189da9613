import Semant.Proofs.Analysis.EmptySlot
import Semant.Proofs.Typing.Frame
import Semant.Proofs.Typing.Repetition.Function

/-! Analyzing a program again that was accepted. Signatures are collected first, and then bodies are
typed, so a slot that the first run filled refuses in the phase that filled it. Only the return types
that bodies tell are not written again. -/

namespace Semant

open Outcome

theorem Binder.CollectsAll.again {σ : Scope} {bs bs' : List Binder} {params : List ParamType}
    (h : Binder.CollectsAll σ bs bs' params) :
    (bs' = bs ∧ Binder.collectAll σ bs' = (bs', .ok params)) ∨
      (bs' ≠ bs ∧ Binder.collectAll σ bs' = (bs', .error .writtenTwice)) := by
  induction h with
  | nil => exact .inl ⟨rfl, rfl⟩
  | @cons b b' bs bs' param params hb _ ih =>
    cases hb with
    | template hw =>
      have hcollect : b.collect σ = .ok (b, .template) := Binder.collect_eq_ok.mpr (.template hw)
      rcases ih with ⟨rfl, hrest⟩ | ⟨hne, hrest⟩
      · refine .inl ⟨rfl, ?_⟩
        rw [Binder.collectAll, hcollect]
        dsimp only
        rw [hrest]
        rfl
      · refine .inr ⟨fun heq => hne (List.cons.inj heq).2, ?_⟩
        rw [Binder.collectAll, hcollect]
        dsimp only
        rw [hrest]
        rfl
    | @concrete w ty hw hty hslot =>
      have hfull : { b with ty := .resolved ty } ≠ b := by
        intro heq
        have hslots := congrArg Binder.ty heq
        rw [hslot] at hslots
        cases hslots
      have hcollect : Binder.collect σ { b with ty := .resolved ty } =
          .error .writtenTwice := by
        unfold Binder.collect
        dsimp only
        rw [hw]
        dsimp only
        rw [hty]
        rfl
      refine .inr ⟨fun heq => hfull (List.cons.inj heq).1, ?_⟩
      rw [Binder.collectAll, hcollect]

/-- What typing makes of a collected function. -/
structure FuncDef.Types (f f' : FuncDef) : Prop extends f.Kept f' where
  ret : f.ret.isResolved = true → f'.ret.isResolved = true

theorem FuncDef.collectReturn_again {σ : Scope} {f : FuncDef} (hret : f.ret.isResolved = true)
    (h : f.kind = .proc ∨ ∃ w ty, f.written = some w ∧ w.resolve σ = .ok ty) :
    f.collectReturn σ = .error .writtenTwice := by
  obtain ⟨known, hknown⟩ := Option.isSome_iff_exists.mp hret
  unfold FuncDef.collectReturn
  rw [Slot.get?_eq_some.mp hknown]
  cases hk : f.kind with
  | proc => rfl
  | func =>
    rw [hk] at h
    obtain ⟨w, ty, hw, hty⟩ := h.resolve_left (by decide)
    rw [hw]
    dsimp only
    rw [hty]
    rfl

theorem FuncDef.collect_of_error {σ : Scope} {id : DefId} {f : FuncDef} {types : List ParamType}
    {error : Error} (hparams : Binder.collectAll σ f.params = (f.params, .ok types))
    (hret : f.collectReturn σ = .error error) : f.collect σ id = (f, .error error) := by
  unfold FuncDef.collect
  rw [hparams]
  dsimp only
  rw [hret]

/-- A signature is collected again as it was if nothing in it was filled, and else it is refused. -/
theorem FuncDef.Collects.again {σ : Scope} {id : DefId} {f f₁ f' : FuncDef} {g : FuncSymbol}
    (h : f.Collects σ id f₁ g) (htyped : f₁.Types f') :
    (f₁ = f ∧ f'.Collects σ id f' g) ∨
      (f₁ ≠ f ∧ f'.collect σ id = (f', .error .writtenTwice)) := by
  obtain ⟨hparams, hret⟩ := h
  rename_i params types own ret
  have hfull := htyped.ret
  obtain ⟨body, ensure, slot, rfl⟩ : ∃ body ensure slot,
    f' = { f with params, body, ensure, ret := slot } := ⟨_, _, _, htyped.signature⟩
  rcases hparams.again with ⟨heq, hrun⟩ | ⟨hne, hrun⟩
  · cases hret with
    | proc hk hslot =>
      refine .inr ⟨fun hsame => ?_, FuncDef.collect_of_error hrun
        (FuncDef.collectReturn_again (hfull rfl) (.inl hk))⟩
      have hret := congrArg FuncDef.ret hsame
      rw [hslot] at hret
      cases hret
    | written hk hw hty hslot =>
      refine .inr ⟨fun hsame => ?_, FuncDef.collect_of_error hrun
        (FuncDef.collectReturn_again (hfull rfl) (.inr ⟨_, _, hw, hty⟩))⟩
      have hret := congrArg FuncDef.ret hsame
      rw [hslot] at hret
      cases hret
    | inferred hk hw =>
      refine .inl ⟨by rw [heq], ?_⟩
      exact .mk (Binder.collectAll_eq_ok.mp hrun) (.inferred hk hw)
  · refine .inr ⟨fun hsame => hne (congrArg FuncDef.params hsame), ?_⟩
    unfold FuncDef.collect
    dsimp only
    rw [hrun]

theorem FuncDef.collectAll_again {σ τ : Scope} {id : DefId} {fs fs₁ fs' : List FuncDef}
    (h : FuncDef.collectAll σ id fs = (fs₁, .ok τ)) (htyped : List.Forall₂ FuncDef.Types fs₁ fs') :
    (fs₁ = fs ∧ FuncDef.collectAll σ id fs' = (fs', .ok τ)) ∨
      (fs₁ ≠ fs ∧ FuncDef.collectAll σ id fs' = (fs', .error .writtenTwice)) := by
  induction fs generalizing σ id fs₁ fs' with
  | nil =>
    cases h
    cases htyped
    exact .inl ⟨rfl, rfl⟩
  | cons f fs ih =>
    rw [FuncDef.collectAll] at h
    cases hf : f.collect σ id with
    | mk f₁ outcome =>
      rw [hf] at h
      cases outcome with
      | error => cases h
      | ok σ₁ =>
        obtain ⟨g, hcollects, hnone, rfl⟩ := FuncDef.collect_eq_ok.mp hf
        cases hfs : FuncDef.collectAll { σ with functions := σ.functions ++ [g] } (id + 1) fs with
        | mk rest outcome =>
          dsimp only at h
          rw [hfs] at h
          cases h
          obtain _ | ⟨hhead, htail⟩ := htyped
          rcases hcollects.again hhead with ⟨rfl, hagain⟩ | ⟨hne, hagain⟩
          · have hrun := FuncDef.collect_eq_ok.mpr ⟨g, hagain, hnone, rfl⟩
            rcases ih hfs htail with ⟨rfl, hrest⟩ | ⟨hne, hrest⟩
            · refine .inl ⟨rfl, ?_⟩
              rw [FuncDef.collectAll, hrun]
              dsimp only
              rw [hrest]
            · refine .inr ⟨fun heq => hne (List.cons.inj heq).2, ?_⟩
              rw [FuncDef.collectAll, hrun]
              dsimp only
              rw [hrest]
          · refine .inr ⟨fun heq => hne (List.cons.inj heq).1, ?_⟩
            rw [FuncDef.collectAll, hagain]

/-- The only slot that was filled, if any, is that for a return type that is not written. -/
def FuncDef.FillsReturn (f f' : FuncDef) : Prop :=
  f' = { f with ret := f'.ret } ∧ (f'.ret = f.ret ∨ (f.kind = .func ∧ f.written = none))

theorem FuncDef.Collects.fillsReturn_iff {σ : Scope} {id : DefId} {f f₁ f' : FuncDef}
    {g : FuncSymbol} (h : f.Collects σ id f₁ g) (htyped : f₁.Types f') :
    f.FillsReturn f' ↔ f₁ = f ∧ f₁.SameBlocks f' := by
  obtain ⟨hparams, hret⟩ := h
  rename_i params types own ret
  have hfull := htyped.ret
  obtain ⟨body, ensure, slot, rfl⟩ : ∃ body ensure slot,
    f' = { f with params, body, ensure, ret := slot } := ⟨_, _, _, htyped.signature⟩
  constructor
  · rintro ⟨heq, hslot⟩
    have hlost : f.ret = .unresolved → own.isResolved = true → f.kind = .func ∧ f.written = none := by
      intro hopen hown
      refine hslot.resolve_left fun hsame => ?_
      have hslot := hfull hown
      rw [hsame, hopen] at hslot
      cases hslot
    have hown : own = f.ret := by
      cases hret with
      | proc hk hopen =>
        have hfunc := (hlost hopen rfl).1
        rw [hk] at hfunc
        cases hfunc
      | written hk hw _ hopen =>
        have hnone := (hlost hopen rfl).2
        rw [hw] at hnone
        cases hnone
      | inferred => rfl
    have hparams : params = f.params := congrArg FuncDef.params heq
    have hbody : body = f.body := congrArg FuncDef.body heq
    have hensure : ensure = f.ensure := congrArg FuncDef.ensure heq
    exact ⟨by rw [hparams, hown], hbody, hensure⟩
  · rintro ⟨heq, hbody, hensure⟩
    have hparams : params = f.params := congrArg FuncDef.params heq
    have hown : own = f.ret := congrArg FuncDef.ret heq
    change body = f.body at hbody
    change ensure = f.ensure at hensure
    refine ⟨by rw [hparams, hbody, hensure], .inr ?_⟩
    cases hret with
    | proc _ hopen =>
      rw [hopen] at hown
      cases hown
    | written _ _ _ hopen =>
      rw [hopen] at hown
      cases hown
    | inferred hk hw => exact ⟨hk, hw⟩

theorem FuncDef.CollectsAll.fillsReturn_iff {σ : Scope} {id : DefId} {fs fs₁ fs' : List FuncDef}
    {gs : List FuncSymbol} (h : FuncDef.CollectsAll σ id fs fs₁ gs)
    (htyped : List.Forall₂ FuncDef.Types fs₁ fs') :
    List.Forall₂ FuncDef.FillsReturn fs fs' ↔
      fs₁ = fs ∧ List.Forall₂ FuncDef.SameBlocks fs₁ fs' := by
  induction h generalizing fs' with
  | nil =>
    cases htyped
    exact ⟨fun _ => ⟨rfl, .nil⟩, fun _ => .nil⟩
  | cons hf _ ih =>
    obtain _ | ⟨hhead, htail⟩ := htyped
    rw [List.forall₂_cons, List.forall₂_cons, hf.fillsReturn_iff hhead, ih htail, List.cons.injEq]
    tauto

theorem Definition.class?_replaceFuncs (defs : List Definition) (fs : List FuncDef) :
    (replaceFuncs defs fs).filterMap class? = defs.filterMap class? := by
  induction defs generalizing fs with
  | nil => rfl
  | cons definition defs ih =>
    cases definition with
    | classDef c => simp [replaceFuncs, class?, ih]
    | funcDef f =>
      cases fs with
      | nil => exact ih []
      | cons f' fs => exact ih fs

theorem Program.classes_withFuncs (p : Program) (fs : List FuncDef) :
    (p.withFuncs fs).classes = p.classes :=
  Definition.class?_replaceFuncs p.definitions fs

/-- The symbols of a typed program, if what was filled in does not refuse them. -/
theorem Program.collect_again {p : Program} {fs typed : List FuncDef} {σ : Scope}
    (h : p.collect = (fs, .ok σ)) (htyped : List.Forall₂ FuncDef.Types fs typed) :
    (fs = p.funcs ∧ (p.withFuncs typed).collect = (typed, .ok σ)) ∨
      (fs ≠ p.funcs ∧ (p.withFuncs typed).collect = (typed, .error .writtenTwice)) := by
  obtain ⟨_, hall, _, _⟩ := Program.collect_eq_ok.mp h
  have hfuncs : (p.withFuncs typed).funcs = typed :=
    Program.funcs_withFuncs (htyped.length_eq.symm.trans hall.length.1)
  unfold Program.collect at h ⊢
  rw [p.classes_withFuncs, hfuncs]
  cases hclasses : Scope.collectClasses p.classes with
  | error =>
    rw [hclasses] at h
    cases h
  | ok scope =>
    rw [hclasses] at h
    exact FuncDef.collectAll_again h htyped

theorem Definition.replaceFuncs_self (defs : List Definition) :
    replaceFuncs defs (defs.filterMap func?) = defs := by
  induction defs with
  | nil => rfl
  | cons definition defs ih =>
    cases definition with
    | classDef c => exact congrArg (List.cons (classDef c)) ih
    | funcDef f => exact congrArg (List.cons (funcDef f)) ih

theorem Program.withFuncs_self (p : Program) : p.withFuncs p.funcs = p := by
  rw [Program.withFuncs, Program.funcs, Definition.replaceFuncs_self]

theorem Progress.ofFuncs_types {fs : List FuncDef} {σ : Scope} (hsig : σ.Signs fs)
    (h : (Progress.ofFuncs fs σ).error = none) :
    List.Forall₂ FuncDef.Types fs (Progress.ofFuncs fs σ).funcs := by
  have hframes := Progress.ofFuncs_frames hsig
  refine List.forall₂_iff_get.mpr ⟨hframes.funcs.length_eq, fun id hid hid' => ?_⟩
  have hf : fs[id]? = some fs[id] := List.getElem?_eq_getElem hid
  have hf' := List.getElem?_eq_getElem hid'
  have hkept := hframes.kept hf hf'
  refine ⟨hkept, fun hresolved => ?_⟩
  cases htemplate : fs[id].isTemplate with
  | true =>
    simp only [List.get_eq_getElem, hkept.template htemplate]
    exact hresolved
  | false =>
    obtain ⟨f', hf₁, hres⟩ := Progress.ofFuncs_resolves hsig h hf htemplate
    rw [hf'] at hf₁
    cases hf₁
    exact hres.ret_isResolved

/-- The two phases of a second run, over the program that a successful first run leaves. -/
theorem Program.typed_again {p : Program} {fs : List FuncDef} {σ : Scope}
    (hcollect : p.collect = (fs, .ok σ)) (herror : (Progress.ofFuncs fs σ).error = none) :
    let q := p.typed.program
    q.typed.program = q ∧
      ((List.Forall₂ FuncDef.FillsReturn p.funcs q.funcs ∧ ∃ τ, q.typed.outcome = .ok τ) ∨
        (¬ List.Forall₂ FuncDef.FillsReturn p.funcs q.funcs ∧
          q.typed.outcome = .error .writtenTwice)) := by
  intro q
  have hsig := Program.collect_signs hcollect
  have hframes := Progress.ofFuncs_frames hsig
  have htypes := Progress.ofFuncs_types hsig herror
  obtain ⟨_, hall, _, _⟩ := Program.collect_eq_ok.mp hcollect
  have hq : q = p.withFuncs (Progress.ofFuncs fs σ).funcs := (Program.typed_of_collect hcollect).1
  have hfuncs : q.funcs = (Progress.ofFuncs fs σ).funcs := Program.funcs_typed hcollect
  have hself : q.withFuncs (Progress.ofFuncs fs σ).funcs = q := hfuncs ▸ q.withFuncs_self
  rw [hfuncs, hall.fillsReturn_iff htypes]
  have hagain := Program.collect_again hcollect htypes
  rw [← hq] at hagain
  rcases hagain with ⟨hsame, hagain⟩ | ⟨hdiffer, hagain⟩
  · obtain ⟨hprogram, houtcome⟩ := Program.typed_of_collect hagain
    have htyped : ∀ (id : DefId) (f f' : FuncDef), fs[id]? = some f →
        (Progress.ofFuncs fs σ).funcs[id]? = some f' → (f.isTemplate = true → f' = f) ∧
          (f.isTemplate = false → f.Resolves (Progress.ofFuncs fs σ).scope f') := by
      intro id f f' hf hf'
      refine ⟨(hframes.kept hf hf').template, fun hplain => ?_⟩
      obtain ⟨f₁, hf₁, hres⟩ := Progress.ofFuncs_resolves hsig herror hf hplain
      rw [hf'] at hf₁
      cases hf₁
      exact hres
    obtain ⟨hkept, hend⟩ :=
      Progress.ofFuncs_again hframes.scope htyped (Progress.length_ofFuncs fs σ)
    rw [hkept, hself] at hprogram
    refine ⟨hprogram, ?_⟩
    rcases hend with ⟨hblocks, hok⟩ | ⟨hblocks, htwice⟩
    · rw [hok] at houtcome
      exact .inl ⟨⟨hsame, hblocks⟩, _, houtcome⟩
    · rw [htwice] at houtcome
      exact .inr ⟨fun h => hblocks h.2, houtcome⟩
  · have hrun : q.typed = ⟨q.withFuncs (Progress.ofFuncs fs σ).funcs, .error .writtenTwice⟩ := by
      rw [Program.typed, hagain]
    rw [hrun, hself]
    exact ⟨rfl, .inr ⟨fun h => hdiffer h.1, rfl⟩⟩

/-- An accepted program that is analyzed again stays as it is. It is accepted if the only slots that
were filled are those for return types that are not written, and else its first full slot is reported. -/
theorem Program.analyze_again {p : Program} {o : Options}
    (h : (p.analyze o).outcome.isOk = true) (o' : Options) :
    let q := (p.analyze o).program
    (q.analyze o').program = q ∧
      (List.Forall₂ FuncDef.FillsReturn p.funcs q.funcs → (q.analyze o').outcome.isOk = true) ∧
      (¬ List.Forall₂ FuncDef.FillsReturn p.funcs q.funcs →
        (q.analyze o').outcome = .error (.internal "resolution slot written twice")) := by
  obtain ⟨τ, hok⟩ := exists_of_isOk h
  obtain ⟨fs, σ, hcollect, herror, _⟩ := Program.typed_eq_ok.mp (Program.analyze_eq_ok.mp hok)
  obtain ⟨hprogram, hend⟩ := Program.typed_again hcollect herror
  dsimp only
  rw [Program.program_analyze, Program.program_analyze, Program.analyze_eq, Analysis.inFile]
  refine ⟨hprogram, ?_⟩
  rcases hend with ⟨hfills, τ', houtcome⟩ | ⟨hfills, houtcome⟩
  · rw [houtcome]
    exact ⟨fun _ => rfl, fun hnot => (hnot hfills).elim⟩
  · rw [houtcome]
    exact ⟨fun hfills' => (hfills hfills').elim, fun _ => rfl⟩

/-- A function without parameters and without a written return type. -/
def bareFunc (body : List Stmt) (ret : Slot Ty) : FuncDef :=
  { kind := .func, name := "f", params := [], written := none, body := .mk body {}, ensure := none,
    ret, loc := {} }

def bare (body : List Stmt) : Program where
  definitions := [.funcDef (bareFunc body .unresolved)]
  loc := {}

theorem Program.analyze_again_bare :
    let yes (ty : Slot Ty) : Expr := .literal (.bool true) ty {}
    ((bare []).analyze {}).outcome.isOk = true ∧
      (((bare []).analyze {}).program.analyze { verify := false }).outcome.isOk = true ∧
      ((bare [.ret [yes .unresolved] {}]).analyze {}).outcome.isOk = true ∧
      (((bare [.ret [yes .unresolved] {}]).analyze {}).program.analyze {}).outcome =
        .error (.internal "resolution slot written twice") := by
  intro yes
  have hsilent : ((bare []).analyze {}).outcome.isOk = true := by decide +kernel
  have hspeaks : ((bare [.ret [yes .unresolved] {}]).analyze {}).outcome.isOk = true := by
    decide +kernel
  obtain ⟨_, hagain, _⟩ := Program.analyze_again hsilent { verify := false }
  obtain ⟨_, _, hrefused⟩ := Program.analyze_again hspeaks {}
  refine ⟨hsilent, hagain ?_, hspeaks, hrefused ?_⟩
  · have hq : ((bare []).analyze {}).program.funcs = [bareFunc [] (.resolved .unit)] := by
      rw [Program.program_analyze]
      rfl
    rw [hq]
    exact .cons ⟨rfl, .inr ⟨rfl, rfl⟩⟩ .nil
  · have hq : ((bare [.ret [yes .unresolved] {}]).analyze {}).program.funcs =
        [bareFunc [.ret [yes (.resolved .bool)] {}] (.resolved .bool)] := by
      rw [Program.program_analyze]
      rfl
    rw [hq]
    rintro (_ | ⟨⟨hsame, _⟩, _⟩)
    cases congrArg FuncDef.body hsame

end Semant
