import Semant.Proofs.Analysis.Reordering

/-! Which programs have their symbols collected, said without the order of collection: class names
are distinct, the types that are written in signatures are known, and no two functions have one
signature. Each function then has the symbol that its own definition tells. -/

namespace Semant

variable {σ : Scope}

/-- Two parameters that are the same to every call: neither has a written type, or both have and the
types are equal. -/
inductive Binder.Matches (σ : Scope) (b c : Binder) : Prop
  | template : b.written = none → c.written = none → Matches σ b c
  | concrete {t u : TypeExpr} {ty ty' : Ty} :
      b.written = some t → c.written = some u → t.resolve σ = .ok ty → u.resolve σ = .ok ty' →
      ty == ty' → Matches σ b c

structure Program.Collectable (p : Program) : Prop where
  classes : (p.classes.map ClassDef.name).Nodup
  params : ∀ f ∈ p.funcs, ∀ b ∈ f.params, ∀ t, b.written = some t →
    ∃ ty, t.resolve p.classScope = .ok ty
  returns : ∀ f ∈ p.funcs, f.kind = .func → ∀ t, f.written = some t →
    ∃ ty, t.resolve p.classScope = .ok ty
  signatures : p.funcs.Pairwise fun f g =>
    ¬ (f.name = g.name ∧ List.Forall₂ (Binder.Matches p.classScope) f.params g.params)

/-- The symbol `g` of a definition, which collection leaves as `f'`. -/
structure FuncDef.Enters (σ : Scope) (id : DefId) (f f' : FuncDef) (g : FuncSymbol) : Prop where
  definition : g.definition = id
  kind : g.kind = f.kind
  name : g.name = f.name
  loc : g.loc = f.loc
  arity : g.params.length = f.params.length
  params : ∀ (j : Nat) (b : Binder), f.params[j]? = some b → ∃ b' param,
    f'.params[j]? = some b' ∧ g.params[j]? = some param ∧ (param = .template ↔ b.written = none) ∧
      ∀ t, b.written = some t →
        ∃ ty, t.resolve σ = .ok ty ∧ param = .concrete ty ∧ b'.ty = .resolved ty
  ret : ∀ ty, g.ret = .resolved ty ↔
    f.kind = .func ∧ ∃ t, f.written = some t ∧ t.resolve σ = .ok ty

theorem Binder.Matches.isTemplate {b c : Binder} (h : b.Matches σ c) :
    b.isTemplate = c.isTemplate := by
  cases h with
  | template hb hc => rw [Binder.isTemplate, Binder.isTemplate, hb, hc]
  | concrete hb hc =>
    rw [Binder.isTemplate, Binder.isTemplate, hb, hc]
    rfl

theorem Binder.Collects.beq_iff {b b' c c' : Binder} {param param' : ParamType}
    (h : b.Collects σ b' param) (h' : c.Collects σ c' param') :
    (param == param') = true ↔ b.Matches σ c := by
  -- a parameter with a written type matches none without
  have hmixed : b.isTemplate ≠ c.isTemplate → ¬ b.Matches σ c := fun hne hm => hne hm.isTemplate
  cases h with
  | template hb =>
    cases h' with
    | template hc => exact ⟨fun _ => .template hb hc, fun _ => rfl⟩
    | concrete hc =>
      refine iff_of_false Bool.false_ne_true (hmixed ?_)
      simp [Binder.isTemplate, hb, hc]
  | concrete hb hty =>
    cases h' with
    | template hc =>
      refine iff_of_false Bool.false_ne_true (hmixed ?_)
      simp [Binder.isTemplate, hb, hc]
    | concrete hc hty' =>
      refine ⟨fun heq => .concrete hb hc hty hty' heq, fun hm => ?_⟩
      cases hm with
      | template hnone => cases hb.symm.trans hnone
      | concrete hb₁ hc₁ hty₁ hty₁' heq =>
        cases hb.symm.trans hb₁
        cases hc.symm.trans hc₁
        cases hty.symm.trans hty₁
        cases hty'.symm.trans hty₁'
        exact heq

theorem Binder.CollectsAll.beq_iff {bs bs' cs cs' : List Binder} {params params' : List ParamType}
    (h : Binder.CollectsAll σ bs bs' params) (h' : Binder.CollectsAll σ cs cs' params') :
    (params == params') = true ↔ List.Forall₂ (Binder.Matches σ) bs cs := by
  induction h generalizing cs cs' params' with
  | nil =>
    cases h' with
    | nil => exact ⟨fun _ => .nil, fun _ => rfl⟩
    | cons => simp
  | cons hb _ ih =>
    cases h' with
    | nil => simp
    | cons hc hcs =>
      rw [List.cons_beq_cons, Bool.and_eq_true, hb.beq_iff hc, ih hcs, List.forall₂_cons]

theorem FuncDef.Collects.sameSignature_iff {f f' h h' : FuncDef} {g k : FuncSymbol} {i j : DefId}
    (hf : f.Collects σ i f' g) (hh : h.Collects σ j h' k) :
    g.sameSignature k = true ↔
      f.name = h.name ∧ List.Forall₂ (Binder.Matches σ) f.params h.params := by
  obtain ⟨hparams, _⟩ := hf
  obtain ⟨hparams', _⟩ := hh
  rw [FuncSymbol.sameSignature, Bool.and_eq_true, beq_iff_eq, hparams.beq_iff hparams']

namespace FuncDef.CollectsAll

variable {id : DefId} {fs fs' : List FuncDef} {gs : List FuncSymbol}

theorem forall_symbols (h : FuncDef.CollectsAll σ id fs fs' gs) {P : FuncSymbol → Prop}
    {Q : FuncDef → Prop} (hPQ : ∀ {i f f' g}, FuncDef.Collects σ i f f' g → (P g ↔ Q f)) :
    (∀ g ∈ gs, P g) ↔ ∀ f ∈ fs, Q f := by
  induction h with
  | nil => simp
  | cons hf _ ih => rw [List.forall_mem_cons, List.forall_mem_cons, hPQ hf, ih]

/-- Whether two symbols have one signature shows in what is written. -/
theorem signatures (h : FuncDef.CollectsAll σ id fs fs' gs) :
    gs.Pairwise (fun g k => g.sameSignature k = false) ↔
      fs.Pairwise fun f h =>
        ¬ (f.name = h.name ∧ List.Forall₂ (Binder.Matches σ) f.params h.params) := by
  induction h with
  | nil => simp
  | cons hf hfs ih =>
    rw [List.pairwise_cons, List.pairwise_cons, ih]
    refine and_congr_left' (hfs.forall_symbols fun hh => ?_)
    rw [← hf.sameSignature_iff hh, Bool.not_eq_true]

end FuncDef.CollectsAll

theorem Binder.CollectsAll.get {bs bs' : List Binder} {params : List ParamType}
    (h : Binder.CollectsAll σ bs bs' params) {j : Nat} {b : Binder} (hb : bs[j]? = some b) :
    ∃ b' param, bs'[j]? = some b' ∧ params[j]? = some param ∧ b.Collects σ b' param := by
  induction h generalizing j with
  | nil => cases hb
  | @cons b₁ b₁' _ _ param _ hb₁ _ ih =>
    cases j with
    | zero =>
      cases hb
      exact ⟨b₁', param, rfl, rfl, hb₁⟩
    | succ j => exact ih hb

theorem Binder.CollectsAll.length {bs bs' : List Binder} {params : List ParamType}
    (h : Binder.CollectsAll σ bs bs' params) : params.length = bs.length := by
  induction h with
  | nil => rfl
  | cons _ _ ih => rw [List.length_cons, List.length_cons, ih]

theorem FuncDef.CollectsReturn.ret_iff {f : FuncDef} {own ret : Slot Ty}
    (h : f.CollectsReturn σ own ret) (ty : Ty) :
    ret = .resolved ty ↔ f.kind = .func ∧ ∃ t, f.written = some t ∧ t.resolve σ = .ok ty := by
  cases h with
  | proc hk => simp [hk]
  | inferred hk hw => simp [hw]
  | written hk hw hty => simp [hk, hw, hty]

theorem FuncDef.Collects.enters {id : DefId} {f f' : FuncDef} {g : FuncSymbol}
    (h : f.Collects σ id f' g) : f.Enters σ id f' g := by
  obtain ⟨hparams, hret⟩ := h
  refine ⟨rfl, rfl, rfl, rfl, hparams.length, fun j b hb => ?_, hret.ret_iff⟩
  obtain ⟨b', param, hb', hparam, hcollects⟩ := hparams.get hb
  refine ⟨b', param, hb', hparam, ?_⟩
  cases hcollects with
  | template hw => simp [hw]
  | concrete hw hty => simp [hw, hty]

theorem Binder.CollectsAll.resolves {bs bs' : List Binder} {params : List ParamType}
    (h : Binder.CollectsAll σ bs bs' params) :
    ∀ b ∈ bs, ∀ t, b.written = some t → ∃ ty, t.resolve σ = .ok ty := by
  induction h with
  | nil => exact List.forall_mem_nil _
  | cons hb _ ih =>
    refine List.forall_mem_cons.mpr ⟨fun t ht => ?_, ih⟩
    cases hb with
    | template hw => cases hw.symm.trans ht
    | concrete hw hty =>
      cases hw.symm.trans ht
      exact ⟨_, hty⟩

theorem Binder.exists_collectsAll {bs : List Binder} (hslots : ∀ b ∈ bs, b.ty = .unresolved)
    (hwritten : ∀ b ∈ bs, ∀ t, b.written = some t → ∃ ty, t.resolve σ = .ok ty) :
    ∃ bs' params, Binder.CollectsAll σ bs bs' params := by
  induction bs with
  | nil => exact ⟨[], [], .nil⟩
  | cons b bs ih =>
    obtain ⟨hslot, hslots⟩ := List.forall_mem_cons.mp hslots
    obtain ⟨hb, hbs⟩ := List.forall_mem_cons.mp hwritten
    obtain ⟨bs', params, hcollects⟩ := ih hslots hbs
    cases hw : b.written with
    | none => exact ⟨_, _, .cons (.template hw) hcollects⟩
    | some t =>
      obtain ⟨ty, hty⟩ := hb t hw
      exact ⟨_, _, .cons (.concrete hw hty hslot) hcollects⟩

theorem FuncDef.exists_collectsReturn {f : FuncDef} (hslot : f.ret = .unresolved)
    (hwritten : f.kind = .func → ∀ t, f.written = some t → ∃ ty, t.resolve σ = .ok ty) :
    ∃ own ret, f.CollectsReturn σ own ret := by
  cases hk : f.kind with
  | proc => exact ⟨_, _, .proc hk hslot⟩
  | func =>
    cases hw : f.written with
    | none => exact ⟨_, _, .inferred hk hw⟩
    | some t =>
      obtain ⟨ty, hty⟩ := hwritten hk t hw
      exact ⟨_, _, .written hk hw hty hslot⟩

theorem FuncDef.exists_collectsAll {fs : List FuncDef} (id : DefId)
    (hslots : ∀ f ∈ fs, (∀ b ∈ f.params, b.ty = .unresolved) ∧ f.ret = .unresolved)
    (hparams : ∀ f ∈ fs, ∀ b ∈ f.params, ∀ t, b.written = some t → ∃ ty, t.resolve σ = .ok ty)
    (hreturns : ∀ f ∈ fs, f.kind = .func → ∀ t, f.written = some t → ∃ ty, t.resolve σ = .ok ty) :
    ∃ fs' gs, FuncDef.CollectsAll σ id fs fs' gs := by
  induction fs generalizing id with
  | nil => exact ⟨[], [], .nil⟩
  | cons f fs ih =>
    obtain ⟨⟨hbinders, hret⟩, hslots⟩ := List.forall_mem_cons.mp hslots
    obtain ⟨hparam, hparams⟩ := List.forall_mem_cons.mp hparams
    obtain ⟨hreturn, hreturns⟩ := List.forall_mem_cons.mp hreturns
    obtain ⟨_, _, hbs⟩ := Binder.exists_collectsAll hbinders hparam
    obtain ⟨_, _, hown⟩ := FuncDef.exists_collectsReturn hret hreturn
    obtain ⟨_, _, hfs⟩ := ih (id + 1) hslots hparams hreturns
    exact ⟨_, _, .cons (.mk hbs hown) hfs⟩

theorem Program.collectable_of_collect {p : Program} {fs : List FuncDef}
    (h : p.collect = (fs, .ok σ)) : p.Collectable := by
  obtain ⟨hclasses, hall, hpair, _⟩ := Program.collect_eq_ok.mp h
  refine ⟨hclasses, fun f hf => ?_, fun f hf hk t ht => ?_, hall.signatures.mp hpair⟩
  · obtain ⟨i, hi⟩ := List.mem_iff_getElem?.mp hf
    obtain ⟨_, _, _, _, hparams, _⟩ := hall.get hi
    exact hparams.resolves
  · obtain ⟨i, hi⟩ := List.mem_iff_getElem?.mp hf
    obtain ⟨_, _, _, _, _, hret⟩ := hall.get hi
    cases hret with
    | proc hproc => cases hk.symm.trans hproc
    | inferred _ hw => cases hw.symm.trans ht
    | written _ hw hty =>
      cases hw.symm.trans ht
      exact ⟨_, hty⟩

theorem Program.Collectable.exists_collect {p : Program} (h : p.Collectable)
    (hfresh : p.isFresh = true) : ∃ fs σ, p.collect = (fs, .ok σ) := by
  have hslots : ∀ f ∈ p.funcs, (∀ b ∈ f.params, b.ty = .unresolved) ∧ f.ret = .unresolved :=
    fun f hf => FuncDef.blank_signature (Program.all_func (Program.isFresh_iff.mp hfresh) hf)
  obtain ⟨fs, gs, hall⟩ := FuncDef.exists_collectsAll 0 hslots h.params h.returns
  exact ⟨fs, ⟨gs, p.classes.map ClassDef.symbol⟩,
    Program.collect_eq_ok.mpr ⟨h.classes, hall, hall.signatures.mpr h.signatures, rfl⟩⟩

/-- A fresh program has its symbols collected if and only if class names and signatures are distinct
and the written types of signatures are known. There is then one symbol for each function, at its
place, and what the symbol says is what the definition says. -/
theorem Program.collect_exact {p : Program} (hfresh : p.isFresh = true) :
    (p.collect.2.isOk = true ↔ p.Collectable) ∧
      ∀ fs σ, p.collect = (fs, .ok σ) →
        σ.classes = p.classes.map ClassDef.symbol ∧
        σ.functions.length = p.funcs.length ∧
        ∀ (i : Nat) (f : FuncDef), p.funcs[i]? = some f → ∃ f' g,
          fs[i]? = some f' ∧ σ.functions[i]? = some g ∧ σ.symbolOf? i = some i ∧
            f.Enters p.classScope i f' g := by
  refine ⟨⟨fun h => ?_, fun h => ?_⟩, fun fs σ h => ?_⟩
  · obtain ⟨σ, hσ⟩ := Outcome.exists_of_isOk h
    exact Program.collectable_of_collect (Prod.ext rfl hσ)
  · obtain ⟨fs, σ, hcollect⟩ := h.exists_collect hfresh
    rw [hcollect]
    rfl
  · obtain ⟨_, hall, _, hclasses⟩ := Program.collect_eq_ok.mp h
    obtain ⟨hlen, hlen'⟩ := hall.length
    refine ⟨hclasses, hlen', fun i f hf => ?_⟩
    obtain ⟨f', g, hf', hg, hcollects⟩ := hall.get hf
    rw [Nat.zero_add] at hcollects
    have hlt : i < fs.length := (List.getElem?_eq_some_iff.mp hf').1
    exact ⟨f', g, hf', hg, (Program.collect_signs h).symbolOf? (.refl σ) hlt, hcollects.enters⟩

/-- Two functions of one name, the first with a class that is declared after it, and a procedure for
which an unknown return type is written. -/
def announcing : Program where
  definitions :=
    let int : TypeExpr := .named "int" [] {}
    let binder (written : Option TypeExpr) : Binder :=
      { isVar := false, name := "x", written, ty := .unresolved, loc := {} }
    let func (kind : FuncKind) (name : String) (params : List Binder)
        (written : Option TypeExpr) : Definition :=
      .funcDef
        { kind, name, params, written, body := .mk [] {}, ensure := none, ret := .unresolved,
          loc := {} }
    [func .func "mark" [binder (some (.named "Box" [int] {})), binder none] (some int),
      .classDef ⟨"Box", {}⟩,
      func .func "mark" [binder none, binder none] none,
      func .proc "note" [] (some (.named "Missing" [] {}))]
  loc := {}

theorem Program.collect_exact_announcing :
    announcing.isFresh = true ∧ announcing.collect.2.isOk = true ∧ announcing.Collectable ∧
      ∃ fs σ f f' g, announcing.collect = (fs, .ok σ) ∧ announcing.funcs[0]? = some f ∧
        fs[0]? = some f' ∧ σ.functions[0]? = some g ∧ σ.symbolOf? 0 = some 0 ∧
        f.Enters announcing.classScope 0 f' g := by
  have hfresh : announcing.isFresh = true := by decide +kernel
  have hok : announcing.collect.2.isOk = true := by decide +kernel
  obtain ⟨hiff, hsymbols⟩ := Program.collect_exact hfresh
  obtain ⟨σ, hσ⟩ := Outcome.exists_of_isOk hok
  obtain ⟨_, _, hget⟩ := hsymbols announcing.collect.1 σ (Prod.ext rfl hσ)
  have hf : announcing.funcs[0]? = some _ := rfl
  obtain ⟨f', g, hf', hg, hsymbol, henters⟩ := hget 0 _ hf
  exact ⟨hfresh, hok, hiff.mp hok, announcing.collect.1, σ, _, f', g, Prod.ext rfl hσ, hf, hf', hg,
    hsymbol, henters⟩

end Semant
