import Mathlib.Logic.Equiv.Basic
import Semant.Proofs.Analysis.EmptySlot
import Semant.Proofs.Analysis.Failures
import Semant.Proofs.Typing.Renumbering.Function

/-! The order of the definitions of a program does not matter, except among functions of one name. A
program and a reordered one are accepted or refused together, and agree on every type and callee. -/

namespace Semant

/-- The definitions of `q` are those of `p` in another order, which is kept among the functions of
one name. The function at `id` has moved to `move id`. -/
structure Reordering (p q : Program) where
  classes : q.classes.Perm p.classes
  move : DefId ≃ DefId
  func : ∀ id, q.funcs[move id]? = p.funcs[id]?
  order : ∀ {i j f g}, p.funcs[i]? = some f → p.funcs[j]? = some g → f.name = g.name → i < j →
    move i < move j

section Collection

variable {ρ : Renumbering} {σ τ : Scope} (h : σ.Renumbers ρ τ)

include h

theorem Binder.CollectsAll.renumber {bs bs₁ : List Binder} {params : List ParamType}
    (hbs : Binder.CollectsAll σ bs bs₁ params) (hblank : ∀ b ∈ bs, b.ty = .unresolved) :
    Binder.CollectsAll τ bs (bs₁.map ρ.binder) (params.map ρ.param) := by
  induction hbs with
  | nil => exact .nil
  | @cons b _ _ _ _ _ hb _ ih =>
    obtain ⟨hslot, hblank⟩ := List.forall_mem_cons.mp hblank
    refine .cons ?_ (ih hblank)
    cases hb with
    | template hw =>
      have hsame : ρ.binder b = b := by
        rw [Renumbering.binder, hslot, Slot.map, ← hslot]
      rw [hsame]
      exact .template hw
    | @concrete w _ hw hty => exact .concrete hw (w.resolve_renumbers h hty) hslot

theorem FuncDef.Collects.renumber {id : DefId} {f f₁ : FuncDef} {g : FuncSymbol}
    (hf : f.Collects σ id f₁ g) (hparams : ∀ b ∈ f.params, b.ty = .unresolved)
    (hret : f.ret = .unresolved) : f.Collects τ (ρ.func id) (ρ.funcDef f₁) (ρ.symbol g) := by
  obtain ⟨hall, hreturn⟩ := hf
  refine .mk (hall.renumber h hparams) ?_
  cases hreturn with
  | proc hkind => exact .proc hkind hret
  | @written w _ hkind hw hty => exact .written hkind hw (w.resolve_renumbers h hty) hret
  | inferred hkind hw =>
    have hsame : f.ret.map ρ.ty = f.ret := by
      rw [hret]
      rfl
    exact hsame.symm ▸ .inferred hkind hw

end Collection

theorem Program.lookupClass?_eq_some {p : Program} {name : String} {id : ClassId}
    (h : p.classScope.lookupClass? name = some id) :
    ∃ c, p.classes[id]? = some c ∧ c.name = name := by
  obtain ⟨hlt, hname, _⟩ := List.findIdx?_eq_some_iff_getElem.mp h
  have hlt' : id < p.classes.length := by simpa [Program.classScope] using hlt
  refine ⟨_, List.getElem?_eq_getElem hlt', ?_⟩
  simpa [Program.classScope, ClassDef.symbol] using hname

theorem Program.exists_lookupClass? {p : Program} {c : ClassDef} (hc : c ∈ p.classes) :
    ∃ id, p.classScope.lookupClass? c.name = some id := by
  cases h : p.classScope.lookupClass? c.name with
  | some id => exact ⟨id, rfl⟩
  | none =>
    have hnone := List.findIdx?_eq_none_iff.mp h c.symbol (List.mem_map_of_mem hc)
    simp [ClassDef.symbol] at hnone

theorem Program.lookupClass?_of_classes {p : Program} {σ : Scope}
    (h : σ.classes = p.classes.map ClassDef.symbol) :
    σ.lookupClass? = p.classScope.lookupClass? := by
  funext name
  simp only [Scope.lookupClass?, Program.classScope, h]

theorem FuncDef.blank_signature {f : FuncDef} (h : f.outline.All (·.isBlank = true)) :
    (∀ b ∈ f.params, b.ty = .unresolved) ∧ f.ret = .unresolved := by
  simp only [FuncDef.outline, Outline.all_mk, Outline.allOf_append] at h
  obtain ⟨hnode, ⟨hparams, _⟩, _⟩ := h
  refine ⟨fun b hb => ?_, Slot.eq_unresolved (Bool.and_eq_true_iff.mp hnode).1⟩
  have hparam := Outline.allOf_iff.mp hparams b.paramOutline (List.mem_map_of_mem hb)
  rw [Binder.paramOutline, Outline.all_mk] at hparam
  exact Slot.eq_unresolved (Bool.and_eq_true_iff.mp hparam.1).1

theorem FuncDef.untyped_of_blank {f : FuncDef} (h : f.outline.All (·.isBlank = true)) :
    f.Untyped := by
  simp only [FuncDef.outline, Outline.all_mk, Outline.allOf_append, Outline.allOf_cons] at h
  exact ⟨h.2.2.1, h.2.2.2⟩

namespace Program

theorem typed_symbol {p : Program} {σ : Scope} (h : p.typed.outcome = .ok σ) {id : DefId}
    {f : FuncDef} (hf : p.funcs[id]? = some f) :
    ∃ g, σ.functions[id]? = some g ∧ g.definition = id := by
  obtain ⟨fs, σ₀, hcollect, herror, rfl⟩ := typed_eq_ok.mp h
  obtain ⟨_, hall, _, _⟩ := collect_eq_ok.mp hcollect
  have hsig := collect_signs hcollect
  obtain ⟨_, g₀, _, hg₀, _⟩ := hall.get hf
  rw [(Progress.ofFuncs_history hsig herror).1.scope]
  have hgrows := hsig.known_grows (Progress.ofFuncs fs σ₀).funcs (Progress.ofFuncs fs σ₀).done
  obtain ⟨g, hg, _⟩ := hgrows.function hg₀
  obtain ⟨_, _, hdef, _⟩ := hsig.later hgrows hg
  exact ⟨g, hg, hdef⟩

end Program

namespace Reordering

variable {p q : Program} (r : Reordering p q)

def symm : Reordering q p where
  classes := r.classes.symm
  move := r.move.symm
  func id := by rw [← r.func, Equiv.apply_symm_apply]
  order {i j f g} hf hg hname hlt := by
    obtain ⟨i, rfl⟩ := r.move.surjective i
    obtain ⟨j, rfl⟩ := r.move.surjective j
    rw [r.func] at hf hg
    rw [Equiv.symm_apply_apply, Equiv.symm_apply_apply]
    rcases Nat.lt_trichotomy i j with h | rfl | h
    · exact h
    · exact absurd hlt (Nat.lt_irrefl _)
    · have hgt := r.order hg hf hname.symm h
      exact absurd (Nat.lt_trans hlt hgt) (Nat.lt_irrefl _)

/-- A class is found again by its name. -/
def renumbering : Renumbering where
  handle handle :=
    handle.bind fun id => p.classes[id]?.bind fun c => q.classScope.lookupClass? c.name
  func := r.move

theorem lookupClass? {name : String} {id : ClassId}
    (h : p.classScope.lookupClass? name = some id) :
    ∃ id', q.classScope.lookupClass? name = some id' ∧
      r.renumbering.handle (some id) = some id' := by
  obtain ⟨c, hc, rfl⟩ := Program.lookupClass?_eq_some h
  have hmem : c ∈ q.classes := r.classes.mem_iff.mpr (List.mem_of_getElem? hc)
  obtain ⟨id', hid'⟩ := Program.exists_lookupClass? hmem
  refine ⟨id', hid', ?_⟩
  simp only [renumbering, Option.bind_some, hc, hid']

theorem classScope : p.classScope.Renumbers r.renumbering q.classScope where
  classes := r.lookupClass?
  functions _ := rfl
  order hf := by cases hf

theorem move_lt_iff {id : DefId} : r.move id < q.funcs.length ↔ id < p.funcs.length := by
  rw [← not_iff_not, Nat.not_lt, Nat.not_lt, ← List.getElem?_eq_none_iff, r.func,
    List.getElem?_eq_none_iff]

/-- A list with one entry for each function is reordered like the functions. -/
theorem exists_moved {α : Type} (l : List α) (hl : l.length = p.funcs.length) :
    ∃ l' : List α, l'.length = q.funcs.length ∧ ∀ id, l'[r.move id]? = l[id]? := by
  have hlt : ∀ k : Fin q.funcs.length, r.move.symm k < l.length := by
    intro k
    rw [hl, ← r.move_lt_iff, Equiv.apply_symm_apply]
    exact k.isLt
  refine ⟨List.ofFn fun k => l.get ⟨r.move.symm k, hlt k⟩, List.length_ofFn, fun id => ?_⟩
  rw [List.getElem?_ofFn]
  by_cases hid : id < p.funcs.length
  · rw [dif_pos (r.move_lt_iff.mpr hid)]
    simp [hl, hid]
  · rw [dif_neg (mt r.move_lt_iff.mp hid), List.getElem?_eq_none (hl ▸ Nat.le_of_not_lt hid)]

theorem renumbers {σ τ : Scope} (hσ : σ.classes = p.classes.map ClassDef.symbol)
    (hτ : τ.classes = q.classes.map ClassDef.symbol) {fs : List FuncDef}
    (hall : FuncDef.CollectsAll p.classScope 0 p.funcs fs σ.functions)
    (hfunctions : ∀ id, τ.functions[r.move id]? = σ.functions[id]?.map r.renumbering.symbol) :
    σ.Renumbers r.renumbering τ where
  classes := by
    rw [Program.lookupClass?_of_classes hσ, Program.lookupClass?_of_classes hτ]
    exact r.lookupClass?
  functions := hfunctions
  order {i j a b} ha hb hname hlt := by
    obtain ⟨f, _, hf, _, ⟨_, _⟩⟩ := hall.symbol ha
    obtain ⟨g, _, hg, _, ⟨_, _⟩⟩ := hall.symbol hb
    exact r.order hf hg hname hlt

/-- Signatures that differ still do after a renumbering. -/
theorem pairwise {fs : List FuncDef} {gs gs' : List FuncSymbol}
    (hall : FuncDef.CollectsAll p.classScope 0 p.funcs fs gs)
    (hgs' : ∀ id, gs'[r.move id]? = gs[id]?.map r.renumbering.symbol)
    (hpair : gs.Pairwise fun earlier g => earlier.sameSignature g = false) :
    gs'.Pairwise fun earlier g => earlier.sameSignature g = false := by
  refine List.pairwise_iff_getElem.mpr fun i j hi hj hlt => ?_
  obtain ⟨i, rfl⟩ := r.move.surjective i
  obtain ⟨j, rfl⟩ := r.move.surjective j
  have hgi := hgs' i
  have hgj := hgs' j
  rw [List.getElem?_eq_getElem hi, eq_comm, Option.map_eq_some_iff] at hgi
  rw [List.getElem?_eq_getElem hj, eq_comm, Option.map_eq_some_iff] at hgj
  obtain ⟨a, ha, hai⟩ := hgi
  obtain ⟨b, hb, hbj⟩ := hgj
  rw [← hai, ← hbj, Renumbering.sameSignature_symbol]
  rcases Nat.lt_trichotomy i j with h | rfl | h
  · obtain ⟨hi₀, rfl⟩ := List.getElem?_eq_some_iff.mp ha
    obtain ⟨hj₀, rfl⟩ := List.getElem?_eq_some_iff.mp hb
    exact List.pairwise_iff_getElem.mp hpair i j hi₀ hj₀ h
  · exact absurd hlt (Nat.lt_irrefl _)
  · -- functions that change places have different names
    obtain ⟨f, _, hf, _, ⟨_, _⟩⟩ := hall.symbol ha
    obtain ⟨g, _, hg, _, ⟨_, _⟩⟩ := hall.symbol hb
    have hname : f.name ≠ g.name := fun hname =>
      absurd (Nat.lt_trans hlt (r.order hg hf hname.symm h)) (Nat.lt_irrefl _)
    simp [FuncSymbol.sameSignature, hname]

theorem collect {fs : List FuncDef} {σ : Scope} (h : p.collect = (fs, .ok σ))
    (hblank : ∀ f ∈ p.funcs, f.outline.All (·.isBlank = true)) :
    ∃ fs' τ, q.collect = (fs', .ok τ) ∧ σ.Renumbers r.renumbering τ ∧
      ∀ id, fs'[r.move id]? = fs[id]?.map r.renumbering.funcDef := by
  obtain ⟨hnodup, hall, hpair, hσ⟩ := Program.collect_eq_ok.mp h
  obtain ⟨hlen, hlen'⟩ := hall.length
  obtain ⟨fs', hlenfs, hfs'⟩ := r.exists_moved (fs.map r.renumbering.funcDef) (by simpa using hlen)
  obtain ⟨gs', hlengs, hgs'⟩ :=
    r.exists_moved (σ.functions.map r.renumbering.symbol) (by simpa using hlen')
  simp only [List.getElem?_map] at hfs' hgs'
  have hcollects : FuncDef.CollectsAll q.classScope 0 q.funcs fs' gs' := by
    refine .of_get hlenfs hlengs fun k f f₂ g₂ hf hf₂ hg₂ => ?_
    obtain ⟨id, rfl⟩ := r.move.surjective k
    rw [r.func] at hf
    obtain ⟨f₁, g₁, hf₁, hg₁, hone⟩ := hall.get hf
    rw [hfs', hf₁] at hf₂
    rw [hgs', hg₁] at hg₂
    cases hf₂
    cases hg₂
    rw [Nat.zero_add] at hone ⊢
    obtain ⟨hparams, hret⟩ := FuncDef.blank_signature (hblank f (List.mem_of_getElem? hf))
    exact hone.renumber r.classScope hparams hret
  refine ⟨fs', { functions := gs', classes := q.classes.map ClassDef.symbol }, ?_, ?_, hfs'⟩
  · refine Program.collect_eq_ok.mpr ⟨?_, hcollects, r.pairwise hall hgs' hpair, rfl⟩
    exact (r.classes.map ClassDef.name).nodup_iff.mpr hnodup
  · exact r.renumbers hσ rfl hall hgs'

include r in
theorem mem_funcs {f : FuncDef} (hf : f ∈ q.funcs) : f ∈ p.funcs := by
  obtain ⟨id, hid⟩ := List.mem_iff_getElem?.mp hf
  rw [← r.symm.func] at hid
  exact List.mem_of_getElem? hid

/-- A reordered program is typed if the program is, with the same types and callees. -/
theorem typed {σ : Scope} (h : p.typed.outcome = .ok σ)
    (hblank : ∀ f ∈ p.funcs, f.outline.All (·.isBlank = true)) :
    ∃ τ, q.typed.outcome = .ok τ ∧ σ.Renumbers r.renumbering τ ∧
      ∀ id f, p.funcs[id]? = some f → ∃ f₁ f₂, p.typed.program.funcs[id]? = some f₁ ∧
        q.typed.program.funcs[r.move id]? = some f₂ ∧ f₁.outline.Agrees r.move f₂.outline := by
  obtain ⟨fs, σ₀, hcollect, herror, rfl⟩ := Program.typed_eq_ok.mp h
  obtain ⟨fs', τ₀, hcollect', hrenumbers, hfs'⟩ := r.collect hcollect hblank
  obtain ⟨_, hall, _, _⟩ := Program.collect_eq_ok.mp hcollect
  have huntyped : ∀ f ∈ fs, f.Untyped := by
    intro f hf
    obtain ⟨id, hid⟩ := List.mem_iff_getElem?.mp hf
    obtain ⟨_, _, hsource, _, ⟨_, _⟩⟩ := hall.source hid
    have hsource := FuncDef.untyped_of_blank (hblank _ (List.mem_of_getElem? hsource))
    exact ⟨hsource.body, hsource.ensure⟩
  obtain ⟨herror', hscope, hfuncs⟩ := Progress.ofFuncs_renumber (Program.collect_signs hcollect)
    hrenumbers hfs' (Program.collect_signs hcollect') huntyped herror
  refine ⟨_, Program.typed_eq_ok.mpr ⟨fs', τ₀, hcollect', herror', rfl⟩, hscope, ?_⟩
  intro id f hf
  rw [Program.funcs_typed hcollect, Program.funcs_typed hcollect']
  obtain ⟨f₀, _, hf₀, _⟩ := hall.get hf
  exact hfuncs id f₀ hf₀

end Reordering

/-- A program and a reordered one are accepted or refused together. If they are accepted, then
corresponding functions agree at every node: types are equal, and a callee that is the symbol of a
definition in one program is the symbol of the same definition in the other. -/
theorem Program.analyze_reordered {p q : Program} (hfresh : p.isFresh = true) (r : Reordering p q)
    (o : Options) :
    ((∃ σ, (p.analyze o).outcome = .ok σ) ↔ ∃ τ, (q.analyze o).outcome = .ok τ) ∧
      ∀ σ τ, (p.analyze o).outcome = .ok σ → (q.analyze o).outcome = .ok τ →
        ∀ id f, p.funcs[id]? = some f →
          (∃ f₁ f₂, (p.analyze o).program.funcs[id]? = some f₁ ∧
            (q.analyze o).program.funcs[r.move id]? = some f₂ ∧
            List.Forall₂ (Node.Agrees r.move) (Node.funcDef f₁).preorder
              (Node.funcDef f₂).preorder) ∧
          ∃ g₁ g₂, σ.functions[id]? = some g₁ ∧ τ.functions[r.move id]? = some g₂ ∧
            g₁.definition = id ∧ g₂.definition = r.move id ∧ g₁.ret == g₂.ret := by
  have hblank : ∀ f ∈ p.funcs, f.outline.All (·.isBlank = true) :=
    fun f hf => Program.all_func (Program.isFresh_iff.mp hfresh) hf
  have hblank' : ∀ f ∈ q.funcs, f.outline.All (·.isBlank = true) :=
    fun f hf => hblank f (r.mem_funcs hf)
  simp only [Program.analyze_eq_ok, Program.program_analyze]
  refine ⟨⟨fun ⟨σ, hσ⟩ => ?_, fun ⟨τ, hτ⟩ => ?_⟩, fun σ τ hσ hτ id f hf => ?_⟩
  · obtain ⟨τ, hτ, _⟩ := r.typed hσ hblank
    exact ⟨τ, hτ⟩
  · obtain ⟨σ, hσ, _⟩ := r.symm.typed hτ hblank'
    exact ⟨σ, hσ⟩
  · obtain ⟨τ', hτ', hscope, hfuncs⟩ := r.typed hσ hblank
    rw [hτ] at hτ'
    cases hτ'
    obtain ⟨f₁, f₂, hf₁, hf₂, hagrees⟩ := hfuncs id f hf
    obtain ⟨g, hg, hdef⟩ := Program.typed_symbol hσ hf
    have hnodes : List.Forall₂ (Node.Agrees r.move) (Node.funcDef f₁).preorder
        (Node.funcDef f₂).preorder := Node.forall₂_preorder hagrees
    have hdef' : (r.renumbering.symbol g).definition = r.move id := congrArg r.move hdef
    exact ⟨⟨f₁, f₂, hf₁, hf₂, hnodes⟩, g, _, hg, hscope.function hg, hdef, hdef',
      r.renumbering.slot_beq g.ret⟩

/-- Two classes, a function that forwards to an overload for the second one, and the overloads. -/
def forwarding (order : List Nat) : Program where
  definitions :=
    let n : Expr := .var "n" .unresolved {}
    let func (name type : String) (result : Expr) : Definition :=
      let param : Binder :=
        { isVar := false, name := "n", written := some (.named type [] {}), ty := .unresolved,
          loc := {} }
      .funcDef
        { kind := .func, name, params := [param], written := none,
          body := .mk [.ret [result] {}] {}, ensure := none, ret := .unresolved, loc := {} }
    order.filterMap fun k =>
      [.classDef ⟨"Left", {}⟩, .classDef ⟨"Right", {}⟩,
        func "wrap" "Right" (.named "pick" [n] .unresolved .unresolved {}),
        func "pick" "Left" n, func "pick" "Right" n][k]?
  loc := {}

def forwarding.reordering :
    Reordering (forwarding [0, 1, 2, 3, 4]) (forwarding [1, 3, 0, 2, 4]) where
  classes := by decide +kernel
  move := Equiv.swap 0 1
  func
    | 0 | 1 | 2 => rfl
    | n + 3 => by
      have hfixed : Equiv.swap 0 1 (n + 3) = n + 3 :=
        Equiv.swap_apply_of_ne_of_ne (Nat.succ_ne_zero _) (Nat.succ_succ_ne_one _)
      rw [hfixed]
      rfl
  order {i j f g} hf hg hname hlt := by
    match i, j with
    | 0, 1 | 0, 2 =>
      cases hf
      cases hg
      simp at hname
    | 1, 2 => decide
    | 0, 0 | 1, 0 | 1, 1 | 2, 0 | 2, 1 | 2, 2 => simp at hlt
    | _ + 3, _ => cases hf
    | _, _ + 3 => cases hg

theorem Program.analyze_reordered_forwarding :
    (forwarding [0, 1, 2, 3, 4]).isFresh = true ∧
      ∃ (σ τ : Scope) (f₁ f₂ : FuncDef),
        ((forwarding [0, 1, 2, 3, 4]).analyze {}).outcome = .ok σ ∧
        ((forwarding [1, 3, 0, 2, 4]).analyze {}).outcome = .ok τ ∧
        ((forwarding [0, 1, 2, 3, 4]).analyze {}).program.funcs[0]? = some f₁ ∧
        ((forwarding [1, 3, 0, 2, 4]).analyze {}).program.funcs[1]? = some f₂ ∧
        List.Forall₂ (Node.Agrees (Equiv.swap 0 1)) (Node.funcDef f₁).preorder
          (Node.funcDef f₂).preorder := by
  have hfresh : (forwarding [0, 1, 2, 3, 4]).isFresh = true := by decide +kernel
  have hok : ((forwarding [0, 1, 2, 3, 4]).analyze {}).outcome.isOk = true := by decide +kernel
  obtain ⟨σ, hσ⟩ := Outcome.exists_of_isOk hok
  obtain ⟨hiff, hagree⟩ := Program.analyze_reordered hfresh forwarding.reordering {}
  obtain ⟨τ, hτ⟩ := hiff.mp ⟨σ, hσ⟩
  obtain ⟨⟨f₁, f₂, hf₁, hf₂, hnodes⟩, _⟩ := hagree σ τ hσ hτ 0 _ rfl
  exact ⟨hfresh, σ, τ, f₁, f₂, hσ, hτ, hf₁, hf₂, hnodes⟩

end Semant
