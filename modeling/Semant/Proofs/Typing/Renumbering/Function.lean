import Semant.Proofs.Typing.Completeness.Function
import Semant.Proofs.Typing.Renumbering.Stmt

/-! Functions in a scope with other numbers. What was typed in one order under the old numbers can
be typed in the same order under the new ones. -/

namespace Semant

variable {ρ : Renumbering} {σ τ : Scope}

/-- Nothing in the blocks of the function has a type yet. -/
structure FuncDef.Untyped (f : FuncDef) : Prop where
  body : f.body.outline.All (·.isBlank = true)
  ensure : Outline.AllOf (·.isBlank = true) (Stmt.outlineOtherwise f.ensure)

namespace Renumbering

variable (ρ : Renumbering)

def funcDef (f : FuncDef) : FuncDef :=
  { f with params := f.params.map ρ.binder, ret := f.ret.map ρ.ty }

theorem isTemplate_funcDef (f : FuncDef) : (ρ.funcDef f).isTemplate = f.isTemplate := by
  simp only [FuncDef.isTemplate, funcDef, List.any_map]
  rfl

theorem ty_returnedType (tys : List Ty) :
    ρ.ty (returnedType tys) = returnedType (tys.map ρ.ty) := by
  match tys with
  | [] => exact ρ.ty_tuple _
  | [_] => rfl
  | _ :: _ :: _ => exact ρ.ty_tuple _

theorem mapM_binding? {bs : List Binder} {Γ : Context}
    (h : bs.mapM Binder.binding? = some Γ) :
    (bs.map ρ.binder).mapM Binder.binding? = some (ρ.context Γ) := by
  have hone : ∀ b : Binder, (ρ.binder b).binding? =
      b.binding?.map (Prod.map id ρ.binding) := by
    intro b
    cases hty : b.ty <;> simp [binder, Binder.binding?, hty, Slot.map, Slot.get?, binding]
  induction bs generalizing Γ with
  | nil =>
    cases h
    rfl
  | cons b bs ih =>
    simp only [List.mapM_cons, Option.bind_eq_bind, Option.bind_eq_some_iff, Option.pure_def,
      Option.some.injEq] at h
    obtain ⟨known, hknown, rest, hrest, rfl⟩ := h
    simp only [List.map_cons, List.mapM_cons, hone, hknown, ih hrest, Option.map_some]
    rfl

end Renumbering

theorem Returning.renumber (ρ : Renumbering) {kind : FuncKind} {known : Slot Ty}
    {rets : List (List Ty)} {ret : Ty} (h : Returning kind known rets ret) :
    Returning kind (known.map ρ.ty) (ρ.returns rets) (ρ.ty ret) where
  agree := by
    refine List.forall_mem_map.mpr fun tys htys => ?_
    rw [← ρ.ty_returnedType]
    exact (ρ.ty_beq _ _).trans (h.agree tys htys)
  valueless := by
    intro hkind
    refine List.forall_mem_map.mpr fun tys htys => ?_
    rw [h.valueless hkind tys htys]
    rfl
  given := by
    have hgiven := congrArg ρ.ty h.given
    cases known with
    | resolved ty => exact hgiven
    | unresolved =>
      cases rets with
      | nil => exact hgiven
      | cons tys rets => exact (ρ.ty_returnedType tys).symm.trans hgiven

theorem FuncDef.Resolves.renumber (h : σ.Renumbers ρ τ) {f f₁ : FuncDef} (hf : f.Resolves σ f₁)
    (hblank : f.Untyped) :
    ∃ f₂, (ρ.funcDef f).Resolves τ f₂ ∧ f₂.ret = f₁.ret.map ρ.ty ∧
      f₁.outline.Agrees ρ.func f₂.outline := by
  cases hf with
  | @mk params body ensure rets ret hparams hb he hret =>
    obtain ⟨body₂, hbody₂, hagree⟩ := hb.renumber h hblank.body
    obtain ⟨ensure₂, hensure₂, hagree'⟩ := he.renumber h hblank.ensure
    have hreverse : ρ.context params.reverse = (ρ.context params).reverse := List.map_reverse
    rw [hreverse] at hbody₂ hensure₂
    refine ⟨_, .mk (ρ.mapM_binding? hparams) hbody₂ hensure₂ (hret.renumber ρ), rfl, ?_⟩
    refine .mk ⟨rfl, rfl, ρ.slot_beq (.resolved ret), rfl⟩ ?_
    have hparams' := (ρ.agree_params f.params).append (TypeExpr.agree_option f.written)
    exact hparams'.append (.cons hagree hagree')

theorem Renumbering.funcDef_agrees (ρ : Renumbering) {f : FuncDef} (h : f.Untyped) :
    f.outline.Agrees ρ.func (ρ.funcDef f).outline := by
  refine .mk ⟨rfl, rfl, ρ.slot_beq f.ret, rfl⟩ ?_
  have hparams := (ρ.agree_params f.params).append (TypeExpr.agree_option f.written)
  exact hparams.append (.cons (.self h.body) (.self h.ensure))

theorem Renumbering.noted_symbol (ρ : Renumbering) (g : FuncSymbol) (f : FuncDef)
    {f₁ f₂ : FuncDef} (hret : f₂.ret = f₁.ret.map ρ.ty) :
    (ρ.symbol g).noted (ρ.funcDef f) f₂ = ρ.symbol (g.noted f f₁) := by
  have hopen : (ρ.funcDef f).ret.isResolved = f.ret.isResolved := f.ret.isResolved_map ρ.ty
  unfold FuncSymbol.noted
  rw [hopen, hret]
  split <;> rfl

/-- The function at `id` was typed in both numberings, with the same result. -/
structure Renumbering.Pairs (ρ : Renumbering) (fs typed typed' : List FuncDef) (id : DefId)
    (f f₁ f₂ : FuncDef) : Prop where
  source : fs[id]? = some f
  left : typed[id]? = some f₁
  right : typed'[ρ.func id]? = some f₂
  ret : f₂.ret = f₁.ret.map ρ.ty
  agrees : f₁.outline.Agrees ρ.func f₂.outline

variable {fs fs' typed typed' : List FuncDef} {l : List DefId}

theorem Renumbering.mem_map_func (ρ : Renumbering) {id : DefId} :
    ρ.func id ∈ l.map ρ.func ↔ id ∈ l := by
  simp

section

variable (hsig : σ.Signs fs) (h : σ.Renumbers ρ τ)
  (hfs : ∀ id, fs'[ρ.func id]? = fs[id]?.map ρ.funcDef)

include hsig h hfs

theorem Scope.Renumbers.known
    (hl : ∀ id ∈ l, ∃ f f₁ f₂, ρ.Pairs fs typed typed' id f f₁ f₂) :
    (σ.known fs typed l).Renumbers ρ (τ.known fs' typed' (l.map ρ.func)) where
  classes := h.classes
  functions id := by
    by_cases hid : id ∈ l
    · obtain ⟨f, f₁, f₂, hpair⟩ := hl id hid
      have hf : fs'[ρ.func id]? = some (ρ.funcDef f) := by rw [hfs, hpair.source, Option.map_some]
      rw [known_mem (ρ.mem_map_func.mpr hid) hf hpair.right, h.functions,
        known_mem hid hpair.source hpair.left, Option.map_map, Option.map_map]
      congr 1
      funext g
      exact ρ.noted_symbol g f hpair.ret
    · rw [known_not_mem (mt ρ.mem_map_func.mp hid), known_not_mem hid, h.functions]
  order := by
    intro i j a b ha hb hname hlt
    have hgrows := hsig.known_grows typed l
    obtain ⟨a₀, ha₀, hsame⟩ := hgrows.earlier_function ha
    obtain ⟨b₀, hb₀, hsame'⟩ := hgrows.earlier_function hb
    exact h.order ha₀ hb₀ (by rw [← hsame.name, hname, hsame'.name]) hlt

/-- Functions that were typed one after another can be typed in that order under other numbers. -/
theorem Completed.renumber (hblank : ∀ f ∈ fs, f.Untyped) (hc : Completed fs σ typed l) :
    ∃ typed', typed'.length = fs'.length ∧ Staged fs' τ typed' (l.map ρ.func) ∧
      ∀ id ∈ l, ∃ f f₁ f₂, ρ.Pairs fs typed typed' id f f₁ f₂ := by
  induction hc with
  | nil => exact ⟨fs', rfl, .nil, List.forall_mem_nil _⟩
  | @cons id l f f₁ hid hf hf₁ hplain hres _ ih =>
    obtain ⟨typed', hlen, hstaged, hpairs⟩ := ih
    have hknown := h.known hsig hfs hpairs
    obtain ⟨f₂, hf₂, hret, hagrees⟩ :=
      (hres _ (.refl _)).renumber hknown (hblank f (List.mem_of_getElem? hf))
    have hsource : fs'[ρ.func id]? = some (ρ.funcDef f) := by rw [hfs, hf, Option.map_some]
    have hlt : ρ.func id < typed'.length := hlen ▸ (List.getElem?_eq_some_iff.mp hsource).1
    have hnew : ρ.func id ∉ l.map ρ.func := mt ρ.mem_map_func.mp hid
    have hkept : ∀ k ∈ l.map ρ.func, typed'[k]? = (typed'.set (ρ.func id) f₂)[k]? := by
      intro k hk
      have hne : ρ.func id ≠ k := fun heq => hnew (heq ▸ hk)
      rw [List.getElem?_set_ne hne]
    have hset : (typed'.set (ρ.func id) f₂)[ρ.func id]? = some f₂ := List.getElem?_set_self hlt
    refine ⟨typed'.set (ρ.func id) f₂, by rw [List.length_set, hlen], ?_, ?_⟩
    · rw [List.map_cons]
      refine .cons hnew hsource hset ?_ ?_ (hstaged.congr hkept)
      · rw [ρ.isTemplate_funcDef, hplain]
      · rw [← Scope.known_congr hkept]
        exact hf₂
    · refine List.forall_mem_cons.mpr ⟨⟨f, f₁, f₂, hf, hf₁, hset, hret, hagrees⟩, ?_⟩
      intro k hk
      obtain ⟨f', f₁', f₂', hpair⟩ := hpairs k hk
      have hright := hkept _ (ρ.mem_map_func.mpr hk)
      exact ⟨f', f₁', f₂', hpair.source, hpair.left, hright ▸ hpair.right, hpair.ret, hpair.agrees⟩

/-- An analysis that succeeds does so under other numbers, with the same results. -/
theorem Progress.ofFuncs_renumber (hsig' : τ.Signs fs') (hblank : ∀ f ∈ fs, f.Untyped)
    (herror : (Progress.ofFuncs fs σ).error = none) :
    (Progress.ofFuncs fs' τ).error = none ∧
      (Progress.ofFuncs fs σ).scope.Renumbers ρ (Progress.ofFuncs fs' τ).scope ∧
      ∀ id f, fs[id]? = some f → ∃ f₁ f₂, (Progress.ofFuncs fs σ).funcs[id]? = some f₁ ∧
        (Progress.ofFuncs fs' τ).funcs[ρ.func id]? = some f₂ ∧
        f₁.outline.Agrees ρ.func f₂.outline := by
  obtain ⟨hist, hdone⟩ := Progress.ofFuncs_history hsig herror
  obtain ⟨typed', _, hstaged, hpairs⟩ := hist.completed.renumber hsig h hfs hblank
  have hall : ∀ id f, fs'[id]? = some f → f.isTemplate = false →
      id ∈ (Progress.ofFuncs fs σ).done.map ρ.func := by
    intro id f hf hplain
    obtain ⟨id, rfl⟩ := ρ.func.surjective id
    rw [hfs] at hf
    obtain ⟨source, hsource, rfl⟩ := Option.map_eq_some_iff.mp hf
    rw [ρ.isTemplate_funcDef] at hplain
    exact ρ.mem_map_func.mpr (hdone id source hsource hplain)
  obtain ⟨hend, hgoal⟩ := Progress.ofFuncs_complete hsig' hstaged hall
  have hmem : ∀ id, id ∈ (Progress.ofFuncs fs' τ).done ↔
      id ∈ (Progress.ofFuncs fs σ).done.map ρ.func :=
    fun id => ⟨fun hid => hend.done hid, fun hid => hgoal hid⟩
  refine ⟨hend.ok, ?_, fun id f hf => ?_⟩
  · rw [hist.scope, hend.scope, Scope.known_of_mem_iff hmem]
    exact h.known hsig hfs hpairs
  · have hiff := (hmem (ρ.func id)).trans ρ.mem_map_func
    rw [hend.funcs]
    by_cases hid : id ∈ (Progress.ofFuncs fs σ).done
    · obtain ⟨_, f₁, f₂, hpair⟩ := hpairs id hid
      exact ⟨f₁, f₂, hpair.left, by rw [if_pos (hiff.mpr hid), hpair.right], hpair.agrees⟩
    · have hagrees := ρ.funcDef_agrees (hblank f (List.mem_of_getElem? hf))
      refine ⟨f, ρ.funcDef f, by rw [hist.pending id hid, hf], ?_, hagrees⟩
      rw [if_neg (mt hiff.mp hid), hfs, hf, Option.map_some]

end

end Semant
