import Mathlib.Data.List.Perm.Basic
import Mathlib.Logic.Equiv.Defs
import Semant.Proofs.Scope.Growth
import Semant.Proofs.Tree.Agreement

/-! A scope whose classes and functions are numbered in another way. As long as the functions of one
name stay in order, written types, overloads and calls come out the same up to the numbers. -/

namespace Semant

open Outcome

/-- New numbers for the classes and for the functions of a program. -/
structure Renumbering where
  handle : Option ClassId → Option ClassId
  func : DefId ≃ DefId

namespace Renumbering

variable (ρ : Renumbering)

def ty : Ty → Ty :=
  Ty.mapHandle ρ.handle

def param : ParamType → ParamType
  | .template => .template
  | .concrete ty => .concrete (ρ.ty ty)

def symbol (g : FuncSymbol) : FuncSymbol :=
  { g with
    params := g.params.map ρ.param
    ret := g.ret.map ρ.ty
    definition := ρ.func g.definition }

@[simp]
theorem ty_builtin (b : Builtin) : ρ.ty (.builtin b) = .builtin b := rfl

@[simp]
theorem ty_object (name : String) (args : List Ty) (decl : Option ClassId) :
    ρ.ty (.object name args decl) = .object name (args.map ρ.ty) (ρ.handle decl) := by
  simp only [ty, Ty.mapHandle, Ty.mapHandleAll_eq_map]

@[simp]
theorem ty_tuple (elems : List Ty) : ρ.ty (.tuple elems) = .tuple (elems.map ρ.ty) := by
  simp only [ty, Ty.mapHandle, Ty.mapHandleAll_eq_map]

@[simp]
theorem ty_func (params : List Ty) (ret : Ty) :
    ρ.ty (.func params ret) = .func (params.map ρ.ty) (ρ.ty ret) := by
  simp only [ty, Ty.mapHandle, Ty.mapHandleAll_eq_map]

@[simp]
theorem ty_proc (params : List Ty) : ρ.ty (.proc params) = .proc (params.map ρ.ty) := by
  simp only [ty, Ty.mapHandle, Ty.mapHandleAll_eq_map]

@[simp]
theorem ty_dict (key value : Ty) : ρ.ty (.dict key value) = .dict (ρ.ty key) (ρ.ty value) := rfl

@[simp]
theorem ty_array (elem : Ty) : ρ.ty (.array elem) = .array (ρ.ty elem) := rfl

@[simp]
theorem ty_range (first last : Ty) :
    ρ.ty (.range first last) = .range (ρ.ty first) (ρ.ty last) := rfl

@[simp]
theorem ty_maybe (inner : Ty) : ρ.ty (.maybe inner) = .maybe (ρ.ty inner) := rfl

@[simp]
theorem ty_beq (a b : Ty) : (ρ.ty a == ρ.ty b) = (a == b) :=
  Ty.mapHandle_beq_mapHandle ρ.handle a b

theorem beq_ty (a : Ty) : a == ρ.ty a :=
  BEq.symm (Ty.mapHandle_beq ρ.handle a)

@[simp]
theorem tys_beq (as bs : List Ty) : (as.map ρ.ty == bs.map ρ.ty) = (as == bs) := by
  induction as generalizing bs with
  | nil => cases bs <;> rfl
  | cons a as ih =>
    cases bs with
    | nil => rfl
    | cons b bs => simp [ih]

@[simp]
theorem isNumeric_ty (a : Ty) : (ρ.ty a).isNumeric = a.isNumeric := by
  cases a <;> rfl

@[simp]
theorem isIntegral_ty (a : Ty) : (ρ.ty a).isIntegral = a.isIntegral := by
  cases a <;> rfl

theorem factor_param (arg : Ty) (p : ParamType) : (ρ.param p).factor (ρ.ty arg) = p.factor arg := by
  cases p with
  | template => rfl
  | concrete ty => simp [param, ParamType.factor]

theorem params_beq (as bs : List ParamType) :
    (as.map ρ.param == bs.map ρ.param) = (as == bs) := by
  have hone : ∀ a b : ParamType, (ρ.param a == ρ.param b) = (a == b) := by
    rintro (_ | a) (_ | b)
    · rfl
    · rfl
    · rfl
    · exact ρ.ty_beq a b
  induction as generalizing bs with
  | nil => cases bs <;> rfl
  | cons a as ih =>
    cases bs with
    | nil => rfl
    | cons b bs => simp [hone, ih]

theorem sameSignature_symbol (f g : FuncSymbol) :
    (ρ.symbol f).sameSignature (ρ.symbol g) = f.sameSignature g := by
  simp only [FuncSymbol.sameSignature, symbol, params_beq]

/-- A renumbered function takes renumbered arguments as well as before. -/
theorem score_symbol (g : FuncSymbol) (args : List Ty) :
    (ρ.symbol g).score (args.map ρ.ty) = g.score args := by
  simp only [FuncSymbol.score, symbol, List.length_map, List.zip_map, List.foldl_map, Prod.map,
    factor_param]

end Renumbering

/-- The scope `τ` is `σ` with the numbers of `ρ`. -/
structure Scope.Renumbers (ρ : Renumbering) (σ τ : Scope) : Prop where
  classes : ∀ {name id}, σ.lookupClass? name = some id →
    ∃ id', τ.lookupClass? name = some id' ∧ ρ.handle (some id) = some id'
  functions : ∀ id, τ.functions[ρ.func id]? = σ.functions[id]?.map ρ.symbol
  order : ∀ {i j f g}, σ.functions[i]? = some f → σ.functions[j]? = some g → f.name = g.name →
    i < j → ρ.func i < ρ.func j

namespace Scope

namespace Renumbers

variable {ρ : Renumbering} {σ τ : Scope}

theorem function (h : Renumbers ρ σ τ) {id : SymbolId} {f : FuncSymbol}
    (hf : σ.functions[id]? = some f) : τ.functions[ρ.func id]? = some (ρ.symbol f) := by
  rw [h.functions, hf, Option.map_some]

/-- The overloads of a name correspond one by one, because their order is kept. -/
theorem overloads (h : Renumbers ρ σ τ) (name : String) :
    τ.overloads name =
      (σ.overloads name).map fun o => ⟨ρ.func o.id, ρ.symbol o.symbol⟩ := by
  have hnodup : ∀ {os : List Overload}, os.Pairwise (·.id < ·.id) → os.Nodup := by
    intro os hos
    refine hos.imp fun hlt heq => ?_
    rw [heq] at hlt
    exact Nat.lt_irrefl _ hlt
  have hsorted : ((σ.overloads name).map fun o =>
      (⟨ρ.func o.id, ρ.symbol o.symbol⟩ : Overload)).Pairwise (·.id < ·.id) := by
    refine List.pairwise_map.mpr ((σ.pairwise_overloads name).imp_of_mem ?_)
    intro o p ho hp hlt
    obtain ⟨ho, hname⟩ := mem_overloads.mp ho
    obtain ⟨hp, hname'⟩ := mem_overloads.mp hp
    exact h.order ho hp (hname.trans hname'.symm) hlt
  have hperm : (τ.overloads name).Perm
      ((σ.overloads name).map fun o => ⟨ρ.func o.id, ρ.symbol o.symbol⟩) := by
    refine (List.perm_ext_iff_of_nodup (hnodup (τ.pairwise_overloads name)) (hnodup hsorted)).mpr ?_
    intro p
    obtain ⟨id, symbol⟩ := p
    obtain ⟨i, rfl⟩ := ρ.func.surjective id
    simp only [mem_overloads, List.mem_map, h.functions, Option.map_eq_some_iff]
    constructor
    · rintro ⟨⟨f, hf, rfl⟩, hname⟩
      exact ⟨⟨i, f⟩, ⟨hf, hname⟩, rfl⟩
    · rintro ⟨⟨j, f⟩, ⟨hf, hname⟩, heq⟩
      simp only [Overload.mk.injEq, EmbeddingLike.apply_eq_iff_eq] at heq
      obtain ⟨rfl, rfl⟩ := heq
      exact ⟨⟨f, hf, rfl⟩, hname⟩
  refine hperm.eq_of_pairwise ?_ (τ.pairwise_overloads name) hsorted
  intro o p _ _ hlt hgt
  exact absurd (Nat.lt_trans hlt hgt) (Nat.lt_irrefl _)

theorem resolve? (h : Renumbers ρ σ τ) (name : String) (args : List Ty) :
    τ.resolve? name (args.map ρ.ty) = (σ.resolve? name args).map ρ.func := by
  refine resolve?_matching ?_
  rw [h.overloads name]
  refine List.forall₂_map_right_iff.mpr (List.forall₂_same.mpr fun o _ => ⟨rfl, ?_⟩)
  exact ρ.score_symbol o.symbol args

theorem callType (h : Renumbers ρ σ τ) {id : SymbolId} {ty : Ty} (hc : σ.CallType id ty) :
    τ.CallType (ρ.func id) (ρ.ty ty) := by
  cases hc with
  | proc hf hkind => exact .proc (h.function hf) hkind
  | func hf hkind hret =>
    refine .func (h.function hf) hkind ?_
    simp only [Renumbering.symbol, hret, Slot.map]

end Renumbers

end Scope

section WrittenTypes

variable {ρ : Renumbering} {σ τ : Scope}

mutual

/-- A written type denotes the same type, up to the numbers of the classes. -/
theorem TypeExpr.resolve_renumbers (h : σ.Renumbers ρ τ) :
    ∀ (t : TypeExpr) {ty : Ty}, t.resolve σ = .ok ty → t.resolve τ = .ok (ρ.ty ty)
  | .named name args loc, ty, ht => by
    by_cases hb : ∀ b, args = [] → Builtin.ofName? name = some b → False
    · rw [TypeExpr.resolve.eq_2 _ _ _ _ hb] at ht ⊢
      cases hc : σ.lookupClass? name with
      | none => simp [hc, reject] at ht
      | some id =>
        obtain ⟨id', hc', hid⟩ := h.classes hc
        simp only [hc, bind_eq_ok, pure_eq, Except.ok.injEq] at ht
        obtain ⟨tys, htys, rfl⟩ := ht
        simp only [hc', TypeExpr.resolveAll_renumbers h args htys, ok_bind, pure_eq,
          Renumbering.ty_object, hid]
    · simp only [not_forall, not_false_eq_true, exists_prop, and_true] at hb
      obtain ⟨b, rfl, hb⟩ := hb
      rw [TypeExpr.resolve.eq_1 _ _ _ b hb] at ht ⊢
      cases ht
      rfl
  | .array elem _, _, ht => by
    simp only [TypeExpr.resolve, bind_eq_ok, pure_eq, Except.ok.injEq] at ht
    obtain ⟨ty, hty, rfl⟩ := ht
    simp only [TypeExpr.resolve, elem.resolve_renumbers h hty, ok_bind, pure_eq,
      Renumbering.ty_array]
  | .dict key value _, _, ht => by
    simp only [TypeExpr.resolve, bind_eq_ok, pure_eq, Except.ok.injEq] at ht
    obtain ⟨k, hk, v, hv, rfl⟩ := ht
    simp only [TypeExpr.resolve, key.resolve_renumbers h hk, value.resolve_renumbers h hv, ok_bind,
      pure_eq, Renumbering.ty_dict]
  | .tuple elems _, _, ht => by
    simp only [TypeExpr.resolve, bind_eq_ok, pure_eq, Except.ok.injEq] at ht
    obtain ⟨tys, htys, rfl⟩ := ht
    simp only [TypeExpr.resolve, TypeExpr.resolveAll_renumbers h elems htys, ok_bind, pure_eq,
      Renumbering.ty_tuple]
  | .func params none _, _, ht => by
    simp only [TypeExpr.resolve, bind_eq_ok, pure_eq, Except.ok.injEq] at ht
    obtain ⟨tys, htys, rfl⟩ := ht
    simp only [TypeExpr.resolve, TypeExpr.resolveAll_renumbers h params htys, ok_bind, pure_eq,
      Renumbering.ty_proc]
  | .func params (some ret) _, _, ht => by
    simp only [TypeExpr.resolve, bind_eq_ok, pure_eq, Except.ok.injEq] at ht
    obtain ⟨tys, htys, ty, hty, rfl⟩ := ht
    simp only [TypeExpr.resolve, TypeExpr.resolveAll_renumbers h params htys,
      ret.resolve_renumbers h hty, ok_bind, pure_eq, Renumbering.ty_func]
  | .maybe inner _, _, ht => by
    simp only [TypeExpr.resolve, bind_eq_ok, pure_eq, Except.ok.injEq] at ht
    obtain ⟨ty, hty, rfl⟩ := ht
    simp only [TypeExpr.resolve, inner.resolve_renumbers h hty, ok_bind, pure_eq,
      Renumbering.ty_maybe]

theorem TypeExpr.resolveAll_renumbers (h : σ.Renumbers ρ τ) :
    ∀ (ts : List TypeExpr) {tys : List Ty}, TypeExpr.resolveAll σ ts = .ok tys →
      TypeExpr.resolveAll τ ts = .ok (tys.map ρ.ty)
  | [], _, ht => by
    cases ht
    rfl
  | t :: ts, _, ht => by
    simp only [TypeExpr.resolveAll, bind_eq_ok, pure_eq, Except.ok.injEq] at ht
    obtain ⟨ty, hty, tys, htys, rfl⟩ := ht
    simp only [TypeExpr.resolveAll, t.resolve_renumbers h hty,
      TypeExpr.resolveAll_renumbers h ts htys, ok_bind, pure_eq, List.map_cons]

end

end WrittenTypes

end Semant
