import Semant.Proofs.Outcome
import Semant.Scope.TypeExpr

/-! What written types denote, as a relation: the type has the form of what is written, a builtin
type is written by its name alone, and a class has to be in the scope. -/

namespace Semant

open Outcome

mutual

inductive TypeExpr.Denotes (σ : Scope) : TypeExpr → Ty → Prop
  | builtin {name : String} {b : Builtin} {loc : Location} :
      Builtin.ofName? name = some b → Denotes σ (.named name [] loc) (.builtin b)
  | object {name : String} {args : List TypeExpr} {tys : List Ty} {id : ClassId} {loc : Location} :
      (args = [] → Builtin.ofName? name = none) → σ.lookupClass? name = some id →
      TypeExpr.DenotesAll σ args tys → Denotes σ (.named name args loc) (.object name tys (some id))
  | array {elem : TypeExpr} {ty : Ty} {loc : Location} :
      Denotes σ elem ty → Denotes σ (.array elem loc) (.array ty)
  | dict {key value : TypeExpr} {k v : Ty} {loc : Location} :
      Denotes σ key k → Denotes σ value v → Denotes σ (.dict key value loc) (.dict k v)
  | tuple {elems : List TypeExpr} {tys : List Ty} {loc : Location} :
      TypeExpr.DenotesAll σ elems tys → Denotes σ (.tuple elems loc) (.tuple tys)
  | proc {params : List TypeExpr} {tys : List Ty} {loc : Location} :
      TypeExpr.DenotesAll σ params tys → Denotes σ (.func params none loc) (.proc tys)
  | func {params : List TypeExpr} {ret : TypeExpr} {tys : List Ty} {ty : Ty} {loc : Location} :
      TypeExpr.DenotesAll σ params tys → Denotes σ ret ty →
      Denotes σ (.func params (some ret) loc) (.func tys ty)
  | maybe {inner : TypeExpr} {ty : Ty} {loc : Location} :
      Denotes σ inner ty → Denotes σ (.maybe inner loc) (.maybe ty)

inductive TypeExpr.DenotesAll (σ : Scope) : List TypeExpr → List Ty → Prop
  | nil : DenotesAll σ [] []
  | cons {t : TypeExpr} {ts : List TypeExpr} {ty : Ty} {tys : List Ty} :
      TypeExpr.Denotes σ t ty → DenotesAll σ ts tys → DenotesAll σ (t :: ts) (ty :: tys)

end

variable {σ : Scope}

mutual

theorem TypeExpr.denotes : ∀ {t : TypeExpr} {ty : Ty}, t.resolve σ = .ok ty → t.Denotes σ ty
  | .named name args _, _, h => by
    by_cases hb : ∃ b, args = [] ∧ Builtin.ofName? name = some b
    · obtain ⟨b, rfl, hb⟩ := hb
      rw [TypeExpr.resolve.eq_1 _ _ _ b hb] at h
      cases h
      exact .builtin hb
    · have hother : ∀ b, args = [] → Builtin.ofName? name = some b → False :=
        fun b hargs hname => hb ⟨b, hargs, hname⟩
      have hnone : args = [] → Builtin.ofName? name = none :=
        fun hargs => Option.eq_none_iff_forall_ne_some.mpr fun b => hother b hargs
      rw [TypeExpr.resolve.eq_2 _ _ _ _ hother] at h
      cases hid : σ.lookupClass? name with
      | none => simp [hid, reject] at h
      | some id =>
        simp only [hid, bind_eq_ok, pure_eq, Except.ok.injEq] at h
        obtain ⟨tys, htys, rfl⟩ := h
        exact .object hnone hid (TypeExpr.denotesAll htys)
  | .array elem _, _, h => by
    simp only [TypeExpr.resolve, bind_eq_ok, pure_eq, Except.ok.injEq] at h
    obtain ⟨ty, hty, rfl⟩ := h
    exact .array (TypeExpr.denotes hty)
  | .dict key value _, _, h => by
    simp only [TypeExpr.resolve, bind_eq_ok, pure_eq, Except.ok.injEq] at h
    obtain ⟨k, hk, v, hv, rfl⟩ := h
    exact .dict (TypeExpr.denotes hk) (TypeExpr.denotes hv)
  | .tuple elems _, _, h => by
    simp only [TypeExpr.resolve, bind_eq_ok, pure_eq, Except.ok.injEq] at h
    obtain ⟨tys, htys, rfl⟩ := h
    exact .tuple (TypeExpr.denotesAll htys)
  | .func params none _, _, h => by
    simp only [TypeExpr.resolve, bind_eq_ok, pure_eq, Except.ok.injEq] at h
    obtain ⟨tys, htys, rfl⟩ := h
    exact .proc (TypeExpr.denotesAll htys)
  | .func params (some ret) _, _, h => by
    simp only [TypeExpr.resolve, bind_eq_ok, pure_eq, Except.ok.injEq] at h
    obtain ⟨tys, htys, ty, hty, rfl⟩ := h
    exact .func (TypeExpr.denotesAll htys) (TypeExpr.denotes hty)
  | .maybe inner _, _, h => by
    simp only [TypeExpr.resolve, bind_eq_ok, pure_eq, Except.ok.injEq] at h
    obtain ⟨ty, hty, rfl⟩ := h
    exact .maybe (TypeExpr.denotes hty)

theorem TypeExpr.denotesAll : ∀ {ts : List TypeExpr} {tys : List Ty},
    TypeExpr.resolveAll σ ts = .ok tys → TypeExpr.DenotesAll σ ts tys
  | [], _, h => by
    cases h
    exact .nil
  | t :: ts, _, h => by
    simp only [TypeExpr.resolveAll, bind_eq_ok, pure_eq, Except.ok.injEq] at h
    obtain ⟨ty, hty, tys, htys, rfl⟩ := h
    exact .cons (TypeExpr.denotes hty) (TypeExpr.denotesAll htys)

end

mutual

theorem TypeExpr.Denotes.resolve : ∀ {t : TypeExpr} {ty : Ty}, t.Denotes σ ty → t.resolve σ = .ok ty
  | _, _, .builtin hb => TypeExpr.resolve.eq_1 _ _ _ _ hb
  | _, _, .object hnone hid hargs => by
    rw [TypeExpr.resolve.eq_2 _ _ _ _ fun b hargs hb => by simp [hnone hargs] at hb, hid]
    simp only [hargs.resolveAll, ok_bind, pure_eq]
  | _, _, .array helem => by simp only [TypeExpr.resolve, helem.resolve, ok_bind, pure_eq]
  | _, _, .dict hkey hvalue => by
    simp only [TypeExpr.resolve, hkey.resolve, hvalue.resolve, ok_bind, pure_eq]
  | _, _, .tuple helems => by simp only [TypeExpr.resolve, helems.resolveAll, ok_bind, pure_eq]
  | _, _, .proc hparams => by simp only [TypeExpr.resolve, hparams.resolveAll, ok_bind, pure_eq]
  | _, _, .func hparams hret => by
    simp only [TypeExpr.resolve, hparams.resolveAll, hret.resolve, ok_bind, pure_eq]
  | _, _, .maybe hinner => by simp only [TypeExpr.resolve, hinner.resolve, ok_bind, pure_eq]

theorem TypeExpr.DenotesAll.resolveAll : ∀ {ts : List TypeExpr} {tys : List Ty},
    TypeExpr.DenotesAll σ ts tys → TypeExpr.resolveAll σ ts = .ok tys
  | _, _, .nil => rfl
  | _, _, .cons ht hts => by
    simp only [TypeExpr.resolveAll, ht.resolve, hts.resolveAll, ok_bind, pure_eq]

end

theorem TypeExpr.resolve_eq_ok {t : TypeExpr} {ty : Ty} :
    t.resolve σ = .ok ty ↔ t.Denotes σ ty :=
  ⟨TypeExpr.denotes, TypeExpr.Denotes.resolve⟩

end Semant
