import Semant.Proofs.Scope.Overload
import Semant.Proofs.TypeEquality
import Semant.Proofs.Typing.Judgment

/-! The typing rules do not tell equal types apart: a rule that applies to some types applies to
equal ones, with an equal result. -/

namespace Semant

namespace Ty

theorem erase_range {first last : Ty} :
    (range first last).erase = range first.erase last.erase := rfl

theorem erase_tuple {elems : List Ty} : (tuple elems).erase = tuple (elems.map erase) :=
  congrArg tuple (mapHandleAll_eq_map _ elems)

theorem erase_func {params : List Ty} {ret : Ty} :
    (func params ret).erase = func (params.map erase) ret.erase :=
  congrArg (func · ret.erase) (mapHandleAll_eq_map _ params)

theorem erase_proc {params : List Ty} : (proc params).erase = proc (params.map erase) :=
  congrArg proc (mapHandleAll_eq_map _ params)

theorem eq_builtin_of_erase {ty : Ty} {b : Builtin} (h : ty.erase = (builtin b).erase) :
    ty = builtin b :=
  beq_builtin.mp (beq_iff_erase_eq.mpr h)

theorem eq_array_of_erase {ty elem : Ty} (h : ty.erase = (array elem).erase) :
    ∃ elem', ty = array elem' ∧ elem'.erase = elem.erase := by
  cases ty with
  | array elem' => exact ⟨elem', rfl, array.inj h⟩
  | _ => cases h

theorem eq_dict_of_erase {ty key value : Ty} (h : ty.erase = (dict key value).erase) :
    ∃ key' value', ty = dict key' value' ∧ key'.erase = key.erase ∧ value'.erase = value.erase := by
  cases ty with
  | dict key' value' => exact ⟨key', value', rfl, dict.inj h⟩
  | _ => cases h

theorem eq_range_of_erase {ty first last : Ty} (h : ty.erase = (range first last).erase) :
    ∃ first' last', ty = range first' last' ∧ first'.erase = first.erase ∧
      last'.erase = last.erase := by
  cases ty with
  | range first' last' => exact ⟨first', last', rfl, range.inj h⟩
  | _ => cases h

theorem eq_tuple_of_erase {ty : Ty} {elems : List Ty} (h : ty.erase = (tuple elems).erase) :
    ∃ elems', ty = tuple elems' ∧ elems'.map erase = elems.map erase := by
  cases ty with
  | tuple elems' =>
    rw [erase_tuple, erase_tuple] at h
    exact ⟨elems', rfl, tuple.inj h⟩
  | _ => cases h

theorem eq_func_of_erase {ty ret : Ty} {params : List Ty} (h : ty.erase = (func params ret).erase) :
    ∃ params' ret', ty = func params' ret' ∧ params'.map erase = params.map erase ∧
      ret'.erase = ret.erase := by
  cases ty with
  | func params' ret' =>
    rw [erase_func, erase_func] at h
    exact ⟨params', ret', rfl, func.inj h⟩
  | _ => cases h

theorem eq_proc_of_erase {ty : Ty} {params : List Ty} (h : ty.erase = (proc params).erase) :
    ∃ params', ty = proc params' ∧ params'.map erase = params.map erase := by
  cases ty with
  | proc params' =>
    rw [erase_proc, erase_proc] at h
    exact ⟨params', rfl, proc.inj h⟩
  | _ => cases h

theorem singleton_erase {a b : Ty} (h : a.erase = b.erase) : [a].map erase = [b].map erase :=
  congrArg (fun ty => [ty]) h

theorem all_beq_iff {as bs : List Ty} : (as == bs) = true ↔ as.map erase = bs.map erase := by
  induction as generalizing bs with
  | nil => cases bs <;> simp
  | cons a as ih =>
    cases bs with
    | nil => simp
    | cons b bs => simp [beq_iff_erase_eq, ih]

theorem forall₂_beq_iff {as bs : List Ty} :
    List.Forall₂ (fun a b => a == b) as bs ↔ as.map erase = bs.map erase := by
  induction as generalizing bs with
  | nil => cases bs <;> simp
  | cons a as ih =>
    cases bs with
    | nil => simp
    | cons b bs =>
      rw [List.forall₂_cons, ih, beq_iff_erase_eq, List.map_cons, List.map_cons, List.cons.injEq]

/-- Types that are all equal to one type are equal to any type that equals it. -/
theorem all_beq_of_erase {tys tys' : List Ty} {ty ty' : Ty} (htys : tys'.map erase = tys.map erase)
    (hty : ty'.erase = ty.erase) (h : ∀ found ∈ tys, found == ty) :
    ∀ found ∈ tys', found == ty' := by
  intro found hfound
  have hmem : found.erase ∈ tys.map erase := htys ▸ List.mem_map_of_mem hfound
  obtain ⟨other, hother, heq⟩ := List.mem_map.mp hmem
  rw [beq_iff_erase_eq, ← heq, beq_iff_erase_eq.mp (h other hother), hty]

theorem isNumeric_congr {a b : Ty} (h : a.erase = b.erase) : a.isNumeric = b.isNumeric := by
  have herase : ∀ ty : Ty, ty.erase.isNumeric = ty.isNumeric := fun ty => by cases ty <;> rfl
  rw [← herase a, h, herase]

theorem isIntegral_congr {a b : Ty} (h : a.erase = b.erase) : a.isIntegral = b.isIntegral := by
  have herase : ∀ ty : Ty, ty.erase.isIntegral = ty.isIntegral := fun ty => by cases ty <;> rfl
  rw [← herase a, h, herase]

/-- A numeric type is a builtin type, so nothing else equals it. -/
theorem eq_of_isNumeric {a b : Ty} (h : a.erase = b.erase) (hb : b.isNumeric = true) : a = b := by
  cases b with
  | builtin => exact eq_builtin_of_erase h
  | _ => cases hb

end Ty

open Ty

theorem FuncSymbol.score_erase (g : FuncSymbol) (args : List Ty) :
    g.score (args.map erase) = g.score args := by
  have hfactor : ∀ (param : ParamType) (arg : Ty), param.factor arg.erase = param.factor arg := by
    intro param arg
    cases param with
    | template => rfl
    | concrete ty =>
      have herase : arg.erase.erase = arg.erase := erase_mapHandle _ arg
      have hbeq : (ty == arg.erase) = (ty == arg) := by
        rw [Bool.eq_iff_iff, beq_iff_erase_eq, beq_iff_erase_eq, herase]
      rw [ParamType.factor, ParamType.factor, hbeq]
  simp only [score, List.length_map, List.zip_map_right, List.foldl_map, Prod.map, id, hfactor]

theorem Scope.resolve?_congr (σ : Scope) (name : String) {args args' : List Ty}
    (h : args'.map erase = args.map erase) : σ.resolve? name args' = σ.resolve? name args := by
  have hmatch : List.Forall₂ (Matching id args args') (σ.overloads name) (σ.overloads name) := by
    refine List.forall₂_same.mpr fun o _ => ⟨rfl, ?_⟩
    rw [← o.symbol.score_erase args', h, o.symbol.score_erase]
  rw [Scope.resolve?_matching hmatch, Option.map_id, id]

theorem Ty.Applies.congr {f f' ret : Ty} {args args' : List Ty} (h : f.Applies args ret)
    (hf : f'.erase = f.erase) (hargs : args'.map erase = args.map erase) :
    ∃ ret', f'.Applies args' ret' ∧ ret'.erase = ret.erase := by
  cases h with
  | func hparams =>
    obtain ⟨params', ret', rfl, hparams', hret⟩ := eq_func_of_erase hf
    refine ⟨ret', .func (all_beq_iff.mpr ?_), hret⟩
    rw [hparams', all_beq_iff.mp hparams, hargs]
  | proc hparams =>
    obtain ⟨params', rfl, hparams'⟩ := eq_proc_of_erase hf
    refine ⟨.unit, .proc (all_beq_iff.mpr ?_), rfl⟩
    rw [hparams', all_beq_iff.mp hparams, hargs]

theorem UnaryOp.Takes.congr {op : UnaryOp} {from_ from' ty : Ty} (h : op.Takes from_ ty)
    (hfrom : from'.erase = from_.erase) : ∃ ty', op.Takes from' ty' ∧ ty'.erase = ty.erase := by
  cases h with
  | not =>
    rw [eq_builtin_of_erase hfrom]
    exact ⟨.bool, .not, rfl⟩
  | negate hnumeric => exact ⟨from', .negate (by rw [isNumeric_congr hfrom, hnumeric]), hfrom⟩

theorem BinaryOp.Takes.congr {op : BinaryOp} {left left' right right' ty : Ty}
    (h : op.Takes left right ty) (hleft : left'.erase = left.erase)
    (hright : right'.erase = right.erase) :
    ∃ ty', op.Takes left' right' ty' ∧ ty'.erase = ty.erase := by
  cases h with
  | logical hop =>
    rw [eq_builtin_of_erase hleft, eq_builtin_of_erase hright]
    exact ⟨.bool, .logical hop, rfl⟩
  | comparison hop hsame =>
    refine ⟨.bool, .comparison hop (beq_iff_erase_eq.mpr ?_), rfl⟩
    rw [hleft, beq_iff_erase_eq.mp hsame, hright]
  | range hsame =>
    refine ⟨.range left' right', .range (beq_iff_erase_eq.mpr ?_), ?_⟩
    · rw [hleft, beq_iff_erase_eq.mp hsame, hright]
    · rw [erase_range, erase_range, hleft, hright]
  | arithmetic hop hnumeric =>
    rw [eq_of_isNumeric hleft hnumeric, eq_of_isNumeric hright hnumeric]
    exact ⟨_, .arithmetic hop hnumeric, rfl⟩
  | concatenation =>
    rw [eq_builtin_of_erase hleft, eq_builtin_of_erase hright]
    exact ⟨.string, .concatenation, rfl⟩

/-- A position is looked at only if it is a literal, whatever type it has. -/
theorem Ty.Holds.congr {held held' position position' ty : Ty} {e e' : Expr}
    (h : held.Holds position e ty) (hheld : held'.erase = held.erase)
    (hposition : position'.erase = position.erase)
    (he : ∀ value slot loc, e = .literal value slot loc → ∃ slot', e' = .literal value slot' loc) :
    ∃ ty', held'.Holds position' e' ty' ∧ ty'.erase = ty.erase := by
  cases h with
  | array hint =>
    obtain ⟨elem', rfl, helem⟩ := eq_array_of_erase hheld
    exact ⟨elem', .array (by rw [isIntegral_congr hposition, hint]), helem⟩
  | string hint =>
    rw [eq_builtin_of_erase hheld]
    exact ⟨.char, .string (by rw [isIntegral_congr hposition, hint]), rfl⟩
  | dict hkey =>
    obtain ⟨key', value', rfl, hkey', hvalue⟩ := eq_dict_of_erase hheld
    refine ⟨value', .dict (beq_iff_erase_eq.mpr ?_), hvalue⟩
    rw [hkey', beq_iff_erase_eq.mp hkey, hposition]
  | @tuple _ _ _ _ _ _ n hn hty =>
    obtain ⟨elems', rfl, helems⟩ := eq_tuple_of_erase hheld
    obtain ⟨slot', rfl⟩ := he _ _ _ rfl
    have hat : (elems'[n]?).map erase = some ty.erase := by
      rw [← List.getElem?_map, helems, List.getElem?_map, hty]
      rfl
    obtain ⟨ty', hty', herase⟩ := Option.map_eq_some_iff.mp hat
    exact ⟨ty', .tuple hn hty', herase⟩

theorem Ty.Iterates.congr {ty ty' elem : Ty} (h : ty.Iterates elem) (hty : ty'.erase = ty.erase) :
    ∃ elem', ty'.Iterates elem' ∧ elem'.erase = elem.erase := by
  cases h with
  | array =>
    obtain ⟨elem', rfl, helem⟩ := eq_array_of_erase hty
    exact ⟨elem', .array, helem⟩
  | range =>
    obtain ⟨first', last', rfl, hfirst, _⟩ := eq_range_of_erase hty
    exact ⟨first', .range, hfirst⟩
  | dict =>
    obtain ⟨key', value', rfl, hkey, hvalue⟩ := eq_dict_of_erase hty
    refine ⟨.tuple [key', value'], .dict, ?_⟩
    simp only [erase_tuple, List.map_cons, List.map_nil, hkey, hvalue]

theorem Spreads.congr {values values' parts : List Ty} {n : Nat} (h : Spreads values n parts)
    (hvalues : values'.map erase = values.map erase) :
    ∃ parts', Spreads values' n parts' ∧ parts'.map erase = parts.map erase := by
  cases h with
  | each hn =>
    have hlen := congrArg List.length hvalues
    rw [List.length_map, List.length_map] at hlen
    exact ⟨values', .each (hlen.trans hn), hvalues⟩
  | tuple hn hone =>
    obtain ⟨value', rfl, hvalue⟩ :
        ∃ value', values' = [value'] ∧ value'.erase = (Ty.tuple parts).erase := by
      cases values' with
      | nil => cases hvalues
      | cons value' rest =>
        obtain ⟨hvalue, hrest⟩ := List.cons.inj hvalues
        rw [List.map_eq_nil_iff.mp hrest]
        exact ⟨value', rfl, hvalue⟩
    obtain ⟨elems', rfl, helems⟩ := eq_tuple_of_erase hvalue
    have hlen := congrArg List.length helems
    rw [List.length_map, List.length_map] at hlen
    exact ⟨elems', .tuple (hlen.trans hn) hone, helems⟩

theorem returnedType_congr {tys tys' : List Ty} (h : tys'.map erase = tys.map erase) :
    (returnedType tys').erase = (returnedType tys).erase := by
  have hone : ∀ tys : List Ty, (returnedType tys).erase = returnedType (tys.map erase) := by
    intro tys
    match tys with
    | [] => rfl
    | [_] => rfl
    | _ :: _ :: _ => exact erase_tuple
  rw [hone, h, hone]

end Semant
