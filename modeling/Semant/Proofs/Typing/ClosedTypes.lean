import Semant.Proofs.Typing.Judgment

/-! Classes of types that the typing rules do not lead out of: where the types of the parts are of
such a class, so is the type that a rule gives. -/

namespace Semant

/-- Tuples, dictionaries and arrays are in the class with their parts. Of a range the ends are
alike, and of a function only the result is ever taken. -/
structure Ty.Closed (Q : Ty → Prop) : Prop where
  builtin : ∀ {b : Builtin}, Q (.builtin b)
  tuple : ∀ {elems : List Ty}, Q (.tuple elems) ↔ ∀ elem ∈ elems, Q elem
  dict : ∀ {key value : Ty}, Q (.dict key value) ↔ Q key ∧ Q value
  array : ∀ {elem : Ty}, Q (.array elem) ↔ Q elem
  range : ∀ {first last : Ty}, Q first → Q last → first == last → Q (.range first last)
  first : ∀ {first last : Ty}, Q (.range first last) → Q first
  result : ∀ {params : List Ty} {ret : Ty}, Q (.func params ret) → Q ret

variable {Q : Ty → Prop}

theorem Ty.Closed.unit (hQ : Ty.Closed Q) : Q .unit :=
  hQ.tuple.mpr (List.forall_mem_nil _)

theorem Ty.Closed.trivial : Ty.Closed fun _ => True := by
  constructor <;> simp

theorem Ty.Applies.closed {f ret : Ty} {args : List Ty} (h : f.Applies args ret)
    (hQ : Ty.Closed Q) (hf : Q f) : Q ret := by
  cases h with
  | func _ => exact hQ.result hf
  | proc _ => exact hQ.unit

theorem UnaryOp.Takes.closed {op : UnaryOp} {from_ ty : Ty} (h : op.Takes from_ ty)
    (hQ : Ty.Closed Q) (hfrom : Q from_) : Q ty := by
  cases h with
  | not => exact hQ.builtin
  | negate _ => exact hfrom

theorem BinaryOp.Takes.closed {op : BinaryOp} {left right ty : Ty} (h : op.Takes left right ty)
    (hQ : Ty.Closed Q) (hleft : Q left) (hright : Q right) : Q ty := by
  cases h with
  | logical _ => exact hQ.builtin
  | comparison _ _ => exact hQ.builtin
  | range heq => exact hQ.range hleft hright heq
  | arithmetic _ _ => exact hleft
  | concatenation => exact hQ.builtin

theorem Ty.Holds.closed {held position ty : Ty} {e : Expr} (h : held.Holds position e ty)
    (hQ : Ty.Closed Q) (hheld : Q held) : Q ty := by
  cases h with
  | array _ => exact hQ.array.mp hheld
  | string _ => exact hQ.builtin
  | dict _ => exact (hQ.dict.mp hheld).2
  | tuple _ hty => exact hQ.tuple.mp hheld ty (List.mem_of_getElem? hty)

theorem Ty.Iterates.closed {ty elem : Ty} (h : ty.Iterates elem) (hQ : Ty.Closed Q) (hty : Q ty) :
    Q elem := by
  cases h with
  | array => exact hQ.array.mp hty
  | range => exact hQ.first hty
  | dict =>
    obtain ⟨hkey, hvalue⟩ := hQ.dict.mp hty
    exact hQ.tuple.mpr (List.forall_mem_cons.mpr ⟨hkey, List.forall_mem_singleton.mpr hvalue⟩)

theorem Spreads.closed {values parts : List Ty} {n : Nat} (h : Spreads values n parts)
    (hQ : Ty.Closed Q) (hvalues : ∀ ty ∈ values, Q ty) : ∀ ty ∈ parts, Q ty := by
  cases h with
  | each _ => exact hvalues
  | tuple _ _ => exact hQ.tuple.mp (List.forall_mem_singleton.mp hvalues)

theorem Ty.Closed.returnedType (hQ : Ty.Closed Q) {tys : List Ty} (h : ∀ ty ∈ tys, Q ty) :
    Q (returnedType tys) := by
  unfold Semant.returnedType
  split
  · exact List.forall_mem_singleton.mp h
  · exact hQ.tuple.mpr h

theorem Binder.Declares.closed {σ : Scope} {b : Binder} {value : Option Ty} {ty : Ty}
    (h : b.Declares σ value ty) (hwritten : ∀ t ty, TypeExpr.resolve σ t = .ok ty → Q ty)
    (hvalue : ∀ v ∈ value, Q v) : Q ty := by
  cases h with
  | written _ hty _ => exact hwritten _ ty hty
  | inferred _ => exact hvalue ty rfl

theorem Binder.Loops.closed {σ : Scope} {b : Binder} {elem ty : Ty} (h : b.Loops σ elem ty)
    (helem : Q elem) : Q ty := by
  cases h with
  | written _ _ _ => exact helem
  | inferred _ => exact helem

end Semant
