import Semant.Proofs.Tree.Sites
import Semant.Proofs.Typing.Returns

/-! What the typing rules refuse with, and where. Where the parts of a node have types, a rule only
fails with a cause of its own, never with that of an empty slot, and at the place of the node or of
one of its parts. -/

namespace Semant

open Outcome

/-- The errors of `P` include every cause but that of an empty slot. -/
def Covers (P : Error → Prop) : Prop :=
  ∀ (cause : Cause) (loc : Location), cause.kind ≠ .unresolvedSlot → P (cause.error loc)

/-- As far as they are raised at one place. -/
def CoversAt (P : Error → Prop) (loc : Location) : Prop :=
  ∀ cause : Cause, cause.kind ≠ .unresolvedSlot → P (cause.error loc)

variable {P : Error → Prop} {α : Type}

theorem CoversAt.reject {loc : Location} (hP : CoversAt P loc) {cause : Cause}
    (h : (cause.kind == .unresolvedSlot) = false) :
    FailsWith P (reject loc cause : Except Error α) :=
  .error (hP cause (ne_of_beq_false h))

theorem Outcome.FailsWith.type_of_ty {e : Expr} {ty : Ty} (h : e.ty = .resolved ty) :
    FailsWith P e.type := by
  rw [Expr.type_eq_ok.mpr h]
  exact .ok ty

/-- Every node of the trees is a place that errors of `P` may be raised at. -/
abbrev Outline.CoverAll (P : Error → Prop) (os : List Outline) : Prop :=
  Outline.AllOf (fun n => CoversAt P n.loc) os

mutual

theorem TypeExpr.resolve_fails (σ : Scope) : ∀ t : TypeExpr,
    t.outline.All (fun n => CoversAt P n.loc) → FailsWith P (t.resolve σ)
  | .named name args loc, h => by
    obtain ⟨hnode, hargs⟩ := Outline.all_mk.mp h
    by_cases hb : ∀ b, args = [] → Builtin.ofName? name = some b → False
    · rw [TypeExpr.resolve.eq_2 _ _ _ _ hb]
      split
      · exact hnode.reject rfl
      · exact (TypeExpr.resolveAll_fails σ args hargs).bind fun _ => .ok _
    · simp only [not_forall, not_false_eq_true, exists_prop, and_true] at hb
      obtain ⟨b, rfl, hb⟩ := hb
      rw [TypeExpr.resolve.eq_1 _ _ _ b hb]
      exact .ok _
  | .array elem _, h => by
    simp only [TypeExpr.outline, Outline.all_mk, Outline.allOf_cons] at h
    exact (TypeExpr.resolve_fails σ elem h.2.1).bind fun _ => .ok _
  | .dict key value _, h => by
    simp only [TypeExpr.outline, Outline.all_mk, Outline.allOf_cons] at h
    exact (TypeExpr.resolve_fails σ key h.2.1).bind fun _ =>
      (TypeExpr.resolve_fails σ value h.2.2.1).bind fun _ => .ok _
  | .tuple elems _, h =>
    (TypeExpr.resolveAll_fails σ elems (Outline.all_mk.mp h).2).bind fun _ => .ok _
  | .func params none _, h => by
    simp only [TypeExpr.outline, Outline.all_mk, Outline.allOf_append] at h
    exact (TypeExpr.resolveAll_fails σ params h.2.1).bind fun _ => .ok _
  | .func params (some ret) _, h => by
    simp only [TypeExpr.outline, Outline.all_mk, Outline.allOf_append, TypeExpr.outlineOption,
      Outline.allOf_cons] at h
    exact (TypeExpr.resolveAll_fails σ params h.2.1).bind fun _ =>
      (TypeExpr.resolve_fails σ ret h.2.2.1).bind fun _ => .ok _
  | .maybe inner _, h => by
    simp only [TypeExpr.outline, Outline.all_mk, Outline.allOf_cons] at h
    exact (TypeExpr.resolve_fails σ inner h.2.1).bind fun _ => .ok _

theorem TypeExpr.resolveAll_fails (σ : Scope) : ∀ ts : List TypeExpr,
    Outline.CoverAll P (TypeExpr.outlines ts) → FailsWith P (TypeExpr.resolveAll σ ts)
  | [], _ => .ok _
  | t :: ts, h => by
    obtain ⟨ht, hts⟩ := Outline.allOf_cons.mp h
    exact (TypeExpr.resolve_fails σ t ht).bind fun _ =>
      (TypeExpr.resolveAll_fails σ ts hts).bind fun _ => .ok _

end

/-- A type that is written, if one is. -/
theorem TypeExpr.resolve_fails_of_some (σ : Scope) {written : Option TypeExpr} {t : TypeExpr}
    (h : Outline.CoverAll P (TypeExpr.outlineOption written)) (ht : written = some t) :
    FailsWith P (t.resolve σ) := by
  subst ht
  exact TypeExpr.resolve_fails σ t (Outline.allOf_cons.mp h).1

/-- What a rule may ask for the type of `e` and refuse it at its place. -/
structure Expr.Checked (P : Error → Prop) (e : Expr) : Prop where
  type : FailsWith P e.type
  place : CoversAt P e.loc

namespace Typing

theorem condition_fails (what : String) {e : Expr} (he : e.Checked P) :
    FailsWith P (condition what e) := by
  refine he.type.bind fun ty => ?_
  split
  · exact .ok _
  · exact he.place.reject rfl

section

variable {loc : Location} (hP : CoversAt P loc)

include hP

theorem array_fails (tys : List Ty) : FailsWith P (array tys loc) := by
  cases tys with
  | nil => exact hP.reject rfl
  | cons first rest =>
    simp only [array]
    cases rest.find? (· != first) with
    | none => exact .ok _
    | some other => exact hP.reject rfl

theorem dict_fails (tys : List (Ty × Ty)) : FailsWith P (dict tys loc) := by
  unfold dict
  split
  · exact hP.reject rfl
  · split
    · exact hP.reject rfl
    · exact .ok _

theorem call_fails (callee : Ty) (args : List Ty) : FailsWith P (call callee args loc) := by
  unfold call
  split
  · split
    · exact .ok _
    · exact hP.reject rfl
  · split
    · exact .ok _
    · exact hP.reject rfl
  · exact hP.reject rfl

theorem result_fails (symbol : FuncSymbol) (ret : Option Ty) :
    FailsWith P (result symbol ret loc) := by
  unfold result
  split
  · exact .ok _
  · exact .ok _
  · split
    · exact hP.reject rfl
    · exact hP.reject rfl

theorem index_fails (child position : Ty) {e : Expr} (he : CoversAt P e.loc) :
    FailsWith P (index child position e loc) := by
  unfold index
  dsimp only
  split
  · split
    · exact .ok _
    · exact hP.reject rfl
  · split
    · exact .ok _
    · exact hP.reject rfl
  · split
    · exact .ok _
    · exact hP.reject rfl
  · unfold element
    split
    · split
      · split
        · exact .ok _
        · exact he.reject rfl
      · exact he.reject rfl
    · exact he.reject rfl
  · exact hP.reject rfl

theorem binary_fails (op : BinaryOp) (lhs rhs : Ty) : FailsWith P (binary op lhs rhs loc) := by
  unfold binary
  split
  · exact hP.reject rfl
  · split
    · split
      · exact .ok _
      · exact hP.reject rfl
    · split
      · exact .ok _
      · split
        · exact .ok _
        · split
          · exact .ok _
          · exact hP.reject rfl

theorem ascription_fails (ty written : Ty) : FailsWith P (ascription ty written loc) := by
  unfold ascription
  split
  · exact .ok _
  · exact hP.reject rfl

theorem spread_fails (values : List Ty) (count : Nat) :
    FailsWith P (spread values count loc) := by
  unfold spread
  split
  · exact .ok _
  · dsimp only
    split
    · split
      · exact .ok _
      · exact hP.reject rfl
    · exact hP.reject rfl

theorem returned_fails (returns : Option Returns) (tys : List Ty) :
    FailsWith P (returned returns tys loc) := by
  cases returns with
  | none => exact hP.reject rfl
  | some returns =>
    rw [returned_some]
    split
    · exact hP.reject rfl
    · split
      · exact .ok _
      · split
        · exact .ok _
        · exact hP.reject rfl

theorem unary_fails (op : UnaryOp) {operand : Expr} (he : operand.Checked P) :
    FailsWith P (unary op operand loc) := by
  refine he.type.bind fun ty => ?_
  cases op with
  | not => exact (condition_fails _ he).bind fun _ => .ok _
  | negate =>
    dsimp only
    split
    · exact .ok _
    · exact hP.reject rfl

theorem choice_fails {cond yes no : Expr} (hcond : cond.Checked P) (hyes : FailsWith P yes.type)
    (hno : FailsWith P no.type) : FailsWith P (choice cond yes no loc) := by
  refine (condition_fails _ hcond).bind fun _ => hyes.bind fun _ => hno.bind fun _ => ?_
  split
  · exact .ok _
  · exact hP.reject rfl

end

theorem iterated_fails {range : Expr} (he : range.Checked P) : FailsWith P (iterated range) := by
  refine he.type.bind fun ty => ?_
  split
  · exact .ok _
  · exact .ok _
  · exact .ok _
  · exact he.place.reject rfl

theorem assigned_fails (env : Env) {target : Expr} (he : target.Checked P) (value : Ty) :
    FailsWith P (assigned env target value) := by
  have hassignable : FailsWith P (assignable env target) := by
    have hplace := he.place
    unfold assignable
    split
    · split
      · split
        · exact .ok _
        · exact hplace.reject rfl
      · exact .ok _
    · exact .ok _
  refine hassignable.bind fun _ => he.type.bind fun ty => ?_
  split
  · exact .ok _
  · exact he.place.reject rfl

theorem whenValue_fails (target : Ty) {e : Expr} (he : e.Checked P) :
    FailsWith P (whenValue target e) := by
  refine he.type.bind fun ty => ?_
  split
  · exact .ok _
  · exact he.place.reject rfl

section

variable {b : Binder} (hb : CoversAt P b.loc)
  (hwritten : Outline.CoverAll P (TypeExpr.outlineOption b.written))

include hb hwritten

theorem declared_fails (σ : Scope) (value : Option Ty) : FailsWith P (declared σ b value) := by
  unfold declared
  split
  · refine (TypeExpr.resolve_fails_of_some σ hwritten ‹_›).bind fun ty => ?_
    split
    · split
      · exact .ok _
      · exact hb.reject rfl
    · exact .ok _
  · exact .ok _
  · exact hb.reject rfl

theorem loopVariable_fails (σ : Scope) (elem : Ty) : FailsWith P (loopVariable σ b elem) := by
  unfold loopVariable
  split
  · exact .ok _
  · refine (TypeExpr.resolve_fails_of_some σ hwritten ‹_›).bind fun ty => ?_
    split
    · exact .ok _
    · exact hb.reject rfl

end

end Typing

end Semant
