import Semant.Proofs.Tree.Sites
import Semant.Proofs.Typing.Soundness.Expr

/-! The return statements of a tree, at any depth. A derivation for a block lists the types of their
values in the order in which a walk meets the statements. -/

namespace Semant

/-- The values of a return statement. -/
@[simp]
def Node.returned? : Node → Option (List Expr)
  | stmt (.ret values _) => some values
  | _ => none

def Outline.returned (o : Outline) : List (List Expr) :=
  o.nodes.filterMap Node.returned?

def Outline.returnedOf (os : List Outline) : List (List Expr) :=
  (nodesOf os).filterMap Node.returned?

/-- The values of all return statements of a block. -/
def Block.returned (b : Block) : List (List Expr) :=
  (Node.block b).preorder.filterMap Node.returned?

theorem Block.returned_eq (b : Block) : b.returned = b.outline.returned := by
  rw [Block.returned, Node.preorder_eq]
  rfl

namespace Outline

@[simp]
theorem returned_mk {node : Node} {children : List Outline} :
    (mk node children).returned = node.returned?.toList ++ returnedOf children := by
  rw [returned, nodes, List.filterMap_cons]
  cases node.returned? <;> rfl

@[simp]
theorem returnedOf_nil : returnedOf [] = [] := rfl

@[simp]
theorem returnedOf_cons {o : Outline} {os : List Outline} :
    returnedOf (o :: os) = o.returned ++ returnedOf os := by
  rw [returnedOf, nodesOf, List.filterMap_append]
  rfl

@[simp]
theorem returnedOf_append {os os' : List Outline} :
    returnedOf (os ++ os') = returnedOf os ++ returnedOf os' := by
  rw [returnedOf, nodesOf_append, List.filterMap_append]
  rfl

theorem returnedOf_eq_nil {os : List Outline} (h : ∀ o ∈ os, o.returned = []) :
    returnedOf os = [] := by
  induction os with
  | nil => rfl
  | cons o os ih =>
    obtain ⟨ho, hos⟩ := List.forall_mem_cons.mp h
    rw [returnedOf_cons, ho, ih hos]
    rfl

end Outline

open Outline

@[simp]
theorem TypeExpr.returned_outline (t : TypeExpr) : t.outline.returned = [] := by
  refine List.filterMap_eq_nil_iff.mpr fun node hnode => ?_
  obtain ⟨t, rfl⟩ := (all_iff_nodes _).mp t.all_type node hnode
  rfl

@[simp]
theorem TypeExpr.returnedOf_option (t : Option TypeExpr) :
    returnedOf (TypeExpr.outlineOption t) = [] := by
  cases t <;> simp [TypeExpr.outlineOption]

mutual

@[simp]
theorem Expr.returned_outline : ∀ e : Expr, e.outline.returned = []
  | .literal .. | .var .. => rfl
  | .array elems .. => by simp [Expr.outline, Expr.returnedOf_outlines elems]
  | .tuple elems .. => by simp [Expr.outline, Expr.returnedOf_outlines elems]
  | .dict entries .. => by simp [Expr.outline, Expr.returnedOf_entries entries]
  | .call child args .. => by
    simp [Expr.outline, Expr.returned_outline child, Expr.returnedOf_outlines args]
  | .construct _ args .. => by simp [Expr.outline, Expr.returnedOf_outlines args]
  | .index child position .. => by
    simp [Expr.outline, Expr.returned_outline child, Expr.returned_outline position]
  | .member child .. => by simp [Expr.outline, Expr.returned_outline child]
  | .unary _ operand .. => by simp [Expr.outline, Expr.returned_outline operand]
  | .cast child .. => by simp [Expr.outline, Expr.returned_outline child]
  | .binary lhs _ rhs .. => by
    simp [Expr.outline, Expr.returned_outline lhs, Expr.returned_outline rhs]
  | .choice cond yes no .. => by
    simp [Expr.outline, Expr.returned_outline cond, Expr.returned_outline yes,
      Expr.returned_outline no]
  | .typed child .. => by simp [Expr.outline, Expr.returned_outline child]

@[simp]
theorem Expr.returnedOf_outlines : ∀ es : List Expr, returnedOf (Expr.outlines es) = []
  | [] => rfl
  | e :: es => by
    rw [Expr.outlines, returnedOf_cons, Expr.returned_outline e, Expr.returnedOf_outlines es]
    rfl

theorem Expr.returnedOf_entries : ∀ es : List (Expr × Expr),
    returnedOf (Expr.outlineEntries es) = []
  | [] => rfl
  | (key, value) :: es => by
    rw [Expr.outlineEntries, returnedOf_cons, returnedOf_cons, Expr.returned_outline key,
      Expr.returned_outline value, Expr.returnedOf_entries es]
    rfl

end

@[simp]
theorem Binder.returnedOf_params (bs : List Binder) :
    returnedOf (bs.map Binder.paramOutline) = [] :=
  returnedOf_eq_nil (List.forall_mem_map.mpr fun b _ => TypeExpr.returnedOf_option b.written)

@[simp]
theorem Binder.returnedOf_decls (bs : List Binder) :
    returnedOf (bs.map Binder.declOutline) = [] :=
  returnedOf_eq_nil (List.forall_mem_map.mpr fun b _ => TypeExpr.returnedOf_option b.written)

@[simp]
theorem Declaration.returned_outline (d : Declaration) : d.outline.returned = [] := by
  rw [Declaration.outline, returned_mk, returnedOf_append, Binder.returnedOf_decls,
    Expr.returnedOf_outlines]
  rfl

@[simp]
theorem Declaration.returnedOf_outlines (ds : List Declaration) :
    returnedOf (ds.map Declaration.outline) = [] :=
  returnedOf_eq_nil (List.forall_mem_map.mpr fun d _ => d.returned_outline)

/-- Values of return statements and their types. -/
abbrev TypedReturns : List (List Expr) → List (List Ty) → Prop :=
  List.Forall₂ fun values tys => values.map Expr.ty = tys.map .resolved

variable {σ : Scope}

mutual

/-- The order of the types in a derivation is that of a walk. -/
theorem Stmt.Resolves.returned : ∀ {st st' : Stmt} {Γ Γ' : Context} {rets : List (List Ty)},
    Stmt.Resolves σ Γ st st' Γ' rets → TypedReturns st'.outline.returned rets
  | .declare _, _, _, _, _, h => by
    cases h with
    | @declare _ _ _ d' _ =>
      rw [Stmt.outline, d'.returned_outline]
      exact .nil
  | .assign .., _, _, _, _, h => by
    cases h
    simp [Stmt.outline]
  | .branch _ _ body elseIfs otherwise _, _, _, _, _, h => by
    cases h with
    | branch _ hb he ho =>
      have hbody := Block.Resolves.returned hb
      have helseIfs := Stmt.ResolvesElseIfs.returned he
      have hotherwise := Stmt.ResolvesOtherwise.returned ho
      simpa [Stmt.outline] using
        List.rel_append hbody (List.rel_append helseIfs hotherwise)
  | .ret .., _, _, _, _, h => by
    cases h with
    | ret hvalues =>
      simpa [Stmt.outline] using hvalues.map_ty
  | .case whens otherwise _, _, _, _, _, h => by
    cases h with
    | case hw ho =>
      have hwhens := Stmt.ResolvesWhens.returned hw
      have hotherwise := Stmt.ResolvesOtherwise.returned ho
      simpa [Stmt.outline] using List.rel_append hwhens hotherwise
  | .switch _ whens otherwise _, _, _, _, _, h => by
    cases h with
    | switch _ hw ho =>
      have hwhens := Stmt.ResolvesWhens.returned hw
      have hotherwise := Stmt.ResolvesOtherwise.returned ho
      simpa [Stmt.outline] using List.rel_append hwhens hotherwise
  | .forIn _ _ body _, _, _, _, _, h => by
    cases h with
    | forIn _ _ _ _ hb =>
      simpa [Stmt.outline] using Block.Resolves.returned hb
  | .whileDo _ body _, _, _, _, _, h => by
    cases h with
    | whileDo _ hb => simpa [Stmt.outline] using Block.Resolves.returned hb
  | .trailingIf body _ _ _, _, _, _, _, h => by
    cases h with
    | trailingIf hb _ => simpa [Stmt.outline] using Stmt.Resolves.returned hb
  | .letIn _ body _, _, _, _, _, h => by
    cases h with
    | letIn _ hb => simpa [Stmt.outline] using Stmt.Resolves.returned hb
  | .expr _, _, _, _, _, h => by
    cases h with
    | @expr _ _ e' =>
      rw [Stmt.outline, e'.returned_outline]
      exact .nil
  | .block b, _, _, _, _, h => by
    cases h with
    | block hb => exact Block.Resolves.returned hb
termination_by structural st => st

theorem Block.Resolves.returned : ∀ {b b' : Block} {Γ : Context} {rets : List (List Ty)},
    Block.Resolves σ Γ b b' rets → TypedReturns b'.outline.returned rets
  | .mk stmts _, _, _, _, h => by
    cases h with
    | mk hstmts => simpa [Block.outline] using Stmt.ResolvesAll.returned hstmts
termination_by structural b => b

theorem Stmt.ResolvesAll.returned : ∀ {ss ss' : List Stmt} {Γ : Context} {rets : List (List Ty)},
    Stmt.ResolvesAll σ Γ ss ss' rets → TypedReturns (returnedOf (Stmt.outlines ss')) rets
  | [], _, _, _, h => by
    cases h
    exact .nil
  | _ :: _, _, _, _, h => by
    cases h with
    | cons hs hss =>
      rw [Stmt.outlines, returnedOf_cons]
      exact List.rel_append (Stmt.Resolves.returned hs) (Stmt.ResolvesAll.returned hss)
termination_by structural ss => ss

theorem Stmt.ResolvesElseIfs.returned : ∀ {clauses clauses' : List (Clause Expr Block)}
    {Γ : Context} {rets : List (List Ty)}, Stmt.ResolvesElseIfs σ Γ clauses clauses' rets →
      TypedReturns (returnedOf (Stmt.outlineElseIfs clauses')) rets
  | [], _, _, _, h => by
    cases h
    exact .nil
  | ⟨_, _⟩ :: _, _, _, _, h => by
    cases h with
    | cons _ hb hs =>
      simpa [Stmt.outlineElseIfs] using
        List.rel_append (Block.Resolves.returned hb) (Stmt.ResolvesElseIfs.returned hs)
termination_by structural clauses => clauses

theorem Stmt.ResolvesWhens.returned : ∀ {clauses clauses' : List (Clause (List Expr) Block)}
    {Γ : Context} {ty : Ty} {rets : List (List Ty)},
    Stmt.ResolvesWhens σ Γ ty clauses clauses' rets →
      TypedReturns (returnedOf (Stmt.outlineWhens clauses')) rets
  | [], _, _, _, _, h => by
    cases h
    exact .nil
  | ⟨_, _⟩ :: _, _, _, _, _, h => by
    cases h with
    | cons _ _ hb hs =>
      simpa [Stmt.outlineWhens] using
        List.rel_append (Block.Resolves.returned hb) (Stmt.ResolvesWhens.returned hs)
termination_by structural clauses => clauses

theorem Stmt.ResolvesOtherwise.returned : ∀ {body body' : Option Block} {Γ : Context}
    {rets : List (List Ty)}, Stmt.ResolvesOtherwise σ Γ body body' rets →
      TypedReturns (returnedOf (Stmt.outlineOtherwise body')) rets
  | none, _, _, _, h => by
    cases h
    exact .nil
  | some b, _, _, _, h => by
    cases h with
    | some hb => simpa [Stmt.outlineOtherwise] using Block.Resolves.returned hb
termination_by structural body => body

end

theorem Stmt.ResolvesOtherwise.returned_eq_nil {Γ : Context} {body body' : Option Block}
    (h : Stmt.ResolvesOtherwise σ Γ body body' []) : ∀ block ∈ body', block.returned = [] := by
  cases h with
  | none =>
    intro block hblock
    cases hblock
  | some hb =>
    intro block hblock
    cases hblock
    rw [Block.returned_eq]
    exact List.forall₂_nil_right_iff.mp hb.returned

end Semant
