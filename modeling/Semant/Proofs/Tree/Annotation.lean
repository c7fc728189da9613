import Mathlib.Data.List.Forall2
import Semant.Proofs.TypeEquality
import Semant.Proofs.Tree.Sites

/-! Trees that carry types in their slots: the same trees without them, and trees of one shape of
which one has no types but those of the other. -/

namespace Semant

mutual

/-- The expression with all of its slots emptied. -/
def Expr.blank : Expr → Expr
  | .literal value _ loc => .literal value .unresolved loc
  | .array elems _ loc => .array (Expr.blankAll elems) .unresolved loc
  | .tuple elems _ loc => .tuple (Expr.blankAll elems) .unresolved loc
  | .dict entries _ loc => .dict (Expr.blankEntries entries) .unresolved loc
  | .var name _ loc => .var name .unresolved loc
  | .call child args _ _ loc => .call child.blank (Expr.blankAll args) .unresolved .unresolved loc
  | .construct written args _ loc => .construct written (Expr.blankAll args) .unresolved loc
  | .index child position _ loc => .index child.blank position.blank .unresolved loc
  | .member child name _ _ loc => .member child.blank name .unresolved .unresolved loc
  | .unary op operand _ loc => .unary op operand.blank .unresolved loc
  | .cast child written _ loc => .cast child.blank written .unresolved loc
  | .binary lhs op rhs _ loc => .binary lhs.blank op rhs.blank .unresolved loc
  | .choice cond yes no _ loc => .choice cond.blank yes.blank no.blank .unresolved loc
  | .typed child written _ loc => .typed child.blank written .unresolved loc

def Expr.blankAll : List Expr → List Expr
  | [] => []
  | e :: es => e.blank :: Expr.blankAll es

def Expr.blankEntries : List (Expr × Expr) → List (Expr × Expr)
  | [] => []
  | (key, value) :: entries => (key.blank, value.blank) :: Expr.blankEntries entries

end

def Binder.blank (b : Binder) : Binder :=
  { b with ty := .unresolved }

def Declaration.blank (d : Declaration) : Declaration :=
  { d with binders := d.binders.map Binder.blank, values := d.values.map Expr.blankAll }

mutual

def Stmt.blank : Stmt → Stmt
  | .declare d => .declare d.blank
  | .assign targets values loc => .assign (Expr.blankAll targets) (Expr.blankAll values) loc
  | .branch kind cond body elseIfs otherwise loc =>
    .branch kind cond.blank body.blank (Stmt.blankElseIfs elseIfs)
      (Stmt.blankOtherwise otherwise) loc
  | .ret values loc => .ret (Expr.blankAll values) loc
  | .case whens otherwise loc =>
    .case (Stmt.blankWhens whens) (Stmt.blankOtherwise otherwise) loc
  | .switch target whens otherwise loc =>
    .switch target.blank (Stmt.blankWhens whens) (Stmt.blankOtherwise otherwise) loc
  | .forIn vars range body loc => .forIn (vars.map Binder.blank) range.blank body.blank loc
  | .whileDo cond body loc => .whileDo cond.blank body.blank loc
  | .trailingIf body kind cond loc => .trailingIf body.blank kind cond.blank loc
  | .letIn inits body loc => .letIn (inits.map Declaration.blank) body.blank loc
  | .expr e => .expr e.blank
  | .block b => .block b.blank

def Block.blank : Block → Block
  | .mk stmts loc => .mk (Stmt.blankAll stmts) loc

def Stmt.blankAll : List Stmt → List Stmt
  | [] => []
  | s :: ss => s.blank :: Stmt.blankAll ss

def Stmt.blankElseIfs : List (Clause Expr Block) → List (Clause Expr Block)
  | [] => []
  | ⟨cond, body⟩ :: rest => ⟨cond.blank, body.blank⟩ :: Stmt.blankElseIfs rest

def Stmt.blankWhens : List (Clause (List Expr) Block) → List (Clause (List Expr) Block)
  | [] => []
  | ⟨conds, body⟩ :: rest => ⟨Expr.blankAll conds, body.blank⟩ :: Stmt.blankWhens rest

def Stmt.blankOtherwise : Option Block → Option Block
  | none => none
  | some body => some body.blank

end

/-- The function with all slots of its body and of its `ensure` block emptied. -/
def FuncDef.blank (f : FuncDef) : FuncDef :=
  { f with body := f.body.blank, ensure := Stmt.blankOtherwise f.ensure }

theorem Expr.blankAll_eq_map (es : List Expr) : Expr.blankAll es = es.map Expr.blank := by
  induction es with
  | nil => rfl
  | cons e es ih => rw [Expr.blankAll, List.map_cons, ih]

/-- The node `n` is the node `m`, with an equal type if it has one. -/
structure Node.Follows (n m : Node) : Prop where
  kind : n.kindName = m.kindName
  loc : n.loc = m.loc
  type : ∀ ty, n.typeSlot? = some (.resolved ty) →
    ∃ ty', m.typeSlot? = some (.resolved ty') ∧ ty == ty'

instance : Std.Refl Node.Follows where
  refl _ := ⟨rfl, rfl, fun ty hty => ⟨ty, hty, BEq.rfl⟩⟩

theorem Node.Follows.of_slots {n m : Node} {ty ty' : Ty} (hkind : n.kindName = m.kindName)
    (hloc : n.loc = m.loc) (hn : n.typeSlot? = some (.resolved ty))
    (hm : m.typeSlot? = some (.resolved ty')) (h : ty.erase = ty'.erase) : n.Follows m := by
  refine ⟨hkind, hloc, fun found hfound => ⟨ty', hm, ?_⟩⟩
  rw [hn] at hfound
  cases hfound
  exact Ty.beq_iff_erase_eq.mpr h

theorem Node.Follows.of_unset {n m : Node} (hkind : n.kindName = m.kindName) (hloc : n.loc = m.loc)
    (hn : ∀ ty, n.typeSlot? ≠ some (.resolved ty)) : n.Follows m :=
  ⟨hkind, hloc, fun ty hty => absurd hty (hn ty)⟩

namespace Outline

/-- The trees have one shape, and nodes at one place are related. -/
def Pairs (R : Node → Node → Prop) (o p : Outline) : Prop :=
  List.Forall₂ R o.nodes p.nodes

def PairsAll (R : Node → Node → Prop) (os ps : List Outline) : Prop :=
  List.Forall₂ R (nodesOf os) (nodesOf ps)

variable {R : Node → Node → Prop}

theorem Pairs.mk {n m : Node} {os ps : List Outline} (h : R n m) (hparts : PairsAll R os ps) :
    (mk n os).Pairs R (mk m ps) :=
  .cons h hparts

theorem Pairs.refl [Std.Refl R] (o : Outline) : o.Pairs R o :=
  List.forall₂_same.mpr fun n _ => Std.Refl.refl n

namespace PairsAll

theorem nil : PairsAll R [] [] :=
  List.Forall₂.nil

theorem cons {o p : Outline} {os ps : List Outline} (h : o.Pairs R p) (hrest : PairsAll R os ps) :
    PairsAll R (o :: os) (p :: ps) :=
  List.rel_append h hrest

theorem singleton {o p : Outline} (h : o.Pairs R p) : PairsAll R [o] [p] :=
  .cons h .nil

theorem refl [Std.Refl R] (os : List Outline) : PairsAll R os os :=
  List.forall₂_same.mpr fun n _ => Std.Refl.refl n

theorem append {os ps os' ps' : List Outline} (h : PairsAll R os ps) (h' : PairsAll R os' ps') :
    PairsAll R (os ++ os') (ps ++ ps') := by
  rw [PairsAll, nodesOf_append, nodesOf_append]
  exact List.rel_append h h'

end PairsAll

/-- Each node of `o` follows the one of `p`. -/
abbrev Follows (o p : Outline) : Prop :=
  o.Pairs Node.Follows p

abbrev FollowAll (os ps : List Outline) : Prop :=
  PairsAll Node.Follows os ps

end Outline

end Semant
