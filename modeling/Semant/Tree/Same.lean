import Semant.Tree.Program

/-! Equality of trees. Places and slots take part, types compare without their class handles, and
floating point literals compare as numbers, so a tree with a NaN literal differs from itself. -/

namespace Semant

mutual

def Expr.same : Expr → Expr → Bool
  | .literal a t l, .literal b u m => a.same b && t == u && l == m
  | .array as t l, .array bs u m => Expr.sameAll as bs && t == u && l == m
  | .tuple as t l, .tuple bs u m => Expr.sameAll as bs && t == u && l == m
  | .dict as t l, .dict bs u m => Expr.sameEntries as bs && t == u && l == m
  | .var a t l, .var b u m => a == b && t == u && l == m
  | .call a as i t l, .call b bs j u m =>
    a.same b && Expr.sameAll as bs && i == j && t == u && l == m
  | .construct w as t l, .construct x bs u m => w == x && Expr.sameAll as bs && t == u && l == m
  | .index a c t l, .index b d u m => a.same b && c.same d && t == u && l == m
  | .member a n i t l, .member b o j u m => a.same b && n == o && i == j && t == u && l == m
  | .unary o a t l, .unary p b u m => o == p && a.same b && t == u && l == m
  | .cast a w t l, .cast b x u m => a.same b && w == x && t == u && l == m
  | .binary a o c t l, .binary b p d u m => a.same b && o == p && c.same d && t == u && l == m
  | .choice a c e t l, .choice b d f u m => a.same b && c.same d && e.same f && t == u && l == m
  | .typed a w t l, .typed b x u m => a.same b && w == x && t == u && l == m
  | _, _ => false

def Expr.sameAll : List Expr → List Expr → Bool
  | [], [] => true
  | a :: as, b :: bs => a.same b && Expr.sameAll as bs
  | _, _ => false

def Expr.sameEntries : List (Expr × Expr) → List (Expr × Expr) → Bool
  | [], [] => true
  | (a, c) :: as, (b, d) :: bs => a.same b && c.same d && Expr.sameEntries as bs
  | _, _ => false

end

instance : BEq Expr := ⟨Expr.same⟩

instance : BEq Binder where
  beq a b := a.isVar == b.isVar && a.name == b.name && a.written == b.written && a.ty == b.ty &&
    a.loc == b.loc

instance : BEq Declaration where
  beq a b := a.binders == b.binders && a.values == b.values && a.loc == b.loc

mutual

def Stmt.same : Stmt → Stmt → Bool
  | .declare a, .declare b => a == b
  | .assign as cs l, .assign bs ds m => as == bs && cs == ds && l == m
  | .branch k c b es o l, .branch k' c' b' es' o' l' =>
    k == k' && c == c' && b.same b' && Stmt.sameElseIfs es es' && Stmt.sameOtherwise o o' && l == l'
  | .ret as l, .ret bs m => as == bs && l == m
  | .case ws o l, .case ws' o' l' => Stmt.sameWhens ws ws' && Stmt.sameOtherwise o o' && l == l'
  | .switch t ws o l, .switch t' ws' o' l' =>
    t == t' && Stmt.sameWhens ws ws' && Stmt.sameOtherwise o o' && l == l'
  | .forIn vs r b l, .forIn vs' r' b' l' => vs == vs' && r == r' && b.same b' && l == l'
  | .whileDo c b l, .whileDo c' b' l' => c == c' && b.same b' && l == l'
  | .trailingIf s k c l, .trailingIf s' k' c' l' => s.same s' && k == k' && c == c' && l == l'
  | .letIn ds s l, .letIn ds' s' l' => ds == ds' && s.same s' && l == l'
  | .expr a, .expr b => a == b
  | .block a, .block b => a.same b
  | _, _ => false

def Block.same : Block → Block → Bool
  | .mk as l, .mk bs m => Stmt.sameAll as bs && l == m

def Stmt.sameAll : List Stmt → List Stmt → Bool
  | [], [] => true
  | a :: as, b :: bs => a.same b && Stmt.sameAll as bs
  | _, _ => false

def Stmt.sameElseIfs : List (Clause Expr Block) → List (Clause Expr Block) → Bool
  | [], [] => true
  | ⟨a, c⟩ :: as, ⟨b, d⟩ :: bs => a == b && c.same d && Stmt.sameElseIfs as bs
  | _, _ => false

def Stmt.sameWhens : List (Clause (List Expr) Block) → List (Clause (List Expr) Block) → Bool
  | [], [] => true
  | ⟨a, c⟩ :: as, ⟨b, d⟩ :: bs => a == b && c.same d && Stmt.sameWhens as bs
  | _, _ => false

def Stmt.sameOtherwise : Option Block → Option Block → Bool
  | none, none => true
  | some a, some b => a.same b
  | _, _ => false

end

instance : BEq Stmt := ⟨Stmt.same⟩

instance : BEq Block := ⟨Block.same⟩

instance : BEq FuncDef where
  beq a b := a.kind == b.kind && a.name == b.name && a.params == b.params &&
    a.written == b.written && a.body == b.body && a.ensure == b.ensure && a.ret == b.ret &&
    a.loc == b.loc

instance : BEq Definition where
  beq
    | .classDef a, .classDef b => a == b
    | .funcDef a, .funcDef b => a == b
    | _, _ => false

instance : BEq Program where
  beq a b := a.definitions == b.definitions && a.loc == b.loc

end Semant
