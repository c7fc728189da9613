import Semant.Location

/-! Types as they are written in a program. -/

namespace Semant

inductive TypeExpr where
  | named (name : String) (args : List TypeExpr) (loc : Location)
  | array (elem : TypeExpr) (loc : Location)
  | dict (key value : TypeExpr) (loc : Location)
  | tuple (elems : List TypeExpr) (loc : Location)
  | func (params : List TypeExpr) (ret : Option TypeExpr) (loc : Location)
  | maybe (inner : TypeExpr) (loc : Location)

namespace TypeExpr

def loc : TypeExpr → Location
  | named _ _ loc | array _ loc | dict _ _ loc | tuple _ loc | func _ _ loc | maybe _ loc => loc

mutual

/-- Equality of written types, places included. -/
def same : TypeExpr → TypeExpr → Bool
  | named a as l, named b bs m => a == b && sameAll as bs && l == m
  | array a l, array b m => same a b && l == m
  | dict a c l, dict b d m => same a b && same c d && l == m
  | tuple as l, tuple bs m => sameAll as bs && l == m
  | func as a l, func bs b m => sameAll as bs && sameOption a b && l == m
  | maybe a l, maybe b m => same a b && l == m
  | _, _ => false

def sameAll : List TypeExpr → List TypeExpr → Bool
  | [], [] => true
  | a :: as, b :: bs => same a b && sameAll as bs
  | _, _ => false

def sameOption : Option TypeExpr → Option TypeExpr → Bool
  | none, none => true
  | some a, some b => same a b
  | _, _ => false

end

instance : BEq TypeExpr := ⟨same⟩

end TypeExpr

end Semant
