import Semant.Text.Joined

/-! Semantic types: the builtin types, classes with type arguments, and the types built
from others. A class type may hold a handle of its declaration, which plays no part when
types are compared. -/

namespace Semant

inductive Builtin where
  | int | uint | float | char | bool | string | symbol
  deriving DecidableEq

namespace Builtin

def all : List Builtin :=
  [int, uint, float, char, bool, string, symbol]

def name : Builtin → String
  | int => "int"
  | uint => "uint"
  | float => "float"
  | char => "char"
  | bool => "bool"
  | string => "string"
  | symbol => "symbol"

def ofName? (name : String) : Option Builtin :=
  all.find? (·.name == name)

end Builtin

/-- Position of a class among the classes of a scope. -/
abbrev ClassId := Nat

inductive Ty where
  | builtin (b : Builtin)
  | object (name : String) (args : List Ty) (decl : Option ClassId)
  | tuple (elems : List Ty)
  | func (params : List Ty) (ret : Ty)
  | proc (params : List Ty)
  | dict (key value : Ty)
  | array (elem : Ty)
  | range (first last : Ty)
  | maybe (inner : Ty)

namespace Ty

abbrev bool : Ty := builtin .bool
abbrev char : Ty := builtin .char
abbrev string : Ty := builtin .string

/-- The type of statements and procedures: the tuple without elements. -/
abbrev unit : Ty := tuple []

def isUnit : Ty → Bool
  | tuple [] => true
  | _ => false

def builtin? : Ty → Option Builtin
  | builtin b => some b
  | _ => none

def isNumeric : Ty → Bool
  | builtin .int | builtin .uint | builtin .float => true
  | _ => false

def isIntegral : Ty → Bool
  | builtin .int | builtin .uint => true
  | _ => false

mutual

/-- Equality of types, whatever handles their classes hold. -/
def same : Ty → Ty → Bool
  | builtin a, builtin b => a == b
  | object a as _, object b bs _ => a == b && sameAll as bs
  | tuple as, tuple bs => sameAll as bs
  | func as a, func bs b => sameAll as bs && same a b
  | proc as, proc bs => sameAll as bs
  | dict a c, dict b d => same a b && same c d
  | array a, array b => same a b
  | range a c, range b d => same a b && same c d
  | maybe a, maybe b => same a b
  | _, _ => false

def sameAll : List Ty → List Ty → Bool
  | [], [] => true
  | a :: as, b :: bs => same a b && sameAll as bs
  | _, _ => false

end

instance : BEq Ty := ⟨same⟩

mutual

/-- The text of a type. Parts of a list are set apart by a bare comma. -/
def text : Ty → String
  | builtin b => b.name
  | object name [] _ => name
  | object name (arg :: args) _ => name ++ "(" ++ Text.joined "," (texts (arg :: args)) ++ ")"
  | tuple elems => "(" ++ Text.joined "," (texts elems) ++ ")"
  | func params ret => "func (" ++ Text.joined "," (texts params) ++ ") : " ++ text ret
  | proc params => "proc (" ++ Text.joined "," (texts params) ++ ")"
  | dict key value => "\x7b" ++ text key ++ " => " ++ text value ++ "\x7d"
  | array elem => "\x7b" ++ text elem ++ "\x7d"
  | range first last => text first ++ ".." ++ text last
  | maybe inner => text inner ++ "?"

def texts : List Ty → List String
  | [] => []
  | ty :: tys => text ty :: texts tys

end

/-- A class type with other type arguments. Other types have none to replace. -/
def instantiate (args : List Ty) : Ty → Ty
  | object name _ decl => object name args decl
  | ty => ty

end Ty

end Semant
