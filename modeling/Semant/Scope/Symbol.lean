import Semant.Tree.Program

/-! Symbols of classes and functions, and how well a function accepts the arguments of a call. -/

namespace Semant

structure ClassSymbol where
  name : String
  loc : Location
  deriving DecidableEq

/-- A template parameter takes any argument. -/
inductive ParamType where
  | template
  | concrete (ty : Ty)

namespace ParamType

def isTemplate : ParamType → Bool
  | template => true
  | concrete _ => false

def ty? : ParamType → Option Ty
  | template => none
  | concrete ty => some ty

def text : ParamType → String
  | template => "T"
  | concrete ty => ty.text

/-- The factor of one argument in a score: an exact match counts twice, a mismatch rules out. -/
def factor (arg : Ty) : ParamType → Nat
  | template => 1
  | concrete ty => if ty == arg then 2 else 0

instance : BEq ParamType where
  beq a b := a.ty? == b.ty?

end ParamType

/-- Position of a definition among the functions of a program. -/
abbrev DefId := Nat

/-- A function as calls see it. The return type of a procedure is never set. -/
structure FuncSymbol where
  kind : FuncKind
  name : String
  params : List ParamType
  ret : Slot Ty
  definition : DefId
  loc : Location

/-- The largest score; larger products stay at it. -/
def maxScore : Nat :=
  Nat.pow 2 64 - 1

namespace FuncSymbol

def isTemplate (f : FuncSymbol) : Bool :=
  f.params.any ParamType.isTemplate

/-- Functions of one name with the same parameters cannot be told apart at a call. -/
def sameSignature (f g : FuncSymbol) : Bool :=
  f.name == g.name && f.params == g.params

/-- The product of the factors of all arguments, zero for a wrong number of them. -/
def score (f : FuncSymbol) (args : List Ty) : Nat :=
  if f.params.length = args.length then
    (f.params.zip args).foldl (fun score (param, arg) => min (score * param.factor arg) maxScore) 1
  else 0

def text (f : FuncSymbol) : String :=
  let signature := f.kind.keyword ++ " " ++ f.name ++ "(" ++
    Text.joined ", " (f.params.map ParamType.text) ++ ")"
  match f.ret.get? with
  | some ty => signature ++ ": " ++ ty.text
  | none => signature

end FuncSymbol

/-- A call as messages show it. -/
def callText (name : String) (args : List Ty) : String :=
  name ++ "(" ++ Text.joined ", " (args.map Ty.text) ++ ")"

end Semant
