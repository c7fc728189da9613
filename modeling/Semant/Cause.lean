import Semant.Scope.Symbol

/-! Why a program is refused. Each cause has its kind and its wording here. -/

namespace Semant

inductive Cause where
  | unknownType (name : String)
  | sameFunction (symbol earlier : FuncSymbol)
  | sameClass (name : String) (earlier : Location)
  | noOverload (name : String) (args : List Ty) (candidates : List FuncSymbol)
  | undeclared (name : String)
  | notVar (name : String)
  | recursive (name : String)
  | templateResult (symbol : FuncSymbol)
  | unknownResult (symbol : FuncSymbol)
  | emptyArray
  | emptyDict
  | untypedVariable (name : String)
  | arrayElements (first other : Ty)
  | dictEntries (key value otherKey otherValue : Ty)
  | notCallable (ty : Ty)
  | wrongArguments (callee : Ty) (args : List Ty)
  | operandsDiffer (op : BinaryOp) (lhs rhs : Ty)
  | operandsNotBool (op : BinaryOp) (ty : Ty)
  | operatorRefused (op : BinaryOp) (ty : Ty)
  | notBool (what : String) (ty : Ty)
  | cannotNegate (ty : Ty)
  | positionNotLiteral
  | positionOutOfRange (ty : Ty)
  | cannotIndex (ty position : Ty)
  | branchesDiffer (yes no : Ty)
  | ascriptionDiffers (ty written : Ty)
  | targetCount (targets values : Nat)
  | declaredType (name : String) (written value : Ty)
  | assignedType (value target : Ty)
  | returnOutside
  | procedureReturns (name : String)
  | returnType (name : String) (expected found : Ty)
  | whenValue (ty target : Ty)
  | cannotIterate (ty : Ty)
  | loopType (name : String) (written elem : Ty)
  | neverResolved (what kindName : String)

namespace Cause

def kind : Cause → ErrorKind
  | unknownType _ => .unknownType
  | sameFunction .. | sameClass .. => .duplicateDefinition
  | noOverload .. => .noMatchingOverload
  | undeclared _ => .undefinedVariable
  | notVar _ => .immutableAssignment
  | recursive _ | templateResult _ | unknownResult _ | emptyArray | emptyDict
  | untypedVariable _ => .notInferable
  | neverResolved .. => .unresolvedSlot
  | _ => .typeMismatch

def message : Cause → String
  | unknownType name => "unknown type '" ++ name ++ "'"
  | sameFunction symbol earlier =>
    "'" ++ symbol.text ++ "' conflicts with '" ++ earlier.text ++ "' defined at " ++
      earlier.loc.text
  | sameClass name earlier => "class '" ++ name ++ "' is already defined at " ++ earlier.text
  | noOverload name args [] => "no function matches call " ++ callText name args
  | noOverload name args candidates =>
    "no matching overload for call " ++ callText name args ++ "; candidates: " ++
      Text.joined "; " (candidates.map FuncSymbol.text)
  | undeclared name => "variable '" ++ name ++ "' is not declared"
  | notVar name => "cannot assign twice to immutable variable '" ++ name ++ "'"
  | recursive name => "return type of recursive function '" ++ name ++ "' must be annotated"
  | templateResult symbol =>
    "template function '" ++ symbol.text ++ "' needs a return type annotation"
  | unknownResult symbol => "cannot infer return type of '" ++ symbol.text ++ "'"
  | emptyArray => "element type of an empty array literal is unknown"
  | emptyDict => "key and value types of an empty dict literal are unknown"
  | untypedVariable name =>
    "variable '" ++ name ++ "' needs a type annotation or an initializer"
  | arrayElements first other =>
    "array elements must share one type: " ++ first.text ++ " and " ++ other.text
  | dictEntries key value otherKey otherValue =>
    "dict entries must share one type: " ++ key.text ++ " => " ++ value.text ++ " and " ++
      otherKey.text ++ " => " ++ otherValue.text
  | notCallable ty => "value of type " ++ ty.text ++ " is not callable"
  | wrongArguments callee args =>
    callee.text ++ " called with (" ++ Text.joined "," (args.map Ty.text) ++ ")"
  | operandsDiffer op lhs rhs =>
    "operands of '" ++ op.symbol ++ "' differ: " ++ lhs.text ++ " and " ++ rhs.text
  | operandsNotBool op ty => "operands of '" ++ op.symbol ++ "' must be bool, found " ++ ty.text
  | operatorRefused op ty => "operator '" ++ op.symbol ++ "' cannot be applied to " ++ ty.text
  | notBool what ty => what ++ " must be bool, found " ++ ty.text
  | cannotNegate ty => "cannot negate a value of type " ++ ty.text
  | positionNotLiteral => "tuple index must be an integer literal"
  | positionOutOfRange ty => "index out of range for " ++ ty.text
  | cannotIndex ty position => ty.text ++ " cannot be indexed by " ++ position.text
  | branchesDiffer yes no =>
    "branches of if expression differ: " ++ yes.text ++ " and " ++ no.text
  | ascriptionDiffers ty written =>
    "expression of type " ++ ty.text ++ " annotated as " ++ written.text
  | targetCount targets values =>
    toString targets ++ " targets cannot take " ++ toString values ++ " values"
  | declaredType name written value =>
    "variable '" ++ name ++ "' declared as " ++ written.text ++ " but initialized with " ++
      value.text
  | assignedType value target => "cannot assign " ++ value.text ++ " to " ++ target.text
  | returnOutside => "return outside of a function body"
  | procedureReturns name => "procedure '" ++ name ++ "' cannot return a value"
  | returnType name expected found =>
    "'" ++ name ++ "' returns " ++ expected.text ++ " but this returns " ++ found.text
  | whenValue ty target =>
    "when value " ++ ty.text ++ " does not match switch target " ++ target.text
  | cannotIterate ty => "cannot iterate over " ++ ty.text
  | loopType name written elem =>
    "loop variable '" ++ name ++ "' declared as " ++ written.text ++ " but iterates " ++ elem.text
  | neverResolved what kindName => what ++ " of " ++ kindName ++ " was never resolved"

def error (cause : Cause) (loc : Location) : Error :=
  .semantic cause.kind cause.message loc

end Cause

/-- Refuses with `cause` at `loc`. -/
def reject {α : Type} (loc : Location) (cause : Cause) : Except Error α :=
  .error (cause.error loc)

end Semant
