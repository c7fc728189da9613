import Semant.Scope.TypeExpr
import Semant.Typing.Env

/-! The typing rules. Each gives the type of one node from the types of its parts, or refuses them
at a place. -/

namespace Semant

/-- The type that was found for an expression. -/
def Expr.type (e : Expr) : Except Error Ty :=
  match e.ty.get? with
  | some ty => .ok ty
  | none => .error (.internal
      ("expression at " ++ e.loc.text ++ " was not typed before its parent"))

def Expr.types (es : List Expr) : Except Error (List Ty) :=
  es.mapM Expr.type

/-- What the return statements of a function have to agree with. -/
structure Returns where
  kind : FuncKind
  name : String
  expected : Option Ty

namespace Typing

def condition (what : String) (e : Expr) : Except Error Unit := do
  let ty ← e.type
  if ty == .bool then return () else reject e.loc (.notBool what ty)

def array (elems : List Ty) (loc : Location) : Except Error Ty :=
  match elems with
  | [] => reject loc .emptyArray
  | first :: rest =>
    match rest.find? (· != first) with
    | some other => reject loc (.arrayElements first other)
    | none => .ok (.array first)

def dict (entries : List (Ty × Ty)) (loc : Location) : Except Error Ty :=
  match entries with
  | [] => reject loc .emptyDict
  | (key, value) :: rest =>
    match rest.find? fun (k, v) => k != key || v != value with
    | some (k, v) => reject loc (.dictEntries key value k v)
    | none => .ok (.dict key value)

/-- A call of a value that is a function. -/
def call (callee : Ty) (args : List Ty) (loc : Location) : Except Error Ty :=
  match callee with
  | .func params ret => if params == args then .ok ret else reject loc (.wrongArguments callee args)
  | .proc params => if params == args then .ok .unit else reject loc (.wrongArguments callee args)
  | _ => reject loc (.notCallable callee)

/-- A call of a function symbol whose return type is known to be `ret`, if it is known. -/
def result (symbol : FuncSymbol) (ret : Option Ty) (loc : Location) : Except Error Ty :=
  match symbol.kind, ret with
  | .proc, _ => .ok .unit
  | .func, some ty => .ok ty
  | .func, none =>
    reject loc (if symbol.isTemplate then .templateResult symbol else .unknownResult symbol)

/-- The literal in `e` selects an element of a tuple. -/
def element (elems : List Ty) (e : Expr) : Except Error Ty :=
  match e with
  | .literal value _ _ =>
    if value.isInteger then
      match value.position?.bind (elems[·]?) with
      | some ty => .ok ty
      | none => reject e.loc (.positionOutOfRange (.tuple elems))
    else reject e.loc .positionNotLiteral
  | _ => reject e.loc .positionNotLiteral

def index (child position : Ty) (e : Expr) (loc : Location) : Except Error Ty :=
  let refuse := reject loc (.cannotIndex child position)
  match child with
  | .array elem => if position.isIntegral then .ok elem else refuse
  | .builtin .string => if position.isIntegral then .ok .char else refuse
  | .dict key value => if key == position then .ok value else refuse
  | .tuple elems => element elems e
  | _ => refuse

def unary (op : UnaryOp) (operand : Expr) (loc : Location) : Except Error Ty := do
  let ty ← operand.type
  match op with
  | .not =>
    condition "operand of '!'" operand
    return .bool
  | .negate => if ty.isNumeric then return ty else reject loc (.cannotNegate ty)

/-- Operands have one type. A sum may also be of strings. -/
def binary (op : BinaryOp) (lhs rhs : Ty) (loc : Location) : Except Error Ty :=
  if lhs != rhs then reject loc (.operandsDiffer op lhs rhs)
  else if op.isLogical then
    if lhs == .bool then .ok .bool else reject loc (.operandsNotBool op lhs)
  else if op.isComparison then .ok .bool
  else if op = .range then .ok (.range lhs rhs)
  else if lhs.isNumeric || (op == .add && lhs == .string) then .ok lhs
  else reject loc (.operatorRefused op lhs)

def choice (cond : Expr) (yes no : Expr) (loc : Location) : Except Error Ty := do
  condition "condition" cond
  let yesTy ← yes.type
  let noTy ← no.type
  if yesTy == noTy then return yesTy else reject loc (.branchesDiffer yesTy noTy)

def ascription (ty written : Ty) (loc : Location) : Except Error Ty :=
  if ty == written then .ok written else reject loc (.ascriptionDiffers ty written)

/-- The types that each of `count` targets gets. One tuple may be spread over them. -/
def spread (values : List Ty) (count : Nat) (loc : Location) : Except Error (List Ty) :=
  if values.length = count then .ok values
  else
    let refuse := reject loc (.targetCount count values.length)
    match values with
    | [.tuple elems] => if elems.length = count then .ok elems else refuse
    | _ => refuse

/-- A declared variable has its written type, which has to be that of its value, or else the type
of its value. -/
def declared (scope : Scope) (b : Binder) (value : Option Ty) : Except Error Ty := do
  match b.written, value with
  | some written, value =>
    let ty ← written.resolve scope
    match value with
    | some value =>
      if ty == value then return ty else reject b.loc (.declaredType b.name ty value)
    | none => return ty
  | none, some value => return value
  | none, none => reject b.loc (.untypedVariable b.name)

/-- The type of the values that a loop runs over. -/
def iterated (range : Expr) : Except Error Ty := do
  match ← range.type with
  | .array elem => return elem
  | .range first _ => return first
  | .dict key value => return .tuple [key, value]
  | ty => reject range.loc (.cannotIterate ty)

def loopVariable (scope : Scope) (b : Binder) (elem : Ty) : Except Error Ty := do
  match b.written with
  | none => return elem
  | some written =>
    let ty ← written.resolve scope
    if ty == elem then return elem else reject b.loc (.loopType b.name ty elem)

/-- A local name that is assigned to has to be declared as variable. -/
def assignable (env : Env) : Expr → Except Error Unit
  | .var name _ loc =>
    match env.lookup? name with
    | some binding => if binding.isVar then .ok () else reject loc (.notVar name)
    | none => .ok ()
  | _ => .ok ()

def assigned (env : Env) (target : Expr) (value : Ty) : Except Error Unit := do
  assignable env target
  let ty ← target.type
  if ty == value then return () else reject target.loc (.assignedType value ty)

/-- Several returned values make a tuple. -/
def returned (returns : Option Returns) (types : List Ty) (loc : Location) :
    Except Error Returns := do
  let ty := match types with
    | [ty] => ty
    | types => .tuple types
  match returns with
  | none => reject loc .returnOutside
  | some returns =>
    if returns.kind = .proc ∧ types ≠ [] then reject loc (.procedureReturns returns.name)
    else
      match returns.expected with
      | none => return { returns with expected := some ty }
      | some expected =>
        if expected == ty then return returns
        else reject loc (.returnType returns.name expected ty)

/-- The values of a switch have the type of its target. -/
def whenValue (target : Ty) (e : Expr) : Except Error Unit := do
  let ty ← e.type
  if ty == target then return () else reject e.loc (.whenValue ty target)

end Typing

end Semant
