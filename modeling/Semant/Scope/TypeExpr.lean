import Semant.Scope.Basic

/-! The types that written types denote. A name without arguments is a builtin type if there is one
of that name, and otherwise the name of a class. -/

namespace Semant.TypeExpr

mutual

/-- The first name that is not known is reported, a class before its arguments. -/
def resolve (scope : Scope) : TypeExpr → Except Error Ty
  | named name args loc =>
    match args, Builtin.ofName? name with
    | [], some b => .ok (.builtin b)
    | args, _ =>
      match scope.lookupClass? name with
      | none => reject loc (.unknownType name)
      | some id => return .object name (← resolveAll scope args) (some id)
  | array elem _ => return .array (← resolve scope elem)
  | dict key value _ => return .dict (← resolve scope key) (← resolve scope value)
  | tuple elems _ => return .tuple (← resolveAll scope elems)
  | func params none _ => return .proc (← resolveAll scope params)
  | func params (some ret) _ => return .func (← resolveAll scope params) (← resolve scope ret)
  | maybe inner _ => return .maybe (← resolve scope inner)

def resolveAll (scope : Scope) : List TypeExpr → Except Error (List Ty)
  | [] => return []
  | t :: ts => return (← resolve scope t) :: (← resolveAll scope ts)

end

end Semant.TypeExpr
