import Semant.Scope.TypeExpr

/-! Symbol collection: all classes of a program enter the scope, then the signature of each
function, in order. The slots of signatures are filled on the way and stay filled if a later step
fails. -/

namespace Semant

def ClassDef.symbol (c : ClassDef) : ClassSymbol :=
  { name := c.name, loc := c.loc }

def Scope.collectClasses (classes : List ClassDef) : Except Error Scope :=
  classes.foldlM (fun scope c => return (← scope.defineClass c.symbol).2) {}

namespace Binder

/-- A parameter with a written type has that type; without one it is a template parameter. -/
def collect (scope : Scope) (b : Binder) : Except Error (Binder × ParamType) :=
  match b.written with
  | none => return (b, .template)
  | some written => do
    let ty ← written.resolve scope
    return ({ b with ty := ← b.ty.fill ty }, .concrete ty)

def collectAll (scope : Scope) : List Binder → List Binder × Except Error (List ParamType)
  | [] => ([], .ok [])
  | b :: bs =>
    match b.collect scope with
    | .error error => (b :: bs, .error error)
    | .ok (b, param) =>
      let (bs, params) := collectAll scope bs
      (b :: bs, (param :: ·) <$> params)

end Binder

namespace FuncDef

/-- The slots for the return type, of the definition and of its symbol. A procedure returns the unit
value; a function without a written return type is left open. -/
def collectReturn (scope : Scope) (f : FuncDef) : Except Error (Slot Ty × Slot Ty) :=
  match f.kind, f.written with
  | .proc, _ => return (← f.ret.fill .unit, .unresolved)
  | .func, some written => do
    let ty ← written.resolve scope
    return (← f.ret.fill ty, .resolved ty)
  | .func, none => return (f.ret, .unresolved)

def collect (scope : Scope) (id : DefId) (f : FuncDef) : FuncDef × Except Error Scope :=
  let (params, types) := Binder.collectAll scope f.params
  let f := { f with params }
  match types with
  | .error error => (f, .error error)
  | .ok types =>
    match f.collectReturn scope with
    | .error error => (f, .error error)
    | .ok (own, ret) =>
      let symbol : FuncSymbol :=
        { kind := f.kind, name := f.name, params := types, ret, definition := id, loc := f.loc }
      ({ f with ret := own }, (·.2) <$> scope.defineFunction symbol)

/-- Collects functions that are numbered from `id` on. -/
def collectAll (scope : Scope) (id : DefId) : List FuncDef → List FuncDef × Except Error Scope
  | [] => ([], .ok scope)
  | f :: fs =>
    match f.collect scope id with
    | (f, .error error) => (f :: fs, .error error)
    | (f, .ok scope) =>
      let (fs, outcome) := collectAll scope (id + 1) fs
      (f :: fs, outcome)

end FuncDef

/-- The functions of a program with their signatures resolved as far as they could be, and the scope
of all symbols. -/
def Program.collect (p : Program) : List FuncDef × Except Error Scope :=
  match Scope.collectClasses p.classes with
  | .error error => (p.funcs, .error error)
  | .ok scope => FuncDef.collectAll scope 0 p.funcs

end Semant
