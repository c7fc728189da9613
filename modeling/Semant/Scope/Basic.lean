import Semant.Cause

/-! The global scope: every class and function symbol of a program, in the order of definition.
Several functions may share a name; a call goes to the one with the best score. -/

namespace Semant

structure Scope where
  functions : List FuncSymbol := []
  classes : List ClassSymbol := []

/-- A function symbol with its position in a scope. -/
structure Overload where
  id : SymbolId
  symbol : FuncSymbol

namespace Scope

def lookupClass? (scope : Scope) (name : String) : Option ClassId :=
  scope.classes.findIdx? (·.name == name)

/-- Adds a class whose name is not taken. -/
def defineClass (scope : Scope) (symbol : ClassSymbol) : Except Error (ClassId × Scope) :=
  match scope.classes.find? (·.name == symbol.name) with
  | some earlier => reject symbol.loc (.sameClass symbol.name earlier.loc)
  | none => .ok (scope.classes.length, { scope with classes := scope.classes ++ [symbol] })

/-- Adds a function whose signature is not taken. -/
def defineFunction (scope : Scope) (symbol : FuncSymbol) : Except Error (SymbolId × Scope) :=
  match scope.functions.find? (·.sameSignature symbol) with
  | some earlier => reject symbol.loc (.sameFunction symbol earlier)
  | none => .ok (scope.functions.length, { scope with functions := scope.functions ++ [symbol] })

/-- The functions of a name, in the order of definition. -/
def overloads (scope : Scope) (name : String) : List Overload :=
  scope.functions.zipIdx.filterMap fun (symbol, id) =>
    if symbol.name == name then some { id, symbol } else none

/-- The symbol that was last defined for a definition. -/
def symbolOf? (scope : Scope) (definition : DefId) : Option SymbolId :=
  (scope.functions.zipIdx.reverse.find? (·.1.definition == definition)).map (·.2)

/-- The better of two candidates; a later one has to score more. -/
def better (args : List Ty) (best : Option Overload) (candidate : Overload) : Option Overload :=
  let bestScore := best.elim 0 (·.symbol.score args)
  if bestScore < candidate.symbol.score args then some candidate else best

/-- The overload that a call goes to, if any accepts the arguments. -/
def bestOverload? (scope : Scope) (name : String) (args : List Ty) : Option Overload :=
  (scope.overloads name).foldl (better args) none

def resolve? (scope : Scope) (name : String) (args : List Ty) : Option SymbolId :=
  (scope.bestOverload? name args).map Overload.id

/-- Why a call found no overload. -/
def noOverload (scope : Scope) (name : String) (args : List Ty) : Cause :=
  .noOverload name args ((scope.overloads name).map Overload.symbol)

def returnType? (scope : Scope) (id : SymbolId) : Option Ty :=
  scope.functions[id]?.bind (·.ret.get?)

/-- Records the return type of a function that has none yet. -/
def setReturnType (scope : Scope) (id : SymbolId) (ty : Ty) : Except Error Scope :=
  match scope.functions[id]? with
  | none => .ok scope
  | some symbol => do
    let ret ← symbol.ret.fill ty
    return { scope with functions := scope.functions.set id { symbol with ret } }

end Scope

end Semant
