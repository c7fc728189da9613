import Semant.Scope.Basic

/-! The tables behind a global scope. Symbols stand in the order of definition, and indices lead
to them from a name or a definition. In an index the latest entry of a key counts. A request
answers together with the tables that it leaves, also when it is refused. -/

namespace Semant

structure Tables where
  functions : List FuncSymbol := []
  byName : List (String × List SymbolId) := []
  byDefinition : List (DefId × SymbolId) := []
  classes : List ClassSymbol := []
  classByName : List (String × ClassId) := []

namespace Tables

/-- The symbols without the indices. -/
def scope (t : Tables) : Scope :=
  { functions := t.functions, classes := t.classes }

/-- The functions of a name, in the order of definition. -/
def overloads (t : Tables) (name : String) : List SymbolId :=
  (t.byName.lookup name).getD []

def hasFunction (t : Tables) (name : String) : Bool :=
  !(t.overloads name).isEmpty

def symbolOf? (t : Tables) (definition : DefId) : Option SymbolId :=
  t.byDefinition.lookup definition

def lookupClass? (t : Tables) (name : String) : Option ClassId :=
  t.classByName.lookup name

def candidates (t : Tables) (name : String) : List Overload :=
  (t.overloads name).filterMap fun id => t.functions[id]?.map fun symbol => { id, symbol }

/-- The overload that a call goes to, if any accepts the arguments. -/
def resolve? (t : Tables) (name : String) (args : List Ty) : Option SymbolId :=
  ((t.candidates name).foldl (Scope.better args) none).map Overload.id

/-- Gives a name an entry, with no functions, unless it has one. -/
def enter (t : Tables) (name : String) : Tables :=
  match t.byName.lookup name with
  | some _ => t
  | none => { t with byName := (name, []) :: t.byName }

def addFunction (t : Tables) (symbol : FuncSymbol) : Tables :=
  let id := t.functions.length
  { t with
    functions := t.functions ++ [symbol]
    byName := (symbol.name, t.overloads symbol.name ++ [id]) :: t.byName
    byDefinition := (symbol.definition, id) :: t.byDefinition }

def addClass (t : Tables) (symbol : ClassSymbol) : Tables :=
  { t with
    classes := t.classes ++ [symbol]
    classByName := (symbol.name, t.classes.length) :: t.classByName }

/-- Adds a function whose signature is not taken. Its name is entered before the check. -/
def defineFunction (t : Tables) (symbol : FuncSymbol) : Except Error SymbolId × Tables :=
  let entered := t.enter symbol.name
  match (entered.candidates symbol.name).find? (·.symbol.sameSignature symbol) with
  | some earlier => (reject symbol.loc (.sameFunction symbol earlier.symbol), entered)
  | none => (.ok t.functions.length, entered.addFunction symbol)

/-- Adds a class whose name is not taken. -/
def defineClass (t : Tables) (symbol : ClassSymbol) : Except Error ClassId × Tables :=
  match (t.lookupClass? symbol.name).bind (t.classes[·]?) with
  | some earlier => (reject symbol.loc (.sameClass symbol.name earlier.loc), t)
  | none => (.ok t.classes.length, t.addClass symbol)

/-- Records the return type of a function that has none yet. -/
def setReturnType (t : Tables) (id : SymbolId) (ty : Ty) : Except Error SymbolId × Tables :=
  match t.scope.setReturnType id ty with
  | .error e => (.error e, t)
  | .ok scope => (.ok id, { t with functions := scope.functions })

end Tables

inductive Request where
  | defineFunction (symbol : FuncSymbol)
  | defineClass (symbol : ClassSymbol)
  | setReturnType (id : SymbolId) (ty : Ty)

/-- Answers a request with the id of its symbol, or refuses it. -/
def Tables.perform (t : Tables) : Request → Except Error Nat × Tables
  | .defineFunction symbol => t.defineFunction symbol
  | .defineClass symbol => t.defineClass symbol
  | .setReturnType id ty => t.setReturnType id ty

/-- The tables after some requests, the refused ones included. -/
def Tables.run (requests : List Request) : Tables :=
  requests.foldl (fun t r => (t.perform r).2) {}

end Semant
