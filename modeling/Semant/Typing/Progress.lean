import Semant.Typing.Rule

/-! How far type resolution has come, and its primitive steps. The first error is kept, and from
then on no step has an effect. -/

namespace Semant

/-- The start or the end of a function's turn to be typed. -/
inductive Visit
  | entered (id : DefId)
  | left (id : DefId)
  deriving DecidableEq, Repr

structure Progress where
  /-- The functions of the program with the slots that are filled so far. -/
  funcs : List FuncDef
  scope : Scope
  env : Env := {}
  /-- Absent where nothing can be returned. -/
  returns : Option Returns := none
  done : List DefId := []
  /-- The functions whose bodies are being typed, the innermost first. -/
  active : List DefId := []
  /-- The turns so far, the latest first. Nothing that is found depends on them. -/
  journal : List Visit := []
  error : Option Error := none

abbrev Resolve := StateM Progress

/-- How a function is analyzed when a call needs its return type. -/
abbrev Demand := DefId → Resolve Unit

def Progress.failed (s : Progress) : Bool :=
  s.error.isSome

namespace Resolve

variable {α : Type}

/-- Runs a step that may be refused, unless an error is kept already. -/
def attempt (step : Progress → Except Error α) : Resolve (Option α) :=
  fun s =>
    if s.failed then (none, s)
    else
      match step s with
      | .ok a => (some a, s)
      | .error error => (none, { s with error := some error })

def check (rule : Progress → Except Error Unit) : Resolve Unit := do
  let _ ← attempt rule

/-- Fills a slot with what `rule` gives. -/
def settle (slot : Slot α) (rule : Progress → Except Error α) : Resolve (Slot α) := do
  let filled ← attempt fun s => rule s >>= slot.fill
  return filled.getD slot

def modifyEnv (f : Env → Env) : Resolve Unit :=
  modify fun s => { s with env := f s.env }

/-- Runs a step in a scope of its own. -/
def inScope (step : Resolve α) : Resolve α := do
  modifyEnv Env.push
  let a ← step
  modifyEnv Env.pop
  return a

/-- Gives a name the type of `rule` and brings it into scope. -/
def introduce (b : Binder) (rule : Scope → Except Error Ty) : Resolve Binder := do
  let introduced ← attempt fun s => do
    let ty ← rule s.scope
    return (ty, ← b.ty.fill ty)
  match introduced with
  | none => return b
  | some (ty, slot) =>
    modifyEnv (·.define b.name { ty, isVar := b.isVar })
    return { b with ty := slot }

end Resolve

end Semant
