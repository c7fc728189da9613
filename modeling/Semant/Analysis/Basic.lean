import Semant.Analysis.EmptySlot
import Semant.Analysis.Signature
import Semant.Typing.Function

/-! The analysis of a program: symbols are collected, function bodies typed, and the slots checked.
The first error ends it. -/

namespace Semant

structure Options where
  /-- Attached to the places of errors that name no file. -/
  file : Option String := none
  /-- Whether to check at the end that no slot is empty. -/
  verify : Bool := true

/-- A program with the slots that were filled, also before an error, and its symbols. -/
structure Analysis where
  program : Program
  outcome : Except Error Scope

namespace Analysis

/-- Refuses a program that has an empty slot. -/
def verified (a : Analysis) : Analysis :=
  match a.outcome, a.program.unresolved? with
  | .ok _, some error => { a with outcome := .error error }
  | _, _ => a

def inFile (a : Analysis) (file : Option String) : Analysis :=
  { a with outcome := a.outcome.mapError (·.inFile file) }

end Analysis

namespace Program

/-- Types the functions of a program against the scope of its symbols. -/
def resolve (p : Program) (scope : Scope) : Analysis :=
  let reached := Progress.ofFuncs p.funcs scope
  { program := p.withFuncs reached.funcs
    outcome := match reached.error with
      | some error => .error error
      | none => .ok reached.scope }

/-- Collects the symbols of a program and types its functions. -/
def typed (p : Program) : Analysis :=
  let (funcs, collected) := p.collect
  let p := p.withFuncs funcs
  match collected with
  | .error error => { program := p, outcome := .error error }
  | .ok scope => p.resolve scope

def analyze (options : Options) (p : Program) : Analysis :=
  let a := if options.verify then p.typed.verified else p.typed
  a.inFile options.file

end Program

end Semant
