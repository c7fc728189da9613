import Semant.Location

/-! What a failed analysis reports: a kind of semantic error with its message and
place, or an internal fault, which has no place. -/

namespace Semant

inductive ErrorKind where
  | noMatchingOverload
  | duplicateDefinition
  | unresolvedSlot
  | unknownType
  | undefinedVariable
  | typeMismatch
  | notInferable
  | immutableAssignment
  deriving DecidableEq

def ErrorKind.name : ErrorKind → String
  | .noMatchingOverload => "NoMatchingOverload"
  | .duplicateDefinition => "DuplicateDefinition"
  | .unresolvedSlot => "UnresolvedSlot"
  | .unknownType => "UnknownType"
  | .undefinedVariable => "UndefinedVariable"
  | .typeMismatch => "TypeMismatch"
  | .notInferable => "NotInferable"
  | .immutableAssignment => "ImmutableAssignment"

inductive Error where
  | semantic (kind : ErrorKind) (message : String) (loc : Location)
  | internal (message : String)
  deriving DecidableEq

namespace Error

def message : Error → String
  | semantic _ message _ => message
  | internal message => message

def kind? : Error → Option ErrorKind
  | semantic kind _ _ => some kind
  | internal _ => none

def location? : Error → Option Location
  | semantic _ _ loc => some loc
  | internal _ => none

/-- The class of the error, as it opens a report. -/
def heading : Error → String
  | semantic .. => "Semantic Error"
  | internal _ => "Internal Error"

/-- One line with everything that is known about the error. -/
def text (error : Error) : String :=
  let opening := error.heading ++ ": " ++ error.message
  match error.location? with
  | some loc => opening ++ " at " ++ loc.text
  | none => opening

/-- Attaches `file` to a place that names none. -/
def inFile (error : Error) (file : Option String) : Error :=
  match error with
  | semantic kind message loc => semantic kind message (loc.inFile file)
  | internal message => internal message

end Error

end Semant
