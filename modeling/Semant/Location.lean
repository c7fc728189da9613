/-! Places in a source text, as tree nodes record them and reports show them. -/

namespace Semant

structure Location where
  line : Nat := 0
  column : Nat := 0
  file : Option String := none
  deriving DecidableEq

namespace Location

/-- `line:column`, after the name of the file if one is known. -/
def text (loc : Location) : String :=
  let place := toString loc.line ++ ":" ++ toString loc.column
  match loc.file with
  | some file => file ++ ":" ++ place
  | none => place

/-- Attaches `file` unless the place already names one. -/
def inFile (loc : Location) (file : Option String) : Location :=
  { loc with file := loc.file <|> file }

end Location

end Semant
