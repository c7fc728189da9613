import Semant.Error
import Semant.Text.Lines

/-! Reports of errors for a reader: the error, its place and, if the source is at hand, the line
with a mark under the column. Parts may be coloured for a terminal. -/

namespace Semant

structure Diagnostic where
  error : Error
  source : Option String := none

namespace Diagnostic

/-- Surrounds a text with a terminal style. -/
def styled (colour : Bool) (style text : String) : String :=
  if colour then "\x1b[" ++ style ++ "m" ++ text ++ "\x1b[0m" else text

abbrev redBold : String := "1;31"
abbrev blueBold : String := "1;34"
abbrev yellow : String := "33"

def spaces (n : Nat) : String :=
  "".pushn ' ' n

/-- The source line of a place between a blank line and the mark. -/
def context (colour : Bool) (source : String) (loc : Location) : String :=
  match loc.line with
  | 0 => ""
  | line + 1 =>
    match (Text.lines source)[line]? with
    | none => ""
    | some text =>
      let number := toString loc.line
      let bar := styled colour blueBold "|"
      let margin := "  " ++ spaces number.length ++ " " ++ bar
      margin ++ "\n" ++
        "  " ++ styled colour blueBold number ++ " " ++ bar ++ " " ++ text ++ "\n" ++
        margin ++ " " ++ spaces (loc.column - 1) ++ styled colour redBold "^" ++ "\n"

def heading (colour : Bool) (error : Error) : String :=
  let kind := match error.kind? with
    | some kind => " [" ++ styled colour yellow kind.name ++ "]"
    | none => ""
  styled colour redBold error.heading ++ kind ++ ": " ++ error.message ++ "\n"

def format (colour : Bool) (d : Diagnostic) : String :=
  let place := match d.error.location? with
    | some loc =>
      "  " ++ styled colour blueBold "-->" ++ " " ++ loc.text ++ "\n" ++
        (d.source.map (context colour · loc)).getD ""
    | none => ""
  heading colour d.error ++ place

end Diagnostic

end Semant
