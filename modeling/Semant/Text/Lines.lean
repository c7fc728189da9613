/-! A source text as its lines. A line feed ends a line, with a carriage return right before it;
what follows the last line feed is a line if it is not empty. -/

namespace Semant.Text

/-- Reads on after `line`, the current line's characters in reverse. -/
def linesFrom (line : List Char) : List Char → List String
  | [] => if line.isEmpty then [] else [String.ofList line.reverse]
  | '\n' :: rest =>
    let line := match line with
      | '\r' :: line => line
      | line => line
    String.ofList line.reverse :: linesFrom [] rest
  | c :: rest => linesFrom (c :: line) rest

def lines (text : String) : List String :=
  linesFrom [] text.toList

end Semant.Text
