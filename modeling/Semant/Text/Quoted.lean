import Semant.Text.Extending
import Semant.Text.Unprintable

/-! Quoted texts. Quotes, backslashes and the common controls are escaped by a letter, any other
character that would not show by itself by its number. -/

namespace Semant.Text

/-- The character's number in hexadecimal digits. -/
def numbered (c : Char) : String :=
  "\\u\x7b" ++ String.ofList (Nat.toDigits 16 c.toNat) ++ "\x7d"

def escaped (c : Char) : String :=
  match c with
  | '"' => "\\\""
  | '\\' => "\\\\"
  | '\n' => "\\n"
  | '\r' => "\\r"
  | '\t' => "\\t"
  | '\x00' => "\\0"
  | c => if isExtending c || isUnprintable c then numbered c else String.singleton c

def quoted (text : String) : String :=
  "\"" ++ String.join (text.toList.map escaped) ++ "\""

end Semant.Text
