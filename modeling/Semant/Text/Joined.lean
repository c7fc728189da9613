/-! Texts set side by side with a separator between neighbours. -/

namespace Semant.Text

def joined (separator : String) : List String → String
  | [] => ""
  | [text] => text
  | text :: rest => text ++ separator ++ joined separator rest

end Semant.Text
