/-! The operators of the language. -/

namespace Semant

inductive UnaryOp where
  | negate | not
  deriving DecidableEq

def UnaryOp.symbol : UnaryOp → String
  | negate => "-"
  | not => "!"

inductive BinaryOp where
  | add | sub | mul | div | mod
  | equal | notEqual | less | lessEqual | greater | greaterEqual
  | and | or
  | range
  deriving DecidableEq

namespace BinaryOp

def all : List BinaryOp :=
  [add, sub, mul, div, mod, equal, notEqual, less, lessEqual, greater, greaterEqual, and, or, range]

def symbol : BinaryOp → String
  | add => "+"
  | sub => "-"
  | mul => "*"
  | div => "/"
  | mod => "%"
  | equal => "=="
  | notEqual => "!="
  | less => "<"
  | lessEqual => "<="
  | greater => ">"
  | greaterEqual => ">="
  | and => "&&"
  | or => "||"
  | range => ".."

def isComparison : BinaryOp → Bool
  | equal | notEqual | less | lessEqual | greater | greaterEqual => true
  | _ => false

def isLogical : BinaryOp → Bool
  | and | or => true
  | _ => false

end BinaryOp

/-- Whether a branch is taken when its condition holds or when it fails. -/
inductive IfKind where
  | holds | fails
  deriving DecidableEq

def IfKind.keyword : IfKind → String
  | holds => "if"
  | fails => "unless"

end Semant
