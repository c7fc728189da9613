import Semant.Number.Text
import Semant.Text.Quoted
import Semant.Ty

/-! Literal values. -/

namespace Semant

inductive Literal where
  | char (c : Char)
  | float (x : Binary64)
  | bool (b : Bool)
  | string (s : String)
  | int (i : Int)
  | uint (n : Nat)
  | symbol (s : String)

namespace Literal

def builtin : Literal → Builtin
  | char _ => .char
  | float _ => .float
  | bool _ => .bool
  | string _ => .string
  | int _ => .int
  | uint _ => .uint
  | symbol _ => .symbol

/-- Equality of values. A floating point literal compares as a number. -/
def same : Literal → Literal → Bool
  | char a, char b => a == b
  | float a, float b => a.same b
  | bool a, bool b => a == b
  | string a, string b => a == b
  | int a, int b => a == b
  | uint a, uint b => a == b
  | symbol a, symbol b => a == b
  | _, _ => false

/-- The literal as it is shown in a dump. A character stands in quotes as it is. -/
def text : Literal → String
  | char c => "'" ++ String.singleton c ++ "'"
  | float x => x.literalText
  | bool b => if b then "true" else "false"
  | string s => Text.quoted s
  | int i => toString i
  | uint n => toString n ++ "u"
  | symbol s => ":" ++ s

/-- The position that an integer literal selects, if it can be one. -/
def position? : Literal → Option Nat
  | int i => if 0 ≤ i then some i.toNat else none
  | uint n => some n
  | _ => none

def isInteger : Literal → Bool
  | int _ | uint _ => true
  | _ => false

end Literal

end Semant
