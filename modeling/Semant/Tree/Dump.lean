import Semant.Text.Blank
import Semant.Tree.Walk

/-! The indented text of a tree: a line for each node, the children two spaces deeper. A resolved
type follows in parentheses. -/

namespace Semant

/-- A resolved type after what it belongs to. -/
def Slot.note (slot : Slot Ty) : String :=
  match slot.get? with
  | some ty => " (" ++ ty.text ++ ")"
  | none => ""

def Binder.label (b : Binder) : String :=
  (if b.isVar then "var " else "") ++ b.name ++ b.ty.note

/-- What tells an expression from others of its kind. -/
def Expr.detail? : Expr → Option String
  | literal value ty _ => some (value.text ++ ty.note)
  | var name ty _ => some (name ++ ty.note)
  | member _ name _ ty _ => some ("." ++ name ++ ty.note)
  | unary op _ ty _ => some (op.symbol ++ ty.note)
  | binary _ op _ ty _ => some (op.symbol ++ ty.note)
  | e => e.ty.get?.map Ty.text

/-- What tells a node from others of its kind. -/
def Node.detail? : Node → Option String
  | classDef c => some c.name
  | funcDef f => some (f.kind.keyword ++ " " ++ f.name ++ f.ret.note)
  | param b | decl b => some b.label
  | stmt (.branch kind ..) | stmt (.trailingIf _ kind ..) => some kind.keyword
  | expr e => e.detail?
  | type (.named name ..) => some name
  | type (.maybe ..) => some "?"
  | _ => none

def Node.label (node : Node) : String :=
  match node.detail? with
  | some detail => node.kindName ++ ": " ++ Text.trimStart detail
  | none => node.kindName

namespace Dump

/-- A dump in the making. -/
structure Page where
  depth : Nat
  text : String

def visitLines : Visitor Page :=
  fun node offers page =>
    let line := "".pushn ' ' (2 * page.depth) ++ node.label ++ "\n"
    let below := walkAll offers { depth := page.depth + 1, text := page.text ++ line }
    { below with depth := below.depth - 1 }

end Dump

def Node.dump (node : Node) : String :=
  (node.walk Dump.visitLines { depth := 0, text := "" }).text

end Semant
