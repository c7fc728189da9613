import Semant.Tree.Program

/-! Nodes of any sort, with what every node has: a kind, a place, and for some a slot. -/

namespace Semant

inductive Node where
  | program (p : Program)
  | classDef (c : ClassDef)
  | funcDef (f : FuncDef)
  | param (b : Binder)
  | decl (b : Binder)
  | block (b : Block)
  | stmt (s : Stmt)
  | expr (e : Expr)
  | type (t : TypeExpr)

def TypeExpr.kindName : TypeExpr → String
  | named .. => "PrimaryType"
  | array .. => "ArrayType"
  | dict .. => "DictType"
  | tuple .. => "TupleType"
  | func .. => "FuncType"
  | maybe .. => "QualifiedType"

def Expr.kindName : Expr → String
  | literal .. => "Literal"
  | array .. => "ArrayLiteral"
  | tuple .. => "TupleLiteral"
  | dict .. => "DictLiteral"
  | var .. => "VarRef"
  | call .. => "FuncInvocation"
  | construct .. => "ObjectConstruct"
  | index .. => "IndexAccess"
  | member .. => "MemberAccess"
  | unary .. => "UnaryExpr"
  | cast .. => "CastExpr"
  | binary .. => "BinaryExpr"
  | choice .. => "IfExpr"
  | typed .. => "TypedExpr"

def Stmt.kindName : Stmt → String
  | declare _ => "InitializeStmt"
  | assign .. => "AssignmentStmt"
  | branch .. => "IfStmt"
  | ret .. => "ReturnStmt"
  | case .. => "CaseStmt"
  | switch .. => "SwitchStmt"
  | forIn .. => "ForStmt"
  | whileDo .. => "WhileStmt"
  | trailingIf .. => "PostfixIfStmt"
  | letIn .. => "LetStmt"
  | expr e => e.kindName
  | block _ => "StatementBlock"

namespace Node

/-- The node of a statement. An expression or a block in the place of a statement is a node of
its own sort. -/
def ofStmt : Stmt → Node
  | .expr e => expr e
  | .block b => block b
  | s => stmt s

def kindName : Node → String
  | program _ => "Program"
  | classDef _ => "ClassDefinition"
  | funcDef _ => "FunctionDefinition"
  | param _ => "Parameter"
  | decl _ => "VariableDecl"
  | block _ => "StatementBlock"
  | stmt s => s.kindName
  | expr e => e.kindName
  | type t => t.kindName

def loc : Node → Location
  | program p => p.loc
  | classDef c => c.loc
  | funcDef f => f.loc
  | param b | decl b => b.loc
  | block b => b.loc
  | stmt s => s.loc
  | expr e => e.loc
  | type t => t.loc

/-- The slot for the node's type; that of a function is for its return type. -/
def typeSlot? : Node → Option (Slot Ty)
  | funcDef f => some f.ret
  | param b | decl b => some b.ty
  | expr e => some e.ty
  | _ => none

/-- The slot for the symbol that a call or a member access is bound to. -/
def calleeSlot? : Node → Option (Slot SymbolId)
  | expr (.call _ _ callee _ _) | expr (.member _ _ callee _ _) => some callee
  | _ => none

end Node

end Semant
