import Semant.Tree.Node
import Semant.Typing.Function

/-! Type resolution of nodes of any sort. No rule is about a definition, a name or a written type:
there the walk only goes on with what stands below. -/

namespace Semant

/-- Goes on with the body and the `ensure` block, in the local names of the surroundings. -/
def FuncDef.resolveBlocks (demand : Demand) (f : FuncDef) : Resolve FuncDef := do
  let body ← f.body.resolve demand
  let ensure ← Stmt.resolveOtherwise demand f.ensure
  return { f with body, ensure }

namespace Definition

def resolve (demand : Demand) : Definition → Resolve Definition
  | classDef c => return classDef c
  | funcDef f => return funcDef (← f.resolveBlocks demand)

def resolveAll (demand : Demand) : List Definition → Resolve (List Definition)
  | [] => return []
  | d :: ds => do
    let d ← d.resolve demand
    let ds ← resolveAll demand ds
    return d :: ds

end Definition

def Node.resolve (demand : Demand) : Node → Resolve Node
  | program p => do
    let definitions ← Definition.resolveAll demand p.definitions
    return program { p with definitions }
  | funcDef f => return funcDef (← f.resolveBlocks demand)
  | block b => return block (← b.resolve demand)
  | stmt s => return stmt (← s.resolve demand)
  | expr e => return expr (← e.resolve demand)
  | node => return node

end Semant
