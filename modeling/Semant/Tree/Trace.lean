import Semant.Tree.Walk

/-! Visitors that record what they meet: every step of a walk, the names that are bound and used,
and signatures without bodies. Records are kept with the latest first. -/

namespace Semant

/-- Which of the offered children a walk goes on with. -/
inductive Descent where
  | all | none | reversed | first | twice | types

def Node.isType : Node → Bool
  | type _ => true
  | _ => false

def Descent.choose {σ : Type} (offers : List (Offer σ)) : Descent → List (Offer σ)
  | all => offers
  | none => []
  | reversed => offers.reverse
  | first => offers.take 1
  | twice => offers ++ offers
  | types => offers.filter (·.node.isType)

namespace Trace

inductive Step where
  | enter (node : Node) (children : Nat)
  | leave (node : Node)

def visitSteps (descent : Node → Descent) (leaves : Bool) : Visitor (List Step) :=
  fun node offers steps =>
    let steps := walkAll ((descent node).choose offers) (.enter node offers.length :: steps)
    if leaves then .leave node :: steps else steps

/-- The steps of a walk that goes on at each node as `descent` has it. -/
def steps (descent : Node → Descent) (leaves : Bool) (node : Node) : List Step :=
  (node.walk (visitSteps descent leaves) []).reverse

inductive Name where
  | param (b : Binder)
  | decl (b : Binder)
  | var (name : String) (children : Nat)
  | func (f : FuncDef) (children : Nat)

def visitNames : Visitor (List Name) :=
  fun node offers names =>
    match node with
    | .param b => walkAll offers (.param b :: names)
    | .decl b => walkAll offers (.decl b :: names)
    | .expr (.var name ..) => .var name offers.length :: names
    | .funcDef f => walkAll offers (.func f offers.length :: names)
    | _ => walkAll offers names

/-- The names that are bound or used, and the functions around them. -/
def names (node : Node) : List Name :=
  (node.walk visitNames []).reverse

def visitSignatures : Visitor (List String) :=
  fun node offers texts =>
    match node with
    | .funcDef f =>
      let signature := offers.take (f.params.length + f.written.toList.length)
      walkAll signature (f.name :: texts)
    | _ => walkAll offers (node.kindName :: texts)

/-- The kinds of the nodes met when a function shows its name, parameters and return type only. -/
def signatures (node : Node) : List String :=
  (node.walk visitSignatures []).reverse

end Trace

end Semant
