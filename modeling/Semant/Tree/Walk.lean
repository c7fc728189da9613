import Semant.Tree.Outline

/-! Walking a tree. A visitor meets a node together with its children, each with the walk of the
tree below it; it goes on by running the walks that it wants, in the order that it wants. -/

namespace Semant

/-- A child that a visitor may walk. -/
structure Offer (σ : Type) where
  node : Node
  walk : σ → σ

abbrev Visitor (σ : Type) := Node → List (Offer σ) → σ → σ

variable {σ : Type}

/-- Walks the offered children one after another. -/
def walkAll (offers : List (Offer σ)) (s : σ) : σ :=
  offers.foldl (fun s offer => offer.walk s) s

mutual

def Outline.walk (visit : Visitor σ) : Outline → σ → σ
  | .mk node children => visit node (Outline.offers visit children)

def Outline.offers (visit : Visitor σ) : List Outline → List (Offer σ)
  | [] => []
  | child :: rest => ⟨child.node, child.walk visit⟩ :: Outline.offers visit rest

end

def Node.walk (visit : Visitor σ) (node : Node) : σ → σ :=
  node.outline.walk visit

/-- Adds each node to the front of a list. -/
def visitNodes : Visitor (List Node) :=
  fun node offers nodes => walkAll offers (node :: nodes)

/-- The node and all nodes below it, in the order in which a walk meets them. -/
def Node.preorder (node : Node) : List Node :=
  (node.walk visitNodes []).reverse

end Semant
