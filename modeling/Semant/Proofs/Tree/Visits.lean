import Mathlib.Data.List.Basic
import Mathlib.Tactic.Choose
import Semant.Proofs.Tree.Measure
import Semant.Tree.Trace

/-! What a walk meets if its visitor goes on with all children: every node of the tree once, each
before its children and these in their declared order. The steps of such a walk nest like the
tree. -/

namespace Semant

namespace Node

theorem children_met (node : Node) : node.met.children = node.children := by
  cases node with
  | stmt s => cases s <;> rfl
  | _ => rfl

/-- The node at an address: which child to go down to, again and again. -/
def at? : Node → List Nat → Option Node
  | node, [] => some node.met
  | node, i :: rest => node.children[i]?.bind (·.at? rest)

/-- All addresses of a tree in lexicographic order, with the nodes at them as a walk meets them. -/
structure Lists (node : Node) (addresses : List (List Nat)) : Prop where
  ordered : addresses.Pairwise (List.Lex (· < ·))
  mem : ∀ address, address ∈ addresses ↔ (node.at? address).isSome = true
  nodes : addresses.map node.at? = node.preorder.map some

/-- The addresses below a node, from those of its children. -/
def addressesBelow (below : Node → List (List Nat)) (children : List Node) : List (List Nat) :=
  children.zipIdx.flatMap fun entry => (below entry.1).map (entry.2 :: ·)

section

variable {below : Node → List (List Nat)} {children : List Node}

theorem mem_addressesBelow {address : List Nat} :
    address ∈ addressesBelow below children ↔
      ∃ i child rest, address = i :: rest ∧ children[i]? = some child ∧ rest ∈ below child := by
  simp only [addressesBelow, List.mem_flatMap, List.mem_map, Prod.exists,
    List.mem_zipIdx_iff_getElem?]
  constructor
  · rintro ⟨child, i, hi, rest, hrest, rfl⟩
    exact ⟨i, child, rest, rfl, hi, hrest⟩
  · rintro ⟨i, child, rest, rfl, hi, hrest⟩
    exact ⟨child, i, hi, rest, hrest, rfl⟩

theorem addressesBelow_ordered
    (h : ∀ child ∈ children, (below child).Pairwise (List.Lex (· < ·))) :
    (addressesBelow below children).Pairwise (List.Lex (· < ·)) := by
  refine List.pairwise_flatMap.mpr ⟨fun entry hentry => ?_, ?_⟩
  · have hi := List.mem_zipIdx_iff_getElem?.mp hentry
    exact List.pairwise_map.mpr ((h _ (List.mem_of_getElem? hi)).imp .cons)
  · have hlt : children.zipIdx.Pairwise fun entry entry' => entry.2 < entry'.2 := by
      apply List.pairwise_map.mp
      rw [List.zipIdx_map_snd]
      exact List.pairwise_lt_range' 1
    refine hlt.imp fun hij address haddress address' haddress' => ?_
    obtain ⟨rest, _, rfl⟩ := List.mem_map.mp haddress
    obtain ⟨rest', _, rfl⟩ := List.mem_map.mp haddress'
    exact .rel hij

theorem map_addressesBelow {α : Type} {f : List Nat → α} {entries : Node → List α}
    (h : ∀ i child, children[i]? = some child →
      (below child).map (fun rest => f (i :: rest)) = entries child) :
    (addressesBelow below children).map f = children.flatMap entries := by
  have hentry : ∀ entry ∈ children.zipIdx,
      ((below entry.1).map (entry.2 :: ·)).map f = entries entry.1 := by
    intro entry hentry
    rw [List.map_map]
    exact h _ _ (List.mem_zipIdx_iff_getElem?.mp hentry)
  calc (addressesBelow below children).map f
      = children.zipIdx.flatMap fun entry => entries entry.1 := by
        rw [addressesBelow, List.map_flatMap]
        exact List.flatMap_congr hentry
    _ = (children.zipIdx.map Prod.fst).flatMap entries := by
        rw [List.flatMap_map]
    _ = children.flatMap entries := by
        rw [List.zipIdx_map_fst]

end

theorem Lists.of_children {node : Node} {below : Node → List (List Nat)}
    (h : ∀ child ∈ node.children, child.Lists (below child)) :
    node.Lists ([] :: addressesBelow below node.children) where
  ordered := by
    refine List.pairwise_cons.mpr ⟨fun address haddress => ?_, ?_⟩
    · obtain ⟨i, _, rest, rfl, _⟩ := mem_addressesBelow.mp haddress
      exact .nil
    · exact addressesBelow_ordered fun child hchild => (h child hchild).ordered
  mem address := by
    cases address with
    | nil => simp [at?]
    | cons i rest =>
      rw [List.mem_cons, or_iff_right (List.cons_ne_nil i rest), mem_addressesBelow, at?]
      cases hi : node.children[i]? with
      | none => simp [hi]
      | some child =>
        have hmem := (h child (List.mem_of_getElem? hi)).mem rest
        simp [hi, hmem]
  nodes := by
    rw [List.map_cons, preorder_children, List.map_cons, List.map_flatMap]
    refine congrArg (some node.met :: ·) (map_addressesBelow fun i child hi => ?_)
    simp only [at?, hi, Option.bind_some]
    exact (h child (List.mem_of_getElem? hi)).nodes

namespace Lists

variable {node visited : Node} {addresses : List (List Nat)} {address : List Nat}

theorem length_eq (h : node.Lists addresses) : addresses.length = node.preorder.length := by
  have hlen := congrArg List.length h.nodes
  rwa [List.length_map, List.length_map] at hlen

theorem exists_visited (h : node.Lists addresses) (haddress : address ∈ addresses) :
    ∃ visited ∈ node.preorder, node.at? address = some visited := by
  have hmem : node.at? address ∈ addresses.map node.at? := List.mem_map_of_mem haddress
  rw [h.nodes] at hmem
  obtain ⟨visited, hvisited, hat⟩ := List.mem_map.mp hmem
  exact ⟨visited, hvisited, hat.symm⟩

theorem at?_of_getElem? (h : node.Lists addresses) {i : Nat} (hi : addresses[i]? = some address)
    (hvisited : node.preorder[i]? = some visited) : node.at? address = some visited := by
  have hnodes := congrArg (·[i]?) h.nodes
  simp only [List.getElem?_map, hi, hvisited, Option.map_some, Option.some.injEq] at hnodes
  exact hnodes

end Lists

theorem exists_lists (node : Node) : ∃ addresses, node.Lists addresses := by
  induction node using of_children with
  | h node ih =>
    choose! below hbelow using ih
    exact ⟨_, .of_children hbelow⟩

end Node

variable {σ : Type}

/-- A visitor that acts when it meets a node, goes on with all children, and acts again. -/
def Visitor.around (before : Node → List Node → σ → σ) (after : Node → σ → σ) : Visitor σ :=
  fun node offers s => after node (walkAll offers (before node (offers.map Offer.node) s))

theorem Node.walk_around (before : Node → List Node → σ → σ) (after : Node → σ → σ) (node : Node)
    (s : σ) :
    node.walk (Visitor.around before after) s = after node.met
      (node.children.foldl (fun s child => child.walk (Visitor.around before after) s)
        (before node.met (node.children.map Node.met) s)) := by
  rw [Node.walk_eq, Visitor.around, walkAll, List.foldl_map, List.map_map]
  rfl

namespace Trace

/-- What the visitor does at a step. -/
def Step.act (before : Node → List Node → σ → σ) (after : Node → σ → σ) (s : σ) : Step → σ
  | enter node _ => before node (node.children.map Node.met) s
  | leave node => after node s

def Step.entered? : Step → Option (Node × Nat)
  | enter node children => some (node, children)
  | leave _ => none

/-- All steps of a walk that goes on with all children. -/
def full : Node → List Step :=
  steps (fun _ => .all) true

/-- Steps that are a number of visits one after another, with at most so many open at once. Inside
each visit there are as many as children were offered. -/
inductive Nests : Nat → Nat → List Step → Prop
  | nil : Nests 0 0 []
  | visit {depth depth' children visits : Nat} {node : Node} {inside rest : List Step} :
      Nests depth children inside → Nests depth' visits rest →
      Nests (max (depth + 1) depth') (visits + 1)
        (.enter node children :: (inside ++ .leave node :: rest))

theorem visitSteps_all : visitSteps (fun _ => .all) true =
    Visitor.around (fun node children steps => .enter node children.length :: steps)
      (fun node steps => .leave node :: steps) := by
  funext node offers steps
  rw [visitSteps, Visitor.around, List.length_map]
  rfl

theorem foldl_visitSteps {nodes : List Node}
    (h : ∀ node ∈ nodes, ∀ acc,
      node.walk (visitSteps (fun _ => .all) true) acc = (full node).reverse ++ acc)
    (acc : List Step) :
    nodes.foldl (fun acc node => node.walk (visitSteps (fun _ => .all) true) acc) acc =
      (nodes.flatMap full).reverse ++ acc := by
  induction nodes generalizing acc with
  | nil => rfl
  | cons node nodes ih =>
    obtain ⟨hnode, hnodes⟩ := List.forall_mem_cons.mp h
    rw [List.foldl_cons, hnode, ih hnodes, List.flatMap_cons, List.reverse_append,
      List.append_assoc]

/-- A walk adds its steps to those that are there. -/
theorem walk_visitSteps (node : Node) (acc : List Step) :
    node.walk (visitSteps (fun _ => .all) true) acc = (full node).reverse ++ acc := by
  induction node using Node.of_children generalizing acc with
  | h node ih =>
    have hwalk : ∀ acc, node.walk (visitSteps (fun _ => .all) true) acc =
        .leave node.met :: ((node.children.flatMap full).reverse ++
          .enter node.met node.children.length :: acc) := by
      intro acc
      rw [← foldl_visitSteps ih, visitSteps_all, Node.walk_around, List.length_map]
    rw [full, steps, hwalk, hwalk, List.reverse_reverse]
    simp

theorem full_eq (node : Node) :
    full node = .enter node.met node.children.length ::
      (node.children.flatMap full ++ [.leave node.met]) := by
  have hfold := @foldl_visitSteps node.children fun child _ => walk_visitSteps child
  rw [full, steps, visitSteps_all, Node.walk_around, ← visitSteps_all, hfold, List.length_map]
  simp [full]

/-- Such a visitor does what it does at the steps of the walk, one after another. -/
theorem walk_around_eq (before : Node → List Node → σ → σ) (after : Node → σ → σ) (node : Node)
    (s : σ) :
    node.walk (Visitor.around before after) s = (full node).foldl (Step.act before after) s := by
  induction node using Node.of_children generalizing s with
  | h node ih =>
    have hbelow : ∀ s, node.children.foldl
        (fun s child => child.walk (Visitor.around before after) s) s =
          (node.children.flatMap full).foldl (Step.act before after) s := by
      intro s
      rw [List.foldl_flatMap]
      exact List.foldl_ext _ _ _ fun s child hchild => ih child hchild s
    rw [Node.walk_around, hbelow, full_eq, List.foldl_cons, List.foldl_append, Step.act,
      Node.children_met]
    rfl

/-- The nodes that a walk enters, with the number of their children. -/
theorem entered_full (node : Node) :
    (full node).filterMap Step.entered? =
      node.preorder.map fun node => (node, node.children.length) := by
  induction node using Node.of_children with
  | h node ih =>
    have hbelow : (node.children.flatMap full).filterMap Step.entered? =
        (node.children.flatMap Node.preorder).map fun node => (node, node.children.length) := by
      rw [List.filterMap_flatMap, List.map_flatMap]
      exact List.flatMap_congr ih
    rw [full_eq, Node.preorder_children, List.map_cons, Node.children_met, ← hbelow]
    simp [Step.entered?]

theorem Nests.append {depth depth' visits visits' : Nat} {steps steps' : List Step}
    (h : Nests depth visits steps) (h' : Nests depth' visits' steps') :
    Nests (max depth depth') (visits + visits') (steps ++ steps') := by
  induction h with
  | nil => simpa using h'
  | @visit _ _ _ _ node _ _ hinside _ _ ih =>
    have hvisit := @Nests.visit _ _ _ _ node _ _ hinside ih
    simpa [Nat.max_assoc, Nat.add_right_comm] using hvisit

theorem nests_flatMap {nodes : List Node} (h : ∀ node ∈ nodes, Nests node.depth 1 (full node)) :
    Nests (Node.measureAll max nodes) nodes.length (nodes.flatMap full) := by
  induction nodes with
  | nil => exact .nil
  | cons node nodes ih =>
    obtain ⟨hnode, hnodes⟩ := List.forall_mem_cons.mp h
    rw [List.length_cons, Nat.add_comm]
    exact hnode.append (ih hnodes)

theorem full_nests (node : Node) : Nests node.depth 1 (full node) := by
  induction node using Node.of_children with
  | h node ih =>
    have hvisit := @Nests.visit _ _ _ _ node.met _ _ (nests_flatMap ih) .nil
    rw [full_eq, Node.depth, Node.measure_children, Nat.add_comm]
    simpa using hvisit

end Trace

namespace Node

theorem length_preorder (node : Node) : node.preorder.length = node.count := by
  induction node using of_children with
  | h node ih =>
    have hbelow : ∀ nodes : List Node, (∀ node ∈ nodes, node.preorder.length = node.count) →
        (nodes.flatMap preorder).length = measureAll (· + ·) nodes := by
      intro nodes h
      induction nodes with
      | nil => rfl
      | cons node nodes ih =>
        obtain ⟨hnode, hnodes⟩ := List.forall_mem_cons.mp h
        rw [List.flatMap_cons, List.length_append, hnode, ih hnodes]
        rfl
    rw [preorder_children, List.length_cons, hbelow _ ih, count, measure_children, Nat.add_comm]

/-- A walk whose visitor goes on with all children meets the node at each address of the tree once,
in the order of the addresses, so as many as the tree has. Whatever the visitor does, it does at
the steps of that walk, which enter these nodes and nest as deep as the tree. -/
theorem walk_visits (node : Node) :
    (∃ addresses, node.Lists addresses) ∧
      node.preorder.length = node.count ∧
      (∀ {σ : Type} (before : Node → List Node → σ → σ) (after : Node → σ → σ) (s : σ),
        node.walk (Visitor.around before after) s =
          (Trace.full node).foldl (Trace.Step.act before after) s) ∧
      (Trace.full node).filterMap Trace.Step.entered? =
        node.preorder.map (fun node => (node, node.children.length)) ∧
      Trace.Nests node.depth 1 (Trace.full node) :=
  ⟨node.exists_lists, node.length_preorder, fun before after s =>
    Trace.walk_around_eq before after node s, Trace.entered_full node, Trace.full_nests node⟩

end Node

end Semant
