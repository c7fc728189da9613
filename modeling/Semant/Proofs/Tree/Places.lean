import Semant.Proofs.Tree.Sites

/-! Which slots of a typed tree are filled. The name in a call that is bound to a function is no
value and has no type; every other node has one. A call is bound to a function or it applies a value,
never both. -/

namespace Semant

/-- A node with whether it is the name in a call that is bound to a function. -/
structure Place where
  node : Node
  called : Bool

namespace Node

def isBoundCall : Node → Bool
  | expr (.call _ _ callee _ _) => callee.isResolved
  | _ => false

/-- Every slot is filled, but only one of the callee of a call and the type of what is called. -/
def isComplete (n : Node) : Bool :=
  n.typeSlot?.all Slot.isResolved &&
    match n with
    | expr (.call child _ callee _ _) => callee.isResolved != child.ty.isResolved
    | expr (.member _ _ callee _ _) => callee.isResolved
    | _ => true

def isUntypedName : Node → Bool
  | expr (.var _ ty _) => !ty.isResolved
  | _ => false

end Node

def Place.isComplete (place : Place) : Bool :=
  if place.called then place.node.isUntypedName else place.node.isComplete

namespace Outline

mutual

/-- The nodes of a tree as places, if `called` is said of its root. -/
def places (called : Bool) : Outline → List Place
  | mk node children => ⟨node, called⟩ :: placesOf node.isBoundCall children

/-- What is called comes first. -/
def placesOf (called : Bool) : List Outline → List Place
  | [] => []
  | o :: os => o.places called ++ placesOf false os

end

mutual

theorem map_node_places : ∀ (called : Bool) (o : Outline),
    (o.places called).map Place.node = o.nodes
  | called, mk node children => by
    rw [places, nodes, List.map_cons, map_node_placesOf node.isBoundCall children]

theorem map_node_placesOf : ∀ (called : Bool) (os : List Outline),
    (placesOf called os).map Place.node = nodesOf os
  | _, [] => rfl
  | called, o :: os => by
    rw [placesOf, nodesOf, List.map_append, map_node_places called o, map_node_placesOf false os]

end

def Complete (called : Bool) (o : Outline) : Prop :=
  ∀ place ∈ o.places called, place.isComplete = true

def CompleteOf (called : Bool) (os : List Outline) : Prop :=
  ∀ place ∈ placesOf called os, place.isComplete = true

variable {called : Bool} {os os' : List Outline}

theorem complete_mk {node : Node} : (mk node os).Complete called ↔
    Place.isComplete ⟨node, called⟩ = true ∧ CompleteOf node.isBoundCall os := by
  rw [Complete, places, List.forall_mem_cons]
  rfl

theorem completeOf_nil : CompleteOf called [] :=
  List.forall_mem_nil _

@[simp]
theorem completeOf_cons {o : Outline} :
    CompleteOf called (o :: os) ↔ o.Complete called ∧ CompleteOf false os := by
  rw [CompleteOf, placesOf, List.forall_mem_append]
  rfl

theorem completeOf_iff : CompleteOf false os ↔ ∀ o ∈ os, o.Complete false := by
  induction os with
  | nil => exact ⟨fun _ => List.forall_mem_nil _, fun _ => completeOf_nil⟩
  | cons o os ih => rw [completeOf_cons, ih, List.forall_mem_cons]

@[simp]
theorem completeOf_append :
    CompleteOf false (os ++ os') ↔ CompleteOf false os ∧ CompleteOf false os' := by
  simp only [completeOf_iff, List.forall_mem_append]

mutual

theorem Complete.of_all {Q : Node → Prop}
    (hQ : ∀ n, Q n → n.isComplete = true ∧ n.isBoundCall = false) :
    ∀ {o : Outline}, o.All Q → o.Complete false
  | mk node children, h => by
    obtain ⟨hnode, hchildren⟩ := all_mk.mp h
    obtain ⟨hcomplete, hcall⟩ := hQ node hnode
    refine complete_mk.mpr ⟨hcomplete, ?_⟩
    rw [hcall]
    exact CompleteOf.of_allOf hQ hchildren

theorem CompleteOf.of_allOf {Q : Node → Prop}
    (hQ : ∀ n, Q n → n.isComplete = true ∧ n.isBoundCall = false) :
    ∀ {os : List Outline}, AllOf Q os → CompleteOf false os
  | [], _ => completeOf_nil
  | _ :: _, h => by
    obtain ⟨ho, hos⟩ := allOf_cons.mp h
    exact completeOf_cons.mpr ⟨Complete.of_all hQ ho, CompleteOf.of_allOf hQ hos⟩

end

end Outline

/-- The places of a tree that stands alone. -/
def Node.places (node : Node) : List Place :=
  node.outline.places false

/-- There is one place for each node that a walk meets, in the same order. -/
theorem Node.map_node_places (node : Node) : node.places.map Place.node = node.preorder := by
  rw [Node.preorder_eq, Node.places, Outline.map_node_places]

theorem TypeExpr.complete (t : TypeExpr) : t.outline.Complete false := by
  refine .of_all ?_ t.all_type
  rintro _ ⟨t, rfl⟩
  exact ⟨rfl, rfl⟩

theorem TypeExpr.complete_option (t : Option TypeExpr) :
    Outline.CompleteOf false (TypeExpr.outlineOption t) := by
  refine .of_allOf ?_ (TypeExpr.allOf_type_option t)
  rintro _ ⟨t, rfl⟩
  exact ⟨rfl, rfl⟩

/-- As a parameter and as a declared variable. -/
theorem Binder.complete {b : Binder} {ty : Ty} (h : b.ty = .resolved ty) :
    b.paramOutline.Complete false ∧ b.declOutline.Complete false := by
  have htypes := TypeExpr.complete_option b.written
  have hfilled : b.ty.isResolved = true := by rw [h]; rfl
  constructor
  · exact Outline.complete_mk.mpr ⟨by simpa [Place.isComplete, Node.isComplete, Node.typeSlot?],
      htypes⟩
  · exact Outline.complete_mk.mpr ⟨by simpa [Place.isComplete, Node.isComplete, Node.typeSlot?],
      htypes⟩

end Semant
