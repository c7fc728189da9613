import Semant.Tree.Walk

/-! Properties that every node of a tree has, read off the tree or off the list of its nodes. -/

namespace Semant

mutual

def Outline.All (Q : Node → Prop) : Outline → Prop
  | .mk node children => Q node ∧ Outline.AllOf Q children

def Outline.AllOf (Q : Node → Prop) : List Outline → Prop
  | [] => True
  | o :: os => o.All Q ∧ Outline.AllOf Q os

end

namespace Outline

variable {Q : Node → Prop}

@[simp]
theorem all_mk {node : Node} {children : List Outline} :
    (mk node children).All Q ↔ Q node ∧ AllOf Q children := by
  rw [Outline.All]

@[simp]
theorem allOf_nil : AllOf Q [] := trivial

@[simp]
theorem allOf_cons {o : Outline} {os : List Outline} :
    AllOf Q (o :: os) ↔ o.All Q ∧ AllOf Q os := by
  rw [Outline.AllOf]

@[simp]
theorem allOf_append {os os' : List Outline} : AllOf Q (os ++ os') ↔ AllOf Q os ∧ AllOf Q os' := by
  induction os with
  | nil => simp
  | cons o os ih => simp [ih, and_assoc]

theorem allOf_iff {os : List Outline} : AllOf Q os ↔ ∀ o ∈ os, o.All Q := by
  induction os with
  | nil => simp
  | cons o os ih => simp [ih]

mutual

theorem all_of_forall (h : ∀ node, Q node) : ∀ o : Outline, o.All Q
  | .mk node children => all_mk.mpr ⟨h node, allOf_of_forall h children⟩

theorem allOf_of_forall (h : ∀ node, Q node) : ∀ os : List Outline, AllOf Q os
  | [] => trivial
  | o :: os => allOf_cons.mpr ⟨all_of_forall h o, allOf_of_forall h os⟩

end

variable {R : Node → Prop}

mutual

theorem All.imp (h : ∀ node, Q node → R node) : ∀ {o : Outline}, o.All Q → o.All R
  | .mk node _, ho => by
    obtain ⟨hnode, hchildren⟩ := all_mk.mp ho
    exact all_mk.mpr ⟨h node hnode, AllOf.imp h hchildren⟩

theorem AllOf.imp (h : ∀ node, Q node → R node) : ∀ {os : List Outline}, AllOf Q os → AllOf R os
  | [], _ => trivial
  | _ :: _, hos => by
    obtain ⟨ho, hos⟩ := allOf_cons.mp hos
    exact allOf_cons.mpr ⟨All.imp h ho, AllOf.imp h hos⟩

end

mutual

/-- A walk that collects nodes adds those of the tree to what it has. -/
theorem forall_walk_visitNodes : ∀ (o : Outline) (nodes : List Node),
    (∀ n ∈ o.walk visitNodes nodes, Q n) ↔ o.All Q ∧ ∀ n ∈ nodes, Q n
  | .mk node children, nodes => by
    rw [Outline.walk, visitNodes, forall_walkAll_visitNodes children, List.forall_mem_cons, all_mk]
    exact ⟨fun ⟨hchildren, hnode, h⟩ => ⟨⟨hnode, hchildren⟩, h⟩,
      fun ⟨⟨hnode, hchildren⟩, h⟩ => ⟨hchildren, hnode, h⟩⟩

theorem forall_walkAll_visitNodes : ∀ (os : List Outline) (nodes : List Node),
    (∀ n ∈ walkAll (offers visitNodes os) nodes, Q n) ↔ AllOf Q os ∧ ∀ n ∈ nodes, Q n
  | [], nodes => by simp [offers, walkAll]
  | o :: os, nodes => by
    have hrest := forall_walkAll_visitNodes os (o.walk visitNodes nodes)
    rw [forall_walk_visitNodes o nodes] at hrest
    rw [allOf_cons]
    exact hrest.trans ⟨fun ⟨hos, ho, h⟩ => ⟨⟨ho, hos⟩, h⟩, fun ⟨⟨ho, hos⟩, h⟩ => ⟨hos, ho, h⟩⟩

end

end Outline

theorem Node.forall_preorder {Q : Node → Prop} {node : Node} :
    (∀ n ∈ node.preorder, Q n) ↔ node.outline.All Q := by
  simp only [Node.preorder, Node.walk, List.mem_reverse]
  rw [Outline.forall_walk_visitNodes]
  simp

/-- Neither slot of the node has a value. -/
def Node.isBlank (n : Node) : Bool :=
  n.typeSlot?.all (!·.isResolved) && n.calleeSlot?.all (!·.isResolved)

/-- A program as it is built, before any analysis. -/
def Program.isFresh (p : Program) : Bool :=
  (Node.program p).preorder.all Node.isBlank

theorem Program.isFresh_iff {p : Program} :
    p.isFresh = true ↔ p.outline.All (·.isBlank = true) := by
  rw [Program.isFresh, List.all_eq_true, Node.forall_preorder]
  rfl

end Semant
