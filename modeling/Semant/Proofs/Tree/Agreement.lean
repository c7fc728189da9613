import Mathlib.Data.List.Forall2
import Semant.Proofs.TypeEquality
import Semant.Proofs.Tree.Nodes

/-! Trees that agree node by node, although one of them numbers the functions of the program in
another way: the slots for types hold equal types, and the slots for callees the same functions. -/

namespace Semant

def Slot.map {α β : Type} (f : α → β) : Slot α → Slot β
  | unresolved => .unresolved
  | resolved value => .resolved (f value)

theorem Slot.isResolved_map {α β : Type} (slot : Slot α) (f : α → β) :
    (slot.map f).isResolved = slot.isResolved := by
  cases slot <;> rfl

structure Node.Agrees (number : SymbolId → SymbolId) (n m : Node) : Prop where
  kind : m.kindName = n.kindName
  loc : m.loc = n.loc
  type : n.typeSlot? == m.typeSlot?
  callee : m.calleeSlot? = n.calleeSlot?.map (Slot.map number)

mutual

inductive Outline.Agrees (number : SymbolId → SymbolId) : Outline → Outline → Prop
  | mk {n m : Node} {os ps : List Outline} :
      n.Agrees number m → Outline.AgreeAll number os ps → Agrees number (.mk n os) (.mk m ps)

inductive Outline.AgreeAll (number : SymbolId → SymbolId) : List Outline → List Outline → Prop
  | nil : AgreeAll number [] []
  | cons {o p : Outline} {os ps : List Outline} :
      Outline.Agrees number o p → AgreeAll number os ps → AgreeAll number (o :: os) (p :: ps)

end

variable {number : SymbolId → SymbolId}

instance {α : Type} [BEq α] [ReflBEq α] : ReflBEq (Slot α) where
  rfl {slot} := by
    change (slot.get? == slot.get?) = true
    exact BEq.rfl

theorem Node.Agrees.self {n : Node} (h : n.isBlank = true) : n.Agrees number n := by
  refine ⟨rfl, rfl, BEq.rfl, ?_⟩
  simp only [Node.isBlank, Bool.and_eq_true, Option.all_eq_true, Bool.not_eq_true'] at h
  cases hc : n.calleeSlot? with
  | none => rfl
  | some slot =>
    have hblank := h.2 slot hc
    cases slot with
    | unresolved => rfl
    | resolved => cases hblank

namespace Outline

theorem AgreeAll.append {os ps os' ps' : List Outline} (h : AgreeAll number os ps)
    (h' : AgreeAll number os' ps') : AgreeAll number (os ++ os') (ps ++ ps') := by
  induction os generalizing ps with
  | nil =>
    cases h
    exact h'
  | cons o os ih =>
    cases h with
    | cons ho hos => exact .cons ho (ih hos)

theorem AgreeAll.singleton {o p : Outline} (h : o.Agrees number p) : AgreeAll number [o] [p] :=
  .cons h .nil

mutual

theorem Agrees.self : ∀ {o : Outline}, o.All (·.isBlank = true) → o.Agrees number o
  | .mk _ _, h => by
    rw [all_mk] at h
    exact .mk (.self h.1) (AgreeAll.self h.2)

theorem AgreeAll.self : ∀ {os : List Outline}, AllOf (·.isBlank = true) os → AgreeAll number os os
  | [], _ => .nil
  | _ :: _, h => by
    rw [allOf_cons] at h
    exact .cons (Agrees.self h.1) (AgreeAll.self h.2)

end

mutual

theorem Agrees.walk_visitNodes : ∀ {o p : Outline} {ns ms : List Node}, o.Agrees number p →
    List.Forall₂ (Node.Agrees number) ns ms →
      List.Forall₂ (Node.Agrees number) (o.walk visitNodes ns) (p.walk visitNodes ms)
  | .mk _ os, _, _, _, h, hacc => by
    cases h with
    | mk hnode hall => exact AgreeAll.walk_visitNodes hall (.cons hnode hacc)

theorem AgreeAll.walk_visitNodes : ∀ {os ps : List Outline} {ns ms : List Node},
    AgreeAll number os ps → List.Forall₂ (Node.Agrees number) ns ms →
      List.Forall₂ (Node.Agrees number) (walkAll (offers visitNodes os) ns)
        (walkAll (offers visitNodes ps) ms)
  | [], _, _, _, h, hacc => by
    cases h
    exact hacc
  | _ :: _, _, _, _, h, hacc => by
    cases h with
    | cons ho hos =>
      have hrest := AgreeAll.walk_visitNodes hos (Agrees.walk_visitNodes ho hacc)
      exact hrest

end

end Outline

mutual

/-- A written type has no slots. -/
theorem TypeExpr.agrees : ∀ t : TypeExpr, t.outline.Agrees number t.outline
  | .named _ args _ => .mk (.self rfl) (TypeExpr.agree_all args)
  | .array elem _ => .mk (.self rfl) (.singleton elem.agrees)
  | .dict key value _ => .mk (.self rfl) (.cons key.agrees (.singleton value.agrees))
  | .tuple elems _ => .mk (.self rfl) (TypeExpr.agree_all elems)
  | .func params ret _ =>
    .mk (.self rfl) ((TypeExpr.agree_all params).append (TypeExpr.agree_option ret))
  | .maybe inner _ => .mk (.self rfl) (.singleton inner.agrees)

theorem TypeExpr.agree_all : ∀ ts : List TypeExpr,
    Outline.AgreeAll number (TypeExpr.outlines ts) (TypeExpr.outlines ts)
  | [] => .nil
  | t :: ts => .cons t.agrees (TypeExpr.agree_all ts)

theorem TypeExpr.agree_option : ∀ t : Option TypeExpr,
    Outline.AgreeAll number (TypeExpr.outlineOption t) (TypeExpr.outlineOption t)
  | none => .nil
  | some t => .singleton t.agrees

end

theorem Node.forall₂_preorder {n m : Node} (h : n.outline.Agrees number m.outline) :
    List.Forall₂ (Node.Agrees number) n.preorder m.preorder := by
  have hwalk := Outline.Agrees.walk_visitNodes h .nil
  exact List.forall₂_reverse_iff.mpr hwalk

end Semant
