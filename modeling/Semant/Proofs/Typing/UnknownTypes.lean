import Semant.Proofs.Tree.Children
import Semant.Proofs.Typing.KnownTypes
import Semant.Proofs.Typing.TypeParts

/-! Which written types are refused, and with which error. The names of a written type are looked up
in the order in which a walk meets them, so the error is about the first name that is not known. -/

namespace Semant

open Outcome

variable {σ : Scope} {α β : Type}

/-- How it ends to look up the names in `nodes`: well if all of them are known, and otherwise with
an error about the first that is not. -/
inductive Scope.Reads (σ : Scope) : List Node → Except Error α → Prop
  | all {nodes : List Node} {a : α} : (∀ node ∈ nodes, σ.Knows node) → Reads σ nodes (.ok a)
  | stop {before after : List Node} {name : String} {args : List TypeExpr} {loc : Location} :
      (∀ node ∈ before, σ.Knows node) → ¬ σ.Knows (.type (.named name args loc)) →
      Reads σ (before ++ .type (.named name args loc) :: after)
        (.error (.semantic .unknownType ("unknown type '" ++ name ++ "'") loc))

namespace Scope.Reads

variable {nodes nodes' : List Node} {x : Except Error α}

theorem append_left (h : ∀ node ∈ nodes, σ.Knows node) (hx : σ.Reads nodes' x) :
    σ.Reads (nodes ++ nodes') x := by
  cases hx with
  | all h' => exact .all (List.forall_mem_append.mpr ⟨h, h'⟩)
  | stop h' hname =>
    rw [← List.append_assoc]
    exact .stop (List.forall_mem_append.mpr ⟨h, h'⟩) hname

theorem cons {node : Node} (h : σ.Knows node) (hx : σ.Reads nodes x) :
    σ.Reads (node :: nodes) x :=
  append_left (List.forall_mem_singleton.mpr h) hx

theorem bind {f : α → Except Error β} (hx : σ.Reads nodes x) (hf : ∀ a, σ.Reads nodes' (f a)) :
    σ.Reads (nodes ++ nodes') (x >>= f) := by
  cases hx with
  | all h => exact append_left h (hf _)
  | stop h hname =>
    rw [List.append_assoc]
    exact .stop h hname

theorem map (hx : σ.Reads nodes x) (f : α → β) : σ.Reads nodes (x >>= fun a => pure (f a)) := by
  have h := hx.bind fun a => (.all (List.forall_mem_nil _) : σ.Reads [] (pure (f a)))
  rwa [List.append_nil] at h

theorem first_unknown {error : Error} (h : σ.Reads nodes (.error error : Except Error α)) :
    ∃ (before after : List Node) (name : String) (args : List TypeExpr) (loc : Location),
      nodes = before ++ .type (.named name args loc) :: after ∧
      (∀ node ∈ before, σ.Knows node) ∧ ¬ σ.Knows (.type (.named name args loc)) ∧
      error = .semantic .unknownType ("unknown type '" ++ name ++ "'") loc := by
  cases h with
  | stop hbefore hname => exact ⟨_, _, _, _, _, rfl, hbefore, hname, rfl⟩

end Scope.Reads

theorem Scope.knows_named {name : String} {args : List TypeExpr} {loc : Location} :
    σ.Knows (.type (.named name args loc)) ↔
      (args = [] ∧ (Builtin.ofName? name).isSome = true) ∨ (σ.lookupClass? name).isSome = true := by
  simp [Scope.Knows, Scope.lookupClass?]

/-- The nodes of a written type: the type, then those of its parts. -/
theorem TypeExpr.preorder_eq (t : TypeExpr) :
    (Node.type t).preorder = .type t :: t.children.flatMap Node.preorder :=
  Node.preorder_children _

mutual

theorem TypeExpr.reads (σ : Scope) : ∀ t : TypeExpr, σ.Reads (Node.type t).preorder (t.resolve σ)
  | .named name args loc => by
    rw [TypeExpr.preorder_eq]
    by_cases hb : ∃ b, args = [] ∧ Builtin.ofName? name = some b
    · obtain ⟨b, rfl, hb⟩ := hb
      rw [TypeExpr.resolve.eq_1 _ _ _ b hb]
      have hsome : (Builtin.ofName? name).isSome = true := by rw [hb]; rfl
      exact .all (List.forall_mem_singleton.mpr (Scope.knows_named.mpr (.inl ⟨rfl, hsome⟩)))
    · have hother : ∀ b, args = [] → Builtin.ofName? name = some b → False :=
        fun b hargs hname => hb ⟨b, hargs, hname⟩
      rw [TypeExpr.resolve.eq_2 _ _ _ _ hother]
      cases hid : σ.lookupClass? name with
      | none =>
        refine @Scope.Reads.stop _ σ [] _ name args loc (List.forall_mem_nil _) fun hknows => ?_
        rcases Scope.knows_named.mp hknows with ⟨hargs, hname⟩ | hclass
        · obtain ⟨b, hname⟩ := Option.isSome_iff_exists.mp hname
          exact hother b hargs hname
        · rw [hid] at hclass
          cases hclass
      | some id =>
        refine .cons (Scope.knows_named.mpr (.inr (by rw [hid]; rfl))) ?_
        exact (TypeExpr.readsAll σ args).map fun tys => Ty.object name tys (some id)
  | .array elem _ => by
    rw [TypeExpr.preorder_eq, TypeExpr.resolve]
    refine .cons trivial ?_
    simpa [TypeExpr.children] using (elem.reads σ).map Ty.array
  | .dict key value _ => by
    rw [TypeExpr.preorder_eq, TypeExpr.resolve]
    refine .cons trivial ?_
    simpa [TypeExpr.children] using
      (key.reads σ).bind fun k => (value.reads σ).map (Ty.dict k)
  | .tuple elems _ => by
    rw [TypeExpr.preorder_eq, TypeExpr.resolve]
    exact .cons trivial ((TypeExpr.readsAll σ elems).map Ty.tuple)
  | .func params none _ => by
    rw [TypeExpr.preorder_eq, TypeExpr.resolve]
    refine .cons trivial ?_
    simpa [TypeExpr.children] using (TypeExpr.readsAll σ params).map Ty.proc
  | .func params (some ret) _ => by
    rw [TypeExpr.preorder_eq, TypeExpr.resolve]
    refine .cons trivial ?_
    simpa [TypeExpr.children] using
      (TypeExpr.readsAll σ params).bind fun tys => (ret.reads σ).map (Ty.func tys)
  | .maybe inner _ => by
    rw [TypeExpr.preorder_eq, TypeExpr.resolve]
    refine .cons trivial ?_
    simpa [TypeExpr.children] using (inner.reads σ).map Ty.maybe

theorem TypeExpr.readsAll (σ : Scope) : ∀ ts : List TypeExpr,
    σ.Reads ((ts.map Node.type).flatMap Node.preorder) (TypeExpr.resolveAll σ ts)
  | [] => .all (List.forall_mem_nil _)
  | t :: ts => by
    rw [TypeExpr.resolveAll]
    exact (t.reads σ).bind fun ty => (TypeExpr.readsAll σ ts).map (ty :: ·)

end

/-- A written type is read if and only if all names in it are known. It then has the form of what is
written, and no range. If a name is not known, the error is about the first such name that a walk
meets. -/
theorem TypeExpr.resolve_exact (σ : Scope) (t : TypeExpr) :
    ((∃ ty, t.resolve σ = .ok ty) ↔ ∀ node ∈ (Node.type t).preorder, σ.Knows node) ∧
      (∀ ty, t.resolve σ = .ok ty ↔ t.Denotes σ ty) ∧
      (∀ ty, t.resolve σ = .ok ty → ty.RangeFree) ∧
      ∀ error, t.resolve σ = .error error →
        ∃ (before after : List Node) (name : String) (args : List TypeExpr) (loc : Location),
          (Node.type t).preorder = before ++ .type (.named name args loc) :: after ∧
          (∀ node ∈ before, σ.Knows node) ∧ ¬ σ.Knows (.type (.named name args loc)) ∧
          error = .semantic .unknownType ("unknown type '" ++ name ++ "'") loc := by
  have hreads := t.reads σ
  refine ⟨⟨?_, fun hknown => ?_⟩, fun ty => TypeExpr.resolve_eq_ok,
    fun ty h => (TypeExpr.denotes h).wellFormed.rangeFree, fun error h => ?_⟩
  · rintro ⟨ty, h⟩
    exact Node.forall_preorder.mpr (TypeExpr.known h)
  · cases h : t.resolve σ with
    | ok ty => exact ⟨ty, rfl⟩
    | error error =>
      rw [h] at hreads
      obtain ⟨_, _, _, _, _, hnodes, _, hname, _⟩ := hreads.first_unknown
      exact (hname (hknown _ (hnodes ▸ List.mem_append_right _ List.mem_cons_self))).elim
  · rw [h] at hreads
    exact hreads.first_unknown

end Semant
