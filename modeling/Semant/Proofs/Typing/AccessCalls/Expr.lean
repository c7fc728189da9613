import Semant.Proofs.Tree.AccessCalls
import Semant.Proofs.Typing.Evolution

/-! Typing an expression in which accesses are written as calls. It goes through the same states as
typing the expression itself and comes to the same slots, step by step, as long as no local value
has the name of such an access. -/

namespace Semant

open Resolve

def Progress.mapFuncs (F : List FuncDef → List FuncDef) (s : Progress) : Progress :=
  { s with funcs := F s.funcs }

theorem Progress.env_mapFuncs (F : List FuncDef → List FuncDef) (s : Progress) :
    (s.mapFuncs F).env = s.env := rfl

/-- No local name is free. -/
def Env.Clear (free : String → Bool) (env : Env) : Prop :=
  ∀ entry ∈ env.context, free entry.1 = false

theorem Env.Clear.lookup? {free : String → Bool} {env : Env} (h : env.Clear free) {name : String}
    (hname : free name = true) : env.lookup? name = none := by
  rw [Env.lookup?_eq]
  cases hlookup : env.context.lookup name with
  | none => rfl
  | some binding =>
    obtain ⟨_, _, heq, _⟩ := List.lookup_eq_some_iff.mp hlookup
    have hbound := h (name, binding) (heq ▸ List.mem_append_right _ List.mem_cons_self)
    rw [hname] at hbound
    cases hbound

/-- The step `y` does to functions that `F` changes what `x` does to the functions themselves, and
it gives the result of `x` as `g` changes it. -/
def Respells (F : List FuncDef → List FuncDef) (free : String → Bool) {α : Type} (g : α → α)
    (x y : Resolve α) : Prop :=
  ∀ s : Progress, s.env.Clear free →
    y (s.mapFuncs F) = (g (x s).1, (x s).2.mapFuncs F) ∧ (x s).2.env.Clear free

/-- An analysis on demand respells the functions as well, and leaves local names alone. -/
structure RespellsDemand (F : List FuncDef → List FuncDef) (d d' : Demand) : Prop where
  demand : ∀ id s, d' id (s.mapFuncs F) = ((), (d id s).2.mapFuncs F)
  discreet : d.Discreet

namespace Respells

variable {F : List FuncDef → List FuncDef} {free : String → Bool} {α β : Type}

theorem pure (g : α → α) (a : α) : Respells F free g (Pure.pure a) (Pure.pure (g a)) :=
  fun _ hs => ⟨rfl, hs⟩

theorem bind {g : α → α} {h : β → β} {x y : Resolve α} {f f' : α → Resolve β}
    (hx : Respells F free g x y) (hf : ∀ a, Respells F free h (f a) (f' (g a))) :
    Respells F free h (x >>= f) (y >>= f') := by
  intro s hs
  obtain ⟨hrun, hclear⟩ := hx s hs
  rw [bind_apply, bind_apply, hrun]
  exact hf (x s).1 (x s).2 hclear

theorem get : Respells F free (Progress.mapFuncs F) MonadState.get MonadState.get :=
  fun _ hs => ⟨rfl, hs⟩

theorem attempt {step step' : Progress → Except Error α}
    (hstep : ∀ s : Progress, step' (s.mapFuncs F) = step s) :
    Respells F free id (Resolve.attempt step) (Resolve.attempt step') := by
  intro s hs
  have herror : (s.mapFuncs F).error = s.error := rfl
  rcases attempt_cases step s with ⟨a, hok, ha, hrun⟩ | ⟨hfailed, hrun⟩ | ⟨error, hok, he, hrun⟩
  · rw [hrun, attempt_of_ok (herror.trans hok) ((hstep s).trans ha)]
    exact ⟨rfl, hs⟩
  · rw [hrun, attempt_of_failed (herror ▸ hfailed)]
    exact ⟨rfl, hs⟩
  · rw [hrun, attempt_of_error (herror.trans hok) ((hstep s).trans he)]
    exact ⟨rfl, hs⟩

theorem settle (slot : Slot α) {rule rule' : Progress → Except Error α}
    (hrule : ∀ s : Progress, rule' (s.mapFuncs F) = rule s) :
    Respells F free id (Resolve.settle slot rule) (Resolve.settle slot rule') :=
  bind (attempt fun s => by rw [hrule]) fun _ => pure id _

theorem bindCall {d d' : Demand} (hd : RespellsDemand F d d') (name : String)
    (args : Except Error (List Ty)) (callee : Slot SymbolId) (ty : Slot Ty) (loc : Location) :
    Respells F free id (Semant.bindCall d name args callee ty loc)
      (Semant.bindCall d' name args callee ty loc) := by
  refine bind (attempt fun _ => rfl) fun bound => ?_
  cases bound with
  | none => exact pure id _
  | some bound =>
    obtain ⟨overload, callee⟩ := bound
    let last : Resolve (Slot SymbolId × Slot Ty) := do
      let ty ← Resolve.settle ty fun s =>
        Typing.result overload.symbol (s.scope.returnType? overload.id) loc
      return (callee, ty)
    have hsettle : Respells F free id last last :=
      bind (settle ty fun _ => rfl) fun _ => pure id _
    dsimp only [id]
    split
    · refine bind (g := id) (fun s hs => ⟨hd.demand _ s, ?_⟩) fun _ => hsettle
      rw [(hd.discreet _ s).1]
      exact hs
    · exact hsettle

end Respells

/-- Only the place of what is no literal matters. -/
theorem Typing.index_asCalls {free : String → Bool} (marks : Marks) (child position : Ty) (e : Expr)
    (loc : Location) :
    Typing.index child position (e.asCalls free marks) loc = Typing.index child position e loc := by
  have helement : ∀ elems,
      Typing.element elems (e.asCalls free marks) = Typing.element elems e := by
    intro elems
    cases e with
    | member =>
      rw [Expr.asCalls]
      split <;> rfl
    | _ => rfl
  cases child with
  | tuple elems => exact helement elems
  | builtin b => cases b <;> rfl
  | _ => rfl

theorem Typing.condition_asCalls {free : String → Bool} (marks : Marks) (what : String) (e : Expr) :
    Typing.condition what (e.asCalls free marks) = Typing.condition what e := by
  rw [Typing.condition, Typing.condition, Expr.type_asCalls, Expr.loc_asCalls]

/-- A call of a function by its name, where nothing local has the name. -/
theorem Expr.resolve_named {name : String} {s : Progress} (h : s.env.lookup? name = none)
    (d : Demand) (args : List Expr) (callee : Slot SymbolId) (ty : Slot Ty) (loc : Location) :
    (Expr.named name args callee ty loc).resolve d s = (do
      let args ← Expr.resolveAll d args
      let (callee, ty) ← bindCall d name (Expr.types args) callee ty loc
      return Expr.named name args callee ty loc : Resolve Expr) s := by
  have hname : (Expr.var name .unresolved loc).functionName? s.env = some name := by
    rw [Expr.functionName?, h]
    rfl
  rw [Expr.named, Expr.resolve, bind_apply, get_apply]
  simp only [hname]
  rfl

namespace RespellsDemand

variable {F : List FuncDef → List FuncDef} {free : String → Bool} {d d' : Demand}

theorem adopt (written : Ty) (e : Expr) (marks : Marks) :
    Respells F free (Expr.asCalls free marks) (e.adopt written)
      ((e.asCalls free marks).adopt written) := by
  cases e with
  | array | dict => exact .bind (.settle _ fun _ => rfl) fun _ => .pure (Expr.asCalls free marks) _
  | member child name callee ty loc =>
    let access : Expr := .member child name callee ty loc
    have hsame : ∀ s, (access.asCalls free marks).adopt written s =
        (access.asCalls free marks, s) := by
      intro s
      rw [Expr.asCalls]
      split <;> rfl
    exact fun s hs => ⟨hsame _, hs⟩
  | _ => exact .pure (Expr.asCalls free marks) _

mutual

theorem expr (hd : RespellsDemand F d d') : ∀ (e : Expr) (marks : Marks),
    Respells F free (Expr.asCalls free marks) (e.resolve d) ((e.asCalls free marks).resolve d')
  | .literal .., marks => .bind (.settle _ fun _ => rfl) fun _ => .pure (Expr.asCalls free marks) _
  | .array elems .., marks =>
    .bind (hd.exprs elems _) fun _ => .bind (.settle _ fun _ => by rw [Expr.types_asCallsAll])
      fun _ => .pure (Expr.asCalls free marks) _
  | .tuple elems .., marks =>
    .bind (hd.exprs elems _) fun _ => .bind (.settle _ fun _ => by rw [Expr.types_asCallsAll])
      fun _ => .pure (Expr.asCalls free marks) _
  | .dict entries .., marks =>
    .bind (hd.entries entries _) fun _ =>
      .bind (.settle _ fun _ => by rw [Expr.entryTypes_asCallsEntries])
        fun _ => .pure (Expr.asCalls free marks) _
  | .var .., marks => .bind (.settle _ fun _ => rfl) fun _ => .pure (Expr.asCalls free marks) _
  | .call child args callee ty loc, marks => by
    refine .bind .get fun s => ?_
    rw [Expr.functionName?_asCalls, Progress.env_mapFuncs]
    cases child.functionName? s.env with
    | some name =>
      refine .bind (hd.exprs args _) fun _ => ?_
      rw [Expr.types_asCallsAll]
      exact .bind (.bindCall hd _ _ _ _ _) fun _ => .pure (Expr.asCalls free marks) _
    | none =>
      exact .bind (hd.expr child _) fun _ => .bind (hd.exprs args _) fun _ =>
        .bind (.settle _ fun _ => by rw [Expr.type_asCalls, Expr.types_asCallsAll])
          fun _ => .pure (Expr.asCalls free marks) _
  | .construct _ args .., marks =>
    .bind (hd.exprs args _) fun _ => .bind (.settle _ fun _ => rfl)
      fun _ => .pure (Expr.asCalls free marks) _
  | .index child position .., marks =>
    .bind (hd.expr child _) fun _ => .bind (hd.expr position _) fun _ =>
      .bind (.settle _ fun _ => by
        simp only [Expr.type_asCalls, Typing.index_asCalls])
        fun _ => .pure (Expr.asCalls free marks) _
  | .member child name callee ty loc, marks => by
    by_cases hmark : (marks [] && free name) = true
    · have hcall : ∀ child callee ty, (Expr.member child name callee ty loc).asCalls free marks =
          .named name [child.asCalls free (marks.below 0)] callee ty loc := by
        intros
        rw [Expr.asCalls, if_pos hmark]
      intro s hs
      obtain ⟨hchild, hclear⟩ := hd.expr child (marks.below 0) s hs
      obtain ⟨hbind, hclear⟩ := Respells.bindCall hd name (Expr.types [(child.resolve d s).1])
        callee ty loc (child.resolve d s).2 hclear
      -- A call looks its name up before the receiver is typed, and finds nothing local.
      have hfree : (s.mapFuncs F).env.lookup? name = none :=
        hs.lookup? (Bool.and_eq_true_iff.mp hmark).2
      refine ⟨?_, hclear⟩
      rw [hcall, Expr.resolve_named hfree]
      simp only [Expr.resolve, Expr.resolveAll, bind_apply, pure_apply, hchild,
        Expr.types_singleton_asCalls, hbind, hcall, id]
    · have hkept : ∀ child callee ty, (Expr.member child name callee ty loc).asCalls free marks =
          .member (child.asCalls free (marks.below 0)) name callee ty loc := by
        intros
        rw [Expr.asCalls, if_neg hmark]
      rw [hkept]
      refine .bind (hd.expr child _) fun child => ?_
      rw [Expr.types_singleton_asCalls]
      refine .bind (.bindCall hd _ _ _ _ _) fun bound => ?_
      obtain ⟨callee, ty⟩ := bound
      dsimp only [id]
      rw [← hkept]
      exact .pure (Expr.asCalls free marks) _
  | .unary op operand .., marks =>
    .bind (hd.expr operand _) fun _ =>
      .bind (.settle _ fun _ => by
        simp only [Typing.unary, Expr.type_asCalls, Typing.condition_asCalls])
        fun _ => .pure (Expr.asCalls free marks) _
  | .cast child .., marks =>
    .bind (hd.expr child _) fun _ => .bind (.settle _ fun _ => rfl)
      fun _ => .pure (Expr.asCalls free marks) _
  | .binary lhs _ rhs .., marks =>
    .bind (hd.expr rhs _) fun _ => .bind (hd.expr lhs _) fun _ =>
      .bind (.settle _ fun _ => by simp only [Expr.type_asCalls])
        fun _ => .pure (Expr.asCalls free marks) _
  | .choice cond yes no .., marks =>
    .bind (hd.expr cond _) fun _ => .bind (hd.expr yes _) fun _ => .bind (hd.expr no _) fun _ =>
      .bind (.settle _ fun _ => by
        simp only [Typing.choice, Expr.type_asCalls, Typing.condition_asCalls])
        fun _ => .pure (Expr.asCalls free marks) _
  | .typed child written ty loc, marks => by
    refine .bind (.attempt fun _ => rfl) fun ascribed => ?_
    cases ascribed with
    | none => exact .pure (Expr.asCalls free marks) _
    | some ascribed =>
      dsimp only [id]
      rw [Expr.adopts_asCalls]
      split
      · exact .bind (adopt ascribed child _) fun _ =>
          .bind (.settle _ fun _ => by rw [Expr.type_asCalls])
            fun _ => .pure (Expr.asCalls free marks) _
      · exact .bind (hd.expr child _) fun _ =>
          .bind (.settle _ fun _ => by rw [Expr.type_asCalls])
            fun _ => .pure (Expr.asCalls free marks) _

theorem exprs (hd : RespellsDemand F d d') : ∀ (es : List Expr) (marks : Marks),
    Respells F free (Expr.asCallsAll free marks) (Expr.resolveAll d es)
      (Expr.resolveAll d' (Expr.asCallsAll free marks es))
  | [], _ => .pure _ _
  | e :: es, _ => .bind (hd.expr e _) fun _ => .bind (hd.exprs es _) fun _ =>
    .pure (Expr.asCallsAll free _) _

theorem entries (hd : RespellsDemand F d d') : ∀ (es : List (Expr × Expr)) (marks : Marks),
    Respells F free (Expr.asCallsEntries free marks) (Expr.resolveEntries d es)
      (Expr.resolveEntries d' (Expr.asCallsEntries free marks es))
  | [], _ => .pure _ _
  | (key, value) :: es, _ =>
    .bind (hd.expr key _) fun _ => .bind (hd.expr value _) fun _ =>
      .bind (hd.entries es _) fun _ => .pure (Expr.asCallsEntries free _) _

end

end RespellsDemand

end Semant
