import Semant.Proofs.Typing.FailStop

/-! The walk of a tree written down as a script of the checks that it makes. A script is that of a
certain step, so it is a view of type resolution and no second one. It can be carried out up to the
first check that is refused, and then going on makes no difference. -/

namespace Semant

open Resolve

theorem Progress.failed_iff {s : Progress} : s.failed = true ↔ s.error ≠ none :=
  Option.isSome_iff_ne_none

theorem Progress.not_failed_iff {s : Progress} : ¬s.failed = true ↔ s.error = none := by
  rw [Progress.failed_iff, not_not]

section

variable {α β : Type}

/-- A check that is made even if there is an error. Where it is refused, `kept` is given back. -/
def Resolve.made (step : Progress → Except Error α) (kept : β)
    (accept : α → Progress → β × Progress) : Resolve β :=
  fun s =>
    match step s with
    | .ok a => accept a s
    | .error error => (kept, { s with error := some error })

theorem Resolve.attempt_bind (step : Progress → Except Error α) {f : Option α → Resolve β}
    {kept : β} (h : f none = pure kept) (s : Progress) :
    (attempt step >>= f) s =
      if s.failed then (kept, s) else made step kept (fun a => f (some a)) s := by
  rw [bind_apply]
  rcases attempt_cases step s with ⟨a, hs, ha, hrun⟩ | ⟨hs, hrun⟩ | ⟨error, hs, he, hrun⟩
  · rw [if_neg (Progress.not_failed_iff.mpr hs), hrun, made, ha]
  · rw [if_pos (Progress.failed_iff.mpr hs), hrun, h, pure_apply]
  · rw [if_neg (Progress.not_failed_iff.mpr hs), hrun, h, made, he, pure_apply]

/-- How a step is put together, under any demand. Only a check can be refused, and it is not made
where there is an error. -/
inductive Script : {α : Type} → (Demand → Resolve α) → Type 1
  | pure {α : Type} (a : α) : Script fun _ => Pure.pure a
  | bind {α β : Type} {x : Demand → Resolve α} {f : α → Demand → Resolve β} (first : Script x)
      (rest : ∀ a, Script (f a)) : Script fun d => x d >>= fun a => f a d
  | get : Script fun _ => MonadState.get
  | check {α β : Type} (step : Progress → Except Error α) (kept : β)
      (accept : α → Progress → β × Progress) {x : Resolve β}
      (guarded : ∀ s, x s = if s.failed then (kept, s) else made step kept accept s) :
      Script fun _ => x
  | demand (id : DefId) : Script fun d => d id
  | inScope {α : Type} {x : Demand → Resolve α} (inner : Script x) :
      Script fun d => Resolve.inScope (x d)

/-- Where there is an error `d` does nothing, and elsewhere it does what `d'` does. -/
structure Demand.StopsAs (d d' : Demand) : Prop where
  inert : ∀ id s, s.error ≠ none → d id s = ((), s)
  agrees : ∀ id s, s.error = none → d id s = d' id s

namespace Script

/-- What a step gives back if it does nothing. -/
def skip {α : Type} {x : Demand → Resolve α} : Script x → Progress → α
  | pure a, _ => a
  | bind first rest, s => (rest (first.skip s)).skip s
  | get, s => s
  | check _ kept _ _, _ => kept
  | demand _, _ => ()
  | inScope inner, s => inner.skip { s with env := s.env.push }

/-- Makes one check after the other and returns at the first error: the rest is skipped, and only
the scopes that are open are still closed. -/
def untilError {α : Type} {x : Demand → Resolve α} (d : Demand) : Script x → Resolve α
  | pure a => fun s => (a, s)
  | bind first rest => fun s =>
    let r := first.untilError d s
    if r.2.failed then ((rest r.1).skip r.2, r.2) else (rest r.1).untilError d r.2
  | get => fun s => (s, s)
  | check step kept accept _ => made step kept accept
  | demand id => d id
  | inScope inner => Resolve.inScope (inner.untilError d)

theorem run_failed {d d' : Demand} (hd : d.StopsAs d') {x : Demand → Resolve α} (script : Script x)
    {s : Progress} (hs : s.error ≠ none) : x d s = (script.skip s, s) := by
  induction script generalizing s with
  | pure a => rfl
  | bind first rest ihfirst ihrest =>
    dsimp only
    rw [bind_apply, ihfirst hs, ihrest _ hs, skip]
  | get => rfl
  | check step kept accept guarded =>
    dsimp only
    rw [guarded, if_pos (Progress.failed_iff.mpr hs), skip]
  | demand id => exact hd.inert id s hs
  | inScope inner ih => exact inScope_of_eq (ih hs)

/-- Going on after the first error comes to the same as returning. -/
theorem run_eq_untilError {d d' : Demand} (hd : d.StopsAs d') {x : Demand → Resolve α}
    (script : Script x) {s : Progress} (hs : s.error = none) : x d s = script.untilError d' s := by
  induction script generalizing s with
  | pure a => rfl
  | bind first rest ihfirst ihrest =>
    dsimp only
    rw [bind_apply, ihfirst hs, untilError]
    dsimp only
    by_cases hfirst : (first.untilError d' s).2.failed = true
    · rw [if_pos hfirst]
      exact run_failed hd _ (Progress.failed_iff.mp hfirst)
    · rw [if_neg hfirst]
      exact ihrest _ (Progress.not_failed_iff.mp hfirst)
  | get => rfl
  | check step kept accept guarded =>
    dsimp only
    rw [guarded, if_neg (Progress.not_failed_iff.mpr hs), untilError]
  | demand id => exact hd.agrees id s hs
  | inScope inner ih =>
    have hinner := ih (s := { s with env := s.env.push }) hs
    dsimp only
    rw [inScope_apply, hinner, untilError, inScope_apply]

def either (b : Bool) {x y : Demand → Resolve α} (yes : Script x) (no : Script y) :
    Script fun d => if b then x d else y d :=
  match b with
  | true => yes
  | false => no

def attempt (step : Progress → Except Error α) : Script fun _ => Resolve.attempt step :=
  check step none (fun a s => (some a, s)) fun _ => rfl

def settle (slot : Slot α) (rule : Progress → Except Error α) :
    Script fun _ => Resolve.settle slot rule :=
  bind (attempt _) fun _ => pure _

def require (rule : Progress → Except Error Unit) : Script fun _ => Resolve.check rule :=
  bind (attempt _) fun _ => pure _

def introduce (b : Binder) (rule : Scope → Except Error Ty) :
    Script fun _ => Resolve.introduce b rule :=
  check _ b _ (attempt_bind _ rfl)

def checkReturn (values : List Expr) (loc : Location) :
    Script fun _ => Stmt.checkReturn values loc :=
  check _ () _ (attempt_bind _ rfl)

def bindCall (name : String) (args : Except Error (List Ty)) (callee : Slot SymbolId)
    (ty : Slot Ty) (loc : Location) :
    Script fun d => Semant.bindCall d name args callee ty loc :=
  bind (attempt _) fun
    | none => pure _
    | some _ =>
      either _ (bind (demand _) fun _ => bind (settle _ _) fun _ => pure _)
        (bind (settle _ _) fun _ => pure _)

def adopt (written : Ty) : ∀ e : Expr, Script fun _ => e.adopt written
  | .array .. | .dict .. => bind (settle _ _) fun _ => pure _
  | .literal .. | .tuple .. | .var .. | .call .. | .construct .. | .index .. | .member ..
  | .unary .. | .cast .. | .binary .. | .choice .. | .typed .. => pure _

mutual

/-- The parts of an expression, in the order in which they are typed, and then its own check. -/
def expr : ∀ e : Expr, Script fun d => e.resolve d
  | .literal .. | .var .. => bind (settle _ _) fun _ => pure _
  | .array elems .. | .tuple elems .. | .construct _ elems .. =>
    bind (exprs elems) fun _ => bind (settle _ _) fun _ => pure _
  | .dict es .. => bind (entries es) fun _ => bind (settle _ _) fun _ => pure _
  | .call child args .. => bind get fun s =>
    -- Which parts are typed depends on the local names.
    match child.functionName? s.env with
    | some _ => bind (exprs args) fun _ => bind (bindCall ..) fun _ => pure _
    | none =>
      bind (expr child) fun _ => bind (exprs args) fun _ => bind (settle _ _) fun _ => pure _
  | .index child position .. =>
    bind (expr child) fun _ => bind (expr position) fun _ =>
      bind (settle _ _) fun _ => pure _
  | .member child .. => bind (expr child) fun _ => bind (bindCall ..) fun _ => pure _
  | .unary _ child .. | .cast child .. =>
    bind (expr child) fun _ => bind (settle _ _) fun _ => pure _
  | .binary lhs _ rhs .. =>
    bind (expr rhs) fun _ => bind (expr lhs) fun _ =>
      bind (settle _ _) fun _ => pure _
  | .choice cond yes no .. =>
    bind (expr cond) fun _ => bind (expr yes) fun _ => bind (expr no) fun _ =>
      bind (settle _ _) fun _ => pure _
  | .typed child .. => bind (attempt _) fun
    | none => pure _
    | some written =>
      either _ (bind (adopt written child) fun _ => bind (settle _ _) fun _ => pure _)
        (bind (expr child) fun _ => bind (settle _ _) fun _ => pure _)

def exprs : ∀ es : List Expr, Script fun d => Expr.resolveAll d es
  | [] => pure _
  | e :: es => bind (expr e) fun _ => bind (exprs es) fun _ => pure _

def entries : ∀ es : List (Expr × Expr), Script fun d => Expr.resolveEntries d es
  | [] => pure _
  | (key, value) :: es =>
    bind (expr key) fun _ => bind (expr value) fun _ => bind (entries es) fun _ => pure _

end

def declareAll : ∀ (bs : List Binder) (values : Option (List Ty)),
    Script fun _ => Semant.declareAll bs values
  | [], _ => pure _
  | b :: bs, _ => bind (introduce b _) fun _ => bind (declareAll bs _) fun _ => pure _

def bindLoop : ∀ (bs : List Binder) (tys : List Ty), Script fun _ => Semant.bindLoop bs tys
  | [], _ | _ :: _, [] => pure _
  | b :: bs, _ :: tys => bind (introduce b _) fun _ => bind (bindLoop bs tys) fun _ => pure _

def introduceNames (decl : Declaration) : Script fun _ => decl.introduceNames :=
  bind (attempt _) fun
    | none => pure _
    | some values => bind (declareAll decl.binders values) fun _ => pure _

def declaration : ∀ decl : Declaration, Script fun d => decl.resolve d
  | ⟨binders, none, loc⟩ => introduceNames ⟨binders, none, loc⟩
  | ⟨binders, some values, loc⟩ =>
    show Script fun d => Expr.resolveAll d values >>= fun values =>
        Declaration.introduceNames ⟨binders, some values, loc⟩ from
      bind (exprs values) fun _ => introduceNames _

def declarations : ∀ decls : List Declaration, Script fun d => Declaration.resolveAll d decls
  | [] => pure _
  | decl :: decls => bind (declaration decl) fun _ => bind (declarations decls) fun _ => pure _

mutual

def stmt : ∀ st : Stmt, Script fun d => st.resolve d
  | .declare decl => bind (declaration decl) fun _ => pure _
  | .assign targets values _ =>
    bind (exprs targets) fun _ => bind (exprs values) fun _ => bind (require _) fun _ => pure _
  | .branch _ cond body clauses rest _ =>
    bind (expr cond) fun _ => bind (block body) fun _ => bind (elseIfs clauses) fun _ =>
      bind (otherwise rest) fun _ => bind (require _) fun _ => pure _
  | .ret values _ => bind (exprs values) fun _ => bind (checkReturn _ _) fun _ => pure _
  | .case clauses rest _ =>
    bind (whens clauses) fun _ => bind (otherwise rest) fun _ => bind (require _) fun _ => pure _
  | .switch target clauses rest _ =>
    bind (expr target) fun _ => bind (whens clauses) fun _ => bind (otherwise rest) fun _ =>
      bind (require _) fun _ => pure _
  | .forIn _ range body _ =>
    inScope <| bind (expr range) fun _ => bind (attempt _) fun _ => bind (bindLoop _ _) fun _ =>
      bind (block body) fun _ => pure _
  | .whileDo cond body _ =>
    bind (expr cond) fun _ => bind (block body) fun _ => bind (require _) fun _ => pure _
  | .trailingIf body _ cond _ =>
    bind (stmt body) fun _ => bind (expr cond) fun _ => bind (require _) fun _ => pure _
  | .letIn inits body _ =>
    inScope <| bind (declarations inits) fun _ => bind (stmt body) fun _ => pure _
  | .expr e => bind (expr e) fun _ => pure _
  | .block b => bind (block b) fun _ => pure _

def block : ∀ b : Block, Script fun d => b.resolve d
  | .mk ss _ => inScope <| bind (stmts ss) fun _ => pure _

def stmts : ∀ ss : List Stmt, Script fun d => Stmt.resolveAll d ss
  | [] => pure _
  | s :: ss => bind (stmt s) fun _ => bind (stmts ss) fun _ => pure _

def elseIfs : ∀ clauses : List (Clause Expr Block), Script fun d => Stmt.resolveElseIfs d clauses
  | [] => pure _
  | ⟨cond, body⟩ :: rest =>
    bind (expr cond) fun _ => bind (block body) fun _ => bind (elseIfs rest) fun _ => pure _

def whens : ∀ clauses : List (Clause (List Expr) Block),
    Script fun d => Stmt.resolveWhens d clauses
  | [] => pure _
  | ⟨conds, body⟩ :: rest =>
    bind (exprs conds) fun _ => bind (block body) fun _ => bind (whens rest) fun _ => pure _

def otherwise : ∀ body : Option Block, Script fun d => Stmt.resolveOtherwise d body
  | none => pure _
  | some body => bind (block body) fun _ => pure _

end

end Script

end

end Semant
