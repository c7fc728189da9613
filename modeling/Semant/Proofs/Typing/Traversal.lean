import Semant.Typing.Stmt

/-! Type resolution is put together from a few steps. A property of steps that holds of these and
is kept when steps follow one another holds of the resolution of every tree. So does a relation
between the steps under two demands. -/

namespace Semant

open Resolve

namespace Resolve

variable {α β : Type}

theorem bind_apply (x : Resolve α) (f : α → Resolve β) (s : Progress) :
    (x >>= f) s = f (x s).1 (x s).2 := rfl

theorem pure_apply (a : α) (s : Progress) : (pure a : Resolve α) s = (a, s) := rfl

theorem get_apply (s : Progress) : (get : Resolve Progress) s = (s, s) := rfl

theorem inScope_apply (x : Resolve α) (s : Progress) :
    inScope x s =
      let r := x { s with env := s.env.push }
      (r.1, { r.2 with env := r.2.env.pop }) := rfl

end Resolve

namespace Declaration

/-- What is left of a declaration once its values are typed. -/
def introduceNames (decl : Declaration) : Resolve Declaration := do
  match ← attempt fun _ => decl.valueTypes with
  | none => return decl
  | some values => return { decl with binders := ← declareAll decl.binders values }

theorem resolve_bare (d : Demand) (binders : List Binder) (loc : Location) :
    resolve d ⟨binders, none, loc⟩ = introduceNames ⟨binders, none, loc⟩ := rfl

theorem resolve_valued (d : Demand) (binders : List Binder) (values : List Expr) (loc : Location) :
    resolve d ⟨binders, some values, loc⟩ =
      Expr.resolveAll d values >>= fun values => introduceNames ⟨binders, some values, loc⟩ := rfl

end Declaration

/-- The steps that expressions are typed by, where two demands are compared. -/
structure Related (d d' : Demand) (R : ∀ ⦃α : Type⦄, Resolve α → Resolve α → Prop) : Prop where
  pure : ∀ {α : Type} (a : α), R (Pure.pure a : Resolve α) (Pure.pure a)
  bind : ∀ {α β : Type} {x y : Resolve α} {f g : α → Resolve β},
    R x y → (∀ a, R (f a) (g a)) → R (x >>= f) (y >>= g)
  get : R (MonadState.get : Resolve Progress) MonadState.get
  attempt : ∀ {α : Type} (step : Progress → Except Error α),
    R (Resolve.attempt step) (Resolve.attempt step)
  call : ∀ name args callee ty loc,
    R (bindCall d name args callee ty loc) (bindCall d' name args callee ty loc)

/-- The steps that statements are typed by. -/
structure RelatedStmt (d d' : Demand) (R : ∀ ⦃α : Type⦄, Resolve α → Resolve α → Prop) : Prop
    extends Related d d' R where
  define : ∀ name binding,
    R (modifyEnv (·.define name binding)) (modifyEnv (·.define name binding))
  inScope : ∀ {α : Type} {x y : Resolve α}, R x y → R (Resolve.inScope x) (Resolve.inScope y)
  checkReturn : ∀ values loc, R (Stmt.checkReturn values loc) (Stmt.checkReturn values loc)

section

variable {d d' : Demand} {R : ∀ ⦃α : Type⦄, Resolve α → Resolve α → Prop}

namespace Related

theorem settle (h : Related d d' R) {α : Type} (slot : Slot α) (rule : Progress → Except Error α) :
    R (Resolve.settle slot rule) (Resolve.settle slot rule) :=
  h.bind (h.attempt _) fun _ => h.pure _

theorem check (h : Related d d' R) (rule : Progress → Except Error Unit) :
    R (Resolve.check rule) (Resolve.check rule) :=
  h.bind (h.attempt _) fun _ => h.pure _

theorem adopt (h : Related d d' R) (written : Ty) (e : Expr) :
    R (e.adopt written) (e.adopt written) := by
  cases e with
  | array | dict => exact h.bind (h.settle _ _) fun _ => h.pure _
  | _ => exact h.pure _

mutual

theorem expr (h : Related d d' R) : ∀ e : Expr, R (e.resolve d) (e.resolve d')
  | .literal .. | .var .. => h.bind (h.settle _ _) fun _ => h.pure _
  | .array elems .. | .tuple elems .. | .construct _ elems .. =>
    h.bind (h.exprs elems) fun _ => h.bind (h.settle _ _) fun _ => h.pure _
  | .dict entries .. => h.bind (h.entries entries) fun _ => h.bind (h.settle _ _) fun _ => h.pure _
  | .call child args .. => by
    refine h.bind h.get fun s => ?_
    cases child.functionName? s.env with
    | some name => exact h.bind (h.exprs args) fun _ => h.bind (h.call ..) fun _ => h.pure _
    | none =>
      exact h.bind (h.expr child) fun _ => h.bind (h.exprs args) fun _ =>
        h.bind (h.settle _ _) fun _ => h.pure _
  | .index child position .. =>
    h.bind (h.expr child) fun _ => h.bind (h.expr position) fun _ =>
      h.bind (h.settle _ _) fun _ => h.pure _
  | .member child .. => h.bind (h.expr child) fun _ => h.bind (h.call ..) fun _ => h.pure _
  | .unary _ child .. | .cast child .. =>
    h.bind (h.expr child) fun _ => h.bind (h.settle _ _) fun _ => h.pure _
  | .binary lhs _ rhs .. =>
    h.bind (h.expr rhs) fun _ => h.bind (h.expr lhs) fun _ =>
      h.bind (h.settle _ _) fun _ => h.pure _
  | .choice cond yes no .. =>
    h.bind (h.expr cond) fun _ => h.bind (h.expr yes) fun _ => h.bind (h.expr no) fun _ =>
      h.bind (h.settle _ _) fun _ => h.pure _
  | .typed child .. => by
    refine h.bind (h.attempt _) fun written => ?_
    cases written with
    | none => exact h.pure _
    | some written =>
      dsimp only
      split
      · exact h.bind (h.adopt written child) fun _ => h.bind (h.settle _ _) fun _ => h.pure _
      · exact h.bind (h.expr child) fun _ => h.bind (h.settle _ _) fun _ => h.pure _

theorem exprs (h : Related d d' R) :
    ∀ es : List Expr, R (Expr.resolveAll d es) (Expr.resolveAll d' es)
  | [] => h.pure _
  | e :: es => h.bind (h.expr e) fun _ => h.bind (h.exprs es) fun _ => h.pure _

theorem entries (h : Related d d' R) :
    ∀ es : List (Expr × Expr), R (Expr.resolveEntries d es) (Expr.resolveEntries d' es)
  | [] => h.pure _
  | (key, value) :: es =>
    h.bind (h.expr key) fun _ => h.bind (h.expr value) fun _ =>
      h.bind (h.entries es) fun _ => h.pure _

end

end Related

namespace RelatedStmt

theorem introduce (h : RelatedStmt d d' R) (b : Binder) (rule : Scope → Except Error Ty) :
    R (Resolve.introduce b rule) (Resolve.introduce b rule) := by
  refine h.bind (h.attempt _) fun introduced => ?_
  cases introduced with
  | none => exact h.pure _
  | some => exact h.bind (h.define _ _) fun _ => h.pure _

theorem declareAll (h : RelatedStmt d d' R) (bs : List Binder) (values : Option (List Ty)) :
    R (Semant.declareAll bs values) (Semant.declareAll bs values) := by
  induction bs generalizing values with
  | nil => exact h.pure _
  | cons b bs ih => exact h.bind (h.introduce b _) fun _ => h.bind (ih _) fun _ => h.pure _

theorem bindLoop (h : RelatedStmt d d' R) (bs : List Binder) (tys : List Ty) :
    R (Semant.bindLoop bs tys) (Semant.bindLoop bs tys) := by
  induction bs generalizing tys with
  | nil => exact h.pure _
  | cons b bs ih =>
    cases tys with
    | nil => exact h.pure _
    | cons ty tys => exact h.bind (h.introduce b _) fun _ => h.bind (ih _) fun _ => h.pure _

theorem introduceNames (h : RelatedStmt d d' R) (decl : Declaration) :
    R decl.introduceNames decl.introduceNames := by
  refine h.bind (h.attempt _) fun values => ?_
  cases values with
  | none => exact h.pure _
  | some values => exact h.bind (h.declareAll _ _) fun _ => h.pure _

theorem declaration (h : RelatedStmt d d' R) (decl : Declaration) :
    R (decl.resolve d) (decl.resolve d') := by
  obtain ⟨binders, _ | values, loc⟩ := decl
  · rw [Declaration.resolve_bare, Declaration.resolve_bare]
    exact h.introduceNames _
  · rw [Declaration.resolve_valued, Declaration.resolve_valued]
    exact h.bind (h.exprs values) fun _ => h.introduceNames _

theorem declarations (h : RelatedStmt d d' R) :
    ∀ decls : List Declaration, R (Declaration.resolveAll d decls) (Declaration.resolveAll d' decls)
  | [] => h.pure _
  | decl :: decls =>
    h.bind (h.declaration decl) fun _ => h.bind (h.declarations decls) fun _ => h.pure _

mutual

theorem stmt (h : RelatedStmt d d' R) : ∀ st : Stmt, R (st.resolve d) (st.resolve d')
  | .declare decl => h.bind (h.declaration decl) fun _ => h.pure _
  | .assign targets values _ =>
    h.bind (h.exprs targets) fun _ => h.bind (h.exprs values) fun _ =>
      h.bind (h.check _) fun _ => h.pure _
  | .branch _ cond body elseIfs otherwise _ =>
    h.bind (h.expr cond) fun _ => h.bind (h.block body) fun _ =>
      h.bind (h.elseIfs elseIfs) fun _ => h.bind (h.otherwise otherwise) fun _ =>
        h.bind (h.check _) fun _ => h.pure _
  | .ret values _ => h.bind (h.exprs values) fun _ => h.bind (h.checkReturn _ _) fun _ => h.pure _
  | .case whens otherwise _ =>
    h.bind (h.whens whens) fun _ => h.bind (h.otherwise otherwise) fun _ =>
      h.bind (h.check _) fun _ => h.pure _
  | .switch target whens otherwise _ =>
    h.bind (h.expr target) fun _ => h.bind (h.whens whens) fun _ =>
      h.bind (h.otherwise otherwise) fun _ => h.bind (h.check _) fun _ => h.pure _
  | .forIn _ range body _ =>
    h.inScope <| h.bind (h.expr range) fun _ => h.bind (h.attempt _) fun _ =>
      h.bind (h.bindLoop _ _) fun _ => h.bind (h.block body) fun _ => h.pure _
  | .whileDo cond body _ =>
    h.bind (h.expr cond) fun _ => h.bind (h.block body) fun _ =>
      h.bind (h.check _) fun _ => h.pure _
  | .trailingIf body _ cond _ =>
    h.bind (h.stmt body) fun _ => h.bind (h.expr cond) fun _ =>
      h.bind (h.check _) fun _ => h.pure _
  | .letIn inits body _ =>
    h.inScope <| h.bind (h.declarations inits) fun _ => h.bind (h.stmt body) fun _ => h.pure _
  | .expr e => h.bind (h.expr e) fun _ => h.pure _
  | .block b => h.bind (h.block b) fun _ => h.pure _

theorem block (h : RelatedStmt d d' R) : ∀ b : Block, R (b.resolve d) (b.resolve d')
  | .mk stmts _ => h.inScope <| h.bind (h.stmts stmts) fun _ => h.pure _

theorem stmts (h : RelatedStmt d d' R) :
    ∀ ss : List Stmt, R (Stmt.resolveAll d ss) (Stmt.resolveAll d' ss)
  | [] => h.pure _
  | s :: ss => h.bind (h.stmt s) fun _ => h.bind (h.stmts ss) fun _ => h.pure _

theorem elseIfs (h : RelatedStmt d d' R) :
    ∀ clauses : List (Clause Expr Block),
      R (Stmt.resolveElseIfs d clauses) (Stmt.resolveElseIfs d' clauses)
  | [] => h.pure _
  | ⟨cond, body⟩ :: rest =>
    h.bind (h.expr cond) fun _ => h.bind (h.block body) fun _ =>
      h.bind (h.elseIfs rest) fun _ => h.pure _

theorem whens (h : RelatedStmt d d' R) :
    ∀ clauses : List (Clause (List Expr) Block),
      R (Stmt.resolveWhens d clauses) (Stmt.resolveWhens d' clauses)
  | [] => h.pure _
  | ⟨conds, body⟩ :: rest =>
    h.bind (h.exprs conds) fun _ => h.bind (h.block body) fun _ =>
      h.bind (h.whens rest) fun _ => h.pure _

theorem otherwise (h : RelatedStmt d d' R) :
    ∀ body : Option Block, R (Stmt.resolveOtherwise d body) (Stmt.resolveOtherwise d' body)
  | none => h.pure _
  | some body => h.bind (h.block body) fun _ => h.pure _

end

end RelatedStmt

end

/-- The steps under one demand. -/
structure Closed (d : Demand) (R : ∀ ⦃α : Type⦄, Resolve α → Prop) : Prop where
  pure : ∀ {α : Type} (a : α), R (Pure.pure a : Resolve α)
  bind : ∀ {α β : Type} {x : Resolve α} {f : α → Resolve β}, R x → (∀ a, R (f a)) → R (x >>= f)
  get : R (MonadState.get : Resolve Progress)
  attempt : ∀ {α : Type} (step : Progress → Except Error α), R (Resolve.attempt step)
  call : ∀ name args callee ty loc, R (bindCall d name args callee ty loc)

structure ClosedStmt (d : Demand) (R : ∀ ⦃α : Type⦄, Resolve α → Prop) : Prop
    extends Closed d R where
  define : ∀ name binding, R (modifyEnv (·.define name binding))
  inScope : ∀ {α : Type} {x : Resolve α}, R x → R (Resolve.inScope x)
  checkReturn : ∀ values loc, R (Stmt.checkReturn values loc)

section

variable {d : Demand} {R : ∀ ⦃α : Type⦄, Resolve α → Prop}

namespace Closed

theorem related (h : Closed d R) : Related d d fun _ x _ => R x where
  pure := h.pure
  bind := h.bind
  get := h.get
  attempt := h.attempt
  call := h.call

theorem expr (h : Closed d R) (e : Expr) : R (e.resolve d) :=
  h.related.expr e

theorem exprs (h : Closed d R) (es : List Expr) : R (Expr.resolveAll d es) :=
  h.related.exprs es

theorem entries (h : Closed d R) (es : List (Expr × Expr)) : R (Expr.resolveEntries d es) :=
  h.related.entries es

end Closed

namespace ClosedStmt

theorem relatedStmt (h : ClosedStmt d R) : RelatedStmt d d fun _ x _ => R x where
  toRelated := h.related
  define := h.define
  inScope := h.inScope
  checkReturn := h.checkReturn

theorem bindLoop (h : ClosedStmt d R) (bs : List Binder) (tys : List Ty) :
    R (Semant.bindLoop bs tys) :=
  h.relatedStmt.bindLoop bs tys

theorem declarations (h : ClosedStmt d R) (decls : List Declaration) :
    R (Declaration.resolveAll d decls) :=
  h.relatedStmt.declarations decls

theorem stmt (h : ClosedStmt d R) (st : Stmt) : R (st.resolve d) :=
  h.relatedStmt.stmt st

theorem block (h : ClosedStmt d R) (b : Block) : R (b.resolve d) :=
  h.relatedStmt.block b

theorem stmts (h : ClosedStmt d R) (ss : List Stmt) : R (Stmt.resolveAll d ss) :=
  h.relatedStmt.stmts ss

theorem elseIfs (h : ClosedStmt d R) (clauses : List (Clause Expr Block)) :
    R (Stmt.resolveElseIfs d clauses) :=
  h.relatedStmt.elseIfs clauses

theorem whens (h : ClosedStmt d R) (clauses : List (Clause (List Expr) Block)) :
    R (Stmt.resolveWhens d clauses) :=
  h.relatedStmt.whens clauses

theorem otherwise (h : ClosedStmt d R) (body : Option Block) :
    R (Stmt.resolveOtherwise d body) :=
  h.relatedStmt.otherwise body

end ClosedStmt

end

end Semant
