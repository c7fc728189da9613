import Semant.Proofs.Typing.Function

/-! Once there is an error, type resolution does nothing: every tree and the state are left as they
are, and functions whose turn comes later are not entered. -/

namespace Semant

open Resolve

section

variable {s : Progress} (h : s.error ≠ none)

include h

theorem Resolve.check_failed (rule : Progress → Except Error Unit) : check rule s = ((), s) := by
  rw [check, bind_apply, attempt_of_failed h]
  rfl

theorem Resolve.introduce_failed (b : Binder) (rule : Scope → Except Error Ty) :
    introduce b rule s = (b, s) := by
  rw [introduce, bind_apply, attempt_of_failed h]
  rfl

theorem bindCall_failed (d : Demand) (name : String) (args : Except Error (List Ty))
    (callee : Slot SymbolId) (ty : Slot Ty) (loc : Location) :
    bindCall d name args callee ty loc s = ((callee, ty), s) := by
  rw [bindCall, bind_apply, attempt_of_failed h]
  rfl

theorem declareAll_failed (bs : List Binder) (values : Option (List Ty)) :
    declareAll bs values s = (bs, s) := by
  induction bs generalizing values with
  | nil => rfl
  | cons b bs ih => simp only [declareAll, bind_apply, pure_apply, introduce_failed h, ih]

theorem bindLoop_failed (bs : List Binder) (tys : List Ty) : bindLoop bs tys s = (bs, s) := by
  induction bs generalizing tys with
  | nil => rfl
  | cons b bs ih =>
    cases tys with
    | nil => rfl
    | cons ty tys => simp only [bindLoop, bind_apply, pure_apply, introduce_failed h, ih]

theorem Stmt.checkReturn_failed (values : List Expr) (loc : Location) :
    Stmt.checkReturn values loc s = ((), s) := by
  rw [Stmt.checkReturn, bind_apply, attempt_of_failed h]
  rfl

omit h in
theorem Resolve.inScope_of_eq {α : Type} {x : Resolve α} {a : α}
    (hx : x { s with env := s.env.push } = (a, { s with env := s.env.push })) :
    inScope x s = (a, s) := by
  rw [inScope_apply, hx]
  rfl

end

mutual

theorem Expr.resolve_failed (d : Demand) {s : Progress} (h : s.error ≠ none) :
    ∀ e : Expr, e.resolve d s = (e, s)
  | .literal .. | .var .. => by
    simp only [Expr.resolve, bind_apply, pure_apply, settle_of_failed h]
  | .array elems .. | .tuple elems .. | .construct _ elems .. => by
    simp only [Expr.resolve, bind_apply, pure_apply, Expr.resolveAll_failed d h elems,
      settle_of_failed h]
  | .dict entries .. => by
    simp only [Expr.resolve, bind_apply, pure_apply, Expr.resolveEntries_failed d h entries,
      settle_of_failed h]
  | .call child args .. => by
    simp only [Expr.resolve, bind_apply, get_apply]
    cases child.functionName? s.env with
    | some name =>
      simp only [bind_apply, pure_apply, Expr.resolveAll_failed d h args, bindCall_failed h]
    | none =>
      simp only [bind_apply, pure_apply, Expr.resolve_failed d h child,
        Expr.resolveAll_failed d h args, settle_of_failed h]
  | .index child position .. => by
    simp only [Expr.resolve, bind_apply, pure_apply, Expr.resolve_failed d h child,
      Expr.resolve_failed d h position, settle_of_failed h]
  | .member child .. => by
    simp only [Expr.resolve, bind_apply, pure_apply, Expr.resolve_failed d h child,
      bindCall_failed h]
  | .unary _ child .. | .cast child .. => by
    simp only [Expr.resolve, bind_apply, pure_apply, Expr.resolve_failed d h child,
      settle_of_failed h]
  | .binary lhs _ rhs .. => by
    simp only [Expr.resolve, bind_apply, pure_apply, Expr.resolve_failed d h lhs,
      Expr.resolve_failed d h rhs, settle_of_failed h]
  | .choice cond yes no .. => by
    simp only [Expr.resolve, bind_apply, pure_apply, Expr.resolve_failed d h cond,
      Expr.resolve_failed d h yes, Expr.resolve_failed d h no, settle_of_failed h]
  | .typed child .. => by
    simp only [Expr.resolve, bind_apply, pure_apply, attempt_of_failed h]

theorem Expr.resolveAll_failed (d : Demand) {s : Progress} (h : s.error ≠ none) :
    ∀ es : List Expr, Expr.resolveAll d es s = (es, s)
  | [] => rfl
  | e :: es => by
    simp only [Expr.resolveAll, bind_apply, pure_apply, Expr.resolve_failed d h e,
      Expr.resolveAll_failed d h es]

theorem Expr.resolveEntries_failed (d : Demand) {s : Progress} (h : s.error ≠ none) :
    ∀ es : List (Expr × Expr), Expr.resolveEntries d es s = (es, s)
  | [] => rfl
  | (key, value) :: es => by
    simp only [Expr.resolveEntries, bind_apply, pure_apply, Expr.resolve_failed d h key,
      Expr.resolve_failed d h value, Expr.resolveEntries_failed d h es]

end

theorem Declaration.introduceNames_failed {s : Progress} (h : s.error ≠ none)
    (decl : Declaration) : decl.introduceNames s = (decl, s) := by
  rw [Declaration.introduceNames, bind_apply, attempt_of_failed h]
  rfl

theorem Declaration.resolve_failed (d : Demand) {s : Progress} (h : s.error ≠ none)
    (decl : Declaration) : decl.resolve d s = (decl, s) := by
  obtain ⟨binders, _ | values, loc⟩ := decl
  · rw [Declaration.resolve_bare, Declaration.introduceNames_failed h]
  · rw [Declaration.resolve_valued, bind_apply, Expr.resolveAll_failed d h,
      Declaration.introduceNames_failed h]

theorem Declaration.resolveAll_failed (d : Demand) {s : Progress} (h : s.error ≠ none) :
    ∀ decls : List Declaration, Declaration.resolveAll d decls s = (decls, s)
  | [] => rfl
  | decl :: decls => by
    simp only [Declaration.resolveAll, bind_apply, pure_apply, Declaration.resolve_failed d h decl,
      Declaration.resolveAll_failed d h decls]

mutual

theorem Stmt.resolve_failed (d : Demand) {s : Progress} (h : s.error ≠ none) :
    ∀ st : Stmt, st.resolve d s = (st, s)
  | .declare decl => by
    simp only [Stmt.resolve, bind_apply, pure_apply, Declaration.resolve_failed d h decl]
  | .assign targets values _ => by
    simp only [Stmt.resolve, bind_apply, pure_apply, Expr.resolveAll_failed d h targets,
      Expr.resolveAll_failed d h values, Stmt.checkAssignment, check_failed h]
  | .branch _ cond body elseIfs otherwise _ => by
    simp only [Stmt.resolve, bind_apply, pure_apply, Expr.resolve_failed d h cond,
      Block.resolve_failed d h body, Stmt.resolveElseIfs_failed d h elseIfs,
      Stmt.resolveOtherwise_failed d h otherwise, Stmt.checkConditions, check_failed h]
  | .ret values _ => by
    simp only [Stmt.resolve, bind_apply, pure_apply, Expr.resolveAll_failed d h values,
      Stmt.checkReturn_failed h]
  | .case whens otherwise _ => by
    simp only [Stmt.resolve, bind_apply, pure_apply, Stmt.resolveWhens_failed d h whens,
      Stmt.resolveOtherwise_failed d h otherwise, Stmt.checkConditions, check_failed h]
  | .switch target whens otherwise _ => by
    simp only [Stmt.resolve, bind_apply, pure_apply, Expr.resolve_failed d h target,
      Stmt.resolveWhens_failed d h whens, Stmt.resolveOtherwise_failed d h otherwise,
      Stmt.checkSwitch, check_failed h]
  | .forIn vars range body _ => by
    have hpushed : { s with env := s.env.push }.error ≠ none := h
    rw [Stmt.resolve]
    refine inScope_of_eq ?_
    simp only [bind_apply, pure_apply, Expr.resolve_failed d hpushed range,
      attempt_of_failed hpushed, bindLoop_failed hpushed, Block.resolve_failed d hpushed body]
  | .whileDo cond body _ => by
    simp only [Stmt.resolve, bind_apply, pure_apply, Expr.resolve_failed d h cond,
      Block.resolve_failed d h body, Stmt.checkConditions, check_failed h]
  | .trailingIf body _ cond _ => by
    simp only [Stmt.resolve, bind_apply, pure_apply, Stmt.resolve_failed d h body,
      Expr.resolve_failed d h cond, Stmt.checkConditions, check_failed h]
  | .letIn inits body _ => by
    have hpushed : { s with env := s.env.push }.error ≠ none := h
    rw [Stmt.resolve]
    refine inScope_of_eq ?_
    simp only [bind_apply, pure_apply, Declaration.resolveAll_failed d hpushed inits,
      Stmt.resolve_failed d hpushed body]
  | .expr e => by
    simp only [Stmt.resolve, bind_apply, pure_apply, Expr.resolve_failed d h e]
  | .block b => by
    simp only [Stmt.resolve, bind_apply, pure_apply, Block.resolve_failed d h b]

theorem Block.resolve_failed (d : Demand) {s : Progress} (h : s.error ≠ none) :
    ∀ b : Block, b.resolve d s = (b, s)
  | .mk stmts _ => by
    have hpushed : { s with env := s.env.push }.error ≠ none := h
    rw [Block.resolve]
    refine inScope_of_eq ?_
    simp only [bind_apply, pure_apply, Stmt.resolveAll_failed d hpushed stmts]

theorem Stmt.resolveAll_failed (d : Demand) {s : Progress} (h : s.error ≠ none) :
    ∀ stmts : List Stmt, Stmt.resolveAll d stmts s = (stmts, s)
  | [] => rfl
  | st :: stmts => by
    simp only [Stmt.resolveAll, bind_apply, pure_apply, Stmt.resolve_failed d h st,
      Stmt.resolveAll_failed d h stmts]

theorem Stmt.resolveElseIfs_failed (d : Demand) {s : Progress} (h : s.error ≠ none) :
    ∀ clauses : List (Clause Expr Block), Stmt.resolveElseIfs d clauses s = (clauses, s)
  | [] => rfl
  | ⟨cond, body⟩ :: rest => by
    simp only [Stmt.resolveElseIfs, bind_apply, pure_apply, Expr.resolve_failed d h cond,
      Block.resolve_failed d h body, Stmt.resolveElseIfs_failed d h rest]

theorem Stmt.resolveWhens_failed (d : Demand) {s : Progress} (h : s.error ≠ none) :
    ∀ clauses : List (Clause (List Expr) Block), Stmt.resolveWhens d clauses s = (clauses, s)
  | [] => rfl
  | ⟨conds, body⟩ :: rest => by
    simp only [Stmt.resolveWhens, bind_apply, pure_apply, Expr.resolveAll_failed d h conds,
      Block.resolve_failed d h body, Stmt.resolveWhens_failed d h rest]

theorem Stmt.resolveOtherwise_failed (d : Demand) {s : Progress} (h : s.error ≠ none) :
    ∀ body : Option Block, Stmt.resolveOtherwise d body s = (body, s)
  | none => rfl
  | some body => by
    simp only [Stmt.resolveOtherwise, bind_apply, pure_apply, Block.resolve_failed d h body]

end

theorem analyzeFunc_failed (budget : Nat) (id : DefId) {s : Progress} (h : s.error ≠ none) :
    analyzeFunc budget id s = ((), s) := by
  cases budget with
  | zero => rfl
  | succ budget =>
    rcases analyzeFunc_cases budget id s with
      ⟨_, hrun⟩ | ⟨_, hs, _⟩ | ⟨_, _, hs, _⟩ | ⟨_, _, _, hs, _⟩
    · exact hrun
    · exact (h hs).elim
    · exact (h hs).elim
    · exact (h hs).elim

theorem foldl_visit_failed (budget : Nat) (todo : List (FuncDef × DefId)) {s : Progress}
    (h : s.error ≠ none) : todo.foldl (Progress.visit budget) s = s := by
  induction todo with
  | nil => rfl
  | cons p todo ih =>
    have hvisit : s.visit budget p = s := by
      unfold Progress.visit
      split
      · rfl
      · rw [analyzeFunc_failed budget p.2 h]
    rw [List.foldl_cons, hvisit, ih]

end Semant
