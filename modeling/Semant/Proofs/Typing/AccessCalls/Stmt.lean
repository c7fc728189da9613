import Semant.Proofs.Typing.AccessCalls.Expr
import Semant.Proofs.Typing.Extension.Stmt

/-! Typing a statement in which accesses are written as calls. The names that a statement brings
into scope are not free, so no access that is rewritten comes to mean one of them. -/

namespace Semant

open Resolve

/-- The name that the node binds is not free. -/
def Node.Shuns (free : String → Bool) (n : Node) : Prop :=
  ∀ b ∈ n.binder?, free b.name = false

variable {F : List FuncDef → List FuncDef} {free : String → Bool}

theorem Binder.shuns_decls {bs : List Binder}
    (h : Outline.AllOf (Node.Shuns free) (bs.map Binder.declOutline)) :
    ∀ b ∈ bs, free b.name = false := by
  intro b hb
  have hall := Outline.allOf_iff.mp h b.declOutline (List.mem_map_of_mem hb)
  exact (Outline.all_mk.mp hall).1 b rfl

theorem Binder.shuns_params {bs : List Binder}
    (h : Outline.AllOf (Node.Shuns free) (bs.map Binder.paramOutline)) :
    ∀ b ∈ bs, free b.name = false := by
  intro b hb
  have hall := Outline.allOf_iff.mp h b.paramOutline (List.mem_map_of_mem hb)
  exact (Outline.all_mk.mp hall).1 b rfl

namespace Respells

variable {α : Type}

theorem define {name : String} (hname : free name = false) (binding : Binding) :
    Respells F free id (modifyEnv (·.define name binding)) (modifyEnv (·.define name binding)) :=
  fun _ hs => ⟨rfl, List.forall_mem_cons.mpr ⟨hname, hs⟩⟩

theorem inScope {g : α → α} {x y : Resolve α} (hx : Respells F free g x y) :
    Respells F free g (Resolve.inScope x) (Resolve.inScope y) := by
  have hpush : Respells F free id (modifyEnv Env.push) (modifyEnv Env.push) :=
    fun _ hs => ⟨rfl, hs⟩
  have hpop : Respells F free id (modifyEnv Env.pop) (modifyEnv Env.pop) :=
    fun _ hs => ⟨rfl, fun entry hentry => hs entry (Env.mem_context_of_pop hentry)⟩
  exact bind hpush fun _ => bind hx fun _ => bind hpop fun _ => pure g _

theorem check {rule rule' : Progress → Except Error Unit}
    (hrule : ∀ s : Progress, rule' (s.mapFuncs F) = rule s) :
    Respells F free id (Resolve.check rule) (Resolve.check rule') :=
  bind (attempt hrule) fun _ => pure id _

theorem introduce {b : Binder} (hb : free b.name = false) (rule : Scope → Except Error Ty) :
    Respells F free id (Resolve.introduce b rule) (Resolve.introduce b rule) := by
  refine bind (attempt fun _ => rfl) fun introduced => ?_
  cases introduced with
  | none => exact pure id _
  | some introduced => exact bind (define hb _) fun _ => pure id _

theorem declareAll {bs : List Binder} (hbs : ∀ b ∈ bs, free b.name = false)
    (values : Option (List Ty)) :
    Respells F free id (Semant.declareAll bs values) (Semant.declareAll bs values) := by
  induction bs generalizing values with
  | nil => exact pure id _
  | cons b bs ih =>
    obtain ⟨hb, hbs⟩ := List.forall_mem_cons.mp hbs
    exact bind (introduce hb _) fun _ => bind (ih hbs _) fun _ => pure id _

theorem bindLoop {bs : List Binder} (hbs : ∀ b ∈ bs, free b.name = false) (tys : List Ty) :
    Respells F free id (Semant.bindLoop bs tys) (Semant.bindLoop bs tys) := by
  induction bs generalizing tys with
  | nil => exact pure id _
  | cons b bs ih =>
    cases tys with
    | nil => exact pure id _
    | cons ty tys =>
      obtain ⟨hb, hbs⟩ := List.forall_mem_cons.mp hbs
      exact bind (introduce hb _) fun _ => bind (ih hbs _) fun _ => pure id _

theorem checkReturn {values values' : List Expr} (hvalues : Expr.types values' = Expr.types values)
    (loc : Location) :
    Respells F free id (Stmt.checkReturn values loc) (Stmt.checkReturn values' loc) := by
  refine bind (attempt fun _ => by rw [hvalues]; rfl) fun returns => ?_
  cases returns with
  | none => exact pure id _
  | some returns => exact fun _ hs => ⟨rfl, hs⟩

end Respells

theorem Declaration.valueTypes_asCalls (marks : Marks) (decl : Declaration) :
    (decl.asCalls free marks).valueTypes = decl.valueTypes := by
  obtain ⟨binders, _ | values, loc⟩ := decl
  · rfl
  · simp only [Declaration.valueTypes, Declaration.asCalls, Option.map_some, Expr.types_asCallsAll]

namespace RespellsDemand

variable {d d' : Demand}

theorem introduceNames (decl : Declaration) (marks : Marks)
    (hbs : ∀ b ∈ decl.binders, free b.name = false) :
    Respells F free (Declaration.asCalls free marks) decl.introduceNames
      (decl.asCalls free marks).introduceNames := by
  refine .bind (.attempt fun _ => Declaration.valueTypes_asCalls marks decl) fun values => ?_
  cases values with
  | none => exact .pure (Declaration.asCalls free marks) _
  | some values =>
    exact .bind (.declareAll hbs values) fun _ => .pure (Declaration.asCalls free marks) _

theorem declaration (hd : RespellsDemand F d d') (decl : Declaration) (marks : Marks)
    (h : decl.outline.All (Node.Shuns free)) :
    Respells F free (Declaration.asCalls free marks) (decl.resolve d)
      ((decl.asCalls free marks).resolve d') := by
  obtain ⟨binders, values, loc⟩ := decl
  simp only [Declaration.outline, Outline.all_mk, Outline.allOf_append] at h
  have hbs := Binder.shuns_decls h.2.1
  cases values with
  | none => exact introduceNames ⟨binders, none, loc⟩ marks hbs
  | some values =>
    have hvalued : (Declaration.asCalls free marks ⟨binders, some values, loc⟩).resolve d' =
        Expr.resolveAll d' (Expr.asCallsAll free marks values) >>= fun values =>
          Declaration.introduceNames ⟨binders, some values, loc⟩ := rfl
    rw [Declaration.resolve_valued, hvalued]
    exact .bind (hd.exprs values marks) fun values =>
      introduceNames ⟨binders, some values, loc⟩ marks hbs

theorem declarations (hd : RespellsDemand F d d') (decls : List Declaration) (marks : Marks)
    (h : Outline.AllOf (Node.Shuns free) (decls.map Declaration.outline)) :
    Respells F free (Declaration.asCallsAll free marks) (Declaration.resolveAll d decls)
      (Declaration.resolveAll d' (Declaration.asCallsAll free marks decls)) := by
  induction decls generalizing marks with
  | nil => exact .pure _ _
  | cons decl decls ih =>
    rw [List.map_cons, Outline.allOf_cons] at h
    exact .bind (hd.declaration decl _ h.1) fun _ => .bind (ih _ h.2) fun _ =>
      .pure (Declaration.asCallsAll free marks) _

end RespellsDemand

/-- The expression `e'` is `e` with accesses as calls. -/
def Expr.Respelt (free : String → Bool) (e e' : Expr) : Prop :=
  ∃ marks, e' = e.asCalls free marks

theorem Expr.respelt_all (marks : Marks) (es : List Expr) :
    List.Forall₂ (Expr.Respelt free) es (Expr.asCallsAll free marks es) := by
  induction es generalizing marks with
  | nil => exact .nil
  | cons e es ih => exact .cons ⟨_, rfl⟩ (ih _)

theorem Expr.respelt_elseIfs (marks : Marks) (clauses : List (Clause Expr Block)) :
    List.Forall₂ (Expr.Respelt free) (clauses.map Clause.test)
      ((Stmt.asCallsElseIfs free marks clauses).map Clause.test) := by
  induction clauses generalizing marks with
  | nil => exact .nil
  | cons clause rest ih => exact .cons ⟨_, rfl⟩ (ih _)

theorem Expr.respelt_whens (marks : Marks) (clauses : List (Clause (List Expr) Block)) :
    List.Forall₂ (Expr.Respelt free) (clauses.flatMap Clause.test)
      ((Stmt.asCallsWhens free marks clauses).flatMap Clause.test) := by
  induction clauses generalizing marks with
  | nil => exact .nil
  | cons clause rest ih => exact List.rel_append (Expr.respelt_all _ clause.test) (ih _)

theorem Expr.respelt_zip {es es' : List Expr} (h : List.Forall₂ (Expr.Respelt free) es es')
    (tys : List Ty) :
    List.Forall₂ (fun pair pair' => pair.1.Respelt free pair'.1 ∧ pair'.2 = pair.2)
      (es.zip tys) (es'.zip tys) := by
  induction h generalizing tys with
  | nil => exact .nil
  | cons he _ ih =>
    cases tys with
    | nil => exact .nil
    | cons ty tys => exact .cons ⟨he, rfl⟩ (ih tys)

theorem forM_congr_forall₂ {α : Type} {R : α → α → Prop} {f : α → Except Error Unit}
    {as bs : List α} (h : List.Forall₂ R as bs) (hf : ∀ a b, R a b → f b = f a) : bs.forM f = as.forM f := by
  induction h with
  | nil => rfl
  | @cons a b as bs hab _ ih =>
    change (f b >>= fun _ => bs.forM f) = (f a >>= fun _ => as.forM f)
    rw [hf a b hab, ih]

theorem Typing.assigned_asCalls (marks : Marks) (env : Env) (target : Expr) (ty : Ty) :
    Typing.assigned env (target.asCalls free marks) ty = Typing.assigned env target ty := by
  have hassignable : Typing.assignable env (target.asCalls free marks) =
      Typing.assignable env target := by
    cases target with
    | member =>
      rw [Expr.asCalls]
      split <;> rfl
    | _ => rfl
  rw [Typing.assigned, Typing.assigned, hassignable, Expr.type_asCalls, Expr.loc_asCalls]

namespace Respells

theorem checkConditions (what : String) {conds conds' : List Expr}
    (h : List.Forall₂ (Expr.Respelt free) conds conds') :
    Respells F free id (Stmt.checkConditions what conds) (Stmt.checkConditions what conds') := by
  refine check fun _ => forM_congr_forall₂ h fun e e' he => ?_
  obtain ⟨marks, rfl⟩ := he
  exact Typing.condition_asCalls marks what e

theorem checkSwitch (target : Expr) (marks : Marks) {conds conds' : List Expr}
    (h : List.Forall₂ (Expr.Respelt free) conds conds') :
    Respells F free id (Stmt.checkSwitch target conds)
      (Stmt.checkSwitch (target.asCalls free marks) conds') := by
  have hvalues : ∀ ty, conds'.forM (Typing.whenValue ty) = conds.forM (Typing.whenValue ty) := by
    refine fun ty => forM_congr_forall₂ h fun e e' he => ?_
    obtain ⟨marks, rfl⟩ := he
    rw [Typing.whenValue, Typing.whenValue, Expr.type_asCalls, Expr.loc_asCalls]
  refine check fun _ => ?_
  simp only [Expr.type_asCalls, hvalues]

theorem checkAssignment (targets values : List Expr) (marks marks' : Marks) (loc : Location) :
    Respells F free id (Stmt.checkAssignment targets values loc)
      (Stmt.checkAssignment (Expr.asCallsAll free marks targets)
        (Expr.asCallsAll free marks' values) loc) := by
  have htargets : List.Forall₂ (Expr.Respelt free) targets (Expr.asCallsAll free marks targets) :=
    Expr.respelt_all marks targets
  refine check fun s => ?_
  rw [Expr.types_asCallsAll, ← htargets.length_eq]
  refine bind_congr fun _ => bind_congr fun tys => ?_
  refine forM_congr_forall₂ (Expr.respelt_zip htargets tys) fun pair pair' hpair => ?_
  obtain ⟨⟨marks, htarget⟩, hty⟩ := hpair
  dsimp only
  rw [htarget, hty]
  exact Typing.assigned_asCalls marks s.env pair.1 pair.2

end Respells

theorem Typing.iterated_asCalls (marks : Marks) (range : Expr) :
    Typing.iterated (range.asCalls free marks) = Typing.iterated range := by
  rw [Typing.iterated, Typing.iterated, Expr.type_asCalls, Expr.loc_asCalls]

namespace RespellsDemand

variable {d d' : Demand}

mutual

theorem stmt (hd : RespellsDemand F d d') : ∀ (st : Stmt) (marks : Marks),
    st.outline.All (Node.Shuns free) →
      Respells F free (Stmt.asCalls free marks) (st.resolve d) ((st.asCalls free marks).resolve d')
  | .declare decl, marks, h => by
    rw [Stmt.outline] at h
    exact .bind (hd.declaration decl _ h) fun _ => .pure (Stmt.asCalls free marks) _
  | .assign targets values loc, marks, _ =>
    .bind (hd.exprs targets _) fun _ => .bind (hd.exprs values _) fun _ =>
      .bind (.checkAssignment _ _ _ _ loc) fun _ => .pure (Stmt.asCalls free marks) _
  | .branch _ cond body elseIfs otherwise _, marks, h => by
    simp only [Stmt.outline, Outline.all_mk, Outline.allOf_cons, Outline.allOf_append] at h
    exact .bind (hd.expr cond _) fun cond => .bind (hd.block body _ h.2.2.1) fun _ =>
      .bind (hd.elseIfs elseIfs _ h.2.2.2.1) fun elseIfs =>
        .bind (hd.otherwise otherwise _ h.2.2.2.2) fun _ =>
          .bind (.checkConditions _ (.cons ⟨_, rfl⟩ (Expr.respelt_elseIfs _ elseIfs)))
            fun _ => .pure (Stmt.asCalls free marks) _
  | .ret values loc, marks, _ =>
    .bind (hd.exprs values _) fun values =>
      .bind (.checkReturn (Expr.types_asCallsAll _ values) loc)
        fun _ => .pure (Stmt.asCalls free marks) _
  | .case whens otherwise _, marks, h => by
    simp only [Stmt.outline, Outline.all_mk, Outline.allOf_append] at h
    exact .bind (hd.whens whens _ h.2.1) fun whens =>
      .bind (hd.otherwise otherwise _ h.2.2) fun _ =>
        .bind (.checkConditions _ (Expr.respelt_whens _ whens))
          fun _ => .pure (Stmt.asCalls free marks) _
  | .switch target whens otherwise _, marks, h => by
    simp only [Stmt.outline, Outline.all_mk, Outline.allOf_cons, Outline.allOf_append] at h
    exact .bind (hd.expr target _) fun target => .bind (hd.whens whens _ h.2.2.1) fun whens =>
      .bind (hd.otherwise otherwise _ h.2.2.2) fun _ =>
        .bind (.checkSwitch target _ (Expr.respelt_whens _ whens))
          fun _ => .pure (Stmt.asCalls free marks) _
  | .forIn vars range body loc, marks, h => by
    simp only [Stmt.outline, Outline.all_mk, Outline.allOf_cons, Outline.allOf_append] at h
    exact .inScope <| .bind (hd.expr range _) fun _ =>
      .bind (.attempt fun _ => by rw [Typing.iterated_asCalls]) fun _ =>
        .bind (.bindLoop (Binder.shuns_params h.2.1) _) fun _ =>
          .bind (hd.block body _ h.2.2.2.1) fun _ => .pure (Stmt.asCalls free marks) _
  | .whileDo cond body _, marks, h => by
    simp only [Stmt.outline, Outline.all_mk, Outline.allOf_cons] at h
    exact .bind (hd.expr cond _) fun _ => .bind (hd.block body _ h.2.2.1) fun _ =>
      .bind (.checkConditions _ (.cons ⟨_, rfl⟩ .nil)) fun _ => .pure (Stmt.asCalls free marks) _
  | .trailingIf body _ cond _, marks, h => by
    simp only [Stmt.outline, Outline.all_mk, Outline.allOf_cons] at h
    exact .bind (hd.stmt body _ h.2.1) fun _ => .bind (hd.expr cond _) fun _ =>
      .bind (.checkConditions _ (.cons ⟨_, rfl⟩ .nil)) fun _ => .pure (Stmt.asCalls free marks) _
  | .letIn inits body _, marks, h => by
    simp only [Stmt.outline, Outline.all_mk, Outline.allOf_cons, Outline.allOf_append] at h
    exact .inScope <| .bind (hd.declarations inits _ h.2.1) fun _ =>
      .bind (hd.stmt body _ h.2.2.1) fun _ => .pure (Stmt.asCalls free marks) _
  | .expr e, marks, _ => .bind (hd.expr e _) fun _ => .pure (Stmt.asCalls free marks) _
  | .block b, marks, h => by
    rw [Stmt.outline] at h
    exact .bind (hd.block b _ h) fun _ => .pure (Stmt.asCalls free marks) _

theorem block (hd : RespellsDemand F d d') : ∀ (b : Block) (marks : Marks),
    b.outline.All (Node.Shuns free) →
      Respells F free (Block.asCalls free marks) (b.resolve d) ((b.asCalls free marks).resolve d')
  | .mk stmts loc, marks, h => by
    rw [Block.outline, Outline.all_mk] at h
    exact .inScope <| .bind (hd.stmts stmts _ h.2) fun _ => .pure (Block.asCalls free marks) _

theorem stmts (hd : RespellsDemand F d d') : ∀ (ss : List Stmt) (marks : Marks),
    Outline.AllOf (Node.Shuns free) (Stmt.outlines ss) →
      Respells F free (Stmt.asCallsAll free marks) (Stmt.resolveAll d ss)
        (Stmt.resolveAll d' (Stmt.asCallsAll free marks ss))
  | [], _, _ => .pure _ _
  | s :: ss, marks, h => by
    rw [Stmt.outlines, Outline.allOf_cons] at h
    exact .bind (hd.stmt s _ h.1) fun _ => .bind (hd.stmts ss _ h.2) fun _ =>
      .pure (Stmt.asCallsAll free marks) _

theorem elseIfs (hd : RespellsDemand F d d') :
    ∀ (clauses : List (Clause Expr Block)) (marks : Marks),
      Outline.AllOf (Node.Shuns free) (Stmt.outlineElseIfs clauses) →
        Respells F free (Stmt.asCallsElseIfs free marks) (Stmt.resolveElseIfs d clauses)
          (Stmt.resolveElseIfs d' (Stmt.asCallsElseIfs free marks clauses))
  | [], _, _ => .pure _ _
  | ⟨cond, body⟩ :: rest, marks, h => by
    rw [Stmt.outlineElseIfs, Outline.allOf_cons, Outline.allOf_cons] at h
    exact .bind (hd.expr cond _) fun _ => .bind (hd.block body _ h.2.1) fun _ =>
      .bind (hd.elseIfs rest _ h.2.2) fun _ => .pure (Stmt.asCallsElseIfs free marks) _

theorem whens (hd : RespellsDemand F d d') :
    ∀ (clauses : List (Clause (List Expr) Block)) (marks : Marks),
      Outline.AllOf (Node.Shuns free) (Stmt.outlineWhens clauses) →
        Respells F free (Stmt.asCallsWhens free marks) (Stmt.resolveWhens d clauses)
          (Stmt.resolveWhens d' (Stmt.asCallsWhens free marks clauses))
  | [], _, _ => .pure _ _
  | ⟨conds, body⟩ :: rest, marks, h => by
    rw [Stmt.outlineWhens, Outline.allOf_append, Outline.allOf_cons] at h
    exact .bind (hd.exprs conds _) fun _ => .bind (hd.block body _ h.2.1) fun _ =>
      .bind (hd.whens rest _ h.2.2) fun _ => .pure (Stmt.asCallsWhens free marks) _

theorem otherwise (hd : RespellsDemand F d d') : ∀ (b : Option Block) (marks : Marks),
    Outline.AllOf (Node.Shuns free) (Stmt.outlineOtherwise b) →
      Respells F free (Stmt.asCallsOtherwise free marks) (Stmt.resolveOtherwise d b)
        (Stmt.resolveOtherwise d' (Stmt.asCallsOtherwise free marks b))
  | none, _, _ => .pure _ _
  | some body, marks, h => by
    rw [Stmt.outlineOtherwise, Outline.allOf_cons] at h
    exact .bind (hd.block body _ h.1) fun _ => .pure (Stmt.asCallsOtherwise free marks) _

end

end RespellsDemand

end Semant
