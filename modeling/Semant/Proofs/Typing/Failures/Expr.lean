import Semant.Proofs.Tree.Nodes
import Semant.Proofs.Typing.Refusals
import Semant.Proofs.Typing.Soundness.Expr

/-! What the typing of an expression can fail with. The parts of an expression have types when it is
its turn, so it is refused by a rule for a cause of the rule, at a place that is in the expression,
or by a slot that is already filled. -/

namespace Semant

open Resolve Outcome

variable {P : Error → Prop}

/-- The slot takes a value or refuses it with an error of `P`. -/
def Slot.Fillable {α : Type} (P : Error → Prop) (slot : Slot α) : Prop :=
  ∀ a, FailsWith P (slot.fill a)

structure Node.Fillable (P : Error → Prop) (n : Node) : Prop where
  type : ∀ slot ∈ n.typeSlot?, slot.Fillable P
  callee : ∀ slot ∈ n.calleeSlot?, slot.Fillable P

/-- The slots of the node and the rules at its place refuse with errors of `P`. -/
structure Node.Guarded (P : Error → Prop) (n : Node) : Prop extends n.Fillable P where
  covers : CoversAt P n.loc

theorem Node.Guarded.expr {e : Expr} (h : (Node.expr e).Guarded P) : e.ty.Fillable P :=
  h.type e.ty rfl

theorem Expr.covers_of_guarded {e : Expr} (h : e.outline.All (Node.Guarded P)) :
    CoversAt P e.loc := by
  have hnode : (Node.expr e).Guarded P := by
    cases e <;> exact (Outline.all_mk.mp h).1
  exact hnode.covers

theorem TypeExpr.resolve_guarded (σ : Scope) {t : TypeExpr} (h : t.outline.All (Node.Guarded P)) :
    FailsWith P (t.resolve σ) :=
  TypeExpr.resolve_fails σ t (h.imp fun _ hnode => hnode.covers)

/-- An expression keeps its place. -/
theorem Expr.loc_resolve (d : Demand) (e : Expr) (s : Progress) : (e.resolve d s).1.loc = e.loc := by
  cases e with
  | call child args callee ty loc =>
    simp only [Expr.resolve, bind_apply, get_apply]
    cases child.functionName? s.env <;> rfl
  | typed child written ty loc =>
    simp only [Expr.resolve, bind_apply]
    generalize Resolve.attempt _ s = r
    obtain ⟨_ | ascribed, t⟩ := r
    · rfl
    · dsimp only
      split <;> rfl
  | _ => rfl

theorem Resolve.lasting : Evolves fun s t : Progress => t.error = none → s.error = none where
  refl _ := id
  trans h h' := h ∘ h'
  fail _ _ h := by cases h
  env _ _ := id
  returns _ _ := id

/-- A property of states that lasts as long as every failure is one of `P`. -/
structure Guards (P : Error → Prop) (d : Demand) (Good : Progress → Prop) : Prop where
  sound : ∀ σ, d.Sound σ
  fail : ∀ {s error}, Good s → P error → Good { s with error := some error }
  env : ∀ {s} (env : Env), Good s → Good { s with env }
  returns : ∀ {s} (returns : Option Returns), Good s → Good { s with returns }
  call : ∀ {s : Progress} {f : FuncSymbol}, Good s → s.error = none → f ∈ s.scope.functions →
    f.isInferred → Good (d f.definition s).2

theorem Scope.bound_fails {loc : Location} (hP : CoversAt P loc) {σ : Scope} {name : String}
    {args : Except Error (List Ty)} {callee : Slot SymbolId} (hargs : FailsWith P args)
    (hcallee : callee.Fillable P) : FailsWith P (σ.bound name args callee loc) := by
  refine hargs.bind fun tys => ?_
  split
  · exact hP.reject rfl
  · exact (hcallee _).bind fun _ => .ok _

namespace Guards

variable {d : Demand} {Good : Progress → Prop} {α : Type}

theorem back (hg : Guards P d Good) :
    ClosedStmt d fun _ x => ∀ s, (x s).2.error = none → s.error = none :=
  Resolve.lasting.closed fun s f _ _ _ h => ((hg.sound _).back f.definition s ⟨h, .refl _⟩).ok

theorem attempt (hg : Guards P d Good) {step : Progress → Except Error α} {s : Progress}
    (hs : Good s) (hstep : s.error = none → FailsWith P (step s)) :
    Good (Resolve.attempt step s).2 := by
  rcases attempt_cases step s with ⟨_, _, _, hrun⟩ | ⟨_, hrun⟩ | ⟨error, hok, herror, hrun⟩
  · rw [hrun]
    exact hs
  · rw [hrun]
    exact hs
  · rw [hrun]
    exact hg.fail hs (hstep hok error herror)

theorem settle (hg : Guards P d Good) {slot : Slot α} {rule : Progress → Except Error α}
    {s : Progress} (hslot : slot.Fillable P) (hs : Good s)
    (hrule : s.error = none → FailsWith P (rule s)) : Good (Resolve.settle slot rule s).2 := by
  rw [settle_apply]
  exact hg.attempt hs fun hok => (hrule hok).bind hslot

theorem bindCall (hg : Guards P d Good) {name : String} {args : Except Error (List Ty)}
    {callee : Slot SymbolId} {ty : Slot Ty} {loc : Location} {s : Progress}
    (hloc : CoversAt P loc) (hcallee : callee.Fillable P) (hty : ty.Fillable P) (hs : Good s)
    (hargs : s.error = none → FailsWith P args) :
    Good (Semant.bindCall d name args callee ty loc s).2 := by
  rcases bindCall_cases d name args callee ty loc s with
    ⟨tys, o, r, hok, _, ho, _, rfl, hrun⟩ | ⟨_, hrun⟩ | ⟨error, hok, herror, hrun⟩
  · rw [hrun]
    dsimp only
    refine hg.settle hty ?_ fun _ => Typing.result_fails hloc _ _
    unfold demanded
    split
    · exact hg.call hs hok (List.mem_of_getElem? (Scope.bestOverload?_mem ho).1) ‹_›
    · exact hs
  · rw [hrun]
    exact hs
  · rw [hrun]
    exact hg.fail hs (Scope.bound_fails hloc (hargs hok) hcallee error herror)

theorem type_fails (hg : Guards P d Good) (e : Expr) (s : Progress)
    (h : (e.resolve d s).2.error = none) : FailsWith P (e.resolve d s).1.type := by
  obtain ⟨ty, he⟩ := Expr.resolve_sound (hg.sound _) e s ⟨h, .refl _⟩
  exact .type_of_ty he.ty

theorem checked (hg : Guards P d Good) {e : Expr} (he : e.outline.All (Node.Guarded P))
    (s : Progress) (h : (e.resolve d s).2.error = none) : (e.resolve d s).1.Checked P where
  type := hg.type_fails e s h
  place := by
    rw [Expr.loc_resolve]
    exact Expr.covers_of_guarded he

theorem types_fails (hg : Guards P d Good) (es : List Expr) (s : Progress)
    (h : (Expr.resolveAll d es s).2.error = none) :
    FailsWith P (Expr.types (Expr.resolveAll d es s).1) := by
  obtain ⟨tys, hes⟩ := Expr.resolveAll_sound (hg.sound _) es s ⟨h, .refl _⟩
  rw [hes.types]
  exact .ok tys

theorem entryTypes_fails (hg : Guards P d Good) (es : List (Expr × Expr)) (s : Progress)
    (h : (Expr.resolveEntries d es s).2.error = none) :
    FailsWith P (Expr.entryTypes (Expr.resolveEntries d es s).1) := by
  obtain ⟨tys, hes⟩ := Expr.resolveEntries_sound (hg.sound _) es s ⟨h, .refl _⟩
  rw [hes.types]
  exact .ok tys

mutual

theorem expr (hg : Guards P d Good) :
    ∀ (e : Expr) (s : Progress), e.outline.All (Node.Guarded P) → Good s →
    Good (e.resolve d s).2
  | .literal .., s, h, hs => by
    simp only [Expr.outline, Outline.all_mk] at h
    simp only [Expr.resolve, bind_apply, pure_apply]
    exact hg.settle h.1.expr hs fun _ => .ok _
  | .array elems .., s, h, hs => by
    simp only [Expr.outline, Outline.all_mk] at h
    simp only [Expr.resolve, bind_apply, pure_apply]
    refine hg.settle h.1.expr (hg.exprs elems s h.2 hs) fun hok => ?_
    exact (hg.types_fails elems s hok).bind fun tys => Typing.array_fails h.1.covers tys
  | .tuple elems .., s, h, hs => by
    simp only [Expr.outline, Outline.all_mk] at h
    simp only [Expr.resolve, bind_apply, pure_apply]
    refine hg.settle h.1.expr (hg.exprs elems s h.2 hs) fun hok => ?_
    exact (hg.types_fails elems s hok).bind fun _ => .ok _
  | .dict entries .., s, h, hs => by
    simp only [Expr.outline, Outline.all_mk] at h
    simp only [Expr.resolve, bind_apply, pure_apply]
    refine hg.settle h.1.expr (hg.entries entries s h.2 hs) fun hok => ?_
    exact (hg.entryTypes_fails entries s hok).bind fun tys => Typing.dict_fails h.1.covers tys
  | .var .., s, h, hs => by
    simp only [Expr.outline, Outline.all_mk] at h
    simp only [Expr.resolve, bind_apply, pure_apply]
    refine hg.settle h.1.expr hs fun _ => ?_
    split
    · exact .ok _
    · exact h.1.covers.reject rfl
  | .call child args callee .., s, h, hs => by
    simp only [Expr.outline, Outline.all_mk, Outline.allOf_cons] at h
    obtain ⟨hnode, hchild, hargs⟩ := h
    simp only [Expr.resolve, bind_apply, get_apply]
    cases child.functionName? s.env with
    | some name =>
      simp only [bind_apply, pure_apply]
      exact hg.bindCall hnode.covers (hnode.callee callee rfl) hnode.expr (hg.exprs args s hargs hs)
        (hg.types_fails args s)
    | none =>
      simp only [bind_apply, pure_apply]
      have h₁ := hg.expr child s hchild hs
      refine hg.settle hnode.expr (hg.exprs args _ hargs h₁) fun hok => ?_
      exact (hg.type_fails child s (hg.back.exprs args _ hok)).bind fun f =>
        (hg.types_fails args _ hok).bind fun tys => Typing.call_fails hnode.covers f tys
  | .construct _ args .., s, h, hs => by
    simp only [Expr.outline, Outline.all_mk, Outline.allOf_cons] at h
    obtain ⟨hnode, hwritten, hargs⟩ := h
    simp only [Expr.resolve, bind_apply, pure_apply]
    exact hg.settle hnode.expr (hg.exprs args s hargs hs)
      fun _ => TypeExpr.resolve_guarded _ hwritten
  | .index child position .., s, h, hs => by
    simp only [Expr.outline, Outline.all_mk, Outline.allOf_cons] at h
    obtain ⟨hnode, hchild, hposition, _⟩ := h
    simp only [Expr.resolve, bind_apply, pure_apply]
    have h₁ := hg.expr child s hchild hs
    refine hg.settle hnode.expr (hg.expr position _ hposition h₁) fun hok => ?_
    exact (hg.type_fails child s (hg.back.expr position _ hok)).bind fun held =>
      (hg.type_fails position _ hok).bind fun at_ =>
        Typing.index_fails hnode.covers held at_ (hg.checked hposition _ hok).place
  | .member child name callee _ _, s, h, hs => by
    simp only [Expr.outline, Outline.all_mk, Outline.allOf_cons] at h
    obtain ⟨hnode, hchild, _⟩ := h
    simp only [Expr.resolve, bind_apply, pure_apply]
    refine hg.bindCall hnode.covers (hnode.callee callee rfl) hnode.expr (hg.expr child s hchild hs)
      fun hok => ?_
    obtain ⟨ty, hty⟩ := Expr.resolve_sound (hg.sound _) child s ⟨hok, .refl _⟩
    have hone : Expr.ResolvesAll _ s.env.context [child] [(child.resolve d s).1] [ty] :=
      .cons hty .nil
    rw [hone.types]
    exact .ok _
  | .unary op operand .., s, h, hs => by
    simp only [Expr.outline, Outline.all_mk, Outline.allOf_cons] at h
    obtain ⟨hnode, hoperand, _⟩ := h
    simp only [Expr.resolve, bind_apply, pure_apply]
    exact hg.settle hnode.expr (hg.expr operand s hoperand hs) fun hok =>
      Typing.unary_fails hnode.covers op (hg.checked hoperand s hok)
  | .cast child .., s, h, hs => by
    simp only [Expr.outline, Outline.all_mk, Outline.allOf_cons] at h
    obtain ⟨hnode, hchild, hwritten, _⟩ := h
    simp only [Expr.resolve, bind_apply, pure_apply]
    exact hg.settle hnode.expr (hg.expr child s hchild hs)
      fun _ => TypeExpr.resolve_guarded _ hwritten
  | .binary lhs op rhs .., s, h, hs => by
    simp only [Expr.outline, Outline.all_mk, Outline.allOf_cons] at h
    obtain ⟨hnode, hrhs, hlhs, _⟩ := h
    simp only [Expr.resolve, bind_apply, pure_apply]
    have h₁ := hg.expr rhs s hrhs hs
    refine hg.settle hnode.expr (hg.expr lhs _ hlhs h₁) fun hok => ?_
    exact (hg.type_fails lhs _ hok).bind fun left =>
      (hg.type_fails rhs s (hg.back.expr lhs _ hok)).bind fun right =>
        Typing.binary_fails hnode.covers op left right
  | .choice cond yes no .., s, h, hs => by
    simp only [Expr.outline, Outline.all_mk, Outline.allOf_cons] at h
    obtain ⟨hnode, hcond, hyes, hno, _⟩ := h
    simp only [Expr.resolve, bind_apply, pure_apply]
    have h₁ := hg.expr cond s hcond hs
    have h₂ := hg.expr yes _ hyes h₁
    refine hg.settle hnode.expr (hg.expr no _ hno h₂) fun hok => ?_
    have hok₂ := hg.back.expr no _ hok
    exact Typing.choice_fails hnode.covers (hg.checked hcond s (hg.back.expr yes _ hok₂))
      (hg.type_fails yes _ hok₂) (hg.type_fails no _ hok)
  | .typed child written .., s, h, hs => by
    simp only [Expr.outline, Outline.all_mk, Outline.allOf_cons] at h
    obtain ⟨hnode, hchild, hwritten, _⟩ := h
    have h₁ : Good (Resolve.attempt (fun s => written.resolve s.scope) s).2 :=
      hg.attempt hs fun _ => TypeExpr.resolve_guarded _ hwritten
    simp only [Expr.resolve, bind_apply]
    generalize Resolve.attempt _ s = r at h₁ ⊢
    obtain ⟨_ | ascribed, t⟩ := r
    · exact h₁
    dsimp only at h₁ ⊢
    by_cases ha : child.adopts ascribed = true
    · simp only [ha, if_true, bind_apply, pure_apply]
      -- The slot of the literal is filled from outside; its own rule is passed over.
      rcases Expr.adopts_iff.mp ha with ⟨_, _, _, rfl, rfl⟩ | ⟨_, _, _, _, rfl, rfl⟩
      all_goals
        simp only [Expr.outline, Outline.all_mk] at hchild
        simp only [Expr.adopt, bind_apply, pure_apply]
        refine hg.settle hnode.expr (hg.settle hchild.1.expr h₁ fun _ => .ok _) fun hok => ?_
        obtain ⟨_, _, _, hrule, hrun⟩ := Toward.settle ⟨hok, .refl _⟩
        cases hrule
        refine FailsWith.bind ?_ fun ty => Typing.ascription_fails hnode.covers ty _
        rw [hrun]
        exact .type_of_ty rfl
    · rw [if_neg ha]
      simp only [bind_apply, pure_apply]
      refine hg.settle hnode.expr (hg.expr child t hchild h₁) fun hok => ?_
      exact (hg.type_fails child t hok).bind fun ty => Typing.ascription_fails hnode.covers ty _

theorem exprs (hg : Guards P d Good) : ∀ (es : List Expr) (s : Progress),
    Outline.AllOf (Node.Guarded P) (Expr.outlines es) → Good s → Good (Expr.resolveAll d es s).2
  | [], _, _, hs => hs
  | e :: es, s, h, hs => by
    simp only [Expr.outlines, Outline.allOf_cons] at h
    exact hg.exprs es _ h.2 (hg.expr e s h.1 hs)

theorem entries (hg : Guards P d Good) : ∀ (es : List (Expr × Expr)) (s : Progress),
    Outline.AllOf (Node.Guarded P) (Expr.outlineEntries es) → Good s →
      Good (Expr.resolveEntries d es s).2
  | [], _, _, hs => hs
  | (key, value) :: es, s, h, hs => by
    simp only [Expr.outlineEntries, Outline.allOf_cons] at h
    have h₁ := hg.expr key s h.1 hs
    exact hg.entries es _ h.2.2 (hg.expr value _ h.2.1 h₁)

end

end Guards

end Semant
