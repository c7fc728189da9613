import Semant.Proofs.Tree.Extension
import Semant.Proofs.Typing.ClosedTypes
import Semant.Proofs.Typing.Rules
import Semant.Proofs.Typing.Evolution

/-! What typing does to an expression, whether it ends well or not: empty slots take values and
nothing else changes. The types that slots take are of every class that the rules do not lead out of
and that has the types which are there before. -/

namespace Semant

open Resolve Outcome

mutual

theorem Expr.blank_resolve (d : Demand) : ∀ (e : Expr) (s : Progress),
    (e.resolve d s).1.blank = e.blank
  | .literal .., _ | .var .., _ => rfl
  | .array elems .., s | .tuple elems .., s | .construct _ elems .., s => by
    simp only [Expr.resolve, bind_apply, pure_apply, Expr.blank, Expr.blankAll_resolveAll d elems]
  | .dict entries .., s => by
    simp only [Expr.resolve, bind_apply, pure_apply, Expr.blank,
      Expr.blankEntries_resolveEntries d entries]
  | .call child args .., s => by
    simp only [Expr.resolve, bind_apply, get_apply]
    cases child.functionName? s.env with
    | some name =>
      simp only [bind_apply, pure_apply, Expr.blank, Expr.blankAll_resolveAll d args]
    | none =>
      simp only [bind_apply, pure_apply, Expr.blank, Expr.blank_resolve d child,
        Expr.blankAll_resolveAll d args]
  | .index child position .., s => by
    simp only [Expr.resolve, bind_apply, pure_apply, Expr.blank, Expr.blank_resolve d child,
      Expr.blank_resolve d position]
  | .member child .., s | .unary _ child .., s | .cast child .., s => by
    simp only [Expr.resolve, bind_apply, pure_apply, Expr.blank, Expr.blank_resolve d child]
  | .binary lhs _ rhs .., s => by
    simp only [Expr.resolve, bind_apply, pure_apply, Expr.blank, Expr.blank_resolve d lhs,
      Expr.blank_resolve d rhs]
  | .choice cond yes no .., s => by
    simp only [Expr.resolve, bind_apply, pure_apply, Expr.blank, Expr.blank_resolve d cond,
      Expr.blank_resolve d yes, Expr.blank_resolve d no]
  | .typed child .., s => by
    simp only [Expr.resolve, bind_apply]
    generalize Resolve.attempt _ s = r
    obtain ⟨_ | ascribed, t⟩ := r
    · rfl
    dsimp only
    split
    · have hadopt : (child.adopt ascribed t).1.blank = child.blank := by cases child <;> rfl
      simp only [bind_apply, pure_apply, Expr.blank, hadopt]
    · simp only [bind_apply, pure_apply, Expr.blank, Expr.blank_resolve d child]

theorem Expr.blankAll_resolveAll (d : Demand) : ∀ (es : List Expr) (s : Progress),
    Expr.blankAll (Expr.resolveAll d es s).1 = Expr.blankAll es
  | [], _ => rfl
  | e :: es, s => by
    simp only [Expr.resolveAll, bind_apply, pure_apply, Expr.blankAll, Expr.blank_resolve d e,
      Expr.blankAll_resolveAll d es]

theorem Expr.blankEntries_resolveEntries (d : Demand) : ∀ (es : List (Expr × Expr)) (s : Progress),
    Expr.blankEntries (Expr.resolveEntries d es s).1 = Expr.blankEntries es
  | [], _ => rfl
  | (key, value) :: es, s => by
    simp only [Expr.resolveEntries, bind_apply, pure_apply, Expr.blankEntries,
      Expr.blank_resolve d key, Expr.blank_resolve d value, Expr.blankEntries_resolveEntries d es]

end

/-- Slots of the function take types of `Q` and nothing else changes. -/
structure FuncDef.Gains (Q : Ty → Prop) (f f' : FuncDef) : Prop where
  same : f'.emptied = f.emptied
  nodes : f.outline.Pairs (Node.Gains Q) f'.outline

/-- Written types and the return types of symbols are of `Q`. -/
structure Scope.Within (Q : Ty → Prop) (σ : Scope) : Prop where
  written : ∀ t ty, TypeExpr.resolve σ t = .ok ty → Q ty
  symbols : ∀ g ∈ σ.functions, ∀ ty ∈ g.ret.get?, Q ty

/-- The types that typing can get hold of are of `Q`, and the functions of `fs` gained such
types. -/
structure Progress.Within (Q : Ty → Prop) (fs : List FuncDef) (s : Progress) : Prop where
  env : ∀ entry ∈ s.env.context, Q entry.2.ty
  returns : ∀ returns ∈ s.returns, ∀ ty ∈ returns.expected, Q ty
  scope : s.scope.Within Q
  funcs : List.Forall₂ (FuncDef.Gains Q) fs s.funcs

variable {Q : Ty → Prop} {fs : List FuncDef} {s : Progress} {α : Type}

theorem Expr.holds_ty {e : Expr} (h : e.outline.All (Node.Holds Q)) :
    ∀ ty, e.ty = .resolved ty → Q ty := by
  have hnode : (Node.expr e).Holds Q := by
    cases e <;> exact (Outline.all_mk.mp h).1
  intro ty hty
  exact hnode e.ty rfl ty (Slot.get?_eq_some.mpr hty)

theorem Expr.holds_types {es : List Expr} (h : Outline.AllOf (Node.Holds Q) (Expr.outlines es)) :
    ∀ {tys}, Expr.types es = .ok tys → ∀ ty ∈ tys, Q ty := by
  induction es with
  | nil =>
    rintro _ ⟨⟩
    exact List.forall_mem_nil _
  | cons e es ih =>
    obtain ⟨he, hes⟩ := Outline.allOf_cons.mp h
    intro tys htys
    simp only [Expr.types, List.mapM_cons, bind_eq_ok, Expr.type_eq_ok, pure_eq,
      Except.ok.injEq] at htys
    obtain ⟨ty, hty, rest, hrest, rfl⟩ := htys
    exact List.forall_mem_cons.mpr ⟨Expr.holds_ty he ty hty, ih hes hrest⟩

theorem Expr.holds_entryTypes {es : List (Expr × Expr)}
    (h : Outline.AllOf (Node.Holds Q) (Expr.outlineEntries es)) :
    ∀ {tys}, Expr.entryTypes es = .ok tys → ∀ p ∈ tys, Q p.1 ∧ Q p.2 := by
  induction es with
  | nil =>
    rintro _ ⟨⟩
    exact List.forall_mem_nil _
  | cons entry es ih =>
    obtain ⟨key, value⟩ := entry
    simp only [Expr.outlineEntries, Outline.allOf_cons] at h
    obtain ⟨hkey, hvalue, hes⟩ := h
    intro tys htys
    simp only [Expr.entryTypes, List.mapM_cons, bind_eq_ok, Expr.type_eq_ok, pure_eq,
      Except.ok.injEq] at htys
    obtain ⟨_, ⟨k, hk, v, hv, rfl⟩, rest, hrest, rfl⟩ := htys
    exact List.forall_mem_cons.mpr
      ⟨⟨Expr.holds_ty hkey k hk, Expr.holds_ty hvalue v hv⟩, ih hes hrest⟩

namespace Progress.Within

theorem fail (h : s.Within Q fs) (error : Error) :
    Progress.Within Q fs { s with error := some error } :=
  ⟨h.env, h.returns, h.scope, h.funcs⟩

theorem attempt (h : s.Within Q fs) (step : Progress → Except Error α) :
    (Resolve.attempt step s).2.Within Q fs ∧
      ∀ a ∈ (Resolve.attempt step s).1, step s = .ok a := by
  rcases attempt_cases step s with ⟨a, _, ha, hrun⟩ | ⟨_, hrun⟩ | ⟨error, _, _, hrun⟩
  · rw [hrun]
    refine ⟨h, ?_⟩
    rintro _ ⟨⟩
    exact ha
  · rw [hrun]
    refine ⟨h, ?_⟩
    rintro _ ⟨⟩
  · rw [hrun]
    refine ⟨h.fail error, ?_⟩
    rintro _ ⟨⟩

theorem settle (h : s.Within Q fs) (slot : Slot Ty) (rule : Progress → Except Error Ty)
    (hrule : ∀ ty, rule s = .ok ty → Q ty) :
    slot.Gains Q (Resolve.settle slot rule s).1 ∧ (Resolve.settle slot rule s).2.Within Q fs := by
  obtain ⟨hstate, hfilled⟩ := h.attempt fun s => rule s >>= slot.fill
  rw [settle_apply]
  refine ⟨?_, hstate⟩
  generalize (Resolve.attempt _ s).1 = filled at hfilled ⊢
  cases filled with
  | none => exact .kept slot
  | some slot' =>
    obtain ⟨ty, hty, hfill⟩ := bind_eq_ok.mp (hfilled slot' rfl)
    cases slot with
    | unresolved =>
      cases hfill
      exact .filled (hrule ty hty)
    | resolved => cases hfill

/-- The last step of an expression fills its own slot. -/
theorem settled {e e' : Expr} {parts parts' : List Outline} {slot : Slot Ty}
    {rule : Progress → Except Error Ty} (h : s.Within Q fs)
    (hparts : Outline.PairsAll (Node.Gains Q) parts parts')
    (hnode : slot.Gains Q (Resolve.settle slot rule s).1 → (Node.expr e).Gains Q (.expr e'))
    (hrule : ∀ ty, rule s = .ok ty → Q ty) :
    (Outline.mk (.expr e) parts).Pairs (Node.Gains Q) (.mk (.expr e') parts') ∧
      (Resolve.settle slot rule s).2.Within Q fs := by
  obtain ⟨hslot, hstate⟩ := h.settle slot rule hrule
  exact ⟨.mk (hnode hslot) hparts, hstate⟩

end Progress.Within

/-- The class of types is closed, and an analysis on demand stays in it. -/
structure Extending (Q : Ty → Prop) (fs : List FuncDef) (d : Demand) : Prop where
  types : Ty.Closed Q
  demand : ∀ id s, s.Within Q fs → (d id s).2.Within Q fs

namespace Extending

variable {d : Demand}

theorem bindCall (hd : Extending Q fs d) (h : s.Within Q fs) (name : String)
    (args : Except Error (List Ty)) (callee : Slot SymbolId) (ty : Slot Ty) (loc : Location) :
    callee.Gains (fun _ => True) (Semant.bindCall d name args callee ty loc s).1.1 ∧
      ty.Gains Q (Semant.bindCall d name args callee ty loc s).1.2 ∧
      (Semant.bindCall d name args callee ty loc s).2.Within Q fs := by
  rcases bindCall_cases d name args callee ty loc s with
    ⟨tys, o, r, _, _, _, rfl, rfl, hrun⟩ | ⟨_, hrun⟩ | ⟨error, _, _, hrun⟩
  · have hdemanded : (demanded d o.symbol s).Within Q fs := by
      unfold demanded
      split
      · exact hd.demand _ s h
      · exact h
    rw [hrun]
    dsimp only
    refine ⟨.filled trivial, hdemanded.settle ty _ fun ty hty => ?_⟩
    rcases Typing.result_eq_ok.mp hty with ⟨_, rfl⟩ | ⟨_, hret⟩
    · exact hd.types.unit
    · obtain ⟨g, hg, hg'⟩ := Scope.returnType?_eq_some.mp hret
      exact hdemanded.scope.symbols g (List.mem_of_getElem? hg) ty (Slot.get?_eq_some.mpr hg')
  · rw [hrun]
    exact ⟨.kept callee, .kept ty, h⟩
  · rw [hrun]
    exact ⟨.kept callee, .kept ty, h.fail error⟩

theorem adopt (h : s.Within Q fs) {written : Ty} (hwritten : Q written) (e : Expr) :
    e.outline.Pairs (Node.Gains Q) (e.adopt written s).1.outline ∧
      (e.adopt written s).2.Within Q fs := by
  have hset : ∀ slot : Slot Ty, slot.Gains Q (Resolve.settle slot (fun _ => .ok written) s).1 ∧
      (Resolve.settle slot (fun _ => .ok written) s).2.Within Q fs := by
    refine fun slot => h.settle slot _ ?_
    rintro _ ⟨⟩
    exact hwritten
  cases e with
  | array elems ty loc => exact ⟨.mk ⟨.some (hset ty).1, .none⟩ (.refl _), (hset ty).2⟩
  | dict entries ty loc => exact ⟨.mk ⟨.some (hset ty).1, .none⟩ (.refl _), (hset ty).2⟩
  | _ => exact ⟨.refl _, h⟩

mutual

theorem expr (hd : Extending Q fs d) : ∀ (e : Expr) (s : Progress),
    e.outline.All (Node.Holds Q) → s.Within Q fs →
    e.outline.Pairs (Node.Gains Q) (e.resolve d s).1.outline ∧ (e.resolve d s).2.Within Q fs
  | .literal .., s, _, hs => by
    simp only [Expr.resolve, bind_apply, pure_apply]
    refine hs.settled .nil (fun hty => ⟨.some hty, .none⟩) ?_
    rintro _ ⟨⟩
    exact hd.types.builtin
  | .array elems .., s, h, hs => by
    simp only [Expr.outline, Outline.all_mk] at h
    simp only [Expr.resolve, bind_apply, pure_apply]
    obtain ⟨helems, hs⟩ := hd.exprs elems s h.2 hs
    refine hs.settled helems (fun hty => ⟨.some hty, .none⟩) fun found hfound => ?_
    obtain ⟨tys, htys, hrule⟩ := bind_eq_ok.mp hfound
    obtain ⟨first, rest, rfl, _, rfl⟩ := Typing.array_eq_ok.mp hrule
    have hfirst := Expr.holds_types (helems.holds h.2) htys first List.mem_cons_self
    exact hd.types.array.mpr hfirst
  | .tuple elems .., s, h, hs => by
    simp only [Expr.outline, Outline.all_mk] at h
    simp only [Expr.resolve, bind_apply, pure_apply]
    obtain ⟨helems, hs⟩ := hd.exprs elems s h.2 hs
    refine hs.settled helems (fun hty => ⟨.some hty, .none⟩) fun found hfound => ?_
    obtain ⟨tys, htys, ⟨⟩⟩ := bind_eq_ok.mp hfound
    exact hd.types.tuple.mpr (Expr.holds_types (helems.holds h.2) htys)
  | .dict entries .., s, h, hs => by
    simp only [Expr.outline, Outline.all_mk] at h
    simp only [Expr.resolve, bind_apply, pure_apply]
    obtain ⟨hentries, hs⟩ := hd.entries entries s h.2 hs
    refine hs.settled hentries (fun hty => ⟨.some hty, .none⟩) fun found hfound => ?_
    obtain ⟨tys, htys, hrule⟩ := bind_eq_ok.mp hfound
    obtain ⟨key, value, rest, rfl, _, rfl⟩ := Typing.dict_eq_ok.mp hrule
    have hfirst := Expr.holds_entryTypes (hentries.holds h.2) htys _ List.mem_cons_self
    exact hd.types.dict.mpr hfirst
  | .var .., s, h, hs => by
    simp only [Expr.resolve, bind_apply, pure_apply]
    refine hs.settled .nil (fun hty => ⟨.some hty, .none⟩) fun found hfound => ?_
    split at hfound
    · rename_i binding hlookup
      cases hfound
      rw [Env.lookup?_eq] at hlookup
      obtain ⟨_, _, heq, _⟩ := List.lookup_eq_some_iff.mp hlookup
      exact hs.env _ (heq ▸ List.mem_append_right _ List.mem_cons_self)
    · cases hfound
  | .call child args .., s, h, hs => by
    simp only [Expr.outline, Outline.all_mk, Outline.allOf_cons] at h
    obtain ⟨_, hchild, hargs⟩ := h
    simp only [Expr.resolve, bind_apply, get_apply]
    cases child.functionName? s.env with
    | some name =>
      simp only [bind_apply, pure_apply]
      obtain ⟨hargs', hs⟩ := hd.exprs args s hargs hs
      obtain ⟨hcallee, hty, hs⟩ := hd.bindCall hs name _ _ _ _
      exact ⟨.mk ⟨.some hty, .some hcallee⟩ (.cons (.refl _) hargs'), hs⟩
    | none =>
      simp only [bind_apply, pure_apply]
      obtain ⟨hchild', hs⟩ := hd.expr child s hchild hs
      obtain ⟨hargs', hs⟩ := hd.exprs args _ hargs hs
      refine hs.settled (.cons hchild' hargs') (fun hty => ⟨.some hty, .some (.kept _)⟩)
        fun found hfound => ?_
      obtain ⟨f, hf, hfound⟩ := bind_eq_ok.mp hfound
      obtain ⟨tys, _, hrule⟩ := bind_eq_ok.mp hfound
      have hf := Expr.holds_ty (hchild'.holds hchild) f (Expr.type_eq_ok.mp hf)
      exact (Typing.call_eq_ok.mp hrule).closed hd.types hf
  | .construct written args .., s, h, hs => by
    simp only [Expr.outline, Outline.all_mk, Outline.allOf_cons] at h
    obtain ⟨_, _, hargs⟩ := h
    simp only [Expr.resolve, bind_apply, pure_apply]
    obtain ⟨hargs', hs⟩ := hd.exprs args s hargs hs
    exact hs.settled (.cons (.refl _) hargs') (fun hty => ⟨.some hty, .none⟩)
      (hs.scope.written written)
  | .index child position .., s, h, hs => by
    simp only [Expr.outline, Outline.all_mk, Outline.allOf_cons] at h
    obtain ⟨_, hchild, hposition, _⟩ := h
    simp only [Expr.resolve, bind_apply, pure_apply]
    obtain ⟨hchild', hs⟩ := hd.expr child s hchild hs
    obtain ⟨hposition', hs⟩ := hd.expr position _ hposition hs
    refine hs.settled (.cons hchild' (.singleton hposition')) (fun hty => ⟨.some hty, .none⟩)
      fun found hfound => ?_
    obtain ⟨held, hheld, hfound⟩ := bind_eq_ok.mp hfound
    obtain ⟨at_, _, hrule⟩ := bind_eq_ok.mp hfound
    have hheld := Expr.holds_ty (hchild'.holds hchild) held (Expr.type_eq_ok.mp hheld)
    exact (Typing.index_eq_ok.mp hrule).closed hd.types hheld
  | .member child name .., s, h, hs => by
    simp only [Expr.outline, Outline.all_mk, Outline.allOf_cons] at h
    obtain ⟨_, hchild, _⟩ := h
    simp only [Expr.resolve, bind_apply, pure_apply]
    obtain ⟨hchild', hs⟩ := hd.expr child s hchild hs
    obtain ⟨hcallee, hty, hs⟩ := hd.bindCall hs name _ _ _ _
    exact ⟨.mk ⟨.some hty, .some hcallee⟩ (.singleton hchild'), hs⟩
  | .unary op operand .., s, h, hs => by
    simp only [Expr.outline, Outline.all_mk, Outline.allOf_cons] at h
    obtain ⟨_, hoperand, _⟩ := h
    simp only [Expr.resolve, bind_apply, pure_apply]
    obtain ⟨hoperand', hs⟩ := hd.expr operand s hoperand hs
    refine hs.settled (.singleton hoperand') (fun hty => ⟨.some hty, .none⟩) fun found hfound => ?_
    obtain ⟨from_, hfrom, htakes⟩ := Typing.unary_eq_ok.mp hfound
    exact htakes.closed hd.types (Expr.holds_ty (hoperand'.holds hoperand) from_ hfrom)
  | .cast child written .., s, h, hs => by
    simp only [Expr.outline, Outline.all_mk, Outline.allOf_cons] at h
    obtain ⟨_, hchild, _⟩ := h
    simp only [Expr.resolve, bind_apply, pure_apply]
    obtain ⟨hchild', hs⟩ := hd.expr child s hchild hs
    exact hs.settled (.cons hchild' (.refl _)) (fun hty => ⟨.some hty, .none⟩)
      (hs.scope.written written)
  | .binary lhs op rhs .., s, h, hs => by
    simp only [Expr.outline, Outline.all_mk, Outline.allOf_cons] at h
    obtain ⟨_, hrhs, hlhs, _⟩ := h
    simp only [Expr.resolve, bind_apply, pure_apply]
    obtain ⟨hrhs', hs⟩ := hd.expr rhs s hrhs hs
    obtain ⟨hlhs', hs⟩ := hd.expr lhs _ hlhs hs
    refine hs.settled (.cons hrhs' (.singleton hlhs')) (fun hty => ⟨.some hty, .none⟩)
      fun found hfound => ?_
    obtain ⟨left, hleft, hfound⟩ := bind_eq_ok.mp hfound
    obtain ⟨right, hright, hrule⟩ := bind_eq_ok.mp hfound
    have hleft := Expr.holds_ty (hlhs'.holds hlhs) left (Expr.type_eq_ok.mp hleft)
    have hright := Expr.holds_ty (hrhs'.holds hrhs) right (Expr.type_eq_ok.mp hright)
    exact (Typing.binary_eq_ok.mp hrule).closed hd.types hleft hright
  | .choice cond yes no .., s, h, hs => by
    simp only [Expr.outline, Outline.all_mk, Outline.allOf_cons] at h
    obtain ⟨_, hcond, hyes, hno, _⟩ := h
    simp only [Expr.resolve, bind_apply, pure_apply]
    obtain ⟨hcond', hs⟩ := hd.expr cond s hcond hs
    obtain ⟨hyes', hs⟩ := hd.expr yes _ hyes hs
    obtain ⟨hno', hs⟩ := hd.expr no _ hno hs
    refine hs.settled (.cons hcond' (.cons hyes' (.singleton hno')))
      (fun hty => ⟨.some hty, .none⟩) fun found hfound => ?_
    obtain ⟨_, hyesTy, _⟩ := Typing.choice_eq_ok.mp hfound
    exact Expr.holds_ty (hyes'.holds hyes) found hyesTy
  | .typed child written _ loc, s, h, hs => by
    simp only [Expr.outline, Outline.all_mk, Outline.allOf_cons] at h
    obtain ⟨_, hchild, _⟩ := h
    have hattempt := hs.attempt fun s => written.resolve s.scope
    have hwritten := hs.scope.written written
    simp only [Expr.resolve, bind_apply]
    generalize Resolve.attempt _ s = r at hattempt ⊢
    obtain ⟨_ | ascribed, t⟩ := r
    · exact ⟨.refl _, hattempt.1⟩
    obtain ⟨hs, hok⟩ := hattempt
    have hascribed : Q ascribed := hwritten ascribed (hok ascribed rfl)
    have hrule : ∀ (e : Expr) (found : Ty),
        (do Typing.ascription (← e.type) ascribed loc) = .ok found → Q found := by
      intro e found hfound
      obtain ⟨_, _, hrule⟩ := bind_eq_ok.mp hfound
      rw [(Typing.ascription_eq_ok.mp hrule).2]
      exact hascribed
    dsimp only at hs ⊢
    split
    · simp only [bind_apply, pure_apply]
      obtain ⟨hchild', hs⟩ := adopt hs hascribed child
      exact hs.settled (.cons hchild' (.refl _)) (fun hty => ⟨.some hty, .none⟩) (hrule _)
    · simp only [bind_apply, pure_apply]
      obtain ⟨hchild', hs⟩ := hd.expr child t hchild hs
      exact hs.settled (.cons hchild' (.refl _)) (fun hty => ⟨.some hty, .none⟩) (hrule _)

theorem exprs (hd : Extending Q fs d) : ∀ (es : List Expr) (s : Progress),
    Outline.AllOf (Node.Holds Q) (Expr.outlines es) → s.Within Q fs →
    Outline.PairsAll (Node.Gains Q) (Expr.outlines es) (Expr.outlines (Expr.resolveAll d es s).1) ∧
      (Expr.resolveAll d es s).2.Within Q fs
  | [], _, _, hs => ⟨.nil, hs⟩
  | e :: es, s, h, hs => by
    obtain ⟨he, hs⟩ := hd.expr e s (Outline.allOf_cons.mp h).1 hs
    obtain ⟨hes, hs⟩ := hd.exprs es _ (Outline.allOf_cons.mp h).2 hs
    exact ⟨.cons he hes, hs⟩

theorem entries (hd : Extending Q fs d) : ∀ (es : List (Expr × Expr)) (s : Progress),
    Outline.AllOf (Node.Holds Q) (Expr.outlineEntries es) → s.Within Q fs →
    Outline.PairsAll (Node.Gains Q) (Expr.outlineEntries es)
        (Expr.outlineEntries (Expr.resolveEntries d es s).1) ∧
      (Expr.resolveEntries d es s).2.Within Q fs
  | [], _, _, hs => ⟨.nil, hs⟩
  | (key, value) :: es, s, h, hs => by
    simp only [Expr.outlineEntries, Outline.allOf_cons] at h
    obtain ⟨hkey, hs⟩ := hd.expr key s h.1 hs
    obtain ⟨hvalue, hs⟩ := hd.expr value _ h.2.1 hs
    obtain ⟨hes, hs⟩ := hd.entries es _ h.2.2 hs
    exact ⟨.cons hkey (.cons hvalue hes), hs⟩

end

end Extending

end Semant
