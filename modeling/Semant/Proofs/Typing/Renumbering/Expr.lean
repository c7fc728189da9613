import Semant.Proofs.Scope.Renumbering

/-! Expressions in a scope with other numbers. Every rule holds of renumbered types, so an
expression without values in its slots becomes the same tree up to the numbers. -/

namespace Semant

namespace Renumbering

variable (ρ : Renumbering)

def binding (b : Binding) : Binding :=
  { b with ty := ρ.ty b.ty }

def context (Γ : Context) : Context :=
  Γ.map fun (name, b) => (name, ρ.binding b)

@[simp]
theorem context_cons (name : String) (b : Binding) (Γ : Context) :
    ρ.context ((name, b) :: Γ) = (name, ρ.binding b) :: ρ.context Γ := rfl

theorem lookup_context (Γ : Context) (name : String) :
    (ρ.context Γ).lookup name = (Γ.lookup name).map ρ.binding := by
  induction Γ with
  | nil => rfl
  | cons p Γ ih =>
    obtain ⟨other, b⟩ := p
    rw [context_cons, List.lookup_cons, List.lookup_cons]
    cases hname : name == other with
    | false => exact ih
    | true => rfl

theorem assignable_context {Γ : Context} {e : Expr} (h : e.Assignable Γ) :
    e.Assignable (ρ.context Γ) := by
  cases e with
  | var name slot loc =>
    intro b hb
    rw [lookup_context] at hb
    obtain ⟨known, hknown, rfl⟩ := Option.map_eq_some_iff.mp hb
    exact h known hknown
  | _ => trivial

theorem slot_beq (slot : Slot Ty) : some slot == some (slot.map ρ.ty) := by
  cases slot with
  | unresolved => rfl
  | resolved ty => exact ρ.beq_ty ty

end Renumbering

section Rules

variable (ρ : Renumbering)

theorem Ty.Applies.renumber {f ty : Ty} {args : List Ty} (h : f.Applies args ty) :
    (ρ.ty f).Applies (args.map ρ.ty) (ρ.ty ty) := by
  cases h with
  | func heq =>
    rw [Renumbering.ty_func]
    exact .func ((ρ.tys_beq _ _).trans heq)
  | proc heq =>
    rw [Renumbering.ty_proc]
    exact .proc ((ρ.tys_beq _ _).trans heq)

theorem UnaryOp.Takes.renumber {op : UnaryOp} {operand ty : Ty} (h : op.Takes operand ty) :
    op.Takes (ρ.ty operand) (ρ.ty ty) := by
  cases h with
  | not => exact .not
  | negate hnum => exact .negate ((ρ.isNumeric_ty _).trans hnum)

theorem BinaryOp.Takes.renumber {op : BinaryOp} {lhs rhs ty : Ty} (h : op.Takes lhs rhs ty) :
    op.Takes (ρ.ty lhs) (ρ.ty rhs) (ρ.ty ty) := by
  cases h with
  | logical hop => exact .logical hop
  | comparison hop heq => exact .comparison hop ((ρ.ty_beq _ _).trans heq)
  | range heq => exact .range ((ρ.ty_beq _ _).trans heq)
  | arithmetic hop hnum => exact .arithmetic hop ((ρ.isNumeric_ty _).trans hnum)
  | concatenation => exact .concatenation

theorem Ty.Holds.renumber {held at_ ty : Ty} {position position' : Expr}
    (h : held.Holds at_ position ty)
    (hsame : ∀ {value slot loc}, position = .literal value slot loc →
      ∃ slot', position' = .literal value slot' loc) :
    (ρ.ty held).Holds (ρ.ty at_) position' (ρ.ty ty) := by
  cases h with
  | array hat => exact .array ((ρ.isIntegral_ty _).trans hat)
  | string hat => exact .string ((ρ.isIntegral_ty _).trans hat)
  | dict heq => exact .dict ((ρ.ty_beq _ _).trans heq)
  | tuple hvalue helem =>
    obtain ⟨slot', rfl⟩ := hsame rfl
    rw [Renumbering.ty_tuple]
    refine .tuple hvalue ?_
    rw [List.getElem?_map, helem, Option.map_some]

theorem Ty.Iterates.renumber {ty elem : Ty} (h : ty.Iterates elem) :
    (ρ.ty ty).Iterates (ρ.ty elem) := by
  cases h with
  | array => exact .array
  | range => exact .range
  | dict =>
    rw [Renumbering.ty_tuple]
    exact .dict

theorem Spreads.renumber {values parts : List Ty} {n : Nat} (h : Spreads values n parts) :
    Spreads (values.map ρ.ty) n (parts.map ρ.ty) := by
  cases h with
  | each hlen => exact .each ((List.length_map _).trans hlen)
  | tuple hlen hone =>
    rw [List.map_singleton, Renumbering.ty_tuple]
    exact .tuple ((List.length_map _).trans hlen) hone

theorem Renumbering.forall_beq {ty : Ty} {tys : List Ty} (h : ∀ other ∈ tys, other == ty) :
    ∀ other ∈ tys.map ρ.ty, other == ρ.ty ty := by
  refine List.forall_mem_map.mpr fun other hother => ?_
  exact (ρ.ty_beq _ _).trans (h other hother)

end Rules

theorem Expr.Resolves.same_literal {σ τ : Scope} {Γ Δ : Context} {e e₁ e₂ : Expr} {ty ty' : Ty}
    (h : e.Resolves σ Γ e₁ ty) (h' : e.Resolves τ Δ e₂ ty') {value : Literal} {slot : Slot Ty}
    {loc : Location} (he : e₁ = .literal value slot loc) :
    ∃ slot', e₂ = .literal value slot' loc := by
  subst he
  cases h
  cases h'
  exact ⟨_, rfl⟩

theorem Expr.Resolves.assignable_iff {σ : Scope} {Γ Δ : Context} {e e' : Expr} {ty : Ty}
    (h : e.Resolves σ Γ e' ty) : e'.Assignable Δ ↔ e.Assignable Δ := by
  cases h <;> rfl

theorem Expr.ResolvesAll.assignable_iff {σ : Scope} {Γ Δ : Context} {es es' : List Expr}
    {tys : List Ty} (h : Expr.ResolvesAll σ Γ es es' tys) :
    (∀ e ∈ es', e.Assignable Δ) ↔ ∀ e ∈ es, e.Assignable Δ := by
  induction es generalizing es' tys with
  | nil =>
    cases h
    rfl
  | cons e es ih =>
    cases h with
    | cons he hes => rw [List.forall_mem_cons, List.forall_mem_cons, he.assignable_iff, ih hes]

theorem Slot.eq_unresolved {α : Type} {slot : Slot α} (h : (!slot.isResolved) = true) :
    slot = .unresolved := by
  cases slot with
  | unresolved => rfl
  | resolved => cases h

section Trees

variable {ρ : Renumbering} {σ τ : Scope} {Γ : Context}

mutual

theorem Expr.Resolves.renumber (h : σ.Renumbers ρ τ) : ∀ {e e₁ : Expr} {ty : Ty},
    e.Resolves σ Γ e₁ ty → e.outline.All (·.isBlank = true) →
      ∃ e₂, e.Resolves τ (ρ.context Γ) e₂ (ρ.ty ty) ∧ e₁.outline.Agrees ρ.func e₂.outline
  | .literal .., _, _, he, _ => by
    cases he with
    | literal => exact ⟨_, .literal, .mk ⟨rfl, rfl, ρ.slot_beq _, rfl⟩ .nil⟩
  | .array elems .., _, _, he, hblank => by
    rw [Expr.outline, Outline.all_mk] at hblank
    cases he with
    | array helems hall =>
      obtain ⟨elems₂, helems₂, hagree⟩ := helems.renumber h hblank.2
      exact ⟨_, .array helems₂ (ρ.forall_beq hall), .mk ⟨rfl, rfl, ρ.slot_beq _, rfl⟩ hagree⟩
  | .tuple elems .., _, _, he, hblank => by
    rw [Expr.outline, Outline.all_mk] at hblank
    cases he with
    | tuple helems =>
      obtain ⟨elems₂, helems₂, hagree⟩ := helems.renumber h hblank.2
      rw [Renumbering.ty_tuple]
      refine ⟨_, .tuple helems₂, .mk ⟨rfl, rfl, ?_, rfl⟩ hagree⟩
      rw [← Renumbering.ty_tuple]
      exact ρ.slot_beq _
  | .dict entries .., _, _, he, hblank => by
    rw [Expr.outline, Outline.all_mk] at hblank
    cases he with
    | dict hentries hall =>
      obtain ⟨entries₂, hentries₂, hagree⟩ := hentries.renumber h hblank.2
      refine ⟨_, .dict hentries₂ ?_, .mk ⟨rfl, rfl, ρ.slot_beq _, rfl⟩ hagree⟩
      refine List.forall_mem_map.mpr fun other hother => ?_
      obtain ⟨hkey, hvalue⟩ := hall other hother
      exact ⟨(ρ.ty_beq _ _).trans hkey, (ρ.ty_beq _ _).trans hvalue⟩
  | .var name _ _, _, _, he, _ => by
    cases he with
    | @var _ b _ hname =>
      have hname' := ρ.lookup_context Γ name
      rw [hname, Option.map_some] at hname'
      exact ⟨_, .var hname', .mk ⟨rfl, rfl, ρ.slot_beq (.resolved b.ty), rfl⟩ .nil⟩
  | .call child args callee .., _, _, he, hblank => by
    rw [Expr.outline, Outline.all_mk, Outline.allOf_cons] at hblank
    obtain ⟨hnode, hchild, hargs⟩ := hblank
    cases he with
    | @named name _ _ _ tys _ _ _ _ hfree hall hid hcall =>
      obtain ⟨args₂, hargs₂, hagree⟩ := hall.renumber h hargs
      have hfree' := ρ.lookup_context Γ name
      rw [hfree, Option.map_none] at hfree'
      have hid' := h.resolve? name tys
      rw [hid, Option.map_some] at hid'
      exact ⟨_, .named hfree' hargs₂ hid' (h.callType hcall),
        .mk ⟨rfl, rfl, ρ.slot_beq _, rfl⟩ (.cons (.self hchild) hagree)⟩
    | applied hf hall happ =>
      obtain ⟨child₂, hchild₂, hagree⟩ := hf.renumber h hchild
      obtain ⟨args₂, hargs₂, hagrees⟩ := hall.renumber h hargs
      -- a callee that the program has set would keep its number
      have hcallee : callee = .unresolved := by
        simp only [Node.isBlank, Node.calleeSlot?, Bool.and_eq_true, Option.all_some] at hnode
        exact Slot.eq_unresolved hnode.2
      subst hcallee
      exact ⟨_, .applied hchild₂ hargs₂ (happ.renumber ρ),
        .mk ⟨rfl, rfl, ρ.slot_beq _, rfl⟩ (.cons hagree hagrees)⟩
  | .construct written args .., _, _, he, hblank => by
    rw [Expr.outline, Outline.all_mk, Outline.allOf_cons] at hblank
    cases he with
    | construct hall hwritten =>
      obtain ⟨args₂, hargs₂, hagree⟩ := hall.renumber h hblank.2.2
      exact ⟨_, .construct hargs₂ (written.resolve_renumbers h hwritten),
        .mk ⟨rfl, rfl, ρ.slot_beq _, rfl⟩ (.cons written.agrees hagree)⟩
  | .index child position .., _, _, he, hblank => by
    simp only [Expr.outline, Outline.all_mk, Outline.allOf_cons] at hblank
    cases he with
    | index hheld hat hholds =>
      obtain ⟨child₂, hchild₂, hagree⟩ := hheld.renumber h hblank.2.1
      obtain ⟨position₂, hposition₂, hagree'⟩ := hat.renumber h hblank.2.2.1
      have hholds₂ := hholds.renumber ρ (hat.same_literal hposition₂)
      exact ⟨_, .index hchild₂ hposition₂ hholds₂,
        .mk ⟨rfl, rfl, ρ.slot_beq _, rfl⟩ (.cons hagree (.singleton hagree'))⟩
  | .member child name .., _, _, he, hblank => by
    simp only [Expr.outline, Outline.all_mk, Outline.allOf_cons] at hblank
    cases he with
    | @member _ _ _ receiver _ _ _ hreceiver hid hcall =>
      obtain ⟨child₂, hchild₂, hagree⟩ := hreceiver.renumber h hblank.2.1
      have hid' := h.resolve? name [receiver]
      rw [hid, Option.map_some] at hid'
      exact ⟨_, .member hchild₂ hid' (h.callType hcall),
        .mk ⟨rfl, rfl, ρ.slot_beq _, rfl⟩ (.singleton hagree)⟩
  | .unary _ operand .., _, _, he, hblank => by
    simp only [Expr.outline, Outline.all_mk, Outline.allOf_cons] at hblank
    cases he with
    | unary hoperand htakes =>
      obtain ⟨operand₂, hoperand₂, hagree⟩ := hoperand.renumber h hblank.2.1
      exact ⟨_, .unary hoperand₂ (htakes.renumber ρ),
        .mk ⟨rfl, rfl, ρ.slot_beq _, rfl⟩ (.singleton hagree)⟩
  | .cast child written .., _, _, he, hblank => by
    simp only [Expr.outline, Outline.all_mk, Outline.allOf_cons] at hblank
    cases he with
    | cast hchild hwritten =>
      obtain ⟨child₂, hchild₂, hagree⟩ := hchild.renumber h hblank.2.1
      exact ⟨_, .cast hchild₂ (written.resolve_renumbers h hwritten),
        .mk ⟨rfl, rfl, ρ.slot_beq _, rfl⟩ (.cons hagree (.singleton written.agrees))⟩
  | .binary lhs _ rhs .., _, _, he, hblank => by
    simp only [Expr.outline, Outline.all_mk, Outline.allOf_cons] at hblank
    cases he with
    | binary hlhs hrhs htakes =>
      obtain ⟨rhs₂, hrhs₂, hagree⟩ := hrhs.renumber h hblank.2.1
      obtain ⟨lhs₂, hlhs₂, hagree'⟩ := hlhs.renumber h hblank.2.2.1
      exact ⟨_, .binary hlhs₂ hrhs₂ (htakes.renumber ρ),
        .mk ⟨rfl, rfl, ρ.slot_beq _, rfl⟩ (.cons hagree (.singleton hagree'))⟩
  | .choice cond yes no .., _, _, he, hblank => by
    simp only [Expr.outline, Outline.all_mk, Outline.allOf_cons] at hblank
    cases he with
    | choice hcond hyes hno heq =>
      obtain ⟨cond₂, hcond₂, hagree⟩ := hcond.renumber h hblank.2.1
      obtain ⟨yes₂, hyes₂, hagree'⟩ := hyes.renumber h hblank.2.2.1
      obtain ⟨no₂, hno₂, hagree''⟩ := hno.renumber h hblank.2.2.2.1
      exact ⟨_, .choice hcond₂ hyes₂ hno₂ ((ρ.ty_beq _ _).trans heq),
        .mk ⟨rfl, rfl, ρ.slot_beq _, rfl⟩ (.cons hagree (.cons hagree' (.singleton hagree'')))⟩
  | .typed child written .., _, _, he, hblank => by
    simp only [Expr.outline, Outline.all_mk, Outline.allOf_cons] at hblank
    cases he with
    | typed hwritten hchild heq =>
      obtain ⟨child₂, hchild₂, hagree⟩ := hchild.renumber h hblank.2.1
      exact ⟨_, .typed (written.resolve_renumbers h hwritten) hchild₂ ((ρ.ty_beq _ _).trans heq),
        .mk ⟨rfl, rfl, ρ.slot_beq _, rfl⟩ (.cons hagree (.singleton written.agrees))⟩
    | typedArray hwritten =>
      exact ⟨_, .typedArray (written.resolve_renumbers h hwritten),
        .mk ⟨rfl, rfl, ρ.slot_beq _, rfl⟩
          (.cons (.mk ⟨rfl, rfl, ρ.slot_beq _, rfl⟩ .nil) (.singleton written.agrees))⟩
    | typedDict hwritten =>
      exact ⟨_, .typedDict (written.resolve_renumbers h hwritten),
        .mk ⟨rfl, rfl, ρ.slot_beq _, rfl⟩
          (.cons (.mk ⟨rfl, rfl, ρ.slot_beq _, rfl⟩ .nil) (.singleton written.agrees))⟩
termination_by structural e => e

theorem Expr.ResolvesAll.renumber (h : σ.Renumbers ρ τ) : ∀ {es es₁ : List Expr} {tys : List Ty},
    Expr.ResolvesAll σ Γ es es₁ tys → Outline.AllOf (·.isBlank = true) (Expr.outlines es) →
      ∃ es₂, Expr.ResolvesAll τ (ρ.context Γ) es es₂ (tys.map ρ.ty) ∧
        Outline.AgreeAll ρ.func (Expr.outlines es₁) (Expr.outlines es₂)
  | [], _, _, hes, _ => by
    cases hes
    exact ⟨_, .nil, .nil⟩
  | _ :: _, _, _, hes, hblank => by
    rw [Expr.outlines, Outline.allOf_cons] at hblank
    cases hes with
    | cons he hes =>
      obtain ⟨e₂, he₂, hagree⟩ := he.renumber h hblank.1
      obtain ⟨es₂, hes₂, hagrees⟩ := hes.renumber h hblank.2
      exact ⟨_, .cons he₂ hes₂, .cons hagree hagrees⟩
termination_by structural es => es

theorem Expr.ResolvesEntries.renumber (h : σ.Renumbers ρ τ) :
    ∀ {es es₁ : List (Expr × Expr)} {tys : List (Ty × Ty)}, Expr.ResolvesEntries σ Γ es es₁ tys →
      Outline.AllOf (·.isBlank = true) (Expr.outlineEntries es) →
        ∃ es₂, Expr.ResolvesEntries τ (ρ.context Γ) es es₂ (tys.map (Prod.map ρ.ty ρ.ty)) ∧
          Outline.AgreeAll ρ.func (Expr.outlineEntries es₁) (Expr.outlineEntries es₂)
  | [], _, _, hes, _ => by
    cases hes
    exact ⟨_, .nil, .nil⟩
  | (_, _) :: _, _, _, hes, hblank => by
    rw [Expr.outlineEntries, Outline.allOf_cons, Outline.allOf_cons] at hblank
    cases hes with
    | cons hkey hvalue hes =>
      obtain ⟨key₂, hkey₂, hagree⟩ := hkey.renumber h hblank.1
      obtain ⟨value₂, hvalue₂, hagree'⟩ := hvalue.renumber h hblank.2.1
      obtain ⟨es₂, hes₂, hagrees⟩ := hes.renumber h hblank.2.2
      exact ⟨_, .cons hkey₂ hvalue₂ hes₂, .cons hagree (.cons hagree' hagrees)⟩
termination_by structural es => es

end

end Trees

end Semant
