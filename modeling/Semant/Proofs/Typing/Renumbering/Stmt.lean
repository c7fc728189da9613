import Semant.Proofs.Typing.Renumbering.Expr

/-! Statements in a scope with other numbers. They bind the same names to renumbered types and
return values of renumbered types. -/

namespace Semant

namespace Renumbering

variable (ρ : Renumbering)

def binder (b : Binder) : Binder :=
  { b with ty := b.ty.map ρ.ty }

def returns (rets : List (List Ty)) : List (List Ty) :=
  rets.map (List.map ρ.ty)

@[simp]
theorem returns_append (rets rets' : List (List Ty)) :
    ρ.returns (rets ++ rets') = ρ.returns rets ++ ρ.returns rets' :=
  List.map_append

theorem agree_params (bs : List Binder) : Outline.AgreeAll ρ.func (bs.map Binder.paramOutline)
    ((bs.map ρ.binder).map Binder.paramOutline) := by
  induction bs with
  | nil => exact .nil
  | cons b bs ih =>
    exact .cons (.mk ⟨rfl, rfl, ρ.slot_beq b.ty, rfl⟩ (TypeExpr.agree_option b.written)) ih

theorem agree_decls (bs : List Binder) : Outline.AgreeAll ρ.func (bs.map Binder.declOutline)
    ((bs.map ρ.binder).map Binder.declOutline) := by
  induction bs with
  | nil => exact .nil
  | cons b bs ih =>
    exact .cons (.mk ⟨rfl, rfl, ρ.slot_beq b.ty, rfl⟩ (TypeExpr.agree_option b.written)) ih

end Renumbering

variable {ρ : Renumbering} {σ τ : Scope}

theorem Binder.Declares.renumber (h : σ.Renumbers ρ τ) {b : Binder} {value : Option Ty} {ty : Ty}
    (hb : b.Declares σ value ty) : b.Declares τ (value.map ρ.ty) (ρ.ty ty) := by
  cases hb with
  | @written w _ _ hw hresolve heq =>
    refine .written hw (w.resolve_renumbers h hresolve) fun v hv => ?_
    obtain ⟨found, hfound, rfl⟩ := Option.map_eq_some_iff.mp hv
    exact (ρ.ty_beq _ _).trans (heq found hfound)
  | inferred hw => exact .inferred hw

theorem Binder.Loops.renumber (h : σ.Renumbers ρ τ) {b : Binder} {elem ty : Ty}
    (hb : b.Loops σ elem ty) : b.Loops τ (ρ.ty elem) (ρ.ty ty) := by
  cases hb with
  | @written w _ _ hw hresolve heq =>
    exact .written hw (w.resolve_renumbers h hresolve) ((ρ.ty_beq _ _).trans heq)
  | inferred hw => exact .inferred hw

theorem Introduces.renumber {α : Type} {rule : Binder → α → Ty → Prop} {Γ Γ₁ : Context}
    {bs bs₁ : List Binder} {as : List α} (h : Introduces rule Γ bs as bs₁ Γ₁)
    (rule' : Binder → α → Ty → Prop) (f : α → α)
    (hrule : ∀ b a ty, rule b a ty → rule' b (f a) (ρ.ty ty)) :
    Introduces rule' (ρ.context Γ) bs (as.map f) (bs₁.map ρ.binder) (ρ.context Γ₁) := by
  induction h with
  | nil => exact .nil
  | cons hslot hb _ ih => exact .cons hslot (hrule _ _ _ hb) ih

theorem Declaration.Resolves.renumber (h : σ.Renumbers ρ τ) {Γ Γ₁ : Context} {d d₁ : Declaration}
    (hd : d.Resolves σ Γ d₁ Γ₁) (hblank : d.outline.All (·.isBlank = true)) :
    ∃ d₂, d.Resolves τ (ρ.context Γ) d₂ (ρ.context Γ₁) ∧ d₁.outline.Agrees ρ.func d₂.outline := by
  cases hd with
  | bare hnames =>
    have hnames₂ := hnames.renumber (Binder.Declares τ) (Option.map ρ.ty) fun _ _ _ => .renumber h
    rw [List.map_replicate, Option.map_none] at hnames₂
    exact ⟨_, .bare hnames₂, .mk ⟨rfl, rfl, rfl, rfl⟩ ((ρ.agree_decls _).append .nil)⟩
  | @valued _ _ _ _ _ parts _ _ hvalues hspread hnames =>
    simp only [Declaration.outline, Outline.all_mk, Outline.allOf_append] at hblank
    obtain ⟨values₂, hvalues₂, hagree⟩ := hvalues.renumber h hblank.2.2
    have hnames₂ := hnames.renumber (Binder.Declares τ) (Option.map ρ.ty) fun _ _ _ => .renumber h
    have hparts : (parts.map some).map (Option.map ρ.ty) = (parts.map ρ.ty).map some := by
      simp only [List.map_map, Function.comp_def, Option.map_some]
    rw [hparts] at hnames₂
    exact ⟨_, .valued hvalues₂ (hspread.renumber ρ) hnames₂,
      .mk ⟨rfl, rfl, rfl, rfl⟩ ((ρ.agree_decls _).append hagree)⟩

theorem Declaration.ResolvesAll.renumber (h : σ.Renumbers ρ τ) {Γ Γ₁ : Context}
    {ds ds₁ : List Declaration} (hds : Declaration.ResolvesAll σ Γ ds ds₁ Γ₁)
    (hblank : Outline.AllOf (·.isBlank = true) (ds.map Declaration.outline)) :
    ∃ ds₂, Declaration.ResolvesAll τ (ρ.context Γ) ds ds₂ (ρ.context Γ₁) ∧
      Outline.AgreeAll ρ.func (ds₁.map Declaration.outline) (ds₂.map Declaration.outline) := by
  induction hds with
  | nil => exact ⟨_, .nil, .nil⟩
  | cons hd _ ih =>
    rw [List.map_cons, Outline.allOf_cons] at hblank
    obtain ⟨d₂, hd₂, hagree⟩ := hd.renumber h hblank.1
    obtain ⟨ds₂, hds₂, hagrees⟩ := ih hblank.2
    exact ⟨_, .cons hd₂ hds₂, .cons hagree hagrees⟩

theorem Introduces.renumber_loops (h : σ.Renumbers ρ τ) {Γ Γ₁ : Context} {bs bs₁ : List Binder}
    {parts : List Ty} (hnames : Introduces (Binder.Loops σ) Γ bs parts bs₁ Γ₁) :
    Introduces (Binder.Loops τ) (ρ.context Γ) bs (parts.map ρ.ty) (bs₁.map ρ.binder)
      (ρ.context Γ₁) :=
  hnames.renumber (Binder.Loops τ) ρ.ty fun _ _ _ => .renumber h

theorem Renumbering.forall₂_beq (ρ : Renumbering) {tys parts : List Ty}
    (h : List.Forall₂ (fun ty part => ty == part) tys parts) :
    List.Forall₂ (fun ty part => ty == part) (tys.map ρ.ty) (parts.map ρ.ty) := by
  refine List.forall₂_map_left_iff.mpr (List.forall₂_map_right_iff.mpr (h.imp ?_))
  exact fun ty part heq => (ρ.ty_beq ty part).trans heq

mutual

theorem Stmt.Resolves.renumber (h : σ.Renumbers ρ τ) : ∀ {Γ Γ₁ : Context} {st st₁ : Stmt}
    {rets : List (List Ty)}, st.Resolves σ Γ st₁ Γ₁ rets → st.outline.All (·.isBlank = true) →
      ∃ st₂, st.Resolves τ (ρ.context Γ) st₂ (ρ.context Γ₁) (ρ.returns rets) ∧
        st₁.outline.Agrees ρ.func st₂.outline
  | _, _, .declare d, _, _, hst, hblank => by
    cases hst with
    | declare hd =>
      obtain ⟨d₂, hd₂, hagree⟩ := hd.renumber h hblank
      exact ⟨_, .declare hd₂, hagree⟩
  | Γ, _, .assign targets values loc, _, _, hst, hblank => by
    simp only [Stmt.outline, Outline.all_mk, Outline.allOf_append] at hblank
    cases hst with
    | assign htargets hvalues hspread heq hvar =>
      obtain ⟨targets₂, htargets₂, hagree⟩ := htargets.renumber h hblank.2.1
      obtain ⟨values₂, hvalues₂, hagree'⟩ := hvalues.renumber h hblank.2.2
      have hvar₂ : ∀ target ∈ targets₂, target.Assignable (ρ.context Γ) := by
        refine htargets₂.assignable_iff.mpr fun target htarget => ?_
        exact ρ.assignable_context (htargets.assignable_iff.mp hvar target htarget)
      exact ⟨_, .assign htargets₂ hvalues₂ (hspread.renumber ρ) (ρ.forall₂_beq heq) hvar₂,
        .mk ⟨rfl, rfl, rfl, rfl⟩ (hagree.append hagree')⟩
  | _, _, .branch kind cond body elseIfs otherwise loc, _, _, hst, hblank => by
    simp only [Stmt.outline, Outline.all_mk, Outline.allOf_cons, Outline.allOf_append] at hblank
    obtain ⟨-, hcond, hbody, helseIfs, hotherwise⟩ := hblank
    cases hst with
    | branch hc hb he ho =>
      obtain ⟨cond₂, hcond₂, hagree⟩ := hc.renumber h hcond
      obtain ⟨body₂, hbody₂, hagree₁⟩ := Block.Resolves.renumber h hb hbody
      obtain ⟨elseIfs₂, helseIfs₂, hagree₂⟩ := Stmt.ResolvesElseIfs.renumber h he helseIfs
      obtain ⟨otherwise₂, hotherwise₂, hagree₃⟩ := Stmt.ResolvesOtherwise.renumber h ho hotherwise
      rw [ρ.returns_append, ρ.returns_append]
      exact ⟨_, .branch hcond₂ hbody₂ helseIfs₂ hotherwise₂,
        .mk ⟨rfl, rfl, rfl, rfl⟩ (.cons hagree (.cons hagree₁ (hagree₂.append hagree₃)))⟩
  | _, _, .ret values loc, _, _, hst, hblank => by
    simp only [Stmt.outline, Outline.all_mk] at hblank
    cases hst with
    | ret hvalues =>
      obtain ⟨values₂, hvalues₂, hagree⟩ := hvalues.renumber h hblank.2
      exact ⟨_, .ret hvalues₂, .mk ⟨rfl, rfl, rfl, rfl⟩ hagree⟩
  | _, _, .case whens otherwise loc, _, _, hst, hblank => by
    simp only [Stmt.outline, Outline.all_mk, Outline.allOf_append] at hblank
    cases hst with
    | case hw ho =>
      obtain ⟨whens₂, hwhens₂, hagree⟩ := Stmt.ResolvesWhens.renumber h hw hblank.2.1
      obtain ⟨otherwise₂, hotherwise₂, hagree'⟩ :=
        Stmt.ResolvesOtherwise.renumber h ho hblank.2.2
      rw [ρ.returns_append]
      exact ⟨_, .case hwhens₂ hotherwise₂, .mk ⟨rfl, rfl, rfl, rfl⟩ (hagree.append hagree')⟩
  | _, _, .switch target whens otherwise loc, _, _, hst, hblank => by
    simp only [Stmt.outline, Outline.all_mk, Outline.allOf_cons, Outline.allOf_append] at hblank
    obtain ⟨-, htarget, hwhens, hotherwise⟩ := hblank
    cases hst with
    | switch ht hw ho =>
      obtain ⟨target₂, htarget₂, hagree⟩ := ht.renumber h htarget
      obtain ⟨whens₂, hwhens₂, hagree₁⟩ := Stmt.ResolvesWhens.renumber h hw hwhens
      obtain ⟨otherwise₂, hotherwise₂, hagree₂⟩ := Stmt.ResolvesOtherwise.renumber h ho hotherwise
      rw [ρ.returns_append]
      exact ⟨_, .switch htarget₂ hwhens₂ hotherwise₂,
        .mk ⟨rfl, rfl, rfl, rfl⟩ (.cons hagree (hagree₁.append hagree₂))⟩
  | _, _, .forIn vars range body loc, _, _, hst, hblank => by
    simp only [Stmt.outline, Outline.all_mk, Outline.allOf_cons, Outline.allOf_append] at hblank
    obtain ⟨-, -, hrange, hbody, -⟩ := hblank
    cases hst with
    | forIn hr hiter hspread hnames hb =>
      obtain ⟨range₂, hrange₂, hagree⟩ := hr.renumber h hrange
      obtain ⟨body₂, hbody₂, hagree'⟩ := Block.Resolves.renumber h hb hbody
      exact ⟨_, .forIn hrange₂ (hiter.renumber ρ) (hspread.renumber ρ) (hnames.renumber_loops h)
          hbody₂,
        .mk ⟨rfl, rfl, rfl, rfl⟩ ((ρ.agree_params _).append (.cons hagree (.singleton hagree')))⟩
  | _, _, .whileDo cond body loc, _, _, hst, hblank => by
    simp only [Stmt.outline, Outline.all_mk, Outline.allOf_cons] at hblank
    cases hst with
    | whileDo hc hb =>
      obtain ⟨cond₂, hcond₂, hagree⟩ := hc.renumber h hblank.2.1
      obtain ⟨body₂, hbody₂, hagree'⟩ := Block.Resolves.renumber h hb hblank.2.2.1
      exact ⟨_, .whileDo hcond₂ hbody₂,
        .mk ⟨rfl, rfl, rfl, rfl⟩ (.cons hagree (.singleton hagree'))⟩
  | _, _, .trailingIf body kind cond loc, _, _, hst, hblank => by
    simp only [Stmt.outline, Outline.all_mk, Outline.allOf_cons] at hblank
    cases hst with
    | trailingIf hb hc =>
      obtain ⟨body₂, hbody₂, hagree⟩ := Stmt.Resolves.renumber h hb hblank.2.1
      obtain ⟨cond₂, hcond₂, hagree'⟩ := hc.renumber h hblank.2.2.1
      exact ⟨_, .trailingIf hbody₂ hcond₂,
        .mk ⟨rfl, rfl, rfl, rfl⟩ (.cons hagree (.singleton hagree'))⟩
  | _, _, .letIn inits body loc, _, _, hst, hblank => by
    simp only [Stmt.outline, Outline.all_mk, Outline.allOf_cons, Outline.allOf_append] at hblank
    cases hst with
    | letIn hi hb =>
      obtain ⟨inits₂, hinits₂, hagree⟩ := hi.renumber h hblank.2.1
      obtain ⟨body₂, hbody₂, hagree'⟩ := Stmt.Resolves.renumber h hb hblank.2.2.1
      exact ⟨_, .letIn hinits₂ hbody₂,
        .mk ⟨rfl, rfl, rfl, rfl⟩ (hagree.append (.singleton hagree'))⟩
  | _, _, .expr e, _, _, hst, hblank => by
    cases hst with
    | expr he =>
      obtain ⟨e₂, he₂, hagree⟩ := he.renumber h hblank
      exact ⟨_, .expr he₂, hagree⟩
  | _, _, .block b, _, _, hst, hblank => by
    cases hst with
    | block hb =>
      obtain ⟨b₂, hb₂, hagree⟩ := Block.Resolves.renumber h hb hblank
      exact ⟨_, .block hb₂, hagree⟩
termination_by structural _ _ st => st

theorem Block.Resolves.renumber (h : σ.Renumbers ρ τ) : ∀ {Γ : Context} {b b₁ : Block}
    {rets : List (List Ty)}, b.Resolves σ Γ b₁ rets → b.outline.All (·.isBlank = true) →
      ∃ b₂, b.Resolves τ (ρ.context Γ) b₂ (ρ.returns rets) ∧
        b₁.outline.Agrees ρ.func b₂.outline
  | _, .mk stmts loc, _, _, hb, hblank => by
    simp only [Block.outline, Outline.all_mk] at hblank
    cases hb with
    | mk hstmts =>
      obtain ⟨stmts₂, hstmts₂, hagree⟩ := Stmt.ResolvesAll.renumber h hstmts hblank.2
      exact ⟨_, .mk hstmts₂, .mk ⟨rfl, rfl, rfl, rfl⟩ hagree⟩
termination_by structural _ b => b

theorem Stmt.ResolvesAll.renumber (h : σ.Renumbers ρ τ) : ∀ {Γ : Context} {ss ss₁ : List Stmt}
    {rets : List (List Ty)}, Stmt.ResolvesAll σ Γ ss ss₁ rets →
      Outline.AllOf (·.isBlank = true) (Stmt.outlines ss) →
        ∃ ss₂, Stmt.ResolvesAll τ (ρ.context Γ) ss ss₂ (ρ.returns rets) ∧
          Outline.AgreeAll ρ.func (Stmt.outlines ss₁) (Stmt.outlines ss₂)
  | _, [], _, _, hss, _ => by
    cases hss
    exact ⟨_, .nil, .nil⟩
  | _, s :: ss, _, _, hss, hblank => by
    simp only [Stmt.outlines, Outline.allOf_cons] at hblank
    cases hss with
    | cons hs hss =>
      obtain ⟨s₂, hs₂, hagree⟩ := Stmt.Resolves.renumber h hs hblank.1
      obtain ⟨ss₂, hss₂, hagrees⟩ := Stmt.ResolvesAll.renumber h hss hblank.2
      rw [ρ.returns_append]
      exact ⟨_, .cons hs₂ hss₂, .cons hagree hagrees⟩
termination_by structural _ ss => ss

theorem Stmt.ResolvesElseIfs.renumber (h : σ.Renumbers ρ τ) : ∀ {Γ : Context}
    {cs cs₁ : List (Clause Expr Block)} {rets : List (List Ty)},
    Stmt.ResolvesElseIfs σ Γ cs cs₁ rets →
      Outline.AllOf (·.isBlank = true) (Stmt.outlineElseIfs cs) →
        ∃ cs₂, Stmt.ResolvesElseIfs τ (ρ.context Γ) cs cs₂ (ρ.returns rets) ∧
          Outline.AgreeAll ρ.func (Stmt.outlineElseIfs cs₁) (Stmt.outlineElseIfs cs₂)
  | _, [], _, _, hcs, _ => by
    cases hcs
    exact ⟨_, .nil, .nil⟩
  | _, ⟨cond, body⟩ :: cs, _, _, hcs, hblank => by
    simp only [Stmt.outlineElseIfs, Outline.allOf_cons] at hblank
    cases hcs with
    | cons hc hb hcs =>
      obtain ⟨cond₂, hcond₂, hagree⟩ := hc.renumber h hblank.1
      obtain ⟨body₂, hbody₂, hagree'⟩ := Block.Resolves.renumber h hb hblank.2.1
      obtain ⟨cs₂, hcs₂, hagrees⟩ := Stmt.ResolvesElseIfs.renumber h hcs hblank.2.2
      rw [ρ.returns_append]
      exact ⟨_, .cons hcond₂ hbody₂ hcs₂, .cons hagree (.cons hagree' hagrees)⟩
termination_by structural _ cs => cs

theorem Stmt.ResolvesWhens.renumber (h : σ.Renumbers ρ τ) : ∀ {Γ : Context} {ty : Ty}
    {cs cs₁ : List (Clause (List Expr) Block)} {rets : List (List Ty)},
    Stmt.ResolvesWhens σ Γ ty cs cs₁ rets →
      Outline.AllOf (·.isBlank = true) (Stmt.outlineWhens cs) →
        ∃ cs₂, Stmt.ResolvesWhens τ (ρ.context Γ) (ρ.ty ty) cs cs₂ (ρ.returns rets) ∧
          Outline.AgreeAll ρ.func (Stmt.outlineWhens cs₁) (Stmt.outlineWhens cs₂)
  | _, _, [], _, _, hcs, _ => by
    cases hcs
    exact ⟨_, .nil, .nil⟩
  | _, _, ⟨conds, body⟩ :: cs, _, _, hcs, hblank => by
    simp only [Stmt.outlineWhens, Outline.allOf_append, Outline.allOf_cons] at hblank
    cases hcs with
    | cons hc heq hb hcs =>
      obtain ⟨conds₂, hconds₂, hagree⟩ := hc.renumber h hblank.1
      obtain ⟨body₂, hbody₂, hagree'⟩ := Block.Resolves.renumber h hb hblank.2.1
      obtain ⟨cs₂, hcs₂, hagrees⟩ := Stmt.ResolvesWhens.renumber h hcs hblank.2.2
      rw [ρ.returns_append]
      exact ⟨_, .cons hconds₂ (ρ.forall_beq heq) hbody₂ hcs₂,
        hagree.append (.cons hagree' hagrees)⟩
termination_by structural _ _ cs => cs

theorem Stmt.ResolvesOtherwise.renumber (h : σ.Renumbers ρ τ) : ∀ {Γ : Context}
    {o o₁ : Option Block} {rets : List (List Ty)}, Stmt.ResolvesOtherwise σ Γ o o₁ rets →
      Outline.AllOf (·.isBlank = true) (Stmt.outlineOtherwise o) →
        ∃ o₂, Stmt.ResolvesOtherwise τ (ρ.context Γ) o o₂ (ρ.returns rets) ∧
          Outline.AgreeAll ρ.func (Stmt.outlineOtherwise o₁) (Stmt.outlineOtherwise o₂)
  | _, none, _, _, ho, _ => by
    cases ho
    exact ⟨_, .none, .nil⟩
  | _, some body, _, _, ho, hblank => by
    simp only [Stmt.outlineOtherwise, Outline.allOf_cons] at hblank
    cases ho with
    | some hb =>
      obtain ⟨body₂, hbody₂, hagree⟩ := Block.Resolves.renumber h hb hblank.1
      exact ⟨_, .some hbody₂, .singleton hagree⟩
termination_by structural _ o => o

end

end Semant
