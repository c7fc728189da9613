import Semant.Proofs.Typing.Assignment.Expr

/-! Well-typed declarations, statements and functions can be typed again. -/

namespace Semant

open Ty Outline

/-- The name is declared with an equal type. -/
def Binder.Retyped (b' b : Binder) : Prop :=
  ∃ ty ty', b.ty = .resolved ty ∧ b' = { b with ty := .resolved ty' } ∧ ty'.erase = ty.erase

theorem Binder.Retyped.decl {b b' : Binder} (h : b'.Retyped b) :
    b'.declOutline.Follows b.declOutline := by
  obtain ⟨ty, ty', hty, rfl, herase⟩ := h
  exact .mk (.of_slots rfl rfl rfl (congrArg some hty) herase) (.refl _)

theorem Binder.Retyped.param {b b' : Binder} (h : b'.Retyped b) :
    b'.paramOutline.Follows b.paramOutline := by
  obtain ⟨ty, ty', hty, rfl, herase⟩ := h
  exact .mk (.of_slots rfl rfl rfl (congrArg some hty) herase) (.refl _)

theorem Binder.followAll {outline : Binder → Outline} {bs bs' : List Binder}
    (houtline : ∀ {b' b}, b'.Retyped b → (outline b').Follows (outline b))
    (h : List.Forall₂ Binder.Retyped bs' bs) : FollowAll (bs'.map outline) (bs.map outline) := by
  induction h with
  | nil => exact .nil
  | cons hb _ ih => exact .cons (houtline hb) ih

variable {σ : Scope}

theorem Binder.Declares.congr {b : Binder} {value value' : Option Ty} {ty : Ty}
    (h : b.Declares σ value ty) (hvalue : value'.map erase = value.map erase) :
    ∃ ty', b.blank.Declares σ value' ty' ∧ ty'.erase = ty.erase := by
  cases h with
  | written hw hty hfits =>
    refine ⟨ty, .written hw hty fun v hv => ?_, rfl⟩
    rw [Option.mem_def.mp hv] at hvalue
    obtain ⟨u, hu, herase⟩ := Option.map_eq_some_iff.mp hvalue.symm
    exact beq_iff_erase_eq.mpr ((beq_iff_erase_eq.mp (hfits u hu)).trans herase)
  | inferred hnone =>
    obtain ⟨ty', rfl, herase⟩ := Option.map_eq_some_iff.mp hvalue
    exact ⟨ty', .inferred hnone, herase⟩

theorem Binder.Loops.congr {b : Binder} {elem elem' ty : Ty} (h : b.Loops σ elem ty)
    (helem : elem'.erase = elem.erase) :
    ∃ ty', b.blank.Loops σ elem' ty' ∧ ty'.erase = ty.erase := by
  cases h with
  | written hw hty hsame =>
    have hsame' := beq_iff_erase_eq.mpr ((beq_iff_erase_eq.mp hsame).trans helem.symm)
    exact ⟨elem', .written hw hty hsame', helem⟩
  | inferred hnone => exact ⟨elem', .inferred hnone, helem⟩

/-- Names whose slots hold what `rule` gives them come into scope again, for equal values `key`. -/
theorem Introduces.of_admits {α β : Type} {rule : Binder → α → Ty → Prop} {key : α → β}
    (hrule : ∀ {b a a' ty}, rule b a ty → key a' = key a →
      ∃ ty', rule b.blank a' ty' ∧ ty'.erase = ty.erase)
    {bs : List Binder} {as as' : List α} (h : List.Forall₂ (Binder.Admits rule) bs as)
    (has : as'.map key = as.map key) {Γ : Context} {ds : List Binder} (hΓ : Γ.Matches ds) :
    ∃ bs' Γ', Introduces rule Γ (bs.map Binder.blank) as' bs' Γ' ∧ Γ'.Matches (bs.reverse ++ ds) ∧
      List.Forall₂ Binder.Retyped bs' bs := by
  induction h generalizing as' Γ ds with
  | nil =>
    cases List.map_eq_nil_iff.mp has
    exact ⟨[], Γ, .nil, hΓ, .nil⟩
  | @cons b a bs as hb _ ih =>
    obtain ⟨a', as', rfl, ha, has⟩ := List.map_eq_cons_iff.mp has
    obtain ⟨ty, found, hty, hfound, hsame⟩ := hb
    obtain ⟨ty', hty', herase⟩ := hrule hfound ha
    have herase' := herase.trans (beq_iff_erase_eq.mp hsame).symm
    have hb' : b.Means (fun a b => a.erase = b.erase) (b.name, { ty := ty', isVar := b.isVar }) :=
      ⟨rfl, rfl, ty, hty, herase'.symm⟩
    obtain ⟨bs', Γ', hintro, hΓ', hbs⟩ := ih has (.cons hb' hΓ)
    refine ⟨{ b with ty := .resolved ty' } :: bs', Γ', .cons rfl hty' hintro, ?_,
      .cons ⟨ty, ty', hty, rfl, herase'⟩ hbs⟩
    rw [List.reverse_cons, List.append_assoc]
    exact hΓ'

variable {Γ : Context} {ds : List Binder}

theorem Declaration.WellTyped.typable {d : Declaration} (h : d.WellTyped σ ds)
    (hΓ : Γ.Matches ds) :
    ∃ d' Γ', d.blank.Resolves σ Γ d' Γ' ∧ Γ'.Matches (d.binders.reverse ++ ds) ∧
      d'.outline.Follows d.outline := by
  cases h with
  | @bare binders loc hnames =>
    obtain ⟨bs', Γ', hintro, hΓ', hbs⟩ := Introduces.of_admits Binder.Declares.congr hnames rfl hΓ
    have hlen : binders.length = (binders.map Binder.blank).length := (List.length_map _).symm
    rw [hlen] at hintro
    refine ⟨_, Γ', .bare hintro, hΓ', .mk (.of_unset rfl rfl nofun) ?_⟩
    exact (Binder.followAll Binder.Retyped.decl hbs).append .nil
  | @valued binders values tys parts loc hvalues hspreads hnames =>
    obtain ⟨values', tys', hres, htys, hparts⟩ := hvalues.typable hΓ
    obtain ⟨parts', hspreads', herase⟩ := hspreads.congr htys
    have hsome : (parts'.map some).map (Option.map erase) =
        (parts.map some).map (Option.map erase) := by
      have hcomm : ∀ tys : List Ty,
          (tys.map some).map (Option.map erase) = (tys.map erase).map some := by simp
      rw [hcomm, hcomm, herase]
    obtain ⟨bs', Γ', hintro, hΓ', hbs⟩ := Introduces.of_admits Binder.Declares.congr hnames hsome hΓ
    have hlen : binders.length = (binders.map Binder.blank).length := (List.length_map _).symm
    rw [hlen] at hspreads'
    refine ⟨_, Γ', .valued hres hspreads' hintro, hΓ', .mk (.of_unset rfl rfl nofun) ?_⟩
    exact (Binder.followAll Binder.Retyped.decl hbs).append hparts

theorem Declaration.WellTypedAll.typable {inits : List Declaration}
    (h : Declaration.WellTypedAll σ ds inits) (hΓ : Γ.Matches ds) :
    ∃ inits' Γ', Declaration.ResolvesAll σ Γ (inits.map Declaration.blank) inits' Γ' ∧
      Γ'.Matches ((inits.flatMap Declaration.binders).reverse ++ ds) ∧
      FollowAll (inits'.map Declaration.outline) (inits.map Declaration.outline) := by
  induction h generalizing Γ with
  | nil => exact ⟨[], Γ, .nil, hΓ, .nil⟩
  | cons hd _ ih =>
    obtain ⟨d', Γ₁, hres, hΓ₁, hfollows⟩ := hd.typable hΓ
    obtain ⟨rest', Γ', hress, hΓ', hparts⟩ := ih hΓ₁
    refine ⟨_, Γ', .cons hres hress, ?_, .cons hfollows hparts⟩
    rw [List.flatMap_cons, List.reverse_append, List.append_assoc]
    exact hΓ'

theorem Expr.Mutable.assignable {e : Expr} (h : e.Mutable ds) (hΓ : Γ.Matches ds) :
    e.blank.Assignable Γ := by
  cases e with
  | var name slot loc =>
    intro binding hname
    obtain ⟨b, hb, hmeans⟩ := Binder.Means.find?_of_lookup hΓ hname
    exact hmeans.isVar.trans (h b hb)
  | _ => trivial

/-- The types of the values of all return statements are equal to some that are allowed. -/
def Permits (allowed : List Ty → Prop) (rets : List (List Ty)) : Prop :=
  ∀ tys' ∈ rets, ∃ tys, allowed tys ∧ tys'.map erase = tys.map erase

theorem Permits.nil {allowed : List Ty → Prop} : Permits allowed [] :=
  List.forall_mem_nil _

theorem Permits.append {allowed : List Ty → Prop} {rets rets' : List (List Ty)}
    (h : Permits allowed rets) (h' : Permits allowed rets') : Permits allowed (rets ++ rets') :=
  List.forall_mem_append.mpr ⟨h, h'⟩

theorem Outline.Follows.stmt {st st' : Stmt} {os ps : List Outline}
    (hparts : FollowAll os ps) (hkind : st'.kindName = st.kindName := by rfl)
    (hloc : st'.loc = st.loc := by rfl) :
    (Outline.mk (.stmt st') os).Follows (.mk (.stmt st) ps) :=
  .mk (.of_unset hkind hloc nofun) hparts

/-- The statement without its types has a derivation that gives it equal types again, and leaves the
names that it declares. -/
def Stmt.Typable (σ : Scope) (allowed : List Ty → Prop) (Γ : Context) (ds : List Binder)
    (st : Stmt) : Prop :=
  ∃ st' Γ' rets, Stmt.Resolves σ Γ st.blank st' Γ' rets ∧ Γ'.Matches (st.declared ++ ds) ∧
    Permits allowed rets ∧ st'.outline.Follows st.outline

def Block.Typable (σ : Scope) (allowed : List Ty → Prop) (Γ : Context) (b : Block) : Prop :=
  ∃ b' rets, Block.Resolves σ Γ b.blank b' rets ∧ Permits allowed rets ∧
    b'.outline.Follows b.outline

variable {allowed : List Ty → Prop}

mutual

theorem Stmt.WellTyped.typable : ∀ {st : Stmt} {ds : List Binder} {Γ : Context},
    Stmt.WellTyped σ allowed ds st → Γ.Matches ds → st.Typable σ allowed Γ ds
  | .declare _, _, _, h, hΓ => by
    cases h with
    | declare hd =>
      obtain ⟨d', Γ', hres, hΓ', hfollows⟩ := hd.typable hΓ
      exact ⟨_, Γ', [], .declare hres, hΓ', .nil, hfollows⟩
  | .assign targets _ _, _, Γ, h, hΓ => by
    cases h with
    | assign htargets hvalues hspreads hsame hmutable =>
      obtain ⟨targets', tys', hres, htys, hparts⟩ := htargets.typable hΓ
      obtain ⟨values', vals', hres', hvals, hparts'⟩ := hvalues.typable hΓ
      obtain ⟨parts', hspreads', herase⟩ := hspreads.congr hvals
      have hlen : targets.length = (Expr.blankAll targets).length := by
        rw [Expr.blankAll_eq_map, List.length_map]
      rw [hlen] at hspreads'
      have hsame' : List.Forall₂ (fun ty part => ty == part) tys' parts' := by
        rw [forall₂_beq_iff, htys, forall₂_beq_iff.mp hsame, herase]
      have hassignable : ∀ target ∈ targets', target.Assignable Γ := by
        rw [hres.assignable_iff, Expr.blankAll_eq_map]
        exact List.forall_mem_map.mpr fun target htarget => (hmutable target htarget).assignable hΓ
      exact ⟨_, _, [], .assign hres hres' hspreads' hsame' hassignable, hΓ, .nil,
        .stmt (hparts.append hparts')⟩
  | .branch _ _ body elseIfs otherwise _, _, _, h, hΓ => by
    cases h with
    | branch hcond hbody helseIfs hotherwise =>
      obtain ⟨cond', bool', hres, hbool, hfollows⟩ := hcond.typable hΓ
      rw [eq_builtin_of_erase hbool] at hres
      obtain ⟨body', rets₁, hres₁, hrets₁, hfollows₁⟩ := Block.WellTyped.typable hbody hΓ
      obtain ⟨elseIfs', rets₂, hres₂, hrets₂, hfollows₂⟩ :=
        Stmt.WellTypedElseIfs.typable helseIfs hΓ
      obtain ⟨otherwise', rets₃, hres₃, hrets₃, hfollows₃⟩ :=
        Stmt.WellTypedOtherwise.typable hotherwise hΓ
      exact ⟨_, _, _, .branch hres hres₁ hres₂ hres₃, hΓ, (hrets₁.append hrets₂).append hrets₃,
        .stmt (.cons hfollows (.cons hfollows₁ (hfollows₂.append hfollows₃)))⟩
  | .ret .., _, _, h, hΓ => by
    cases h with
    | @ret _ _ tys _ hvalues hallowed =>
      obtain ⟨values', tys', hres, htys, hparts⟩ := hvalues.typable hΓ
      have hpermits : Permits allowed [tys'] :=
        List.forall_mem_singleton.mpr ⟨tys, hallowed, htys⟩
      exact ⟨_, _, _, .ret hres, hΓ, hpermits, .stmt hparts⟩
  | .case whens otherwise _, _, _, h, hΓ => by
    cases h with
    | case hwhens hotherwise =>
      obtain ⟨whens', rets₁, hres₁, hrets₁, hfollows₁⟩ :=
        Stmt.WellTypedWhens.typable hwhens hΓ rfl
      obtain ⟨otherwise', rets₂, hres₂, hrets₂, hfollows₂⟩ :=
        Stmt.WellTypedOtherwise.typable hotherwise hΓ
      exact ⟨_, _, _, .case hres₁ hres₂, hΓ, hrets₁.append hrets₂,
        .stmt (hfollows₁.append hfollows₂)⟩
  | .switch _ whens otherwise _, _, _, h, hΓ => by
    cases h with
    | switch htarget hwhens hotherwise =>
      obtain ⟨target', ty', hres, hty, hfollows⟩ := htarget.typable hΓ
      obtain ⟨whens', rets₁, hres₁, hrets₁, hfollows₁⟩ :=
        Stmt.WellTypedWhens.typable hwhens hΓ hty
      obtain ⟨otherwise', rets₂, hres₂, hrets₂, hfollows₂⟩ :=
        Stmt.WellTypedOtherwise.typable hotherwise hΓ
      exact ⟨_, _, _, .switch hres hres₁ hres₂, hΓ, hrets₁.append hrets₂,
        .stmt (.cons hfollows (hfollows₁.append hfollows₂))⟩
  | .forIn vars _ body _, _, _, h, hΓ => by
    cases h with
    | forIn hrange hiterates hspreads hnames hbody =>
      obtain ⟨range', ty', hres, hty, hfollows⟩ := hrange.typable hΓ
      obtain ⟨elem', hiterates', helem⟩ := hiterates.congr hty
      obtain ⟨parts', hspreads', herase⟩ := hspreads.congr (singleton_erase helem)
      have hlen : vars.length = (vars.map Binder.blank).length := (List.length_map _).symm
      rw [hlen] at hspreads'
      obtain ⟨vars', Γ', hintro, hΓ', hvars⟩ :=
        Introduces.of_admits Binder.Loops.congr hnames herase hΓ
      obtain ⟨body', rets, hres₁, hrets, hfollows₁⟩ := Block.WellTyped.typable hbody hΓ'
      exact ⟨_, _, _, .forIn hres hiterates' hspreads' hintro hres₁, hΓ, hrets, .stmt
        ((Binder.followAll Binder.Retyped.param hvars).append
          (.cons hfollows (.singleton hfollows₁)))⟩
  | .whileDo _ body _, _, _, h, hΓ => by
    cases h with
    | whileDo hcond hbody =>
      obtain ⟨cond', bool', hres, hbool, hfollows⟩ := hcond.typable hΓ
      rw [eq_builtin_of_erase hbool] at hres
      obtain ⟨body', rets, hres₁, hrets, hfollows₁⟩ := Block.WellTyped.typable hbody hΓ
      exact ⟨_, _, _, .whileDo hres hres₁, hΓ, hrets,
        .stmt (.cons hfollows (.singleton hfollows₁))⟩
  | .trailingIf body _ _ _, _, _, h, hΓ => by
    cases h with
    | trailingIf hbody hcond =>
      obtain ⟨body', Γ', rets, hres₁, hΓ', hrets, hfollows₁⟩ := Stmt.WellTyped.typable hbody hΓ
      obtain ⟨cond', bool', hres, hbool, hfollows⟩ := hcond.typable hΓ'
      rw [eq_builtin_of_erase hbool] at hres
      exact ⟨_, Γ', rets, .trailingIf hres₁ hres, hΓ', hrets,
        .stmt (.cons hfollows₁ (.singleton hfollows))⟩
  | .letIn _ body _, _, _, h, hΓ => by
    cases h with
    | letIn hinits hbody =>
      obtain ⟨inits', Γ₁, hres, hΓ₁, hfollows⟩ := hinits.typable hΓ
      obtain ⟨body', Γ₂, rets, hres₁, _, hrets, hfollows₁⟩ := Stmt.WellTyped.typable hbody hΓ₁
      exact ⟨_, _, rets, .letIn hres hres₁, hΓ, hrets,
        .stmt (hfollows.append (.singleton hfollows₁))⟩
  | .expr _, _, _, h, hΓ => by
    cases h with
    | expr he =>
      obtain ⟨e', ty', hres, _, hfollows⟩ := he.typable hΓ
      exact ⟨_, _, [], .expr hres, hΓ, .nil, hfollows⟩
  | .block b, _, _, h, hΓ => by
    cases h with
    | block hb =>
      obtain ⟨b', rets, hres, hrets, hfollows⟩ := Block.WellTyped.typable hb hΓ
      exact ⟨_, _, rets, .block hres, hΓ, hrets, hfollows⟩
termination_by structural st => st

theorem Block.WellTyped.typable : ∀ {b : Block} {ds : List Binder} {Γ : Context},
    Block.WellTyped σ allowed ds b → Γ.Matches ds → b.Typable σ allowed Γ
  | .mk stmts _, _, _, h, hΓ => by
    cases h with
    | mk hstmts =>
      obtain ⟨stmts', rets, hres, hrets, hparts⟩ := Stmt.WellTypedAll.typable hstmts hΓ
      exact ⟨_, rets, .mk hres, hrets, .mk (.of_unset rfl rfl nofun) hparts⟩
termination_by structural b => b

theorem Stmt.WellTypedAll.typable : ∀ {ss : List Stmt} {ds : List Binder} {Γ : Context},
    Stmt.WellTypedAll σ allowed ds ss → Γ.Matches ds →
      ∃ ss' rets, Stmt.ResolvesAll σ Γ (Stmt.blankAll ss) ss' rets ∧ Permits allowed rets ∧
        FollowAll (Stmt.outlines ss') (Stmt.outlines ss)
  | [], _, _, h, _ => by
    cases h
    exact ⟨[], [], .nil, .nil, .nil⟩
  | _ :: _, _, _, h, hΓ => by
    cases h with
    | cons hs hss =>
      obtain ⟨s', Γ', rets₁, hres, hΓ', hrets₁, hfollows⟩ := Stmt.WellTyped.typable hs hΓ
      obtain ⟨ss', rets₂, hress, hrets₂, hparts⟩ := Stmt.WellTypedAll.typable hss hΓ'
      exact ⟨_, _, .cons hres hress, hrets₁.append hrets₂, .cons hfollows hparts⟩
termination_by structural ss => ss

theorem Stmt.WellTypedElseIfs.typable : ∀ {clauses : List (Clause Expr Block)} {ds : List Binder}
    {Γ : Context}, Stmt.WellTypedElseIfs σ allowed ds clauses → Γ.Matches ds →
      ∃ clauses' rets, Stmt.ResolvesElseIfs σ Γ (Stmt.blankElseIfs clauses) clauses' rets ∧
        Permits allowed rets ∧
        FollowAll (Stmt.outlineElseIfs clauses') (Stmt.outlineElseIfs clauses)
  | [], _, _, h, _ => by
    cases h
    exact ⟨[], [], .nil, .nil, .nil⟩
  | ⟨_, body⟩ :: _, _, _, h, hΓ => by
    cases h with
    | cons hcond hbody hrest =>
      obtain ⟨cond', bool', hres, hbool, hfollows⟩ := hcond.typable hΓ
      rw [eq_builtin_of_erase hbool] at hres
      obtain ⟨body', rets₁, hres₁, hrets₁, hfollows₁⟩ := Block.WellTyped.typable hbody hΓ
      obtain ⟨rest', rets₂, hres₂, hrets₂, hparts⟩ := Stmt.WellTypedElseIfs.typable hrest hΓ
      exact ⟨_, _, .cons hres hres₁ hres₂, hrets₁.append hrets₂,
        .cons hfollows (.cons hfollows₁ hparts)⟩
termination_by structural clauses => clauses

theorem Stmt.WellTypedWhens.typable : ∀ {clauses : List (Clause (List Expr) Block)}
    {ds : List Binder} {Γ : Context} {ty ty' : Ty},
    Stmt.WellTypedWhens σ allowed ds ty clauses → Γ.Matches ds → ty'.erase = ty.erase →
      ∃ clauses' rets, Stmt.ResolvesWhens σ Γ ty' (Stmt.blankWhens clauses) clauses' rets ∧
        Permits allowed rets ∧
        FollowAll (Stmt.outlineWhens clauses') (Stmt.outlineWhens clauses)
  | [], _, _, _, _, h, _, _ => by
    cases h
    exact ⟨[], [], .nil, .nil, .nil⟩
  | ⟨_, body⟩ :: _, _, _, _, _, h, hΓ, hty => by
    cases h with
    | cons hconds hsame hbody hrest =>
      obtain ⟨conds', tys', hres, htys, hparts⟩ := hconds.typable hΓ
      obtain ⟨body', rets₁, hres₁, hrets₁, hfollows₁⟩ := Block.WellTyped.typable hbody hΓ
      obtain ⟨rest', rets₂, hres₂, hrets₂, hparts'⟩ := Stmt.WellTypedWhens.typable hrest hΓ hty
      exact ⟨_, _, .cons hres (all_beq_of_erase htys hty hsame) hres₁ hres₂, hrets₁.append hrets₂,
        hparts.append (.cons hfollows₁ hparts')⟩
termination_by structural clauses => clauses

theorem Stmt.WellTypedOtherwise.typable : ∀ {body : Option Block} {ds : List Binder} {Γ : Context},
    Stmt.WellTypedOtherwise σ allowed ds body → Γ.Matches ds →
      ∃ body' rets, Stmt.ResolvesOtherwise σ Γ (Stmt.blankOtherwise body) body' rets ∧
        Permits allowed rets ∧
        FollowAll (Stmt.outlineOtherwise body') (Stmt.outlineOtherwise body)
  | none, _, _, h, _ => by
    cases h
    exact ⟨none, [], .none, .nil, .nil⟩
  | some b, _, _, h, hΓ => by
    cases h with
    | some hb =>
      obtain ⟨b', rets, hres, hrets, hfollows⟩ := Block.WellTyped.typable hb hΓ
      exact ⟨_, rets, .some hres, hrets, .singleton hfollows⟩
termination_by structural body => body

end

/-- Nothing is returned where nothing is allowed. -/
theorem Permits.eq_nil {rets : List (List Ty)} (h : Permits (fun _ => False) rets) : rets = [] := by
  apply List.eq_nil_iff_forall_not_mem.mpr
  intro tys htys
  obtain ⟨_, hfalse, _⟩ := h tys htys
  exact hfalse

theorem FuncDef.Allows.returning {f : FuncDef} {ret : Ty} {rets : List (List Ty)}
    (hret : f.ret = .resolved ret) (h : Permits f.Allows rets) :
    Returning f.kind f.ret rets ret where
  agree tys htys := by
    obtain ⟨tys₀, ⟨ret₀, hret₀, hagree, _⟩, herase⟩ := h tys htys
    rw [hret] at hret₀
    cases hret₀
    rw [beq_iff_erase_eq, returnedType_congr herase]
    exact beq_iff_erase_eq.mp hagree
  valueless hkind tys htys := by
    obtain ⟨tys₀, ⟨_, _, _, hnone⟩, herase⟩ := h tys htys
    rw [hnone hkind] at herase
    exact List.map_eq_nil_iff.mp herase
  given := by
    rw [hret]
    rfl

theorem FuncDef.WellTyped.typable {f : FuncDef} (h : f.WellTyped σ) {params : Context} {ret : Ty}
    (hparams : f.params.mapM Binder.binding? = some params) (hret : f.ret = .resolved ret) :
    ∃ f', f.blank.Resolves σ f' ∧ f'.outline.Follows f.outline := by
  have hmeans : Context.Matches params f.params :=
    (Binder.means_of_mapM hparams).imp fun b entry hb =>
      let ⟨ty, hty, heq⟩ := hb.ty
      ⟨hb.name, hb.isVar, ty, hty, congrArg erase heq⟩
  have hΓ : Context.Matches params.reverse f.params.reverse := List.forall₂_reverse_iff.mpr hmeans
  obtain ⟨body', rets, hbody, hrets, hfollows⟩ := h.body.typable hΓ
  obtain ⟨ensure', rets', hensure, hnone, hfollows'⟩ := h.ensure.typable hΓ
  cases hnone.eq_nil
  refine ⟨_, .mk hparams hbody hensure (FuncDef.Allows.returning hret hrets), ?_⟩
  exact .mk (.of_slots rfl rfl rfl (congrArg some hret) rfl)
    ((PairsAll.refl _).append (.cons hfollows hfollows'))

end Semant
