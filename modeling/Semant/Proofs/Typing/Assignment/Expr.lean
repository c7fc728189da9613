import Semant.Proofs.Tree.Annotation
import Semant.Proofs.Typing.EqualTypes
import Semant.Proofs.Typing.Sites
import Semant.Proofs.Typing.WellTyped

/-! A well-typed tree can be typed again. Without its types it has a derivation, and the types that
this gives are equal to those that it had. -/

namespace Semant

open Ty Outline

/-- The names of a context are the visible declarations, with equal types. -/
def Context.Matches (Γ : Context) (ds : List Binder) : Prop :=
  List.Forall₂ (Binder.Means fun a b => a.erase = b.erase) ds Γ

namespace Context.Matches

variable {Γ : Context} {ds : List Binder} {name : String}

theorem lookup_eq_some (h : Γ.Matches ds) {b : Binder} {ty : Ty}
    (hb : ds.find? (·.name == name) = some b) (hty : b.ty = .resolved ty) :
    ∃ binding, Γ.lookup name = some binding ∧ binding.ty.erase = ty.erase := by
  obtain ⟨binding, hname, hmeans⟩ := Binder.Means.lookup_of_find? h hb
  obtain ⟨ty', hty', herase⟩ := hmeans.ty
  rw [hty] at hty'
  cases hty'
  exact ⟨binding, hname, herase.symm⟩

theorem lookup_eq_none (h : Γ.Matches ds) (hb : ds.find? (·.name == name) = none) :
    Γ.lookup name = none :=
  (Binder.Means.find?_eq_none_iff h name).mp hb

end Context.Matches

theorem Outline.Follows.expr {e e' : Expr} {ty ty' : Ty} {os ps : List Outline}
    (h : ty'.erase = ty.erase) (hparts : FollowAll os ps)
    (hkind : e'.kindName = e.kindName := by rfl) (hloc : e'.loc = e.loc := by rfl)
    (hty' : e'.ty = .resolved ty' := by rfl) (hty : e.ty = .resolved ty := by rfl) :
    (Outline.mk (.expr e') os).Follows (.mk (.expr e) ps) :=
  .mk (.of_slots hkind hloc (congrArg some hty') (congrArg some hty) h) hparts

/-- The expression without its types has a derivation that gives it the type `ty` again. -/
def Expr.Typable (σ : Scope) (Γ : Context) (e : Expr) (ty : Ty) : Prop :=
  ∃ e' ty', e.blank.Resolves σ Γ e' ty' ∧ ty'.erase = ty.erase ∧ e'.outline.Follows e.outline

def Expr.TypableAll (σ : Scope) (Γ : Context) (es : List Expr) (tys : List Ty) : Prop :=
  ∃ es' tys', Expr.ResolvesAll σ Γ (Expr.blankAll es) es' tys' ∧ tys'.map erase = tys.map erase ∧
    FollowAll (Expr.outlines es') (Expr.outlines es)

def Expr.TypableEntries (σ : Scope) (Γ : Context) (es : List (Expr × Expr))
    (tys : List (Ty × Ty)) : Prop :=
  ∃ es' tys', Expr.ResolvesEntries σ Γ (Expr.blankEntries es) es' tys' ∧
    tys'.map (Prod.map erase erase) = tys.map (Prod.map erase erase) ∧
    FollowAll (Expr.outlineEntries es') (Expr.outlineEntries es)

/-- Types of elements that fit one array are equal. -/
theorem exists_array {tys tys' : List Ty} {ty : Ty} (htys : tys'.map erase = tys.map erase)
    (hne : tys ≠ []) (hall : ∀ elem ∈ tys, ty == .array elem) :
    ∃ first rest, tys' = first :: rest ∧ (∀ other ∈ rest, other == first) ∧
      (Ty.array first).erase = ty.erase := by
  have hfits : ∀ elem ∈ tys', ty.erase = .array elem.erase := by
    have h : ∀ elem ∈ tys.map erase, ty.erase = .array elem :=
      List.forall_mem_map.mpr fun elem helem => beq_iff_erase_eq.mp (hall elem helem)
    rw [← htys] at h
    exact fun elem helem => h _ (List.mem_map_of_mem helem)
  cases tys' with
  | nil => exact absurd (List.map_eq_nil_iff.mp htys.symm) hne
  | cons first rest =>
    obtain ⟨hfirst, hrest⟩ := List.forall_mem_cons.mp hfits
    refine ⟨first, rest, rfl, fun other hother => beq_iff_erase_eq.mpr ?_, hfirst.symm⟩
    have heq := hrest other hother
    rw [hfirst] at heq
    exact (Ty.array.inj heq).symm

theorem exists_dict {tys tys' : List (Ty × Ty)} {ty : Ty}
    (htys : tys'.map (Prod.map erase erase) = tys.map (Prod.map erase erase))
    (hne : tys ≠ []) (hall : ∀ entry ∈ tys, ty == .dict entry.1 entry.2) :
    ∃ key value rest, tys' = (key, value) :: rest ∧
      (∀ other ∈ rest, other.1 == key ∧ other.2 == value) ∧
      (Ty.dict key value).erase = ty.erase := by
  have hfits : ∀ entry ∈ tys', ty.erase = .dict entry.1.erase entry.2.erase := by
    have h : ∀ entry ∈ tys.map (Prod.map erase erase), ty.erase = .dict entry.1 entry.2 :=
      List.forall_mem_map.mpr fun entry hentry => beq_iff_erase_eq.mp (hall entry hentry)
    rw [← htys] at h
    exact fun entry hentry => h _ (List.mem_map_of_mem hentry)
  cases tys' with
  | nil => exact absurd (List.map_eq_nil_iff.mp htys.symm) hne
  | cons first rest =>
    obtain ⟨hfirst, hrest⟩ := List.forall_mem_cons.mp hfits
    refine ⟨first.1, first.2, rest, rfl, fun other hother => ?_, hfirst.symm⟩
    have heq := hrest other hother
    rw [hfirst] at heq
    obtain ⟨hkey, hvalue⟩ := Ty.dict.inj heq
    exact ⟨beq_iff_erase_eq.mpr hkey.symm, beq_iff_erase_eq.mpr hvalue.symm⟩

theorem Expr.Resolves.literal_of_blank {σ : Scope} {Γ : Context} {e e' : Expr} {ty : Ty}
    (h : e.blank.Resolves σ Γ e' ty) {value : Literal} {slot : Slot Ty} {loc : Location}
    (he : e = .literal value slot loc) : ∃ slot', e' = .literal value slot' loc := by
  subst he
  cases h
  exact ⟨_, rfl⟩

variable {σ : Scope} {Γ : Context} {ds : List Binder}

mutual

theorem Expr.WellTyped.typable (hΓ : Γ.Matches ds) : ∀ {e : Expr} {ty : Ty},
    e.WellTyped σ ds ty → e.Typable σ Γ ty
  | .literal .., _, h => by
    cases h with
    | literal hty =>
      have herase := (beq_iff_erase_eq.mp hty).symm
      refine ⟨_, _, .literal, herase, ?_⟩
      exact .expr herase .nil
  | .array elems .., _, h => by
    cases h with
    | array helems hne hall =>
      obtain ⟨elems', tys', hres, htys, hparts⟩ := helems.typable hΓ
      obtain ⟨first, rest, rfl, hsame, herase⟩ := exists_array htys hne hall
      refine ⟨_, _, .array hres hsame, herase, ?_⟩
      exact .expr herase hparts
  | .tuple elems .., ty, h => by
    cases h with
    | tuple helems hty =>
      obtain ⟨elems', tys', hres, htys, hparts⟩ := helems.typable hΓ
      have herase : (Ty.tuple tys').erase = ty.erase := by
        rw [beq_iff_erase_eq.mp hty, erase_tuple, erase_tuple, htys]
      refine ⟨_, _, .tuple hres, herase, ?_⟩
      exact .expr herase hparts
  | .dict entries .., _, h => by
    cases h with
    | dict hentries hne hall =>
      obtain ⟨entries', tys', hres, htys, hparts⟩ := hentries.typable hΓ
      obtain ⟨key, value, rest, rfl, hsame, herase⟩ := exists_dict htys hne hall
      refine ⟨_, _, .dict hres hsame, herase, ?_⟩
      exact .expr herase hparts
  | .var .., _, h => by
    cases h with
    | var hb hfound hty =>
      obtain ⟨binding, hname, hbinding⟩ := hΓ.lookup_eq_some hb hfound
      have herase := hbinding.trans (beq_iff_erase_eq.mp hty).symm
      refine ⟨_, _, .var hname, herase, ?_⟩
      exact .expr herase .nil
  | .call child args .., _, h => by
    cases h with
    | named hfree hargs hid hcall hty =>
      obtain ⟨args', tys', hres, htys, hparts⟩ := hargs.typable hΓ
      rw [← σ.resolve?_congr _ htys] at hid
      have herase := (beq_iff_erase_eq.mp hty).symm
      refine ⟨_, _, .named (hΓ.lookup_eq_none hfree) hres hid hcall, herase, ?_⟩
      -- Nothing types the name that is called, so its slot stays empty.
      refine .expr herase (.cons (.mk (.of_unset rfl rfl ?_) .nil) hparts)
      rintro _ ⟨⟩
    | applied hchild hargs happlies hty =>
      obtain ⟨child', f', hres, hf, hfollows⟩ := hchild.typable hΓ
      obtain ⟨args', tys', hress, htys, hparts⟩ := hargs.typable hΓ
      obtain ⟨ty', happlies', hty'⟩ := happlies.congr hf htys
      have herase := hty'.trans (beq_iff_erase_eq.mp hty).symm
      refine ⟨_, _, .applied hres hress happlies', herase, ?_⟩
      exact .expr herase (.cons hfollows hparts)
  | .construct _ args .., _, h => by
    cases h with
    | construct hargs hwritten hty =>
      obtain ⟨args', tys', hres, _, hparts⟩ := hargs.typable hΓ
      have herase := (beq_iff_erase_eq.mp hty).symm
      refine ⟨_, _, .construct hres hwritten, herase, ?_⟩
      exact .expr herase (.cons (.refl _) hparts)
  | .index child position .., _, h => by
    cases h with
    | index hchild hposition hholds hty =>
      obtain ⟨child', held', hres, hheld, hfollows⟩ := hchild.typable hΓ
      obtain ⟨position', at', hres', hat, hfollows'⟩ := hposition.typable hΓ
      obtain ⟨ty', hholds', hty'⟩ :=
        hholds.congr hheld hat fun _ _ _ => hres'.literal_of_blank
      have herase := hty'.trans (beq_iff_erase_eq.mp hty).symm
      refine ⟨_, _, .index hres hres' hholds', herase, ?_⟩
      exact .expr herase (.cons hfollows (.singleton hfollows'))
  | .member child .., _, h => by
    cases h with
    | member hchild hid hcall hty =>
      obtain ⟨child', receiver', hres, hreceiver, hfollows⟩ := hchild.typable hΓ
      rw [← σ.resolve?_congr _ (singleton_erase hreceiver)] at hid
      have herase := (beq_iff_erase_eq.mp hty).symm
      refine ⟨_, _, .member hres hid hcall, herase, ?_⟩
      exact .expr herase (.singleton hfollows)
  | .unary _ operand .., _, h => by
    cases h with
    | unary hoperand htakes hty =>
      obtain ⟨operand', from', hres, hfrom, hfollows⟩ := hoperand.typable hΓ
      obtain ⟨ty', htakes', hty'⟩ := htakes.congr hfrom
      have herase := hty'.trans (beq_iff_erase_eq.mp hty).symm
      refine ⟨_, _, .unary hres htakes', herase, ?_⟩
      exact .expr herase (.singleton hfollows)
  | .cast child .., _, h => by
    cases h with
    | cast hchild hwritten hty =>
      obtain ⟨child', from', hres, _, hfollows⟩ := hchild.typable hΓ
      have herase := (beq_iff_erase_eq.mp hty).symm
      refine ⟨_, _, .cast hres hwritten, herase, ?_⟩
      exact .expr herase (.cons hfollows (.refl _))
  | .binary lhs _ rhs .., _, h => by
    cases h with
    | binary hlhs hrhs htakes hty =>
      obtain ⟨lhs', left', hres, hleft, hfollows⟩ := hlhs.typable hΓ
      obtain ⟨rhs', right', hres', hright, hfollows'⟩ := hrhs.typable hΓ
      obtain ⟨ty', htakes', hty'⟩ := htakes.congr hleft hright
      have herase := hty'.trans (beq_iff_erase_eq.mp hty).symm
      refine ⟨_, _, .binary hres hres' htakes', herase, ?_⟩
      exact .expr herase (.cons hfollows' (.singleton hfollows))
  | .choice cond yes no .., _, h => by
    cases h with
    | choice hcond hyes hno hty hty' =>
      obtain ⟨cond', bool', hres, hbool, hfollows⟩ := hcond.typable hΓ
      obtain ⟨yes', left', hres', hleft, hfollows'⟩ := hyes.typable hΓ
      obtain ⟨no', right', hres'', hright, hfollows''⟩ := hno.typable hΓ
      rw [eq_builtin_of_erase hbool] at hres
      have herase := hleft.trans (beq_iff_erase_eq.mp hty).symm
      have hsame : left' == right' := by
        rw [beq_iff_erase_eq, herase, beq_iff_erase_eq.mp hty', hright]
      refine ⟨_, _, .choice hres hres' hres'' hsame, herase, ?_⟩
      exact .expr herase (.cons hfollows (.cons hfollows' (.singleton hfollows'')))
  | .typed child .., _, h => by
    cases h with
    | typed hchild hwritten hfound hty =>
      obtain ⟨child', from', hres, hfrom, hfollows⟩ := hchild.typable hΓ
      have hsame := beq_iff_erase_eq.mpr (hfrom.trans (beq_iff_erase_eq.mp hfound))
      have herase := (beq_iff_erase_eq.mp hty).symm
      refine ⟨_, _, .typed hwritten hres hsame, herase, ?_⟩
      exact .expr herase (.cons hfollows (.refl _))
    | typedArray hwritten hinner hty =>
      have hinner' := (beq_iff_erase_eq.mp hinner).symm
      have herase := (beq_iff_erase_eq.mp hty).symm
      refine ⟨_, _, .typedArray hwritten, herase, ?_⟩
      exact .expr herase (.cons (Outline.Follows.expr hinner' .nil) (.refl _))
    | typedDict hwritten hinner hty =>
      have hinner' := (beq_iff_erase_eq.mp hinner).symm
      have herase := (beq_iff_erase_eq.mp hty).symm
      refine ⟨_, _, .typedDict hwritten, herase, ?_⟩
      exact .expr herase (.cons (Outline.Follows.expr hinner' .nil) (.refl _))
termination_by structural e => e

theorem Expr.WellTypedAll.typable (hΓ : Γ.Matches ds) : ∀ {es : List Expr} {tys : List Ty},
    Expr.WellTypedAll σ ds es tys → Expr.TypableAll σ Γ es tys
  | [], _, h => by
    cases h
    exact ⟨[], [], .nil, rfl, .nil⟩
  | _ :: _, _, h => by
    cases h with
    | cons he hes =>
      obtain ⟨e', ty', hres, hty, hfollows⟩ := he.typable hΓ
      obtain ⟨es', tys', hress, htys, hparts⟩ := hes.typable hΓ
      refine ⟨_, _, .cons hres hress, ?_, .cons hfollows hparts⟩
      rw [List.map_cons, List.map_cons, hty, htys]
termination_by structural es => es

theorem Expr.WellTypedEntries.typable (hΓ : Γ.Matches ds) :
    ∀ {es : List (Expr × Expr)} {tys : List (Ty × Ty)},
      Expr.WellTypedEntries σ ds es tys → Expr.TypableEntries σ Γ es tys
  | [], _, h => by
    cases h
    exact ⟨[], [], .nil, rfl, .nil⟩
  | (_, _) :: _, _, h => by
    cases h with
    | cons hkey hvalue hes =>
      obtain ⟨key', k', hres, hk, hfollows⟩ := hkey.typable hΓ
      obtain ⟨value', v', hres', hv, hfollows'⟩ := hvalue.typable hΓ
      obtain ⟨es', tys', hress, htys, hparts⟩ := hes.typable hΓ
      refine ⟨_, _, .cons hres hres' hress, ?_, .cons hfollows (.cons hfollows' hparts)⟩
      rw [List.map_cons, List.map_cons, htys, Prod.map_apply, Prod.map_apply, hk, hv]
termination_by structural es => es

end

end Semant
