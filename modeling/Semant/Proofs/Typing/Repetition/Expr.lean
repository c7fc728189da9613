import Semant.Proofs.Typing.Soundness.Expr
import Semant.Proofs.Typing.FailStop

/-! Typing a tree a second time. Parts that have no slots are passed over; the first slot on the way
is full and refuses to be written, and from then on nothing happens. -/

namespace Semant

open Resolve Outcome

def Error.writtenTwice : Error :=
  .internal "resolution slot written twice"

/-- The state after a full slot refused a value. -/
def Progress.refused (s : Progress) : Progress :=
  { s with error := some .writtenTwice }

theorem Progress.refused_failed (s : Progress) : s.refused.error ≠ none :=
  Option.some_ne_none _

/-- A run over `new`, which typing made of `old`. -/
def Repeats {α : Type} (run : Resolve α) (old new : α) (s : Progress) : Prop :=
  (new = old ∧ run s = (new, s)) ∨ (new ≠ old ∧ run s = (new, s.refused))

section

variable {s : Progress} {α β : Type}

theorem Resolve.settle_of_full {rule : Progress → Except Error α} {a b : α} (hs : s.error = none)
    (hrule : rule s = .ok b) : settle (.resolved a) rule s = (.resolved a, s.refused) := by
  have hstep : (fun s => rule s >>= Slot.fill (.resolved a)) s =
      .error .writtenTwice := by
    dsimp only
    rw [hrule]
    rfl
  rw [settle_apply, attempt_of_error hs hstep]
  rfl

theorem Resolve.introduce_of_full {b : Binder} {rule : Scope → Except Error Ty} {ty found : Ty}
    (hs : s.error = none) (hb : b.ty = .resolved ty) (hrule : rule s.scope = .ok found) :
    introduce b rule s = (b, s.refused) := by
  have hstep : (do
      let ty ← rule s.scope
      return (ty, ← b.ty.fill ty)) = Except.error .writtenTwice := by
    rw [hrule, hb]
    rfl
  rw [introduce, bind_apply, attempt_of_error hs hstep]
  rfl

namespace Repeats

variable {run : Resolve α} {old new : α}

theorem settle (h : Repeats run old new s) (hs : s.error = none)
    (rule : Progress → Except Error β) {b : β} (hrule : rule s = .ok b) :
    ∃ t, run s = (new, t) ∧
      ∀ a, Resolve.settle (.resolved a) rule t = (.resolved a, s.refused) := by
  rcases h with ⟨_, hrun⟩ | ⟨_, hrun⟩
  · exact ⟨s, hrun, fun _ => settle_of_full hs hrule⟩
  · exact ⟨s.refused, hrun, fun _ => settle_of_failed s.refused_failed⟩

theorem bindCall (h : Repeats run old new s) (hs : s.error = none) (d : Demand) {name : String}
    {tys : List Ty} {found : SymbolId} (hfound : s.scope.resolve? name tys = some found)
    (id : SymbolId) (ty : Slot Ty) (loc : Location) :
    ∃ t, run s = (new, t) ∧ Semant.bindCall d name (.ok tys) (.resolved id) ty loc t =
      ((.resolved id, ty), s.refused) := by
  rcases h with ⟨_, hrun⟩ | ⟨_, hrun⟩
  · obtain ⟨f, hbest⟩ := Scope.resolve?_eq_some.mp hfound
    have hstep : s.scope.bound name (.ok tys) (.resolved id) loc =
        .error .writtenTwice := by
      unfold Scope.bound
      rw [ok_bind, hbest]
      rfl
    refine ⟨s, hrun, ?_⟩
    change (attempt (fun s => s.scope.bound name (.ok tys) (.resolved id) loc) >>= _) s = _
    rw [bind_apply, attempt_of_error hs hstep]
    rfl
  · exact ⟨s.refused, hrun, bindCall_failed s.refused_failed ..⟩

theorem inScope (h : Repeats run old new { s with env := s.env.push }) :
    Repeats (Resolve.inScope run) old new s := by
  rcases h with ⟨heq, hrun⟩ | ⟨hne, hrun⟩
  · exact .inl ⟨heq, inScope_of_eq hrun⟩
  · refine .inr ⟨hne, ?_⟩
    rw [inScope_apply, hrun]
    rfl

end Repeats

end

theorem Toward.written {σ : Scope} {s : Progress} (h : Toward σ s) {written : TypeExpr} {ty : Ty}
    (hw : written.resolve σ = .ok ty) : written.resolve s.scope = .ok ty := by
  rw [← TypeExpr.resolve_congr h.grows.lookupClass?, hw]

theorem Toward.resolve? {σ : Scope} {s : Progress} (h : Toward σ s) {name : String}
    {tys : List Ty} {id : SymbolId} (hid : σ.resolve? name tys = some id) :
    s.scope.resolve? name tys = some id := by
  rw [← h.grows.resolve?_eq, hid]

/-- Typing an expression fills its slot. -/
theorem Expr.Resolves.ne {σ : Scope} {Γ : Context} {e e' : Expr} {ty : Ty}
    (h : e.Resolves σ Γ e' ty) : e' ≠ e := by
  intro heq
  have hempty : e.ty = .unresolved := by cases h <;> rfl
  have hfull := h.ty
  rw [heq, hempty] at hfull
  cases hfull

section

variable {σ : Scope} {d : Demand} {s : Progress}

mutual

theorem Expr.Resolves.again (hs : Toward σ s) : ∀ {e e' : Expr} {ty : Ty},
    e.Resolves σ s.env.context e' ty → e'.resolve d s = (e', s.refused)
  | _, _, _, @Expr.Resolves.literal _ _ value _ => by
    have hrun : settle (.resolved (.builtin value.builtin))
        (fun _ => .ok (Ty.builtin value.builtin)) s = (_, s.refused) := settle_of_full hs.ok rfl
    simp only [Expr.resolve, bind_apply, pure_apply, hrun]
  | _, _, _, @Expr.Resolves.array _ _ _ elems' ty tys loc helems hall => by
    let rule (_ : Progress) := do Typing.array (← Expr.types elems') loc
    have hrule : rule s = .ok (.array ty) := by
      simp only [rule, helems.types, ok_bind]
      exact Typing.array_eq_ok.mpr ⟨ty, tys, rfl, hall, rfl⟩
    obtain ⟨t, hrun, hset⟩ := (helems.again hs).settle hs.ok rule hrule
    simp only [Expr.resolve, bind_apply, pure_apply, hrun]
    rw [hset]
  | _, _, _, @Expr.Resolves.tuple _ _ _ elems' tys _ helems => by
    let rule (_ : Progress) := do return Ty.tuple (← Expr.types elems')
    have hrule : rule s = .ok (.tuple tys) := by
      simp only [rule, helems.types, ok_bind]
      rfl
    obtain ⟨t, hrun, hset⟩ := (helems.again hs).settle hs.ok rule hrule
    simp only [Expr.resolve, bind_apply, pure_apply, hrun]
    rw [hset]
  | _, _, _, @Expr.Resolves.dict _ _ _ entries' key value tys loc hentries hall => by
    let rule (_ : Progress) := do Typing.dict (← Expr.entryTypes entries') loc
    have hrule : rule s = .ok (.dict key value) := by
      simp only [rule, hentries.types, ok_bind]
      exact Typing.dict_eq_ok.mpr ⟨key, value, tys, rfl, hall, rfl⟩
    obtain ⟨t, hrun, hset⟩ := (hentries.again hs).settle hs.ok rule hrule
    simp only [Expr.resolve, bind_apply, pure_apply, hrun]
    rw [hset]
  | _, _, _, @Expr.Resolves.var _ _ name binding loc hb => by
    have hrule : (match s.env.lookup? name with
        | some binding => Except.ok binding.ty
        | none => reject loc (.undeclared name)) = .ok binding.ty := by
      rw [Env.lookup?_eq, hb]
    simp only [Expr.resolve, bind_apply, pure_apply]
    rw [settle_of_full hs.ok hrule]
  | _, _, _, @Expr.Resolves.named _ _ name slot _ args' tys id ty nameLoc loc hfree hargs hid _ => by
    have hname : Expr.functionName? s.env (.var name slot nameLoc) = some name :=
      Expr.functionName?_eq_some.mpr ⟨slot, nameLoc, rfl, hfree⟩
    obtain ⟨t, hrun, hbind⟩ :=
      (hargs.again hs).bindCall hs.ok d (hs.resolve? hid) id (.resolved ty) loc
    simp only [Expr.resolve, bind_apply, get_apply, hname, pure_apply, hrun, hargs.types, hbind]
  | _, _, _, .applied hchild _ _ => by
    have hvalue := hchild.functionName?_eq_none.2
    simp only [Expr.resolve, bind_apply, get_apply, hvalue, pure_apply, hchild.again hs,
      Expr.resolveAll_failed d s.refused_failed, settle_of_failed s.refused_failed]
  | _, _, _, @Expr.Resolves.construct _ _ written _ _ _ _ _ hargs hwritten => by
    obtain ⟨t, hrun, hset⟩ := (hargs.again hs).settle hs.ok
      (fun s => written.resolve s.scope) (hs.written hwritten)
    simp only [Expr.resolve, bind_apply, pure_apply, hrun]
    rw [hset]
  | _, _, _, .index hchild _ _ => by
    simp only [Expr.resolve, bind_apply, pure_apply, hchild.again hs,
      Expr.resolve_failed d s.refused_failed, settle_of_failed s.refused_failed]
  | _, _, _, .member hchild _ _ => by
    simp only [Expr.resolve, bind_apply, pure_apply, hchild.again hs,
      bindCall_failed s.refused_failed]
  | _, _, _, .unary hchild _ | _, _, _, .cast hchild _ => by
    simp only [Expr.resolve, bind_apply, pure_apply, hchild.again hs,
      settle_of_failed s.refused_failed]
  | _, _, _, .binary _ hrhs _ => by
    simp only [Expr.resolve, bind_apply, pure_apply, hrhs.again hs,
      Expr.resolve_failed d s.refused_failed, settle_of_failed s.refused_failed]
  | _, _, _, .choice hcond _ _ _ => by
    simp only [Expr.resolve, bind_apply, pure_apply, hcond.again hs,
      Expr.resolve_failed d s.refused_failed, settle_of_failed s.refused_failed]
  | _, _, _, @Expr.Resolves.typed _ _ _ _ _ _ ty _ hwritten hchild _ => by
    simp only [Expr.resolve, bind_apply]
    rw [attempt_of_ok hs.ok (hs.written hwritten)]
    dsimp only
    rw [if_neg (hchild.not_adopts ty).2]
    simp only [bind_apply, pure_apply, hchild.again hs, settle_of_failed s.refused_failed]
  | _, _, _, @Expr.Resolves.typedArray _ _ _ elem inner _ hwritten => by
    have hrun : settle (.resolved (.array elem)) (fun _ => .ok (Ty.array elem)) s =
        (_, s.refused) := settle_of_full hs.ok rfl
    simp only [Expr.resolve, bind_apply]
    rw [attempt_of_ok hs.ok (hs.written hwritten)]
    dsimp only
    rw [if_pos (by rfl : Expr.adopts (.array [] (.resolved (.array elem)) inner) (.array elem) = true)]
    simp only [Expr.adopt, bind_apply, pure_apply, hrun, settle_of_failed s.refused_failed]
  | _, _, _, @Expr.Resolves.typedDict _ _ _ key value inner _ hwritten => by
    have hrun : settle (.resolved (.dict key value)) (fun _ => .ok (Ty.dict key value)) s =
        (_, s.refused) := settle_of_full hs.ok rfl
    simp only [Expr.resolve, bind_apply]
    rw [attempt_of_ok hs.ok (hs.written hwritten)]
    dsimp only
    rw [if_pos (by rfl :
      Expr.adopts (.dict [] (.resolved (.dict key value)) inner) (.dict key value) = true)]
    simp only [Expr.adopt, bind_apply, pure_apply, hrun, settle_of_failed s.refused_failed]

theorem Expr.ResolvesAll.again (hs : Toward σ s) : ∀ {es es' : List Expr} {tys : List Ty},
    Expr.ResolvesAll σ s.env.context es es' tys → Repeats (Expr.resolveAll d es') es es' s
  | _, _, _, .nil => .inl ⟨rfl, rfl⟩
  | _, _, _, .cons he _ => by
    refine .inr ⟨fun heq => he.ne (List.cons.inj heq).1, ?_⟩
    simp only [Expr.resolveAll, bind_apply, pure_apply, he.again hs,
      Expr.resolveAll_failed d s.refused_failed]

theorem Expr.ResolvesEntries.again (hs : Toward σ s) : ∀ {es es' : List (Expr × Expr)}
    {tys : List (Ty × Ty)}, Expr.ResolvesEntries σ s.env.context es es' tys →
      Repeats (Expr.resolveEntries d es') es es' s
  | _, _, _, .nil => .inl ⟨rfl, rfl⟩
  | _, _, _, .cons hkey _ _ => by
    refine .inr ⟨fun heq => hkey.ne (Prod.mk.inj (List.cons.inj heq).1).1, ?_⟩
    simp only [Expr.resolveEntries, bind_apply, pure_apply, hkey.again hs,
      Expr.resolve_failed d s.refused_failed, Expr.resolveEntries_failed d s.refused_failed]

end

end

end Semant
