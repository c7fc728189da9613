import Semant.Proofs.Typing.Soundness.Expr

/-! Type resolution of expressions is complete: a tree that the typing judgment derives is the one
that type resolution leaves, as long as the functions that it demands can be analyzed. -/

namespace Semant

open Resolve Outcome

/-- In a state of `G` a demand that a derivation in `σ` makes is met, and the state after it is of
`G` again. All these scopes can still become `last`. -/
structure Serves (σ last : Scope) (d : Demand) (G : Progress → Prop) : Prop where
  grows : σ.Grows last
  discreet : d.Discreet
  ok : ∀ {s}, G s → s.error = none
  scope : ∀ {s}, G s → s.scope.Grows last
  env : ∀ {s} (env : Env), G s → G { s with env }
  returns : ∀ {s} (returns : Option Returns), G s → G { s with returns }
  serve : ∀ {s : Progress} {f : FuncSymbol} {id : SymbolId} {ty : Ty}, G s →
    s.scope.functions[id]? = some f → σ.CallType id ty → G (demanded d f s) ∧
      (f.kind = .func → ∃ g, (demanded d f s).scope.functions[id]? = some g ∧ g.ret.isResolved)

namespace Serves

variable {σ last : Scope} {d : Demand} {G : Progress → Prop}

theorem resolve_written (hv : Serves σ last d G) {s : Progress} (hs : G s) {written : TypeExpr}
    {ty : Ty} (h : written.resolve σ = .ok ty) : written.resolve s.scope = .ok ty := by
  rw [← TypeExpr.resolve_congr (hv.scope hs).lookupClass?,
    TypeExpr.resolve_congr hv.grows.lookupClass?, h]

theorem result (hv : Serves σ last d G) {s : Progress} {f : FuncSymbol} {id : SymbolId} {ty : Ty}
    (hs : G s) (hf : s.scope.functions[id]? = some f) (hcall : σ.CallType id ty) (loc : Location) :
    Typing.result f ((demanded d f s).scope.returnType? id) loc = .ok ty := by
  obtain ⟨hs₁, hret⟩ := hv.serve hs hf hcall
  obtain ⟨h, hh, hgrows⟩ := (hv.scope hs).function hf
  refine Typing.result_eq_ok.mpr ?_
  cases hv.grows.callType hcall with
  | proc hl hkind =>
    rw [hh] at hl
    cases hl
    exact .inl ⟨hgrows.kind.symm.trans hkind, rfl⟩
  | func hl hkind hty =>
    rw [hh] at hl
    cases hl
    have hfunc : f.kind = .func := hgrows.kind.symm.trans hkind
    obtain ⟨g, hg, hresolved⟩ := hret hfunc
    obtain ⟨l, hl, hgl⟩ := (hv.scope hs₁).function hg
    rw [hh] at hl
    cases hl
    refine .inr ⟨hfunc, Scope.returnType?_eq_some.mpr ⟨g, hg, ?_⟩⟩
    cases hslot : g.ret with
    | unresolved =>
      rw [hslot] at hresolved
      cases hresolved
    | resolved found =>
      rw [hgl.ret_resolved hslot] at hty
      cases hty
      rfl

theorem bindCall (hv : Serves σ last d G) {s : Progress} {name : String} {tys : List Ty}
    {id : SymbolId} {ty : Ty} (hs : G s) (hid : σ.resolve? name tys = some id)
    (hcall : σ.CallType id ty) (loc : Location) :
    ∃ t, Semant.bindCall d name (.ok tys) .unresolved .unresolved loc s =
      ((.resolved id, .resolved ty), t) ∧ G t := by
  have hnow : s.scope.resolve? name tys = some id := by
    rw [← (hv.scope hs).resolve?_eq, hv.grows.resolve?_eq, hid]
  obtain ⟨f, hbest⟩ := Scope.resolve?_eq_some.mp hnow
  have hf : s.scope.functions[id]? = some f := (Scope.bestOverload?_mem hbest).1
  obtain ⟨hs₁, _⟩ := hv.serve hs hf hcall
  rcases bindCall_cases d name (.ok tys) .unresolved .unresolved loc s with
    ⟨tys', o, r, _, hargs, ho, _, rfl, hrun⟩ | ⟨herror, _⟩ | ⟨_, _, herror, _⟩
  · cases hargs
    rw [hbest] at ho
    cases ho
    have hresult := hv.result hs hf hcall loc
    refine ⟨demanded d f s, ?_, hs₁⟩
    rw [hrun]
    dsimp only
    generalize demanded d f s = t at hresult hs₁ ⊢
    rw [settle_of_ok (hv.ok hs₁) hresult]
  · exact (herror (hv.ok hs)).elim
  · rw [Scope.bound_eq_ok.mpr ⟨tys, _, rfl, hbest, rfl, rfl⟩] at herror
    cases herror

theorem env_expr (hv : Serves σ last d G) {e e' : Expr} {s t : Progress}
    (hrun : e.resolve d s = (e', t)) : t.env = s.env := by
  have henv := (hv.discreet.closed.expr e s).1
  rwa [hrun] at henv

theorem env_exprs (hv : Serves σ last d G) {es es' : List Expr} {s t : Progress}
    (hrun : Expr.resolveAll d es s = (es', t)) : t.env = s.env := by
  have henv := (hv.discreet.closed.exprs es s).1
  rwa [hrun] at henv

end Serves

section

variable {σ last : Scope} {d : Demand} {G : Progress → Prop}

mutual

theorem Expr.resolve_complete (hv : Serves σ last d G) : ∀ (e : Expr) {e' : Expr} {ty : Ty}
    {s : Progress}, e.Resolves σ s.env.context e' ty → G s → ∃ t, e.resolve d s = (e', t) ∧ G t
  | .literal value _ _, _, _, s, h, hs => by
    cases h
    have hrun : settle .unresolved (fun _ => .ok (Ty.builtin value.builtin)) s =
        (.resolved (.builtin value.builtin), s) := settle_of_ok (hv.ok hs) rfl
    simp only [Expr.resolve, bind_apply, pure_apply, hrun]
    exact ⟨s, rfl, hs⟩
  | .array elems _ loc, _, _, s, h, hs => by
    cases h with
    | @array _ elems' ty tys _ helems hall =>
      obtain ⟨t, hrun, ht⟩ := Expr.resolveAll_complete hv elems helems hs
      have hrule : (do Typing.array (← Expr.types elems') loc) = .ok (.array ty) := by
        rw [helems.types]
        exact Typing.array_eq_ok.mpr ⟨ty, tys, rfl, hall, rfl⟩
      simp only [Expr.resolve, bind_apply, pure_apply, hrun]
      rw [settle_of_ok (hv.ok ht) hrule]
      exact ⟨t, rfl, ht⟩
  | .tuple elems _ loc, _, _, s, h, hs => by
    cases h with
    | @tuple _ elems' tys _ helems =>
      obtain ⟨t, hrun, ht⟩ := Expr.resolveAll_complete hv elems helems hs
      have hrule : (do return Ty.tuple (← Expr.types elems')) = .ok (.tuple tys) := by
        rw [helems.types]
        rfl
      simp only [Expr.resolve, bind_apply, pure_apply, hrun]
      rw [settle_of_ok (hv.ok ht) hrule]
      exact ⟨t, rfl, ht⟩
  | .dict entries _ loc, _, _, s, h, hs => by
    cases h with
    | @dict _ entries' key value tys _ hentries hall =>
      obtain ⟨t, hrun, ht⟩ := Expr.resolveEntries_complete hv entries hentries hs
      have hrule : (do Typing.dict (← Expr.entryTypes entries') loc) = .ok (.dict key value) := by
        rw [hentries.types]
        exact Typing.dict_eq_ok.mpr ⟨key, value, tys, rfl, hall, rfl⟩
      simp only [Expr.resolve, bind_apply, pure_apply, hrun]
      rw [settle_of_ok (hv.ok ht) hrule]
      exact ⟨t, rfl, ht⟩
  | .var name _ loc, _, _, s, h, hs => by
    cases h with
    | @var _ binding _ hb =>
      have hrule : (match s.env.lookup? name with
          | some binding => Except.ok binding.ty
          | none => reject loc (.undeclared name)) = .ok binding.ty := by
        rw [Env.lookup?_eq, hb]
      simp only [Expr.resolve, bind_apply, pure_apply]
      rw [settle_of_ok (hv.ok hs) hrule]
      exact ⟨s, rfl, hs⟩
  | .call child args _ _ loc, _, ty, s, h, hs => by
    simp only [Expr.resolve, bind_apply, get_apply]
    cases h with
    | @named name slot _ args' tys id ty nameLoc _ hfree hargs hid hcall =>
      obtain ⟨t, hrun, ht⟩ := Expr.resolveAll_complete hv args hargs hs
      obtain ⟨u, hbind, hu⟩ := hv.bindCall ht hid hcall loc
      have hname : Expr.functionName? s.env (.var name slot nameLoc) = some name :=
        Expr.functionName?_eq_some.mpr ⟨slot, nameLoc, rfl, hfree⟩
      simp only [hname, bind_apply, pure_apply, hrun, hargs.types, hbind]
      exact ⟨u, rfl, hu⟩
    | @applied _ child' _ args' _ f ty tys _ hchild hargs happlies =>
      obtain ⟨t, hrun, ht⟩ := Expr.resolve_complete hv child hchild hs
      have henv := hv.env_expr hrun
      have hargs' : Expr.ResolvesAll σ t.env.context args args' tys := by rwa [henv]
      obtain ⟨u, hrun', hu⟩ := Expr.resolveAll_complete hv args hargs' ht
      have hvalue := hchild.functionName?_eq_none.1
      have hrule : (do Typing.call (← child'.type) (← Expr.types args') loc) = .ok ty := by
        rw [hchild.type, hargs.types]
        exact Typing.call_eq_ok.mpr happlies
      simp only [hvalue, bind_apply, pure_apply, hrun, hrun']
      rw [settle_of_ok (hv.ok hu) hrule]
      exact ⟨u, rfl, hu⟩
  | .construct written args _ _, _, ty, s, h, hs => by
    cases h with
    | construct hargs hwritten =>
      obtain ⟨t, hrun, ht⟩ := Expr.resolveAll_complete hv args hargs hs
      have hrule := hv.resolve_written ht hwritten
      simp only [Expr.resolve, bind_apply, pure_apply, hrun]
      rw [settle_of_ok (hv.ok ht) hrule]
      exact ⟨t, rfl, ht⟩
  | .index child position _ loc, _, ty, s, h, hs => by
    cases h with
    | @index _ child' _ position' held at_ ty _ hchild hposition hholds =>
      obtain ⟨t, hrun, ht⟩ := Expr.resolve_complete hv child hchild hs
      have hposition' : position.Resolves σ t.env.context position' at_ := by
        rwa [hv.env_expr hrun]
      obtain ⟨u, hrun', hu⟩ := Expr.resolve_complete hv position hposition' ht
      have hrule : (do Typing.index (← child'.type) (← position'.type) position' loc) = .ok ty := by
        rw [hchild.type, hposition.type]
        exact Typing.index_eq_ok.mpr hholds
      simp only [Expr.resolve, bind_apply, pure_apply, hrun, hrun']
      rw [settle_of_ok (hv.ok hu) hrule]
      exact ⟨u, rfl, hu⟩
  | .member child name _ _ loc, _, ty, s, h, hs => by
    cases h with
    | @member _ child' _ receiver ty id _ hchild hid hcall =>
      obtain ⟨t, hrun, ht⟩ := Expr.resolve_complete hv child hchild hs
      obtain ⟨u, hbind, hu⟩ := hv.bindCall ht hid hcall loc
      have hone : Expr.ResolvesAll σ s.env.context [child] [child'] [receiver] := .cons hchild .nil
      simp only [Expr.resolve, bind_apply, pure_apply, hrun, hone.types, hbind]
      exact ⟨u, rfl, hu⟩
  | .unary op operand _ loc, _, ty, s, h, hs => by
    cases h with
    | @unary _ _ operand' from_ ty _ hoperand htakes =>
      obtain ⟨t, hrun, ht⟩ := Expr.resolve_complete hv operand hoperand hs
      have hrule : Typing.unary op operand' loc = .ok ty :=
        Typing.unary_eq_ok.mpr ⟨from_, hoperand.ty, htakes⟩
      simp only [Expr.resolve, bind_apply, pure_apply, hrun]
      rw [settle_of_ok (hv.ok ht) hrule]
      exact ⟨t, rfl, ht⟩
  | .cast child written _ _, _, ty, s, h, hs => by
    cases h with
    | cast hchild hwritten =>
      obtain ⟨t, hrun, ht⟩ := Expr.resolve_complete hv child hchild hs
      have hrule := hv.resolve_written ht hwritten
      simp only [Expr.resolve, bind_apply, pure_apply, hrun]
      rw [settle_of_ok (hv.ok ht) hrule]
      exact ⟨t, rfl, ht⟩
  | .binary lhs op rhs _ loc, _, ty, s, h, hs => by
    cases h with
    | @binary _ lhs' _ rhs' _ left right ty _ hlhs hrhs htakes =>
      obtain ⟨t, hrun, ht⟩ := Expr.resolve_complete hv rhs hrhs hs
      have hlhs' : lhs.Resolves σ t.env.context lhs' left := by rwa [hv.env_expr hrun]
      obtain ⟨u, hrun', hu⟩ := Expr.resolve_complete hv lhs hlhs' ht
      have hrule : (do Typing.binary op (← lhs'.type) (← rhs'.type) loc) = .ok ty := by
        rw [hlhs.type, hrhs.type]
        exact Typing.binary_eq_ok.mpr htakes
      simp only [Expr.resolve, bind_apply, pure_apply, hrun, hrun']
      rw [settle_of_ok (hv.ok hu) hrule]
      exact ⟨u, rfl, hu⟩
  | .choice cond yes no _ loc, _, ty, s, h, hs => by
    cases h with
    | @choice _ cond' _ yes' _ no' ty other _ hcond hyes hno heq =>
      obtain ⟨t, hrun, ht⟩ := Expr.resolve_complete hv cond hcond hs
      have henv := hv.env_expr hrun
      have hyes' : yes.Resolves σ t.env.context yes' ty := by rwa [henv]
      obtain ⟨u, hrun', hu⟩ := Expr.resolve_complete hv yes hyes' ht
      have hno' : no.Resolves σ u.env.context no' other := by rwa [hv.env_expr hrun', henv]
      obtain ⟨w, hrun'', hw⟩ := Expr.resolve_complete hv no hno' hu
      have hrule : Typing.choice cond' yes' no' loc = .ok ty :=
        Typing.choice_eq_ok.mpr ⟨hcond.ty, hyes.ty, other, hno.ty, heq⟩
      simp only [Expr.resolve, bind_apply, pure_apply, hrun, hrun', hrun'']
      rw [settle_of_ok (hv.ok hw) hrule]
      exact ⟨w, rfl, hw⟩
  | .typed child written _ loc, _, ty, s, h, hs => by
    simp only [Expr.resolve, bind_apply]
    cases h with
    | @typed _ child' _ found _ _ hwritten hchild heq =>
      have hwritten' := hv.resolve_written hs hwritten
      obtain ⟨t, hrun, ht⟩ := Expr.resolve_complete hv child hchild hs
      have hrule : (do Typing.ascription (← child'.type) ty loc) = .ok ty := by
        rw [hchild.type]
        exact Typing.ascription_eq_ok.mpr ⟨heq, rfl⟩
      rw [attempt_of_ok (hv.ok hs) hwritten']
      dsimp only
      rw [if_neg (hchild.not_adopts ty).1]
      simp only [bind_apply, pure_apply, hrun]
      rw [settle_of_ok (hv.ok ht) hrule]
      exact ⟨t, rfl, ht⟩
    | @typedArray _ elem inner _ hwritten =>
      have hwritten' := hv.resolve_written hs hwritten
      have hrun : settle .unresolved (fun _ => .ok (Ty.array elem)) s =
          (.resolved (.array elem), s) := settle_of_ok (hv.ok hs) rfl
      have hrule : ((Expr.array [] (.resolved (.array elem)) inner).type >>= fun found =>
          Typing.ascription found (.array elem) loc) = .ok (.array elem) :=
        Typing.ascription_eq_ok.mpr ⟨BEq.rfl, rfl⟩
      rw [attempt_of_ok (hv.ok hs) hwritten']
      dsimp only
      rw [if_pos (by rfl : Expr.adopts (.array [] .unresolved inner) (.array elem) = true)]
      simp only [Expr.adopt, bind_apply, pure_apply, hrun]
      rw [settle_of_ok (hv.ok hs) hrule]
      exact ⟨s, rfl, hs⟩
    | @typedDict _ key value inner _ hwritten =>
      have hwritten' := hv.resolve_written hs hwritten
      have hrun : settle .unresolved (fun _ => .ok (Ty.dict key value)) s =
          (.resolved (.dict key value), s) := settle_of_ok (hv.ok hs) rfl
      have hrule : ((Expr.dict [] (.resolved (.dict key value)) inner).type >>= fun found =>
          Typing.ascription found (.dict key value) loc) = .ok (.dict key value) :=
        Typing.ascription_eq_ok.mpr ⟨BEq.rfl, rfl⟩
      rw [attempt_of_ok (hv.ok hs) hwritten']
      dsimp only
      rw [if_pos (by rfl : Expr.adopts (.dict [] .unresolved inner) (.dict key value) = true)]
      simp only [Expr.adopt, bind_apply, pure_apply, hrun]
      rw [settle_of_ok (hv.ok hs) hrule]
      exact ⟨s, rfl, hs⟩

theorem Expr.resolveAll_complete (hv : Serves σ last d G) : ∀ (es : List Expr) {es' : List Expr}
    {tys : List Ty} {s : Progress}, Expr.ResolvesAll σ s.env.context es es' tys → G s →
      ∃ t, Expr.resolveAll d es s = (es', t) ∧ G t
  | [], _, _, s, h, hs => by
    cases h
    exact ⟨s, rfl, hs⟩
  | e :: es, _, _, s, h, hs => by
    cases h with
    | @cons _ e' _ es' ty tys he hes =>
      obtain ⟨t, hrun, ht⟩ := Expr.resolve_complete hv e he hs
      have hes' : Expr.ResolvesAll σ t.env.context es es' tys := by rwa [hv.env_expr hrun]
      obtain ⟨u, hrun', hu⟩ := Expr.resolveAll_complete hv es hes' ht
      simp only [Expr.resolveAll, bind_apply, pure_apply, hrun, hrun']
      exact ⟨u, rfl, hu⟩

theorem Expr.resolveEntries_complete (hv : Serves σ last d G) : ∀ (es : List (Expr × Expr))
    {es' : List (Expr × Expr)} {tys : List (Ty × Ty)} {s : Progress},
    Expr.ResolvesEntries σ s.env.context es es' tys → G s →
      ∃ t, Expr.resolveEntries d es s = (es', t) ∧ G t
  | [], _, _, s, h, hs => by
    cases h
    exact ⟨s, rfl, hs⟩
  | (key, value) :: es, _, _, s, h, hs => by
    cases h with
    | @cons _ key' _ value' _ es' k v tys hkey hvalue hes =>
      obtain ⟨t, hrun, ht⟩ := Expr.resolve_complete hv key hkey hs
      have henv := hv.env_expr hrun
      have hvalue' : value.Resolves σ t.env.context value' v := by rwa [henv]
      obtain ⟨u, hrun', hu⟩ := Expr.resolve_complete hv value hvalue' ht
      have hes' : Expr.ResolvesEntries σ u.env.context es es' tys := by
        rwa [hv.env_expr hrun', henv]
      obtain ⟨w, hrun'', hw⟩ := Expr.resolveEntries_complete hv es hes' hu
      simp only [Expr.resolveEntries, bind_apply, pure_apply, hrun, hrun', hrun'']
      exact ⟨w, rfl, hw⟩

end

end

end Semant
