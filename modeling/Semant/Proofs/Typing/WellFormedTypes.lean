import Semant.Proofs.Scope.WrittenTypes
import Semant.Proofs.Typing.ClosedTypes
import Semant.Proofs.Typing.Sites

/-! The types that typing works with. Each class in them is found by its name and they hold the handle
that is found, so equal types are the same. Ranges have ends of one type, and they occur where no
written type can stand. -/

namespace Semant

/-- `ranges` tells whether a range may occur in the type. -/
inductive Ty.WellFormed (lookup : String → Option ClassId) : (ranges : Bool) → Ty → Prop
  | builtin {ranges : Bool} {b : Builtin} : WellFormed lookup ranges (.builtin b)
  | object {ranges : Bool} {name : String} {args : List Ty} {id : ClassId} :
      lookup name = some id → (∀ arg ∈ args, WellFormed lookup false arg) →
      WellFormed lookup ranges (.object name args (some id))
  | tuple {ranges : Bool} {elems : List Ty} :
      (∀ elem ∈ elems, WellFormed lookup ranges elem) → WellFormed lookup ranges (.tuple elems)
  | func {ranges : Bool} {params : List Ty} {ret : Ty} :
      (∀ param ∈ params, WellFormed lookup false param) → WellFormed lookup false ret →
      WellFormed lookup ranges (.func params ret)
  | proc {ranges : Bool} {params : List Ty} :
      (∀ param ∈ params, WellFormed lookup false param) → WellFormed lookup ranges (.proc params)
  | dict {ranges : Bool} {key value : Ty} :
      WellFormed lookup ranges key → WellFormed lookup ranges value →
      WellFormed lookup ranges (.dict key value)
  | array {ranges : Bool} {elem : Ty} :
      WellFormed lookup ranges elem → WellFormed lookup ranges (.array elem)
  | range {first last : Ty} :
      WellFormed lookup true first → WellFormed lookup true last → first == last →
      WellFormed lookup true (.range first last)
  | maybe {ranges : Bool} {inner : Ty} :
      WellFormed lookup false inner → WellFormed lookup ranges (.maybe inner)

/-- The types that an expression can have in a scope. -/
abbrev Scope.Admits (σ : Scope) (ty : Ty) : Prop :=
  ty.WellFormed σ.lookupClass? true

namespace Ty.WellFormed

variable {lookup : String → Option ClassId} {ranges : Bool}

theorem unit : WellFormed lookup ranges .unit :=
  .tuple (List.forall_mem_nil _)

theorem relax {ty : Ty} (h : WellFormed lookup ranges ty) : WellFormed lookup true ty := by
  induction h with
  | builtin => exact .builtin
  | object hid hargs => exact .object hid hargs
  | tuple _ ih => exact .tuple ih
  | func hparams hret => exact .func hparams hret
  | proc hparams => exact .proc hparams
  | dict _ _ ihkey ihvalue => exact .dict ihkey ihvalue
  | array _ ih => exact .array ih
  | range hfirst hlast heq => exact .range hfirst hlast heq
  | maybe hinner => exact .maybe hinner

theorem eq_of_sameAll {as bs : List Ty}
    (has : ∀ a ∈ as, ∀ b, WellFormed lookup true b → a.same b = true → a = b)
    (hbs : ∀ b ∈ bs, WellFormed lookup true b) (h : sameAll as bs = true) : as = bs := by
  induction as generalizing bs with
  | nil =>
    cases bs with
    | nil => rfl
    | cons => cases h
  | cons a as ih =>
    cases bs with
    | nil => cases h
    | cons b bs =>
      obtain ⟨ha, has⟩ := List.forall_mem_cons.mp has
      obtain ⟨hb, hbs⟩ := List.forall_mem_cons.mp hbs
      obtain ⟨hhead, htail⟩ := Bool.and_eq_true_iff.mp h
      rw [ha b hb hhead, ih has hbs htail]

/-- What typing makes of well formed types is well formed. -/
theorem closed : Ty.Closed (WellFormed lookup true) where
  builtin := .builtin
  tuple := ⟨fun h => by cases h with | tuple helems => exact helems, .tuple⟩
  dict := ⟨fun h => by cases h with | dict hkey hvalue => exact ⟨hkey, hvalue⟩,
    fun ⟨hkey, hvalue⟩ => .dict hkey hvalue⟩
  array := ⟨fun h => by cases h with | array helem => exact helem, .array⟩
  range := .range
  first h := by cases h with | range hfirst _ _ => exact hfirst
  result h := by cases h with | func _ hret => exact hret.relax

/-- Of equal types with the handles that their classes have, there is one. -/
theorem eq_of_same {a b : Ty} (ha : WellFormed lookup ranges a) (hb : WellFormed lookup true b)
    (h : a.same b = true) : a = b := by
  have hrelax : ∀ {tys : List Ty}, (∀ ty ∈ tys, WellFormed lookup false ty) →
      ∀ ty ∈ tys, WellFormed lookup true ty := fun htys ty hty => (htys ty hty).relax
  induction ha generalizing b with
  | builtin =>
    cases hb with
    | builtin => exact congrArg Ty.builtin (eq_of_beq h)
    | _ => cases h
  | object hid _ ih =>
    cases hb with
    | object hid' hargs' =>
      obtain ⟨hname, hargs⟩ := Bool.and_eq_true_iff.mp h
      cases eq_of_beq hname
      cases hid.symm.trans hid'
      rw [eq_of_sameAll (fun arg harg b => ih arg harg) (hrelax hargs') hargs]
    | _ => cases h
  | tuple _ ih =>
    cases hb with
    | tuple helems' => rw [eq_of_sameAll (fun elem helem b => ih elem helem) helems' h]
    | _ => cases h
  | func _ _ ihparams ihret =>
    cases hb with
    | func hparams' hret' =>
      obtain ⟨hparams, hret⟩ := Bool.and_eq_true_iff.mp h
      rw [eq_of_sameAll (fun param hparam b => ihparams param hparam) (hrelax hparams') hparams,
        ihret hret'.relax hret]
    | _ => cases h
  | proc _ ih =>
    cases hb with
    | proc hparams' =>
      rw [eq_of_sameAll (fun param hparam b => ih param hparam) (hrelax hparams') h]
    | _ => cases h
  | dict _ _ ihkey ihvalue =>
    cases hb with
    | dict hkey' hvalue' =>
      obtain ⟨hkey, hvalue⟩ := Bool.and_eq_true_iff.mp h
      rw [ihkey hkey' hkey, ihvalue hvalue' hvalue]
    | _ => cases h
  | array _ ih =>
    cases hb with
    | array helem' => rw [ih helem' h]
    | _ => cases h
  | range _ _ _ ihfirst ihlast =>
    cases hb with
    | range hfirst' hlast' _ =>
      obtain ⟨hfirst, hlast⟩ := Bool.and_eq_true_iff.mp h
      rw [ihfirst hfirst' hfirst, ihlast hlast' hlast]
    | _ => cases h
  | maybe _ ih =>
    cases hb with
    | maybe hinner' => rw [ih hinner'.relax h]
    | _ => cases h

end Ty.WellFormed

variable {σ : Scope}

mutual

theorem TypeExpr.Denotes.wellFormed {ranges : Bool} : ∀ {t : TypeExpr} {ty : Ty}, t.Denotes σ ty →
    ty.WellFormed σ.lookupClass? ranges
  | _, _, .builtin _ => .builtin
  | _, _, .object _ hid hargs => .object hid hargs.wellFormed
  | _, _, .array helem => .array helem.wellFormed
  | _, _, .dict hkey hvalue => .dict hkey.wellFormed hvalue.wellFormed
  | _, _, .tuple helems => .tuple helems.wellFormed
  | _, _, .proc hparams => .proc hparams.wellFormed
  | _, _, .func hparams hret => .func hparams.wellFormed hret.wellFormed
  | _, _, .maybe hinner => .maybe hinner.wellFormed

theorem TypeExpr.DenotesAll.wellFormed {ranges : Bool} : ∀ {ts : List TypeExpr} {tys : List Ty},
    TypeExpr.DenotesAll σ ts tys → ∀ ty ∈ tys, ty.WellFormed σ.lookupClass? ranges
  | _, _, .nil => List.forall_mem_nil _
  | _, _, .cons ht hts => List.forall_mem_cons.mpr ⟨ht.wellFormed, hts.wellFormed⟩

end

theorem TypeExpr.admits {t : TypeExpr} {ty : Ty} (h : t.resolve σ = .ok ty) : σ.Admits ty :=
  (TypeExpr.denotes h).wellFormed

/-- The return types of the symbols, as far as they are known. -/
def Scope.AdmitsReturns (σ : Scope) : Prop :=
  ∀ g ∈ σ.functions, ∀ ty ∈ g.ret.get?, σ.Admits ty

def Scope.AdmitsContext (σ : Scope) (Γ : Context) : Prop :=
  ∀ b ∈ Γ, σ.Admits b.2.ty

theorem Scope.AdmitsContext.lookup {Γ : Context} (h : σ.AdmitsContext Γ) {name : String}
    {binding : Binding} (hname : Γ.lookup name = some binding) : σ.Admits binding.ty := by
  obtain ⟨_, _, rfl, _⟩ := List.lookup_eq_some_iff.mp hname
  exact h (name, binding) (List.mem_append_right _ List.mem_cons_self)

theorem Scope.CallType.admits {id : SymbolId} {ty : Ty} (h : σ.CallType id ty)
    (hσ : σ.AdmitsReturns) : σ.Admits ty := by
  cases h with
  | proc _ _ => exact .unit
  | func hg _ hret => exact hσ _ (List.mem_of_getElem? hg) ty (Slot.get?_eq_some.mpr hret)

mutual

theorem Expr.Resolves.admits {Γ : Context} (hσ : σ.AdmitsReturns) (hΓ : σ.AdmitsContext Γ) :
    ∀ {e e' : Expr} {ty : Ty}, e.Resolves σ Γ e' ty → σ.Admits ty
  | _, _, _, .literal => .builtin
  | _, _, _, .array helems _ => .array (helems.admits hσ hΓ _ List.mem_cons_self)
  | _, _, _, .tuple helems => .tuple (helems.admits hσ hΓ)
  | _, _, _, .dict hentries _ =>
    have hentry := hentries.admits hσ hΓ _ List.mem_cons_self
    .dict hentry.1 hentry.2
  | _, _, _, .var hlookup => hΓ.lookup hlookup
  | _, _, _, .named _ _ _ hcall => hcall.admits hσ
  | _, _, _, .applied hchild _ happlies => happlies.closed Ty.WellFormed.closed (hchild.admits hσ hΓ)
  | _, _, _, .construct _ hty => TypeExpr.admits hty
  | _, _, _, .index hchild _ hholds => hholds.closed Ty.WellFormed.closed (hchild.admits hσ hΓ)
  | _, _, _, .member _ _ hcall => hcall.admits hσ
  | _, _, _, .unary hoperand htakes => htakes.closed Ty.WellFormed.closed (hoperand.admits hσ hΓ)
  | _, _, _, .cast _ hty => TypeExpr.admits hty
  | _, _, _, .binary hlhs hrhs htakes =>
    htakes.closed Ty.WellFormed.closed (hlhs.admits hσ hΓ) (hrhs.admits hσ hΓ)
  | _, _, _, .choice _ hyes _ _ => hyes.admits hσ hΓ
  | _, _, _, .typed hty _ _ => TypeExpr.admits hty
  | _, _, _, .typedArray hty => TypeExpr.admits hty
  | _, _, _, .typedDict hty => TypeExpr.admits hty

theorem Expr.ResolvesAll.admits {Γ : Context} (hσ : σ.AdmitsReturns) (hΓ : σ.AdmitsContext Γ) :
    ∀ {es es' : List Expr} {tys : List Ty}, Expr.ResolvesAll σ Γ es es' tys → ∀ ty ∈ tys, σ.Admits ty
  | _, _, _, .nil => List.forall_mem_nil _
  | _, _, _, .cons he hes => List.forall_mem_cons.mpr ⟨he.admits hσ hΓ, hes.admits hσ hΓ⟩

theorem Expr.ResolvesEntries.admits {Γ : Context} (hσ : σ.AdmitsReturns)
    (hΓ : σ.AdmitsContext Γ) : ∀ {es es' : List (Expr × Expr)} {tys : List (Ty × Ty)},
    Expr.ResolvesEntries σ Γ es es' tys → ∀ p ∈ tys, σ.Admits p.1 ∧ σ.Admits p.2
  | _, _, _, .nil => List.forall_mem_nil _
  | _, _, _, .cons hkey hvalue hes =>
    List.forall_mem_cons.mpr ⟨⟨hkey.admits hσ hΓ, hvalue.admits hσ hΓ⟩, hes.admits hσ hΓ⟩

end

/-- The names that come into scope have admitted types if the rule that types them gives such. -/
theorem Introduces.admits {α : Type} {rule : Binder → α → Ty → Prop} {Γ Γ' : Context}
    {bs bs' : List Binder} {as : List α} (h : Introduces rule Γ bs as bs' Γ')
    (hΓ : σ.AdmitsContext Γ) (hrule : ∀ a ∈ as, ∀ b ty, rule b a ty → σ.Admits ty) :
    σ.AdmitsContext Γ' := by
  induction h with
  | nil => exact hΓ
  | cons _ hb _ ih =>
    obtain ⟨ha, has⟩ := List.forall_mem_cons.mp hrule
    exact ih (List.forall_mem_cons.mpr ⟨ha _ _ hb, hΓ⟩) has

section

variable (hσ : σ.AdmitsReturns)

include hσ

theorem Declaration.Resolves.admits {Γ Γ' : Context} {d d' : Declaration}
    (h : d.Resolves σ Γ d' Γ') (hΓ : σ.AdmitsContext Γ) : σ.AdmitsContext Γ' := by
  cases h with
  | bare hbinders =>
    refine hbinders.admits hΓ fun value hvalue b ty hdeclares =>
      hdeclares.closed (fun _ _ => TypeExpr.admits) fun v hv => ?_
    rw [List.eq_of_mem_replicate hvalue] at hv
    cases hv
  | valued hvalues hspreads hbinders =>
    have hparts := hspreads.closed Ty.WellFormed.closed (hvalues.admits hσ hΓ)
    refine hbinders.admits hΓ fun value hvalue b ty hdeclares =>
      hdeclares.closed (fun _ _ => TypeExpr.admits) fun v hv => ?_
    obtain ⟨part, hpart, rfl⟩ := List.mem_map.mp hvalue
    cases hv
    exact hparts _ hpart

theorem Declaration.ResolvesAll.admits {Γ Γ' : Context} {ds ds' : List Declaration}
    (h : Declaration.ResolvesAll σ Γ ds ds' Γ') (hΓ : σ.AdmitsContext Γ) : σ.AdmitsContext Γ' := by
  induction h with
  | nil => exact hΓ
  | cons hd _ ih => exact ih (hd.admits hσ hΓ)

end

/-- The types of the values of return statements. -/
def Scope.AdmitsReturned (σ : Scope) (rets : List (List Ty)) : Prop :=
  ∀ tys ∈ rets, ∀ ty ∈ tys, σ.Admits ty

namespace Scope.AdmitsReturned

theorem nil : σ.AdmitsReturned [] :=
  List.forall_mem_nil _

theorem append {rets₁ rets₂ : List (List Ty)} (h₁ : σ.AdmitsReturned rets₁)
    (h₂ : σ.AdmitsReturned rets₂) : σ.AdmitsReturned (rets₁ ++ rets₂) :=
  List.forall_mem_append.mpr ⟨h₁, h₂⟩

end Scope.AdmitsReturned

mutual

theorem Stmt.Resolves.admits (hσ : σ.AdmitsReturns) :
    ∀ {Γ Γ' : Context} {st st' : Stmt} {rets : List (List Ty)}, st.Resolves σ Γ st' Γ' rets →
    σ.AdmitsContext Γ → σ.AdmitsContext Γ' ∧ σ.AdmitsReturned rets
  | _, _, _, _, _, .declare hd, hΓ => ⟨hd.admits hσ hΓ, .nil⟩
  | _, _, _, _, _, .assign _ _ _ _ _, hΓ => ⟨hΓ, .nil⟩
  | _, _, _, _, _, .branch _ hbody helse hother, hΓ =>
    ⟨hΓ, .append (.append (hbody.admits hσ hΓ) (helse.admits hσ hΓ)) (hother.admits hσ hΓ)⟩
  | _, _, _, _, _, .ret hvalues, hΓ => ⟨hΓ, List.forall_mem_singleton.mpr (hvalues.admits hσ hΓ)⟩
  | _, _, _, _, _, .case hwhens hother, hΓ =>
    ⟨hΓ, .append (hwhens.admits hσ hΓ) (hother.admits hσ hΓ)⟩
  | _, _, _, _, _, .switch _ hwhens hother, hΓ =>
    ⟨hΓ, .append (hwhens.admits hσ hΓ) (hother.admits hσ hΓ)⟩
  | _, _, _, _, _, .forIn hrange hiterates hspreads hvars hbody, hΓ => by
    have helem := hiterates.closed Ty.WellFormed.closed (hrange.admits hσ hΓ)
    have hparts := hspreads.closed Ty.WellFormed.closed (List.forall_mem_singleton.mpr helem)
    have hΓ' := hvars.admits hΓ fun part hpart b ty hloops => hloops.closed (hparts part hpart)
    exact ⟨hΓ, hbody.admits hσ hΓ'⟩
  | _, _, _, _, _, .whileDo _ hbody, hΓ => ⟨hΓ, hbody.admits hσ hΓ⟩
  | _, _, _, _, _, .trailingIf hbody _, hΓ => hbody.admits hσ hΓ
  | _, _, _, _, _, .letIn hinits hbody, hΓ => ⟨hΓ, (hbody.admits hσ (hinits.admits hσ hΓ)).2⟩
  | _, _, _, _, _, .expr _, hΓ => ⟨hΓ, .nil⟩
  | _, _, _, _, _, .block hb, hΓ => ⟨hΓ, hb.admits hσ hΓ⟩

theorem Block.Resolves.admits (hσ : σ.AdmitsReturns) :
    ∀ {Γ : Context} {b b' : Block} {rets : List (List Ty)}, b.Resolves σ Γ b' rets →
    σ.AdmitsContext Γ → σ.AdmitsReturned rets
  | _, _, _, _, .mk hstmts, hΓ => hstmts.admits hσ hΓ

theorem Stmt.ResolvesAll.admits (hσ : σ.AdmitsReturns) :
    ∀ {Γ : Context} {ss ss' : List Stmt} {rets : List (List Ty)}, Stmt.ResolvesAll σ Γ ss ss' rets →
    σ.AdmitsContext Γ → σ.AdmitsReturned rets
  | _, _, _, _, .nil, _ => .nil
  | _, _, _, _, .cons hs hss, hΓ =>
    have hfirst := hs.admits hσ hΓ
    .append hfirst.2 (hss.admits hσ hfirst.1)

theorem Stmt.ResolvesElseIfs.admits (hσ : σ.AdmitsReturns) :
    ∀ {Γ : Context} {clauses clauses' : List (Clause Expr Block)} {rets : List (List Ty)},
    Stmt.ResolvesElseIfs σ Γ clauses clauses' rets → σ.AdmitsContext Γ → σ.AdmitsReturned rets
  | _, _, _, _, .nil, _ => .nil
  | _, _, _, _, .cons _ hbody hrest, hΓ =>
    .append (hbody.admits hσ hΓ) (hrest.admits hσ hΓ)

theorem Stmt.ResolvesWhens.admits (hσ : σ.AdmitsReturns) : ∀ {Γ : Context} {ty : Ty}
    {clauses clauses' : List (Clause (List Expr) Block)} {rets : List (List Ty)},
    Stmt.ResolvesWhens σ Γ ty clauses clauses' rets → σ.AdmitsContext Γ → σ.AdmitsReturned rets
  | _, _, _, _, _, .nil, _ => .nil
  | _, _, _, _, _, .cons _ _ hbody hrest, hΓ =>
    .append (hbody.admits hσ hΓ) (hrest.admits hσ hΓ)

theorem Stmt.ResolvesOtherwise.admits (hσ : σ.AdmitsReturns) : ∀ {Γ : Context} {b b' : Option Block}
    {rets : List (List Ty)}, Stmt.ResolvesOtherwise σ Γ b b' rets → σ.AdmitsContext Γ →
    σ.AdmitsReturned rets
  | _, _, _, _, .none, _ => .nil
  | _, _, _, _, .some hbody, hΓ => hbody.admits hσ hΓ

end

/-- The types in the signature of a function. -/
structure FuncDef.Admitted (σ : Scope) (f : FuncDef) : Prop where
  params : ∀ b ∈ f.params, ∀ ty ∈ b.ty.get?, σ.Admits ty
  ret : ∀ ty ∈ f.ret.get?, σ.Admits ty

theorem FuncDef.Resolves.admits {f f' : FuncDef} (h : f.Resolves σ f') (hσ : σ.AdmitsReturns)
    (hf : f.Admitted σ) : ∀ ty ∈ f'.ret.get?, σ.Admits ty := by
  cases h with
  | @mk params body ensure rets ret hparams hbody _ hreturning =>
    rintro ty ⟨⟩
    have hcontext := Binder.Means.forall_ty (Binder.means_of_mapM hparams) hf.params
    have hrets := hbody.admits hσ fun entry hentry => hcontext entry (List.mem_reverse.mp hentry)
    rw [← hreturning.given]
    cases hknown : f.ret.get? with
    | some known => exact hf.ret known hknown
    | none =>
      cases rets with
      | nil => exact .unit
      | cons tys rets => exact Ty.WellFormed.closed.returnedType (List.forall_mem_cons.mp hrets).1

/-- As functions are typed one after another, the return types that become known are admitted. -/
theorem Completed.admits {fs typed : List FuncDef} {l : List DefId} (h : Completed fs σ typed l)
    (hsig : σ.Signs fs) (hσ : σ.AdmitsReturns) (hfs : ∀ f ∈ fs, f.Admitted σ) :
    (σ.known fs typed l).AdmitsReturns := by
  induction h with
  | nil => rwa [Scope.known_nil]
  | @cons id l f f' _ hf hf' _ hres _ ih =>
    obtain ⟨g, hg, _⟩ := hsig.exists_symbol hf
    rw [Scope.known_cons hg hf hf']
    intro g' hmem
    rcases List.mem_or_eq_of_mem_set hmem with hmem | rfl
    · exact ih g' hmem
    · unfold FuncSymbol.noted
      split
      · exact hσ g (List.mem_of_getElem? hg)
      · have hsignature := hfs f (List.mem_of_getElem? hf)
        exact (hres _ (.refl _)).admits ih ⟨hsignature.params, hsignature.ret⟩

end Semant
