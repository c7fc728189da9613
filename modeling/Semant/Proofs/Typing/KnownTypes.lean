import Semant.Proofs.Scope.WrittenTypes
import Semant.Proofs.Tree.Nodes
import Semant.Proofs.Typing.Judgment

/-! The types that are written in a typed tree. Each of them was looked up, so each name in them is
that of a builtin type or of a class. -/

namespace Semant

open Outline

/-- A name without arguments may be that of a builtin type. Any other name has to be that of a class,
and other nodes name no type. -/
def Scope.Knows (σ : Scope) : Node → Prop
  | .type (.named name args _) =>
    (args = [] ∧ (Builtin.ofName? name).isSome = true) ∨ ∃ c ∈ σ.classes, c.name = name
  | _ => True

theorem Scope.lookupClass?_mem {σ : Scope} {name : String} {id : ClassId}
    (h : σ.lookupClass? name = some id) : ∃ c ∈ σ.classes, c.name = name := by
  obtain ⟨hlt, hname, _⟩ := List.findIdx?_eq_some_iff_getElem.mp h
  exact ⟨σ.classes[id], List.getElem_mem hlt, by simpa using hname⟩

variable {σ : Scope}

mutual

theorem TypeExpr.Denotes.known : ∀ {t : TypeExpr} {ty : Ty}, t.Denotes σ ty →
    t.outline.All σ.Knows
  | _, _, .builtin hb => all_mk.mpr ⟨.inl ⟨rfl, Option.isSome_iff_exists.mpr ⟨_, hb⟩⟩, allOf_nil⟩
  | _, _, .object _ hid hargs => all_mk.mpr ⟨.inr (Scope.lookupClass?_mem hid), hargs.known⟩
  | _, _, .array helem => all_mk.mpr ⟨trivial, allOf_cons.mpr ⟨helem.known, allOf_nil⟩⟩
  | _, _, .dict hkey hvalue =>
    all_mk.mpr ⟨trivial, allOf_cons.mpr ⟨hkey.known, allOf_cons.mpr ⟨hvalue.known, allOf_nil⟩⟩⟩
  | _, _, .tuple helems => all_mk.mpr ⟨trivial, helems.known⟩
  | _, _, .proc hparams => all_mk.mpr ⟨trivial, allOf_append.mpr ⟨hparams.known, allOf_nil⟩⟩
  | _, _, .func hparams hret =>
    all_mk.mpr ⟨trivial, allOf_append.mpr ⟨hparams.known, allOf_cons.mpr ⟨hret.known, allOf_nil⟩⟩⟩
  | _, _, .maybe hinner => all_mk.mpr ⟨trivial, allOf_cons.mpr ⟨hinner.known, allOf_nil⟩⟩

theorem TypeExpr.DenotesAll.known : ∀ {ts : List TypeExpr} {tys : List Ty},
    TypeExpr.DenotesAll σ ts tys → AllOf σ.Knows (TypeExpr.outlines ts)
  | _, _, .nil => allOf_nil
  | _, _, .cons ht hts => allOf_cons.mpr ⟨ht.known, hts.known⟩

end

theorem TypeExpr.known {t : TypeExpr} {ty : Ty} (h : t.resolve σ = .ok ty) :
    t.outline.All σ.Knows :=
  (TypeExpr.denotes h).known

mutual

theorem Expr.Resolves.known {Γ : Context} : ∀ {e e' : Expr} {ty : Ty}, e.Resolves σ Γ e' ty →
    e.outline.All σ.Knows
  | _, _, _, .literal | _, _, _, .var _ => all_mk.mpr ⟨trivial, allOf_nil⟩
  | _, _, _, .array helems _ | _, _, _, .tuple helems => all_mk.mpr ⟨trivial, helems.known⟩
  | _, _, _, .dict hentries _ => all_mk.mpr ⟨trivial, hentries.known⟩
  | _, _, _, .named _ hargs _ _ =>
    all_mk.mpr ⟨trivial, allOf_cons.mpr ⟨all_mk.mpr ⟨trivial, allOf_nil⟩, hargs.known⟩⟩
  | _, _, _, .applied hchild hargs _ =>
    all_mk.mpr ⟨trivial, allOf_cons.mpr ⟨hchild.known, hargs.known⟩⟩
  | _, _, _, .construct hargs hwritten =>
    all_mk.mpr ⟨trivial, allOf_cons.mpr ⟨TypeExpr.known hwritten, hargs.known⟩⟩
  | _, _, _, .index hchild hposition _ =>
    all_mk.mpr ⟨trivial, allOf_cons.mpr ⟨hchild.known, allOf_cons.mpr ⟨hposition.known, allOf_nil⟩⟩⟩
  | _, _, _, .member hchild _ _ | _, _, _, .unary hchild _ =>
    all_mk.mpr ⟨trivial, allOf_cons.mpr ⟨hchild.known, allOf_nil⟩⟩
  | _, _, _, .binary hlhs hrhs _ =>
    all_mk.mpr ⟨trivial, allOf_cons.mpr ⟨hrhs.known, allOf_cons.mpr ⟨hlhs.known, allOf_nil⟩⟩⟩
  | _, _, _, .choice hcond hyes hno _ =>
    all_mk.mpr ⟨trivial, allOf_cons.mpr ⟨hcond.known, allOf_cons.mpr ⟨hyes.known,
      allOf_cons.mpr ⟨hno.known, allOf_nil⟩⟩⟩⟩
  | _, _, _, .cast hchild hwritten | _, _, _, .typed hwritten hchild _ =>
    all_mk.mpr ⟨trivial, allOf_cons.mpr ⟨hchild.known,
      allOf_cons.mpr ⟨TypeExpr.known hwritten, allOf_nil⟩⟩⟩
  | _, _, _, .typedArray hwritten | _, _, _, .typedDict hwritten =>
    all_mk.mpr ⟨trivial, allOf_cons.mpr ⟨all_mk.mpr ⟨trivial, allOf_nil⟩,
      allOf_cons.mpr ⟨TypeExpr.known hwritten, allOf_nil⟩⟩⟩

theorem Expr.ResolvesAll.known {Γ : Context} : ∀ {es es' : List Expr} {tys : List Ty},
    Expr.ResolvesAll σ Γ es es' tys → AllOf σ.Knows (Expr.outlines es)
  | _, _, _, .nil => allOf_nil
  | _, _, _, .cons he hes => allOf_cons.mpr ⟨he.known, hes.known⟩

theorem Expr.ResolvesEntries.known {Γ : Context} : ∀ {es es' : List (Expr × Expr)}
    {tys : List (Ty × Ty)}, Expr.ResolvesEntries σ Γ es es' tys →
      AllOf σ.Knows (Expr.outlineEntries es)
  | _, _, _, .nil => allOf_nil
  | _, _, _, .cons hkey hvalue hes =>
    allOf_cons.mpr ⟨hkey.known, allOf_cons.mpr ⟨hvalue.known, hes.known⟩⟩

end

/-- A type that is written for a declared name or a loop variable was looked up. -/
theorem Introduces.known {α : Type} {rule : Binder → α → Ty → Prop} {Γ Γ' : Context}
    {bs bs' : List Binder} {as : List α} (h : Introduces rule Γ bs as bs' Γ')
    (hrule : ∀ {b a ty}, rule b a ty → AllOf σ.Knows (TypeExpr.outlineOption b.written)) :
    ∀ b ∈ bs, AllOf σ.Knows (TypeExpr.outlineOption b.written) := by
  induction h with
  | nil => exact List.forall_mem_nil _
  | cons _ hb _ ih => exact List.forall_mem_cons.mpr ⟨hrule hb, ih⟩

theorem Binder.Declares.known {b : Binder} {value : Option Ty} {ty : Ty}
    (h : b.Declares σ value ty) : AllOf σ.Knows (TypeExpr.outlineOption b.written) := by
  cases h with
  | written hw hty =>
    rw [hw]
    exact allOf_cons.mpr ⟨TypeExpr.known hty, allOf_nil⟩
  | inferred hnone =>
    rw [hnone]
    exact allOf_nil

theorem Binder.Loops.known {b : Binder} {elem ty : Ty} (h : b.Loops σ elem ty) :
    AllOf σ.Knows (TypeExpr.outlineOption b.written) := by
  cases h with
  | written hw hty =>
    rw [hw]
    exact allOf_cons.mpr ⟨TypeExpr.known hty, allOf_nil⟩
  | inferred hnone =>
    rw [hnone]
    exact allOf_nil

theorem Binder.known_all {bs : List Binder}
    (h : ∀ b ∈ bs, AllOf σ.Knows (TypeExpr.outlineOption b.written)) :
    AllOf σ.Knows (bs.map Binder.paramOutline) ∧ AllOf σ.Knows (bs.map Binder.declOutline) := by
  simp only [allOf_iff, List.forall_mem_map, Binder.paramOutline, Binder.declOutline, all_mk]
  exact ⟨fun b hb => ⟨trivial, allOf_iff.mp (h b hb)⟩, fun b hb => ⟨trivial, allOf_iff.mp (h b hb)⟩⟩

theorem Declaration.Resolves.known {Γ Γ' : Context} {d d' : Declaration}
    (h : d.Resolves σ Γ d' Γ') : d.outline.All σ.Knows := by
  refine all_mk.mpr ⟨trivial, allOf_append.mpr ?_⟩
  cases h with
  | bare hnames => exact ⟨(Binder.known_all (hnames.known Binder.Declares.known)).2, allOf_nil⟩
  | valued hvalues _ hnames =>
    exact ⟨(Binder.known_all (hnames.known Binder.Declares.known)).2, hvalues.known⟩

theorem Declaration.ResolvesAll.known {Γ Γ' : Context} {ds ds' : List Declaration}
    (h : Declaration.ResolvesAll σ Γ ds ds' Γ') : AllOf σ.Knows (ds.map Declaration.outline) := by
  induction h with
  | nil => exact allOf_nil
  | cons hd _ ih => exact allOf_cons.mpr ⟨hd.known, ih⟩

mutual

theorem Stmt.Resolves.known : ∀ {Γ Γ' : Context} {st st' : Stmt} {rets : List (List Ty)},
    Stmt.Resolves σ Γ st st' Γ' rets → st.outline.All σ.Knows
  | _, _, _, _, _, .declare hd => hd.known
  | _, _, _, _, _, .assign htargets hvalues _ _ _ =>
    all_mk.mpr ⟨trivial, allOf_append.mpr ⟨htargets.known, hvalues.known⟩⟩
  | _, _, _, _, _, .branch hcond hbody helseIfs hotherwise =>
    all_mk.mpr ⟨trivial, allOf_cons.mpr ⟨hcond.known, allOf_cons.mpr ⟨Block.Resolves.known hbody,
      allOf_append.mpr ⟨Stmt.ResolvesElseIfs.known helseIfs,
        Stmt.ResolvesOtherwise.known hotherwise⟩⟩⟩⟩
  | _, _, _, _, _, .ret hvalues => all_mk.mpr ⟨trivial, hvalues.known⟩
  | _, _, _, _, _, .case hwhens hotherwise =>
    all_mk.mpr ⟨trivial, allOf_append.mpr
      ⟨Stmt.ResolvesWhens.known hwhens, Stmt.ResolvesOtherwise.known hotherwise⟩⟩
  | _, _, _, _, _, .switch htarget hwhens hotherwise =>
    all_mk.mpr ⟨trivial, allOf_cons.mpr ⟨htarget.known, allOf_append.mpr
      ⟨Stmt.ResolvesWhens.known hwhens, Stmt.ResolvesOtherwise.known hotherwise⟩⟩⟩
  | _, _, _, _, _, .forIn hrange _ _ hnames hbody =>
    all_mk.mpr ⟨trivial, allOf_append.mpr ⟨(Binder.known_all (hnames.known Binder.Loops.known)).1,
      allOf_cons.mpr ⟨hrange.known, allOf_cons.mpr ⟨Block.Resolves.known hbody, allOf_nil⟩⟩⟩⟩
  | _, _, _, _, _, .whileDo hcond hbody =>
    all_mk.mpr ⟨trivial, allOf_cons.mpr ⟨hcond.known,
      allOf_cons.mpr ⟨Block.Resolves.known hbody, allOf_nil⟩⟩⟩
  | _, _, _, _, _, .trailingIf hbody hcond =>
    all_mk.mpr ⟨trivial, allOf_cons.mpr ⟨Stmt.Resolves.known hbody,
      allOf_cons.mpr ⟨hcond.known, allOf_nil⟩⟩⟩
  | _, _, _, _, _, .letIn hinits hbody =>
    all_mk.mpr ⟨trivial, allOf_append.mpr ⟨hinits.known,
      allOf_cons.mpr ⟨Stmt.Resolves.known hbody, allOf_nil⟩⟩⟩
  | _, _, _, _, _, .expr he => he.known
  | _, _, _, _, _, .block hb => Block.Resolves.known hb

theorem Block.Resolves.known : ∀ {Γ : Context} {b b' : Block} {rets : List (List Ty)},
    Block.Resolves σ Γ b b' rets → b.outline.All σ.Knows
  | _, _, _, _, .mk hstmts => all_mk.mpr ⟨trivial, Stmt.ResolvesAll.known hstmts⟩

theorem Stmt.ResolvesAll.known : ∀ {Γ : Context} {ss ss' : List Stmt} {rets : List (List Ty)},
    Stmt.ResolvesAll σ Γ ss ss' rets → AllOf σ.Knows (Stmt.outlines ss)
  | _, _, _, _, .nil => allOf_nil
  | _, _, _, _, .cons hs hss =>
    allOf_cons.mpr ⟨Stmt.Resolves.known hs, Stmt.ResolvesAll.known hss⟩

theorem Stmt.ResolvesElseIfs.known : ∀ {Γ : Context} {clauses clauses' : List (Clause Expr Block)}
    {rets : List (List Ty)}, Stmt.ResolvesElseIfs σ Γ clauses clauses' rets →
      AllOf σ.Knows (Stmt.outlineElseIfs clauses)
  | _, _, _, _, .nil => allOf_nil
  | _, _, _, _, .cons hcond hbody hrest =>
    allOf_cons.mpr ⟨hcond.known, allOf_cons.mpr
      ⟨Block.Resolves.known hbody, Stmt.ResolvesElseIfs.known hrest⟩⟩

theorem Stmt.ResolvesWhens.known : ∀ {Γ : Context} {ty : Ty}
    {clauses clauses' : List (Clause (List Expr) Block)} {rets : List (List Ty)},
    Stmt.ResolvesWhens σ Γ ty clauses clauses' rets →
      AllOf σ.Knows (Stmt.outlineWhens clauses)
  | _, _, _, _, _, .nil => allOf_nil
  | _, _, _, _, _, .cons hconds _ hbody hrest =>
    allOf_append.mpr ⟨hconds.known, allOf_cons.mpr
      ⟨Block.Resolves.known hbody, Stmt.ResolvesWhens.known hrest⟩⟩

theorem Stmt.ResolvesOtherwise.known : ∀ {Γ : Context} {body body' : Option Block}
    {rets : List (List Ty)}, Stmt.ResolvesOtherwise σ Γ body body' rets →
      AllOf σ.Knows (Stmt.outlineOtherwise body)
  | _, _, _, _, .none => allOf_nil
  | _, _, _, _, .some hbody => allOf_cons.mpr ⟨Block.Resolves.known hbody, allOf_nil⟩

end

end Semant
