import Semant.Proofs.Analysis.Soundness

/-! The final check goes its own way over a tree: it skips templates and the names of calls that are
bound to a symbol. On a tree that the typing judgment derives it finds no empty slot. -/

namespace Semant

open EmptySlot

/-- The check passes over everything in the tree. -/
def Outline.Full (o : Outline) : Prop :=
  o.walk visitSlots none = none

theorem walkAll_offers {children : List Outline} (h : ∀ o ∈ children, o.Full) :
    walkAll (Outline.offers visitSlots children) none = none := by
  induction children with
  | nil => rfl
  | cons o children ih =>
    obtain ⟨ho, hrest⟩ := List.forall_mem_cons.mp h
    have hwalk : o.walk visitSlots none = none := ho
    simp only [Outline.offers, walkAll, List.foldl_cons, hwalk]
    exact ih hrest

theorem descend_offers {node : Node} {children : List Outline} (hnode : typeError? node = none)
    (h : ∀ o ∈ children, o.Full) : descend node (Outline.offers visitSlots children) = none := by
  rw [descend, hnode]
  exact walkAll_offers h

mutual

theorem TypeExpr.full : ∀ t : TypeExpr, t.outline.Full
  | .named _ args _ => descend_offers rfl (TypeExpr.full_all args)
  | .array elem _ => descend_offers rfl (List.forall_mem_singleton.mpr elem.full)
  | .dict key value _ =>
    descend_offers rfl (List.forall_mem_cons.mpr ⟨key.full, List.forall_mem_singleton.mpr value.full⟩)
  | .tuple elems _ => descend_offers rfl (TypeExpr.full_all elems)
  | .func params ret _ =>
    descend_offers rfl (List.forall_mem_append.mpr ⟨TypeExpr.full_all params, TypeExpr.full_option ret⟩)
  | .maybe inner _ => descend_offers rfl (List.forall_mem_singleton.mpr inner.full)

theorem TypeExpr.full_all : ∀ ts : List TypeExpr, ∀ o ∈ TypeExpr.outlines ts, o.Full
  | [] => List.forall_mem_nil _
  | t :: ts => List.forall_mem_cons.mpr ⟨t.full, TypeExpr.full_all ts⟩

theorem TypeExpr.full_option : ∀ t : Option TypeExpr, ∀ o ∈ TypeExpr.outlineOption t, o.Full
  | none => List.forall_mem_nil _
  | some t => List.forall_mem_singleton.mpr t.full

end

section

variable {σ : Scope}

mutual

theorem Expr.Resolves.full {Γ : Context} : ∀ (e : Expr) {e' : Expr} {ty : Ty},
    e.Resolves σ Γ e' ty → e'.outline.Full
  | .literal .., _, _, h => by
    cases h
    exact descend_offers rfl (List.forall_mem_nil _)
  | .array elems .., _, _, h => by
    cases h with
    | array helems => exact descend_offers rfl (Expr.ResolvesAll.full elems helems)
  | .tuple elems .., _, _, h => by
    cases h with
    | tuple helems => exact descend_offers rfl (Expr.ResolvesAll.full elems helems)
  | .dict entries .., _, _, h => by
    cases h with
    | dict hentries => exact descend_offers rfl (Expr.ResolvesEntries.full entries hentries)
  | .var .., _, _, h => by
    cases h
    exact descend_offers rfl (List.forall_mem_nil _)
  | .call child args callee .., _, _, h => by
    cases h with
    | named _ hargs => exact descend_offers rfl (Expr.ResolvesAll.full args hargs)
    | @applied _ child' _ args' _ _ _ _ _ hchild hargs =>
      have hfull := Expr.Resolves.full child hchild
      have hall := Expr.ResolvesAll.full args hargs
      cases callee with
      | resolved => exact descend_offers rfl hall
      | unresolved =>
        have hty : child'.ty.isResolved = true := by rw [hchild.ty]; rfl
        change (if child'.ty.isResolved then descend _ _ else _) = none
        rw [if_pos hty]
        exact descend_offers rfl (List.forall_mem_cons.mpr ⟨hfull, hall⟩)
  | .construct written args .., _, _, h => by
    cases h with
    | construct hargs =>
      exact descend_offers rfl
        (List.forall_mem_cons.mpr ⟨written.full, Expr.ResolvesAll.full args hargs⟩)
  | .index child position .., _, _, h => by
    cases h with
    | index hchild hposition =>
      exact descend_offers rfl (List.forall_mem_cons.mpr ⟨Expr.Resolves.full child hchild,
        List.forall_mem_singleton.mpr (Expr.Resolves.full position hposition)⟩)
  | .member child .., _, _, h => by
    cases h with
    | member hchild =>
      exact descend_offers rfl (List.forall_mem_singleton.mpr (Expr.Resolves.full child hchild))
  | .unary _ operand .., _, _, h => by
    cases h with
    | unary hoperand =>
      exact descend_offers rfl (List.forall_mem_singleton.mpr (Expr.Resolves.full operand hoperand))
  | .cast child written .., _, _, h => by
    cases h with
    | cast hchild =>
      exact descend_offers rfl (List.forall_mem_cons.mpr ⟨Expr.Resolves.full child hchild,
        List.forall_mem_singleton.mpr written.full⟩)
  | .binary lhs _ rhs .., _, _, h => by
    cases h with
    | binary hlhs hrhs =>
      exact descend_offers rfl (List.forall_mem_cons.mpr ⟨Expr.Resolves.full rhs hrhs,
        List.forall_mem_singleton.mpr (Expr.Resolves.full lhs hlhs)⟩)
  | .choice cond yes no .., _, _, h => by
    cases h with
    | choice hcond hyes hno =>
      exact descend_offers rfl (List.forall_mem_cons.mpr ⟨Expr.Resolves.full cond hcond,
        List.forall_mem_cons.mpr ⟨Expr.Resolves.full yes hyes,
          List.forall_mem_singleton.mpr (Expr.Resolves.full no hno)⟩⟩)
  | .typed child written .., _, _, h => by
    cases h with
    | typed _ hchild =>
      exact descend_offers rfl (List.forall_mem_cons.mpr ⟨Expr.Resolves.full child hchild,
        List.forall_mem_singleton.mpr written.full⟩)
    | typedArray =>
      exact descend_offers rfl (List.forall_mem_cons.mpr ⟨descend_offers rfl (List.forall_mem_nil _),
        List.forall_mem_singleton.mpr written.full⟩)
    | typedDict =>
      exact descend_offers rfl (List.forall_mem_cons.mpr ⟨descend_offers rfl (List.forall_mem_nil _),
        List.forall_mem_singleton.mpr written.full⟩)

theorem Expr.ResolvesAll.full {Γ : Context} : ∀ (es : List Expr) {es' : List Expr} {tys : List Ty},
    Expr.ResolvesAll σ Γ es es' tys → ∀ o ∈ Expr.outlines es', o.Full
  | [], _, _, h => by
    cases h
    exact List.forall_mem_nil _
  | e :: es, _, _, h => by
    cases h with
    | cons he hes =>
      exact List.forall_mem_cons.mpr ⟨Expr.Resolves.full e he, Expr.ResolvesAll.full es hes⟩

theorem Expr.ResolvesEntries.full {Γ : Context} : ∀ (entries : List (Expr × Expr))
    {entries' : List (Expr × Expr)} {tys : List (Ty × Ty)},
    Expr.ResolvesEntries σ Γ entries entries' tys → ∀ o ∈ Expr.outlineEntries entries', o.Full
  | [], _, _, h => by
    cases h
    exact List.forall_mem_nil _
  | (key, value) :: entries, _, _, h => by
    cases h with
    | cons hk hv hes =>
      exact List.forall_mem_cons.mpr ⟨Expr.Resolves.full key hk,
        List.forall_mem_cons.mpr ⟨Expr.Resolves.full value hv, Expr.ResolvesEntries.full entries hes⟩⟩

end

theorem Binder.full_param {b : Binder} {ty : Ty} (h : b.ty = .resolved ty) :
    b.paramOutline.Full := by
  refine descend_offers ?_ (TypeExpr.full_option b.written)
  simp [typeError?, Node.typeSlot?, h]

theorem Binder.full_decl {b : Binder} {ty : Ty} (h : b.ty = .resolved ty) :
    b.declOutline.Full := by
  refine descend_offers ?_ (TypeExpr.full_option b.written)
  simp [typeError?, Node.typeSlot?, h]

theorem Declaration.Resolves.full {Γ Γ' : Context} {d d' : Declaration} (h : d.Resolves σ Γ d' Γ') :
    d'.outline.Full := by
  have hbinders : ∀ {bs : List Binder}, (∀ b ∈ bs, ∃ ty, b.ty = .resolved ty) →
      ∀ o ∈ bs.map Binder.declOutline, o.Full := by
    intro bs hbs o ho
    obtain ⟨b, hb, rfl⟩ := List.mem_map.mp ho
    obtain ⟨ty, hty⟩ := hbs b hb
    exact Binder.full_decl hty
  cases h with
  | bare hintro =>
    exact descend_offers rfl
      (List.forall_mem_append.mpr ⟨hbinders hintro.resolved, List.forall_mem_nil _⟩)
  | valued hvalues _ hintro =>
    exact descend_offers rfl
      (List.forall_mem_append.mpr ⟨hbinders hintro.resolved, Expr.ResolvesAll.full _ hvalues⟩)

theorem Declaration.ResolvesAll.full {Γ Γ' : Context} {ds ds' : List Declaration}
    (h : Declaration.ResolvesAll σ Γ ds ds' Γ') : ∀ o ∈ ds'.map Declaration.outline, o.Full := by
  induction h with
  | nil => exact List.forall_mem_nil _
  | cons hd _ ih => exact List.forall_mem_cons.mpr ⟨hd.full, ih⟩

mutual

theorem Stmt.Resolves.full : ∀ (st : Stmt) {Γ Γ' : Context} {st' : Stmt} {rets : List (List Ty)},
    Stmt.Resolves σ Γ st st' Γ' rets → st'.outline.Full
  | .declare _, _, _, _, _, h => by
    cases h with
    | declare hd => exact hd.full
  | .assign .., _, _, _, _, h => by
    cases h with
    | assign htargets hvalues =>
      exact descend_offers rfl (List.forall_mem_append.mpr
        ⟨Expr.ResolvesAll.full _ htargets, Expr.ResolvesAll.full _ hvalues⟩)
  | .branch _ cond body elseIfs otherwise _, _, _, _, _, h => by
    cases h with
    | branch hcond hbody helse hother =>
      have hrest := List.forall_mem_append.mpr
        ⟨Stmt.ResolvesElseIfs.full elseIfs helse, Stmt.ResolvesOtherwise.full otherwise hother⟩
      exact descend_offers rfl (List.forall_mem_cons.mpr ⟨Expr.Resolves.full cond hcond,
        List.forall_mem_cons.mpr ⟨Block.Resolves.full body hbody, hrest⟩⟩)
  | .ret .., _, _, _, _, h => by
    cases h with
    | ret hvalues => exact descend_offers rfl (Expr.ResolvesAll.full _ hvalues)
  | .case whens otherwise _, _, _, _, _, h => by
    cases h with
    | case hwhens hother =>
      exact descend_offers rfl (List.forall_mem_append.mpr
        ⟨Stmt.ResolvesWhens.full whens hwhens, Stmt.ResolvesOtherwise.full otherwise hother⟩)
  | .switch target whens otherwise _, _, _, _, _, h => by
    cases h with
    | switch htarget hwhens hother =>
      have hrest := List.forall_mem_append.mpr
        ⟨Stmt.ResolvesWhens.full whens hwhens, Stmt.ResolvesOtherwise.full otherwise hother⟩
      exact descend_offers rfl
        (List.forall_mem_cons.mpr ⟨Expr.Resolves.full target htarget, hrest⟩)
  | .forIn _ range body _, _, _, _, _, h => by
    cases h with
    | forIn hrange _ _ hvars hbody =>
      refine descend_offers rfl (List.forall_mem_append.mpr ⟨fun o ho => ?_, ?_⟩)
      · obtain ⟨b, hb, rfl⟩ := List.mem_map.mp ho
        obtain ⟨ty, hty⟩ := hvars.resolved b hb
        exact Binder.full_param hty
      · exact List.forall_mem_cons.mpr ⟨Expr.Resolves.full range hrange,
          List.forall_mem_singleton.mpr (Block.Resolves.full body hbody)⟩
  | .whileDo cond body _, _, _, _, _, h => by
    cases h with
    | whileDo hcond hbody =>
      exact descend_offers rfl (List.forall_mem_cons.mpr ⟨Expr.Resolves.full cond hcond,
        List.forall_mem_singleton.mpr (Block.Resolves.full body hbody)⟩)
  | .trailingIf body _ cond _, _, _, _, _, h => by
    cases h with
    | trailingIf hbody hcond =>
      exact descend_offers rfl (List.forall_mem_cons.mpr ⟨Stmt.Resolves.full body hbody,
        List.forall_mem_singleton.mpr (Expr.Resolves.full cond hcond)⟩)
  | .letIn _ body _, _, _, _, _, h => by
    cases h with
    | letIn hinits hbody =>
      exact descend_offers rfl (List.forall_mem_append.mpr
        ⟨hinits.full, List.forall_mem_singleton.mpr (Stmt.Resolves.full body hbody)⟩)
  | .expr e, _, _, _, _, h => by
    cases h with
    | expr he => exact Expr.Resolves.full e he
  | .block b, _, _, _, _, h => by
    cases h with
    | block hb => exact Block.Resolves.full b hb
termination_by structural x => x

theorem Block.Resolves.full : ∀ (b : Block) {Γ : Context} {b' : Block} {rets : List (List Ty)},
    Block.Resolves σ Γ b b' rets → b'.outline.Full
  | .mk stmts _, _, _, _, h => by
    cases h with
    | mk hstmts => exact descend_offers rfl (Stmt.ResolvesAll.full stmts hstmts)
termination_by structural x => x

theorem Stmt.ResolvesAll.full : ∀ (ss : List Stmt) {Γ : Context} {ss' : List Stmt}
    {rets : List (List Ty)}, Stmt.ResolvesAll σ Γ ss ss' rets → ∀ o ∈ Stmt.outlines ss', o.Full
  | [], _, _, _, h => by
    cases h
    exact List.forall_mem_nil _
  | s :: ss, _, _, _, h => by
    cases h with
    | cons hs hss =>
      exact List.forall_mem_cons.mpr ⟨Stmt.Resolves.full s hs, Stmt.ResolvesAll.full ss hss⟩
termination_by structural x => x

theorem Stmt.ResolvesElseIfs.full : ∀ (clauses : List (Clause Expr Block)) {Γ : Context}
    {clauses' : List (Clause Expr Block)} {rets : List (List Ty)},
    Stmt.ResolvesElseIfs σ Γ clauses clauses' rets → ∀ o ∈ Stmt.outlineElseIfs clauses', o.Full
  | [], _, _, _, h => by
    cases h
    exact List.forall_mem_nil _
  | ⟨cond, body⟩ :: rest, _, _, _, h => by
    cases h with
    | cons hcond hbody hrest =>
      exact List.forall_mem_cons.mpr ⟨Expr.Resolves.full cond hcond, List.forall_mem_cons.mpr
        ⟨Block.Resolves.full body hbody, Stmt.ResolvesElseIfs.full rest hrest⟩⟩
termination_by structural x => x

theorem Stmt.ResolvesWhens.full : ∀ (clauses : List (Clause (List Expr) Block)) {Γ : Context}
    {ty : Ty} {clauses' : List (Clause (List Expr) Block)} {rets : List (List Ty)},
    Stmt.ResolvesWhens σ Γ ty clauses clauses' rets → ∀ o ∈ Stmt.outlineWhens clauses', o.Full
  | [], _, _, _, _, h => by
    cases h
    exact List.forall_mem_nil _
  | ⟨conds, body⟩ :: rest, _, _, _, _, h => by
    cases h with
    | cons hconds _ hbody hrest =>
      exact List.forall_mem_append.mpr ⟨Expr.ResolvesAll.full conds hconds, List.forall_mem_cons.mpr
        ⟨Block.Resolves.full body hbody, Stmt.ResolvesWhens.full rest hrest⟩⟩
termination_by structural x => x

theorem Stmt.ResolvesOtherwise.full : ∀ (body : Option Block) {Γ : Context} {body' : Option Block}
    {rets : List (List Ty)},
    Stmt.ResolvesOtherwise σ Γ body body' rets → ∀ o ∈ Stmt.outlineOtherwise body', o.Full
  | none, _, _, _, h => by
    cases h
    exact List.forall_mem_nil _
  | some body, _, _, _, h => by
    cases h with
    | some hbody => exact List.forall_mem_singleton.mpr (Block.Resolves.full body hbody)
termination_by structural x => x

end

theorem Binder.resolved_of_mapM {params : List Binder} {bindings : Context}
    (h : params.mapM Binder.binding? = some bindings) : ∀ b ∈ params, ∃ ty, b.ty = .resolved ty := by
  induction params generalizing bindings with
  | nil => exact List.forall_mem_nil _
  | cons b params ih =>
    rw [List.mapM_cons, Option.bind_eq_bind, Option.bind_eq_some_iff] at h
    obtain ⟨_, hb, h⟩ := h
    obtain ⟨_, hparams, _⟩ := Option.bind_eq_some_iff.mp h
    obtain ⟨ty, hty, _⟩ := Option.map_eq_some_iff.mp hb
    exact List.forall_mem_cons.mpr ⟨⟨ty, Slot.get?_eq_some.mp hty⟩, ih hparams⟩

theorem FuncDef.full_of_template {f : FuncDef} (h : f.isTemplate = true) : f.outline.Full :=
  if_pos h

theorem FuncDef.Resolves.full {f f' : FuncDef} (h : f.Resolves σ f') : f'.outline.Full := by
  by_cases htemplate : f'.isTemplate = true
  · exact FuncDef.full_of_template htemplate
  obtain ⟨hparams, hbody, hensure, _⟩ := h
  refine (if_neg htemplate).trans (descend_offers rfl ?_)
  have hsignature : ∀ o ∈ f.params.map Binder.paramOutline ++ TypeExpr.outlineOption f.written,
      o.Full := by
    refine List.forall_mem_append.mpr ⟨fun o ho => ?_, TypeExpr.full_option f.written⟩
    obtain ⟨b, hb, rfl⟩ := List.mem_map.mp ho
    obtain ⟨ty, hty⟩ := Binder.resolved_of_mapM hparams b hb
    exact Binder.full_param hty
  exact List.forall_mem_append.mpr ⟨hsignature, List.forall_mem_cons.mpr
    ⟨Block.Resolves.full f.body hbody, Stmt.ResolvesOtherwise.full f.ensure hensure⟩⟩

end

theorem Program.unresolved?_eq_none {p : Program} (h : ∀ f ∈ p.funcs, f.outline.Full) :
    p.unresolved? = none := by
  refine descend_offers rfl fun o ho => ?_
  obtain ⟨definition, hmem, rfl⟩ := List.mem_map.mp ho
  cases definition with
  | classDef c => rfl
  | funcDef f => exact h f (List.mem_filterMap.mpr ⟨.funcDef f, hmem, rfl⟩)

/-- Type resolution that succeeds leaves no slot for the check to find. -/
theorem Program.unresolved?_typed {p : Program} {σ : Scope} (h : p.typed.outcome = .ok σ) :
    p.typed.program.unresolved? = none := by
  obtain ⟨fs, σ₀, hcollect, herror, rfl⟩ := Program.typed_eq_ok.mp h
  have hsig := Program.collect_signs hcollect
  refine Program.unresolved?_eq_none fun f' hf' => ?_
  rw [Program.funcs_typed hcollect] at hf'
  obtain ⟨id, hid⟩ := List.mem_iff_getElem?.mp hf'
  obtain ⟨hist, hdone⟩ := Progress.ofFuncs_history hsig herror
  by_cases hmem : id ∈ (Progress.ofFuncs fs σ₀).done
  · obtain ⟨f, f₁, _, hf₁, hres⟩ := hist.completed.resolves hsig (List.Subset.refl _) hmem
    rw [hid] at hf₁
    cases hf₁
    exact hres.full
  · rw [hist.pending id hmem] at hid
    have htemplate : f'.isTemplate = true := by
      by_contra hplain
      exact hmem (hdone id f' hid (by simpa using hplain))
    exact FuncDef.full_of_template htemplate

theorem Program.verified_typed (p : Program) : p.typed.verified = p.typed := by
  unfold Analysis.verified
  cases h : p.typed.outcome with
  | error => rfl
  | ok σ => rw [Program.unresolved?_typed h]

theorem Program.analyze_eq (p : Program) (o : Options) : p.analyze o = p.typed.inFile o.file := by
  unfold Program.analyze
  split
  · rw [Program.verified_typed]
  · rfl

theorem Program.analyze_eq_ok {p : Program} {o : Options} {σ : Scope} :
    (p.analyze o).outcome = .ok σ ↔ p.typed.outcome = .ok σ := by
  refine ⟨Program.typed_of_analyze, fun h => ?_⟩
  rw [Program.analyze_eq, Analysis.inFile, h]
  rfl

end Semant
