import Mathlib.Data.List.Forall2
import Semant.Typing.Rule

/-! The typing rules of the language as a relation between a tree and the same tree with its slots
filled. Local names are one list, the innermost first; leaving a block drops what it added. -/

namespace Semant

abbrev Context := List (String × Binding)

/-- A call of a procedure gives the unit value, a call of a function its return type. -/
inductive Scope.CallType (σ : Scope) (id : SymbolId) : Ty → Prop
  | proc {f : FuncSymbol} : σ.functions[id]? = some f → f.kind = .proc → CallType σ id .unit
  | func {f : FuncSymbol} {ty : Ty} :
      σ.functions[id]? = some f → f.kind = .func → f.ret = .resolved ty → CallType σ id ty

/-- A value of a function type applied to arguments. -/
inductive Ty.Applies : Ty → List Ty → Ty → Prop
  | func {params args : List Ty} {ret : Ty} : params == args → Applies (.func params ret) args ret
  | proc {params args : List Ty} : params == args → Applies (.proc params) args .unit

inductive UnaryOp.Takes : UnaryOp → Ty → Ty → Prop
  | not : Takes .not .bool .bool
  | negate {ty : Ty} : ty.isNumeric → Takes .negate ty ty

/-- The operands of a binary operator have one type. -/
inductive BinaryOp.Takes : BinaryOp → Ty → Ty → Ty → Prop
  | logical {op : BinaryOp} : op.isLogical → Takes op .bool .bool .bool
  | comparison {op : BinaryOp} {lhs rhs : Ty} : op.isComparison → lhs == rhs → Takes op lhs rhs .bool
  | range {lhs rhs : Ty} : lhs == rhs → Takes .range lhs rhs (.range lhs rhs)
  | arithmetic {op : BinaryOp} {ty : Ty} :
      op ∈ [.add, .sub, .mul, .div, .mod] → ty.isNumeric → Takes op ty ty ty
  | concatenation : Takes .add .string .string .string

/-- The type of what a value holds at a position; a tuple is indexed by a literal only. -/
inductive Ty.Holds : Ty → Ty → Expr → Ty → Prop
  | array {elem position : Ty} {e : Expr} : position.isIntegral → Holds (.array elem) position e elem
  | string {position : Ty} {e : Expr} : position.isIntegral → Holds .string position e .char
  | dict {key value position : Ty} {e : Expr} :
      key == position → Holds (.dict key value) position e value
  | tuple {elems : List Ty} {position ty : Ty} {value : Literal} {slot : Slot Ty} {loc : Location}
      {n : Nat} : value.position? = some n → elems[n]? = some ty →
      Holds (.tuple elems) position (.literal value slot loc) ty

/-- The values of a loop over a value. -/
inductive Ty.Iterates : Ty → Ty → Prop
  | array {elem : Ty} : Iterates (.array elem) elem
  | range {first last : Ty} : Iterates (.range first last) first
  | dict {key value : Ty} : Iterates (.dict key value) (.tuple [key, value])

/-- Values go to `n` targets one by one, or one tuple goes to them element by element. -/
inductive Spreads : List Ty → Nat → List Ty → Prop
  | each {values : List Ty} {n : Nat} : values.length = n → Spreads values n values
  | tuple {elems : List Ty} {n : Nat} : elems.length = n → n ≠ 1 → Spreads [.tuple elems] n elems

mutual

/-- In the scope `σ` and with the local names `Γ`, an expression becomes one of a type. -/
inductive Expr.Resolves (σ : Scope) (Γ : Context) : Expr → Expr → Ty → Prop
  | literal {value : Literal} {loc : Location} :
      Resolves σ Γ (.literal value .unresolved loc)
        (.literal value (.resolved (.builtin value.builtin)) loc) (.builtin value.builtin)
  | array {elems elems' : List Expr} {ty : Ty} {tys : List Ty} {loc : Location} :
      Expr.ResolvesAll σ Γ elems elems' (ty :: tys) → (∀ other ∈ tys, other == ty) →
      Resolves σ Γ (.array elems .unresolved loc)
        (.array elems' (.resolved (.array ty)) loc) (.array ty)
  | tuple {elems elems' : List Expr} {tys : List Ty} {loc : Location} :
      Expr.ResolvesAll σ Γ elems elems' tys →
      Resolves σ Γ (.tuple elems .unresolved loc)
        (.tuple elems' (.resolved (.tuple tys)) loc) (.tuple tys)
  | dict {entries entries' : List (Expr × Expr)} {key value : Ty} {tys : List (Ty × Ty)}
      {loc : Location} :
      Expr.ResolvesEntries σ Γ entries entries' ((key, value) :: tys) →
      (∀ other ∈ tys, other.1 == key ∧ other.2 == value) →
      Resolves σ Γ (.dict entries .unresolved loc)
        (.dict entries' (.resolved (.dict key value)) loc) (.dict key value)
  | var {name : String} {binding : Binding} {loc : Location} :
      Γ.lookup name = some binding →
      Resolves σ Γ (.var name .unresolved loc) (.var name (.resolved binding.ty) loc) binding.ty
  /-- A name without a local binding is called: the best overload takes the call. -/
  | named {name : String} {slot : Slot Ty} {args args' : List Expr} {tys : List Ty} {id : SymbolId}
      {ty : Ty} {nameLoc loc : Location} :
      Γ.lookup name = none → Expr.ResolvesAll σ Γ args args' tys →
      σ.resolve? name tys = some id → σ.CallType id ty →
      Resolves σ Γ (.call (.var name slot nameLoc) args .unresolved .unresolved loc)
        (.call (.var name slot nameLoc) args' (.resolved id) (.resolved ty) loc) ty
  | applied {child child' : Expr} {args args' : List Expr} {callee : Slot SymbolId} {f ty : Ty}
      {tys : List Ty} {loc : Location} :
      Expr.Resolves σ Γ child child' f → Expr.ResolvesAll σ Γ args args' tys → f.Applies tys ty →
      Resolves σ Γ (.call child args callee .unresolved loc)
        (.call child' args' callee (.resolved ty) loc) ty
  | construct {written : TypeExpr} {args args' : List Expr} {tys : List Ty} {ty : Ty}
      {loc : Location} :
      Expr.ResolvesAll σ Γ args args' tys → written.resolve σ = .ok ty →
      Resolves σ Γ (.construct written args .unresolved loc)
        (.construct written args' (.resolved ty) loc) ty
  | index {child child' position position' : Expr} {held at_ ty : Ty} {loc : Location} :
      Expr.Resolves σ Γ child child' held → Expr.Resolves σ Γ position position' at_ →
      held.Holds at_ position' ty →
      Resolves σ Γ (.index child position .unresolved loc)
        (.index child' position' (.resolved ty) loc) ty
  | member {child child' : Expr} {name : String} {receiver ty : Ty} {id : SymbolId}
      {loc : Location} :
      Expr.Resolves σ Γ child child' receiver → σ.resolve? name [receiver] = some id →
      σ.CallType id ty →
      Resolves σ Γ (.member child name .unresolved .unresolved loc)
        (.member child' name (.resolved id) (.resolved ty) loc) ty
  | unary {op : UnaryOp} {operand operand' : Expr} {from_ ty : Ty} {loc : Location} :
      Expr.Resolves σ Γ operand operand' from_ → op.Takes from_ ty →
      Resolves σ Γ (.unary op operand .unresolved loc)
        (.unary op operand' (.resolved ty) loc) ty
  | cast {child child' : Expr} {written : TypeExpr} {from_ ty : Ty} {loc : Location} :
      Expr.Resolves σ Γ child child' from_ → written.resolve σ = .ok ty →
      Resolves σ Γ (.cast child written .unresolved loc)
        (.cast child' written (.resolved ty) loc) ty
  | binary {lhs lhs' rhs rhs' : Expr} {op : BinaryOp} {left right ty : Ty} {loc : Location} :
      Expr.Resolves σ Γ lhs lhs' left → Expr.Resolves σ Γ rhs rhs' right → op.Takes left right ty →
      Resolves σ Γ (.binary lhs op rhs .unresolved loc)
        (.binary lhs' op rhs' (.resolved ty) loc) ty
  | choice {cond cond' yes yes' no no' : Expr} {ty other : Ty} {loc : Location} :
      Expr.Resolves σ Γ cond cond' .bool → Expr.Resolves σ Γ yes yes' ty →
      Expr.Resolves σ Γ no no' other → ty == other →
      Resolves σ Γ (.choice cond yes no .unresolved loc)
        (.choice cond' yes' no' (.resolved ty) loc) ty
  | typed {child child' : Expr} {written : TypeExpr} {found ty : Ty} {loc : Location} :
      written.resolve σ = .ok ty → Expr.Resolves σ Γ child child' found → found == ty →
      Resolves σ Γ (.typed child written .unresolved loc)
        (.typed child' written (.resolved ty) loc) ty
  /-- An empty literal has a type only through its ascription. -/
  | typedArray {written : TypeExpr} {elem : Ty} {inner loc : Location} :
      written.resolve σ = .ok (.array elem) →
      Resolves σ Γ (.typed (.array [] .unresolved inner) written .unresolved loc)
        (.typed (.array [] (.resolved (.array elem)) inner) written (.resolved (.array elem)) loc)
        (.array elem)
  | typedDict {written : TypeExpr} {key value : Ty} {inner loc : Location} :
      written.resolve σ = .ok (.dict key value) →
      Resolves σ Γ (.typed (.dict [] .unresolved inner) written .unresolved loc)
        (.typed (.dict [] (.resolved (.dict key value)) inner) written
          (.resolved (.dict key value)) loc)
        (.dict key value)

inductive Expr.ResolvesAll (σ : Scope) (Γ : Context) : List Expr → List Expr → List Ty → Prop
  | nil : ResolvesAll σ Γ [] [] []
  | cons {e e' : Expr} {es es' : List Expr} {ty : Ty} {tys : List Ty} :
      Expr.Resolves σ Γ e e' ty → ResolvesAll σ Γ es es' tys →
      ResolvesAll σ Γ (e :: es) (e' :: es') (ty :: tys)

inductive Expr.ResolvesEntries (σ : Scope) (Γ : Context) :
    List (Expr × Expr) → List (Expr × Expr) → List (Ty × Ty) → Prop
  | nil : ResolvesEntries σ Γ [] [] []
  | cons {key key' value value' : Expr} {entries entries' : List (Expr × Expr)} {k v : Ty}
      {tys : List (Ty × Ty)} :
      Expr.Resolves σ Γ key key' k → Expr.Resolves σ Γ value value' v →
      ResolvesEntries σ Γ entries entries' tys →
      ResolvesEntries σ Γ ((key, value) :: entries) ((key', value') :: entries') ((k, v) :: tys)

end

/-- The type of a declared variable, given the type of its value if it has one. -/
inductive Binder.Declares (σ : Scope) (b : Binder) : Option Ty → Ty → Prop
  | written {w : TypeExpr} {value : Option Ty} {ty : Ty} :
      b.written = some w → w.resolve σ = .ok ty → (∀ v ∈ value, ty == v) → Declares σ b value ty
  | inferred {ty : Ty} : b.written = none → Declares σ b (some ty) ty

/-- The type of a loop variable, given the type of the values that it runs over. -/
inductive Binder.Loops (σ : Scope) (b : Binder) : Ty → Ty → Prop
  | written {w : TypeExpr} {ty elem : Ty} :
      b.written = some w → w.resolve σ = .ok ty → ty == elem → Loops σ b elem elem
  | inferred {elem : Ty} : b.written = none → Loops σ b elem elem

/-- Names come into scope one after another, with the types that `rule` gives them. -/
inductive Introduces {α : Type} (rule : Binder → α → Ty → Prop) :
    Context → List Binder → List α → List Binder → Context → Prop
  | nil {Γ : Context} : Introduces rule Γ [] [] [] Γ
  | cons {Γ Γ' : Context} {b : Binder} {bs bs' : List Binder} {a : α} {as : List α} {ty : Ty} :
      b.ty = .unresolved → rule b a ty →
      Introduces rule ((b.name, { ty, isVar := b.isVar }) :: Γ) bs as bs' Γ' →
      Introduces rule Γ (b :: bs) (a :: as) ({ b with ty := .resolved ty } :: bs') Γ'

theorem Introduces.resolved {α : Type} {rule : Binder → α → Ty → Prop} {Γ Γ' : Context}
    {bs bs' : List Binder} {as : List α} (h : Introduces rule Γ bs as bs' Γ') :
    ∀ b ∈ bs', ∃ ty, b.ty = .resolved ty := by
  induction h with
  | nil => exact List.forall_mem_nil _
  | cons _ _ _ ih => exact List.forall_mem_cons.mpr ⟨⟨_, rfl⟩, ih⟩

/-- The values of a declaration do not see its names. -/
inductive Declaration.Resolves (σ : Scope) (Γ : Context) : Declaration → Declaration → Context → Prop
  | bare {binders binders' : List Binder} {Γ' : Context} {loc : Location} :
      Introduces (Binder.Declares σ) Γ binders (List.replicate binders.length none) binders' Γ' →
      Resolves σ Γ ⟨binders, none, loc⟩ ⟨binders', none, loc⟩ Γ'
  | valued {binders binders' : List Binder} {values values' : List Expr} {tys parts : List Ty}
      {Γ' : Context} {loc : Location} :
      Expr.ResolvesAll σ Γ values values' tys → Spreads tys binders.length parts →
      Introduces (Binder.Declares σ) Γ binders (parts.map some) binders' Γ' →
      Resolves σ Γ ⟨binders, some values, loc⟩ ⟨binders', some values', loc⟩ Γ'

inductive Declaration.ResolvesAll (σ : Scope) :
    Context → List Declaration → List Declaration → Context → Prop
  | nil {Γ : Context} : ResolvesAll σ Γ [] [] Γ
  | cons {Γ Γ₁ Γ₂ : Context} {d d' : Declaration} {ds ds' : List Declaration} :
      d.Resolves σ Γ d' Γ₁ → ResolvesAll σ Γ₁ ds ds' Γ₂ → ResolvesAll σ Γ (d :: ds) (d' :: ds') Γ₂

/-- A name that is assigned to is a variable. -/
def Expr.Assignable (Γ : Context) : Expr → Prop
  | .var name _ _ => ∀ binding, Γ.lookup name = some binding → binding.isVar
  | _ => True

mutual

/-- A statement may add names for the statements after it. The types of the values of its return
statements are listed in order. -/
inductive Stmt.Resolves (σ : Scope) : Context → Stmt → Stmt → Context → List (List Ty) → Prop
  | declare {Γ Γ' : Context} {d d' : Declaration} :
      d.Resolves σ Γ d' Γ' → Stmt.Resolves σ Γ (.declare d) (.declare d') Γ' []
  | assign {Γ : Context} {targets targets' values values' : List Expr} {tys vals parts : List Ty}
      {loc : Location} :
      Expr.ResolvesAll σ Γ targets targets' tys → Expr.ResolvesAll σ Γ values values' vals →
      Spreads vals targets.length parts → List.Forall₂ (fun ty part => ty == part) tys parts →
      (∀ target ∈ targets', target.Assignable Γ) →
      Stmt.Resolves σ Γ (.assign targets values loc) (.assign targets' values' loc) Γ []
  | branch {Γ : Context} {kind : IfKind} {cond cond' : Expr} {body body' : Block}
      {elseIfs elseIfs' : List (Clause Expr Block)} {otherwise otherwise' : Option Block}
      {rets₁ rets₂ rets₃ : List (List Ty)} {loc : Location} :
      cond.Resolves σ Γ cond' .bool → Block.Resolves σ Γ body body' rets₁ →
      Stmt.ResolvesElseIfs σ Γ elseIfs elseIfs' rets₂ →
      Stmt.ResolvesOtherwise σ Γ otherwise otherwise' rets₃ →
      Stmt.Resolves σ Γ (.branch kind cond body elseIfs otherwise loc)
        (.branch kind cond' body' elseIfs' otherwise' loc) Γ (rets₁ ++ rets₂ ++ rets₃)
  | ret {Γ : Context} {values values' : List Expr} {tys : List Ty} {loc : Location} :
      Expr.ResolvesAll σ Γ values values' tys →
      Stmt.Resolves σ Γ (.ret values loc) (.ret values' loc) Γ [tys]
  | case {Γ : Context} {whens whens' : List (Clause (List Expr) Block)}
      {otherwise otherwise' : Option Block} {rets₁ rets₂ : List (List Ty)} {loc : Location} :
      Stmt.ResolvesWhens σ Γ .bool whens whens' rets₁ →
      Stmt.ResolvesOtherwise σ Γ otherwise otherwise' rets₂ →
      Stmt.Resolves σ Γ (.case whens otherwise loc) (.case whens' otherwise' loc) Γ (rets₁ ++ rets₂)
  | switch {Γ : Context} {target target' : Expr} {ty : Ty}
      {whens whens' : List (Clause (List Expr) Block)} {otherwise otherwise' : Option Block}
      {rets₁ rets₂ : List (List Ty)} {loc : Location} :
      target.Resolves σ Γ target' ty → Stmt.ResolvesWhens σ Γ ty whens whens' rets₁ →
      Stmt.ResolvesOtherwise σ Γ otherwise otherwise' rets₂ →
      Stmt.Resolves σ Γ (.switch target whens otherwise loc) (.switch target' whens' otherwise' loc) Γ
        (rets₁ ++ rets₂)
  | forIn {Γ Γ' : Context} {vars vars' : List Binder} {range range' : Expr} {body body' : Block}
      {ty elem : Ty} {parts : List Ty} {rets : List (List Ty)} {loc : Location} :
      range.Resolves σ Γ range' ty → ty.Iterates elem → Spreads [elem] vars.length parts →
      Introduces (Binder.Loops σ) Γ vars parts vars' Γ' → Block.Resolves σ Γ' body body' rets →
      Stmt.Resolves σ Γ (.forIn vars range body loc) (.forIn vars' range' body' loc) Γ rets
  | whileDo {Γ : Context} {cond cond' : Expr} {body body' : Block} {rets : List (List Ty)}
      {loc : Location} :
      cond.Resolves σ Γ cond' .bool → Block.Resolves σ Γ body body' rets →
      Stmt.Resolves σ Γ (.whileDo cond body loc) (.whileDo cond' body' loc) Γ rets
  | trailingIf {Γ Γ' : Context} {body body' : Stmt} {kind : IfKind} {cond cond' : Expr}
      {rets : List (List Ty)} {loc : Location} :
      Stmt.Resolves σ Γ body body' Γ' rets → cond.Resolves σ Γ' cond' .bool →
      Stmt.Resolves σ Γ (.trailingIf body kind cond loc) (.trailingIf body' kind cond' loc) Γ' rets
  | letIn {Γ Γ₁ Γ₂ : Context} {inits inits' : List Declaration} {body body' : Stmt}
      {rets : List (List Ty)} {loc : Location} :
      Declaration.ResolvesAll σ Γ inits inits' Γ₁ → Stmt.Resolves σ Γ₁ body body' Γ₂ rets →
      Stmt.Resolves σ Γ (.letIn inits body loc) (.letIn inits' body' loc) Γ rets
  | expr {Γ : Context} {e e' : Expr} {ty : Ty} :
      e.Resolves σ Γ e' ty → Stmt.Resolves σ Γ (.expr e) (.expr e') Γ []
  | block {Γ : Context} {b b' : Block} {rets : List (List Ty)} :
      Block.Resolves σ Γ b b' rets → Stmt.Resolves σ Γ (.block b) (.block b') Γ rets

inductive Block.Resolves (σ : Scope) : Context → Block → Block → List (List Ty) → Prop
  | mk {Γ : Context} {stmts stmts' : List Stmt} {rets : List (List Ty)} {loc : Location} :
      Stmt.ResolvesAll σ Γ stmts stmts' rets →
      Block.Resolves σ Γ (.mk stmts loc) (.mk stmts' loc) rets

inductive Stmt.ResolvesAll (σ : Scope) :
    Context → List Stmt → List Stmt → List (List Ty) → Prop
  | nil {Γ : Context} : Stmt.ResolvesAll σ Γ [] [] []
  | cons {Γ Γ' : Context} {s s' : Stmt} {ss ss' : List Stmt} {rets₁ rets₂ : List (List Ty)} :
      Stmt.Resolves σ Γ s s' Γ' rets₁ → Stmt.ResolvesAll σ Γ' ss ss' rets₂ →
      Stmt.ResolvesAll σ Γ (s :: ss) (s' :: ss') (rets₁ ++ rets₂)

inductive Stmt.ResolvesElseIfs (σ : Scope) :
    Context → List (Clause Expr Block) → List (Clause Expr Block) → List (List Ty) → Prop
  | nil {Γ : Context} : Stmt.ResolvesElseIfs σ Γ [] [] []
  | cons {Γ : Context} {cond cond' : Expr} {body body' : Block}
      {rest rest' : List (Clause Expr Block)} {rets₁ rets₂ : List (List Ty)} :
      cond.Resolves σ Γ cond' .bool → Block.Resolves σ Γ body body' rets₁ →
      Stmt.ResolvesElseIfs σ Γ rest rest' rets₂ →
      Stmt.ResolvesElseIfs σ Γ (⟨cond, body⟩ :: rest) (⟨cond', body'⟩ :: rest') (rets₁ ++ rets₂)

/-- The tests of all clauses have the type `ty`. -/
inductive Stmt.ResolvesWhens (σ : Scope) : Context → Ty → List (Clause (List Expr) Block) →
    List (Clause (List Expr) Block) → List (List Ty) → Prop
  | nil {Γ : Context} {ty : Ty} : Stmt.ResolvesWhens σ Γ ty [] [] []
  | cons {Γ : Context} {ty : Ty} {conds conds' : List Expr} {tys : List Ty} {body body' : Block}
      {rest rest' : List (Clause (List Expr) Block)} {rets₁ rets₂ : List (List Ty)} :
      Expr.ResolvesAll σ Γ conds conds' tys → (∀ found ∈ tys, found == ty) →
      Block.Resolves σ Γ body body' rets₁ → Stmt.ResolvesWhens σ Γ ty rest rest' rets₂ →
      Stmt.ResolvesWhens σ Γ ty (⟨conds, body⟩ :: rest) (⟨conds', body'⟩ :: rest') (rets₁ ++ rets₂)

inductive Stmt.ResolvesOtherwise (σ : Scope) :
    Context → Option Block → Option Block → List (List Ty) → Prop
  | none {Γ : Context} : Stmt.ResolvesOtherwise σ Γ none none []
  | some {Γ : Context} {body body' : Block} {rets : List (List Ty)} :
      Block.Resolves σ Γ body body' rets → Stmt.ResolvesOtherwise σ Γ (some body) (some body') rets

end

/-- No value, one value, or the tuple of several. -/
def returnedType : List Ty → Ty
  | [ty] => ty
  | tys => .tuple tys

/-- What the return statements of a function say about its return type, which may be known. -/
structure Returning (kind : FuncKind) (known : Slot Ty) (rets : List (List Ty)) (ret : Ty) :
    Prop where
  agree : ∀ tys ∈ rets, ret == returnedType tys
  valueless : kind = .proc → ∀ tys ∈ rets, tys = []
  given : known.get?.getD ((rets.head?.map returnedType).getD .unit) = ret

def Binder.binding? (b : Binder) : Option (String × Binding) :=
  b.ty.get?.map fun ty => (b.name, { ty, isVar := b.isVar })

/-- The body and the `ensure` block see the parameters. The `ensure` block returns nothing. -/
inductive FuncDef.Resolves (σ : Scope) (f : FuncDef) : FuncDef → Prop
  | mk {params : Context} {body : Block} {ensure : Option Block} {rets : List (List Ty)} {ret : Ty} :
      f.params.mapM Binder.binding? = some params →
      f.body.Resolves σ params.reverse body rets →
      Stmt.ResolvesOtherwise σ params.reverse f.ensure ensure [] →
      Returning f.kind f.ret rets ret →
      Resolves σ f { f with body, ensure, ret := .resolved ret }

end Semant
