import Semant.Proofs.Tree.Sites
import Semant.Proofs.Typing.Judgment

/-! Rules for a tree whose slots hold types already. A rule looks at the types in the slots of the
parts of a node and at the declarations that are visible there, and takes types up to equality. -/

namespace Semant

mutual

/-- The expression has the type `ty` in its slot, where the declarations `ds` are visible. -/
inductive Expr.WellTyped (σ : Scope) (ds : List Binder) : Expr → Ty → Prop
  | literal {value : Literal} {ty : Ty} {loc : Location} :
      ty == .builtin value.builtin → WellTyped σ ds (.literal value (.resolved ty) loc) ty
  | array {elems : List Expr} {tys : List Ty} {ty : Ty} {loc : Location} :
      Expr.WellTypedAll σ ds elems tys → tys ≠ [] → (∀ elem ∈ tys, ty == .array elem) →
      WellTyped σ ds (.array elems (.resolved ty) loc) ty
  | tuple {elems : List Expr} {tys : List Ty} {ty : Ty} {loc : Location} :
      Expr.WellTypedAll σ ds elems tys → ty == .tuple tys →
      WellTyped σ ds (.tuple elems (.resolved ty) loc) ty
  | dict {entries : List (Expr × Expr)} {tys : List (Ty × Ty)} {ty : Ty} {loc : Location} :
      Expr.WellTypedEntries σ ds entries tys → tys ≠ [] →
      (∀ entry ∈ tys, ty == .dict entry.1 entry.2) →
      WellTyped σ ds (.dict entries (.resolved ty) loc) ty
  | var {name : String} {b : Binder} {found ty : Ty} {loc : Location} :
      ds.find? (·.name == name) = some b → b.ty = .resolved found → ty == found →
      WellTyped σ ds (.var name (.resolved ty) loc) ty
  /-- A name without a declaration is called. -/
  | named {name : String} {slot : Slot Ty} {args : List Expr} {tys : List Ty} {id : SymbolId}
      {callee : Slot SymbolId} {found ty : Ty} {nameLoc loc : Location} :
      ds.find? (·.name == name) = none → Expr.WellTypedAll σ ds args tys →
      σ.resolve? name tys = some id → σ.CallType id found → ty == found →
      WellTyped σ ds (.call (.var name slot nameLoc) args callee (.resolved ty) loc) ty
  | applied {child : Expr} {args : List Expr} {callee : Slot SymbolId} {f found ty : Ty}
      {tys : List Ty} {loc : Location} :
      Expr.WellTyped σ ds child f → Expr.WellTypedAll σ ds args tys → f.Applies tys found →
      ty == found → WellTyped σ ds (.call child args callee (.resolved ty) loc) ty
  | construct {written : TypeExpr} {args : List Expr} {tys : List Ty} {found ty : Ty}
      {loc : Location} :
      Expr.WellTypedAll σ ds args tys → written.resolve σ = .ok found → ty == found →
      WellTyped σ ds (.construct written args (.resolved ty) loc) ty
  | index {child position : Expr} {held at_ found ty : Ty} {loc : Location} :
      Expr.WellTyped σ ds child held → Expr.WellTyped σ ds position at_ →
      held.Holds at_ position found → ty == found →
      WellTyped σ ds (.index child position (.resolved ty) loc) ty
  | member {child : Expr} {name : String} {callee : Slot SymbolId} {receiver found ty : Ty}
      {id : SymbolId} {loc : Location} :
      Expr.WellTyped σ ds child receiver → σ.resolve? name [receiver] = some id →
      σ.CallType id found → ty == found →
      WellTyped σ ds (.member child name callee (.resolved ty) loc) ty
  | unary {op : UnaryOp} {operand : Expr} {from_ found ty : Ty} {loc : Location} :
      Expr.WellTyped σ ds operand from_ → op.Takes from_ found → ty == found →
      WellTyped σ ds (.unary op operand (.resolved ty) loc) ty
  | cast {child : Expr} {written : TypeExpr} {from_ found ty : Ty} {loc : Location} :
      Expr.WellTyped σ ds child from_ → written.resolve σ = .ok found → ty == found →
      WellTyped σ ds (.cast child written (.resolved ty) loc) ty
  | binary {lhs rhs : Expr} {op : BinaryOp} {left right found ty : Ty} {loc : Location} :
      Expr.WellTyped σ ds lhs left → Expr.WellTyped σ ds rhs right → op.Takes left right found →
      ty == found → WellTyped σ ds (.binary lhs op rhs (.resolved ty) loc) ty
  | choice {cond yes no : Expr} {left right ty : Ty} {loc : Location} :
      Expr.WellTyped σ ds cond .bool → Expr.WellTyped σ ds yes left →
      Expr.WellTyped σ ds no right → ty == left → ty == right →
      WellTyped σ ds (.choice cond yes no (.resolved ty) loc) ty
  | typed {child : Expr} {written : TypeExpr} {from_ found ty : Ty} {loc : Location} :
      Expr.WellTyped σ ds child from_ → written.resolve σ = .ok found → from_ == found →
      ty == found → WellTyped σ ds (.typed child written (.resolved ty) loc) ty
  /-- An empty literal stands directly below an ascription that fits it. -/
  | typedArray {written : TypeExpr} {elem inner ty : Ty} {innerLoc loc : Location} :
      written.resolve σ = .ok (.array elem) → inner == .array elem → ty == .array elem →
      WellTyped σ ds (.typed (.array [] (.resolved inner) innerLoc) written (.resolved ty) loc) ty
  | typedDict {written : TypeExpr} {key value inner ty : Ty} {innerLoc loc : Location} :
      written.resolve σ = .ok (.dict key value) → inner == .dict key value →
      ty == .dict key value →
      WellTyped σ ds (.typed (.dict [] (.resolved inner) innerLoc) written (.resolved ty) loc) ty

inductive Expr.WellTypedAll (σ : Scope) (ds : List Binder) : List Expr → List Ty → Prop
  | nil : WellTypedAll σ ds [] []
  | cons {e : Expr} {es : List Expr} {ty : Ty} {tys : List Ty} :
      Expr.WellTyped σ ds e ty → WellTypedAll σ ds es tys →
      WellTypedAll σ ds (e :: es) (ty :: tys)

inductive Expr.WellTypedEntries (σ : Scope) (ds : List Binder) :
    List (Expr × Expr) → List (Ty × Ty) → Prop
  | nil : WellTypedEntries σ ds [] []
  | cons {key value : Expr} {entries : List (Expr × Expr)} {k v : Ty} {tys : List (Ty × Ty)} :
      Expr.WellTyped σ ds key k → Expr.WellTyped σ ds value v →
      WellTypedEntries σ ds entries tys →
      WellTypedEntries σ ds ((key, value) :: entries) ((k, v) :: tys)

end

/-- The slot of a declared name holds a type that `rule` gives it. -/
def Binder.Admits {α : Type} (rule : Binder → α → Ty → Prop) (b : Binder) (a : α) : Prop :=
  ∃ ty found, b.ty = .resolved ty ∧ rule b a found ∧ ty == found

inductive Declaration.WellTyped (σ : Scope) (ds : List Binder) : Declaration → Prop
  | bare {binders : List Binder} {loc : Location} :
      List.Forall₂ (Binder.Admits (Binder.Declares σ)) binders
        (List.replicate binders.length none) →
      WellTyped σ ds ⟨binders, none, loc⟩
  | valued {binders : List Binder} {values : List Expr} {tys parts : List Ty} {loc : Location} :
      Expr.WellTypedAll σ ds values tys → Spreads tys binders.length parts →
      List.Forall₂ (Binder.Admits (Binder.Declares σ)) binders (parts.map some) →
      WellTyped σ ds ⟨binders, some values, loc⟩

/-- Each declaration sees the ones before it. -/
inductive Declaration.WellTypedAll (σ : Scope) : List Binder → List Declaration → Prop
  | nil {ds : List Binder} : WellTypedAll σ ds []
  | cons {ds : List Binder} {d : Declaration} {rest : List Declaration} :
      d.WellTyped σ ds → WellTypedAll σ (d.binders.reverse ++ ds) rest →
      WellTypedAll σ ds (d :: rest)

/-- A name that is assigned to is declared as a variable. -/
def Expr.Mutable (ds : List Binder) : Expr → Prop
  | .var name _ _ => ∀ b, ds.find? (·.name == name) = some b → b.isVar = true
  | _ => True

mutual

/-- The types of the values of each return statement have to be among those that `allowed` has. -/
inductive Stmt.WellTyped (σ : Scope) (allowed : List Ty → Prop) : List Binder → Stmt → Prop
  | declare {ds : List Binder} {d : Declaration} :
      d.WellTyped σ ds → Stmt.WellTyped σ allowed ds (.declare d)
  | assign {ds : List Binder} {targets values : List Expr} {tys vals parts : List Ty}
      {loc : Location} :
      Expr.WellTypedAll σ ds targets tys → Expr.WellTypedAll σ ds values vals →
      Spreads vals targets.length parts → List.Forall₂ (fun ty part => ty == part) tys parts →
      (∀ target ∈ targets, target.Mutable ds) →
      Stmt.WellTyped σ allowed ds (.assign targets values loc)
  | branch {ds : List Binder} {kind : IfKind} {cond : Expr} {body : Block}
      {elseIfs : List (Clause Expr Block)} {otherwise : Option Block} {loc : Location} :
      cond.WellTyped σ ds .bool → Block.WellTyped σ allowed ds body →
      Stmt.WellTypedElseIfs σ allowed ds elseIfs →
      Stmt.WellTypedOtherwise σ allowed ds otherwise →
      Stmt.WellTyped σ allowed ds (.branch kind cond body elseIfs otherwise loc)
  | ret {ds : List Binder} {values : List Expr} {tys : List Ty} {loc : Location} :
      Expr.WellTypedAll σ ds values tys → allowed tys →
      Stmt.WellTyped σ allowed ds (.ret values loc)
  | case {ds : List Binder} {whens : List (Clause (List Expr) Block)} {otherwise : Option Block}
      {loc : Location} :
      Stmt.WellTypedWhens σ allowed ds .bool whens →
      Stmt.WellTypedOtherwise σ allowed ds otherwise →
      Stmt.WellTyped σ allowed ds (.case whens otherwise loc)
  | switch {ds : List Binder} {target : Expr} {ty : Ty} {whens : List (Clause (List Expr) Block)}
      {otherwise : Option Block} {loc : Location} :
      target.WellTyped σ ds ty → Stmt.WellTypedWhens σ allowed ds ty whens →
      Stmt.WellTypedOtherwise σ allowed ds otherwise →
      Stmt.WellTyped σ allowed ds (.switch target whens otherwise loc)
  | forIn {ds : List Binder} {vars : List Binder} {range : Expr} {body : Block} {ty elem : Ty}
      {parts : List Ty} {loc : Location} :
      range.WellTyped σ ds ty → ty.Iterates elem → Spreads [elem] vars.length parts →
      List.Forall₂ (Binder.Admits (Binder.Loops σ)) vars parts →
      Block.WellTyped σ allowed (vars.reverse ++ ds) body →
      Stmt.WellTyped σ allowed ds (.forIn vars range body loc)
  | whileDo {ds : List Binder} {cond : Expr} {body : Block} {loc : Location} :
      cond.WellTyped σ ds .bool → Block.WellTyped σ allowed ds body →
      Stmt.WellTyped σ allowed ds (.whileDo cond body loc)
  /-- The condition sees what the statement before it declares. -/
  | trailingIf {ds : List Binder} {body : Stmt} {kind : IfKind} {cond : Expr} {loc : Location} :
      Stmt.WellTyped σ allowed ds body → cond.WellTyped σ (body.declared ++ ds) .bool →
      Stmt.WellTyped σ allowed ds (.trailingIf body kind cond loc)
  | letIn {ds : List Binder} {inits : List Declaration} {body : Stmt} {loc : Location} :
      Declaration.WellTypedAll σ ds inits →
      Stmt.WellTyped σ allowed ((inits.flatMap Declaration.binders).reverse ++ ds) body →
      Stmt.WellTyped σ allowed ds (.letIn inits body loc)
  | expr {ds : List Binder} {e : Expr} {ty : Ty} :
      e.WellTyped σ ds ty → Stmt.WellTyped σ allowed ds (.expr e)
  | block {ds : List Binder} {b : Block} :
      Block.WellTyped σ allowed ds b → Stmt.WellTyped σ allowed ds (.block b)

inductive Block.WellTyped (σ : Scope) (allowed : List Ty → Prop) : List Binder → Block → Prop
  | mk {ds : List Binder} {stmts : List Stmt} {loc : Location} :
      Stmt.WellTypedAll σ allowed ds stmts → Block.WellTyped σ allowed ds (.mk stmts loc)

inductive Stmt.WellTypedAll (σ : Scope) (allowed : List Ty → Prop) :
    List Binder → List Stmt → Prop
  | nil {ds : List Binder} : Stmt.WellTypedAll σ allowed ds []
  | cons {ds : List Binder} {st : Stmt} {rest : List Stmt} :
      Stmt.WellTyped σ allowed ds st → Stmt.WellTypedAll σ allowed (st.declared ++ ds) rest →
      Stmt.WellTypedAll σ allowed ds (st :: rest)

inductive Stmt.WellTypedElseIfs (σ : Scope) (allowed : List Ty → Prop) :
    List Binder → List (Clause Expr Block) → Prop
  | nil {ds : List Binder} : Stmt.WellTypedElseIfs σ allowed ds []
  | cons {ds : List Binder} {cond : Expr} {body : Block} {rest : List (Clause Expr Block)} :
      cond.WellTyped σ ds .bool → Block.WellTyped σ allowed ds body →
      Stmt.WellTypedElseIfs σ allowed ds rest →
      Stmt.WellTypedElseIfs σ allowed ds (⟨cond, body⟩ :: rest)

/-- The tests of all clauses have the type `ty`. -/
inductive Stmt.WellTypedWhens (σ : Scope) (allowed : List Ty → Prop) :
    List Binder → Ty → List (Clause (List Expr) Block) → Prop
  | nil {ds : List Binder} {ty : Ty} : Stmt.WellTypedWhens σ allowed ds ty []
  | cons {ds : List Binder} {ty : Ty} {conds : List Expr} {tys : List Ty} {body : Block}
      {rest : List (Clause (List Expr) Block)} :
      Expr.WellTypedAll σ ds conds tys → (∀ found ∈ tys, found == ty) →
      Block.WellTyped σ allowed ds body → Stmt.WellTypedWhens σ allowed ds ty rest →
      Stmt.WellTypedWhens σ allowed ds ty (⟨conds, body⟩ :: rest)

inductive Stmt.WellTypedOtherwise (σ : Scope) (allowed : List Ty → Prop) :
    List Binder → Option Block → Prop
  | none {ds : List Binder} : Stmt.WellTypedOtherwise σ allowed ds none
  | some {ds : List Binder} {body : Block} :
      Block.WellTyped σ allowed ds body → Stmt.WellTypedOtherwise σ allowed ds (some body)

end

/-- The return statements of a function agree with its return type, and those of a procedure have no
value. -/
def FuncDef.Allows (f : FuncDef) (tys : List Ty) : Prop :=
  ∃ ret, f.ret = .resolved ret ∧ ret == returnedType tys ∧ (f.kind = .proc → tys = [])

/-- The parameters are visible in the body and in the `ensure` block, which returns nothing. -/
structure FuncDef.WellTyped (σ : Scope) (f : FuncDef) : Prop where
  body : f.body.WellTyped σ f.Allows f.params.reverse
  ensure : Stmt.WellTypedOtherwise σ (fun _ => False) f.params.reverse f.ensure

end Semant
