import Semant.Proofs.Number.Numeral
import Semant.Proofs.Typing.TypeParts
import Semant.Tree.Dump

/-! Line feeds in the labels of nodes. All that a label shows comes from the names and symbols of
the node and from what is written of it by fixed words, numbers and quoted texts. The last have no
line feed. A character literal shows its character as it is, so it can be one. -/

namespace Semant

namespace Text

def lineFeeds (text : String) : Nat :=
  text.toList.count '\n'

/-- The line feeds of some texts together. -/
def lineFeedsOf (texts : List String) : Nat :=
  (texts.map lineFeeds).sum

@[simp]
theorem lineFeeds_append (text text' : String) :
    lineFeeds (text ++ text') = lineFeeds text + lineFeeds text' := by
  rw [lineFeeds, String.toList_append, List.count_append]
  rfl

@[simp]
theorem lineFeedsOf_nil : lineFeedsOf [] = 0 :=
  rfl

@[simp]
theorem lineFeedsOf_cons (text : String) (texts : List String) :
    lineFeedsOf (text :: texts) = lineFeeds text + lineFeedsOf texts :=
  rfl

@[simp]
theorem lineFeedsOf_append (texts texts' : List String) :
    lineFeedsOf (texts ++ texts') = lineFeedsOf texts + lineFeedsOf texts' := by
  rw [lineFeedsOf, List.map_append, List.sum_append]
  rfl

/-- The fixed words of a text and what stands between its parts are of this kind. -/
@[simp]
theorem lineFeeds_eq_zero {text : String} (h : '\n' ∉ text.toList) : lineFeeds text = 0 :=
  List.count_eq_zero.mpr h

theorem lineFeedsOf_eq_zero {texts : List String} (h : ∀ text ∈ texts, '\n' ∉ text.toList) :
    lineFeedsOf texts = 0 := by
  induction texts with
  | nil => rfl
  | cons text texts ih =>
    obtain ⟨htext, htexts⟩ := List.forall_mem_cons.mp h
    rw [lineFeedsOf_cons, ih htexts]
    exact lineFeeds_eq_zero htext

theorem lineFeeds_joined {separator : String} (h : lineFeeds separator = 0) (texts : List String) :
    lineFeeds (joined separator texts) = lineFeedsOf texts := by
  fun_induction joined separator texts with
  | case1 => rfl
  | case2 text => simp
  | case3 text rest hrest ih => simp [h, ih]

theorem lineFeeds_of_digits {text : String} (h : ∀ c ∈ text.toList, c.isDigit) :
    lineFeeds text = 0 :=
  lineFeeds_eq_zero fun hmem => by cases h _ hmem

@[simp]
theorem lineFeeds_repr_nat (n : Nat) : lineFeeds n.repr = 0 :=
  lineFeeds_of_digits (by
    rw [Nat.toList_repr]
    exact Decimal.toDigits_digits n)

@[simp]
theorem lineFeeds_repr_int (i : Int) : lineFeeds i.repr = 0 := by
  cases i with
  | ofNat n => exact lineFeeds_repr_nat n
  | negSucc n =>
    rw [Int.repr, lineFeeds_append, lineFeeds_repr_nat]
    rfl

theorem not_mem_toDigits {base : Nat} (hbase : 1 < base) (n : Nat) :
    '\n' ∉ Nat.toDigits base n := by
  induction n using Nat.strongRecOn with
  | ind n ih =>
    rw [Nat.toDigits_eq_if hbase]
    have hne : ∀ d : Nat, '\n' ≠ d.digitChar := fun d h => Nat.digitChar_ne '\n' rfl h.symm
    split
    · simp [hne]
    · rename_i hle
      have hlt := ih (n / base) (Nat.div_lt_self (by omega) hbase)
      simp [hne, hlt]

theorem lineFeeds_numbered (c : Char) : lineFeeds (numbered c) = 0 := by
  have hdigits : lineFeeds (String.ofList (Nat.toDigits 16 c.toNat)) = 0 := by
    apply lineFeeds_eq_zero
    rw [String.toList_ofList]
    exact not_mem_toDigits (by decide) c.toNat
  rw [numbered, lineFeeds_append, lineFeeds_append, hdigits]
  rfl

theorem lineFeeds_singleton {c : Char} (hc : c ≠ '\n') : lineFeeds (String.singleton c) = 0 := by
  apply lineFeeds_eq_zero
  rw [String.toList_singleton]
  simpa using Ne.symm hc

theorem lineFeeds_escaped (c : Char) : lineFeeds (escaped c) = 0 := by
  by_cases hfeed : c = '\n'
  · subst hfeed
    rfl
  · unfold escaped
    split
    -- the last case is that of the characters without an escape of their own
    case h_7 =>
      split
      · exact lineFeeds_numbered c
      · exact lineFeeds_singleton hfeed
    all_goals rfl

@[simp]
theorem lineFeeds_quoted (text : String) : lineFeeds (quoted text) = 0 := by
  have hescaped : ∀ cs : List Char, lineFeeds (String.join (cs.map escaped)) = 0 := by
    intro cs
    refine lineFeeds_eq_zero fun hmem => ?_
    rw [String.toList_join, List.mem_flatMap] at hmem
    obtain ⟨text, htext, hmem⟩ := hmem
    obtain ⟨c, -, rfl⟩ := List.mem_map.mp htext
    exact List.count_eq_zero.mp (lineFeeds_escaped c) hmem
  rw [quoted, lineFeeds_append, lineFeeds_append, hescaped]
  rfl

theorem lineFeeds_trimStart_le (text : String) : lineFeeds (trimStart text) ≤ lineFeeds text := by
  rw [lineFeeds, trimStart, String.toList_ofList]
  exact (List.dropWhile_sublist isBlank).count_le '\n'

end Text

theorem Decimal.lineFeeds_padded (width n : Nat) : Text.lineFeeds (padded width n) = 0 :=
  Text.lineFeeds_of_digits (padded_digits width n)

theorem Decimal.lineFeeds_pointed (places n : Nat) : Text.lineFeeds (pointed places n) = 0 := by
  unfold pointed
  split <;> simp [lineFeeds_padded]

theorem Decimal.lineFeeds_text (d : Decimal) : Text.lineFeeds d.text = 0 := by
  have hpositional : ∀ d : Decimal, Text.lineFeeds d.positional = 0 := by
    intro d
    unfold positional
    split <;> simp [lineFeeds_pointed]
  have hscientific : ∀ d : Decimal, Text.lineFeeds d.scientific = 0 := by
    intro d
    simp [scientific, lineFeeds_pointed]
  simp only [text]
  split
  · exact hpositional _
  · exact hscientific _

@[simp]
theorem Binary64.lineFeeds_literalText (x : Binary64) : Text.lineFeeds x.literalText = 0 := by
  unfold literalText write
  split_ifs <;> simp [Decimal.lineFeeds_text]

namespace Ty

def className? : Ty → Option String
  | object name .. => some name
  | _ => none

/-- The names of the classes in a type. -/
def classNames (ty : Ty) : List String :=
  ty.parts.filterMap className?

mutual

theorem lineFeeds_text : ∀ ty : Ty, Text.lineFeeds ty.text = Text.lineFeedsOf ty.classNames
  | builtin b => by cases b <;> rfl
  | object name [] _ => by simp [text, classNames, parts, className?, partsOf]
  | object name (arg :: args) _ => by
    have hargs := lineFeeds_texts (arg :: args)
    simp [text, classNames, parts, className?, Text.lineFeeds_joined, hargs]
  | tuple elems => by
    have helems := lineFeeds_texts elems
    simp [text, classNames, parts, className?, List.filterMap_cons, Text.lineFeeds_joined, helems]
  | func params ret => by
    have hparams := lineFeeds_texts params
    have hret := lineFeeds_text ret
    simp [text, classNames, parts, className?, List.filterMap_cons, Text.lineFeeds_joined, hparams,
      hret]
  | proc params => by
    have hparams := lineFeeds_texts params
    simp [text, classNames, parts, className?, List.filterMap_cons, Text.lineFeeds_joined, hparams]
  | dict key value => by
    have hkey := lineFeeds_text key
    have hvalue := lineFeeds_text value
    simp [text, classNames, parts, className?, List.filterMap_cons, hkey, hvalue]
  | array elem => by
    have helem := lineFeeds_text elem
    simp [text, classNames, parts, className?, List.filterMap_cons, helem]
  | range first last => by
    have hfirst := lineFeeds_text first
    have hlast := lineFeeds_text last
    simp [text, classNames, parts, className?, List.filterMap_cons, hfirst, hlast]
  | maybe inner => by
    have hinner := lineFeeds_text inner
    simp [text, classNames, parts, className?, List.filterMap_cons, hinner]

theorem lineFeeds_texts : ∀ tys : List Ty,
    Text.lineFeedsOf (texts tys) = Text.lineFeedsOf ((partsOf tys).filterMap className?)
  | [] => rfl
  | ty :: tys => by
    rw [texts, Text.lineFeedsOf_cons, lineFeeds_text ty, lineFeeds_texts tys, partsOf,
      List.filterMap_append, Text.lineFeedsOf_append, classNames]

end

end Ty

def Slot.classNames (slot : Slot Ty) : List String :=
  slot.get?.elim [] Ty.classNames

@[simp]
theorem Slot.lineFeeds_note (slot : Slot Ty) :
    Text.lineFeeds slot.note = Text.lineFeedsOf slot.classNames := by
  cases slot with
  | unresolved => rfl
  | resolved ty => simp [note, classNames, get?, Ty.lineFeeds_text]

theorem Slot.lineFeeds_text (slot : Slot Ty) : ∀ detail ∈ slot.get?.map Ty.text,
    Text.lineFeeds detail = Text.lineFeedsOf slot.classNames := by
  cases slot with
  | unresolved => simp [get?]
  | resolved ty => simp [get?, classNames, Ty.lineFeeds_text]

theorem Binder.lineFeeds_label (b : Binder) :
    Text.lineFeeds b.label = Text.lineFeedsOf (b.name :: b.ty.classNames) := by
  unfold label
  split <;> simp

@[simp]
theorem UnaryOp.lineFeeds_symbol (op : UnaryOp) : Text.lineFeeds op.symbol = 0 := by
  cases op <;> simp [symbol]

@[simp]
theorem BinaryOp.lineFeeds_symbol (op : BinaryOp) : Text.lineFeeds op.symbol = 0 := by
  cases op <;> simp [symbol]

@[simp]
theorem IfKind.lineFeeds_keyword (kind : IfKind) : Text.lineFeeds kind.keyword = 0 := by
  cases kind <;> simp [keyword]

@[simp]
theorem FuncKind.lineFeeds_keyword (kind : FuncKind) : Text.lineFeeds kind.keyword = 0 := by
  cases kind <;> simp [keyword]

namespace Literal

/-- What the writer of a literal can put into a label as it is, apart from a character. -/
def words : Literal → List String
  | symbol s => [s]
  | _ => []

def isLineFeed : Literal → Bool
  | char c => c == '\n'
  | _ => false

@[simp]
theorem lineFeeds_text (value : Literal) :
    Text.lineFeeds value.text = Text.lineFeedsOf value.words + value.isLineFeed.toNat := by
  cases value with
  | char c =>
    by_cases hc : c = '\n'
    · subst hc
      rfl
    · rw [text, Text.lineFeeds_append, Text.lineFeeds_append, Text.lineFeeds_singleton hc, isLineFeed,
        beq_false_of_ne hc]
      rfl
  | bool b => cases b <;> rfl
  | _ => simp [text, words, isLineFeed]

end Literal

/-- The names and symbols in an expression itself. -/
def Expr.words : Expr → List String
  | literal value ty _ => value.words ++ ty.classNames
  | var name ty _ | member _ name _ ty _ => name :: ty.classNames
  | e => e.ty.classNames

namespace Node

/-- The names and symbols in a node itself, not below it. -/
def words : Node → List String
  | classDef c => [c.name]
  | funcDef f => f.name :: f.ret.classNames
  | param b | decl b => b.name :: b.ty.classNames
  | expr e => e.words
  | type (.named name ..) => [name]
  | _ => []

/-- A literal of the line feed. -/
def isLineFeed : Node → Bool
  | expr (.literal value ..) => value.isLineFeed
  | _ => false

theorem lineFeeds_kindName (node : Node) : Text.lineFeeds node.kindName = 0 := by
  have hexpr : ∀ e : Expr, Text.lineFeeds e.kindName = 0 := by
    intro e
    cases e <;> simp [Expr.kindName]
  cases node with
  | stmt s =>
    cases s with
    | expr e => exact hexpr e
    | _ => simp [kindName, Stmt.kindName]
  | expr e => exact hexpr e
  | type t => cases t <;> simp [kindName, TypeExpr.kindName]
  | _ => simp [kindName]

theorem lineFeeds_expr (e : Expr) : ∀ detail ∈ e.detail?,
    Text.lineFeeds detail = Text.lineFeedsOf e.words + (expr e).isLineFeed.toNat := by
  intro detail hdetail
  cases e with
  | literal value ty loc =>
    cases hdetail
    simp [Expr.words, isLineFeed, Nat.add_right_comm]
  | var name ty loc =>
    cases hdetail
    simp [Expr.words, isLineFeed]
  | member child name callee ty loc =>
    cases hdetail
    simp [Expr.words, isLineFeed]
  | unary op operand ty loc =>
    cases hdetail
    simp [Expr.words, isLineFeed, Expr.ty]
  | binary left op right ty loc =>
    cases hdetail
    simp [Expr.words, isLineFeed, Expr.ty]
  | _ => exact Slot.lineFeeds_text _ detail hdetail

theorem lineFeeds_detail (node : Node) : ∀ detail ∈ node.detail?, Text.lineFeeds detail =
    Text.lineFeedsOf node.words + node.isLineFeed.toNat := by
  intro detail hdetail
  cases node with
  | classDef c =>
    cases hdetail
    simp [words, isLineFeed]
  | funcDef f =>
    cases hdetail
    simp [words, isLineFeed]
  | param b =>
    cases hdetail
    exact b.lineFeeds_label
  | decl b =>
    cases hdetail
    exact b.lineFeeds_label
  | stmt s =>
    cases s with
    | branch kind =>
      cases hdetail
      exact kind.lineFeeds_keyword
    | trailingIf body kind =>
      cases hdetail
      exact kind.lineFeeds_keyword
    | _ => cases hdetail
  | expr e => exact lineFeeds_expr e detail hdetail
  | type t =>
    cases t with
    | named name =>
      cases hdetail
      simp [words, isLineFeed]
    | maybe =>
      cases hdetail
      rfl
    | _ => cases hdetail
  | _ => cases hdetail

/-- The label of such a literal: the quote keeps the line feed from being dropped as blank. -/
theorem label_of_isLineFeed {node : Node} (h : node.isLineFeed = true) :
    ∃ ty : Slot Ty, node.label = "Literal: '\n'" ++ ty.note ∧ node.words = ty.classNames := by
  cases node with
  | expr e =>
    cases e with
    | literal value ty loc =>
      cases value with
      | char c =>
        cases beq_iff_eq.mp h
        refine ⟨ty, ?_, rfl⟩
        apply String.toList_injective
        simp [label, detail?, Expr.detail?, Literal.text, Text.trimStart, kindName, Expr.kindName,
          Text.isBlank]
      | _ => cases h
    | _ => cases h
  | _ => cases h

/-- A label has a line feed if and only if the node is a literal of it, and then one. -/
theorem lineFeeds_label {node : Node} (hwords : ∀ word ∈ node.words, '\n' ∉ word.toList) :
    Text.lineFeeds node.label = node.isLineFeed.toNat := by
  cases hfeed : node.isLineFeed with
  | true =>
    obtain ⟨ty, hlabel, hty⟩ := label_of_isLineFeed hfeed
    rw [hlabel, Text.lineFeeds_append, Slot.lineFeeds_note, ← hty,
      Text.lineFeedsOf_eq_zero hwords]
    decide
  | false =>
    have hdetail := node.lineFeeds_detail
    rw [Text.lineFeedsOf_eq_zero hwords, hfeed] at hdetail
    unfold label
    split
    · rename_i detail hsome
      have htrim := Text.lineFeeds_trimStart_le detail
      rw [hdetail detail hsome] at htrim
      simp [lineFeeds_kindName, Nat.le_zero.mp htrim]
    · exact node.lineFeeds_kindName

end Node

end Semant
