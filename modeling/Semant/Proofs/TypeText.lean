import Semant.Proofs.Typing.TypeParts

/-! The text of a type says which type it is. A text is read from the left: a word or a bracket
tells the form of the type, its parts are read one after another, and what may stand after a type
never goes on with it. The marks of optional types and the dots of ranges come after what they
belong to, so they are counted once the rest is read. -/

namespace Semant

namespace Ty

def isFunc : Ty → Bool
  | func .. => true
  | _ => false

def isWordChar (c : Char) : Bool :=
  c.isAlphanum || c == '_'

/-- A word of letters, digits and underscores that is not the name of a builtin type. -/
def isClassName (name : String) : Bool :=
  !name.toList.isEmpty && name.toList.all isWordChar && (Builtin.ofName? name).isNone

mutual

/-- Classes have names of their own, the ends of a range are equal, and no function is optional.
There are no ranges where `ranges` does not hold, so none in a function or procedure, in an optional
type or in the arguments of a class. -/
def isLegible (ranges : Bool) : Ty → Bool
  | builtin _ => true
  | object name args _ => isClassName name && areLegible false args
  | tuple elems => areLegible ranges elems
  | func params ret => areLegible false params && ret.isLegible false
  | proc params => areLegible false params
  | dict key value => key.isLegible ranges && value.isLegible ranges
  | array elem => elem.isLegible ranges
  | range first last =>
    ranges && first.isLegible ranges && last.isLegible ranges && first == last
  | maybe inner => !inner.isFunc && inner.isLegible false

def areLegible (ranges : Bool) : List Ty → Bool
  | [] => true
  | ty :: tys => ty.isLegible ranges && areLegible ranges tys

end

section

variable {ranges : Bool} {name : String} {args params tys : List Ty} {decl : Option ClassId}
  {ty ret key value first last inner : Ty}

theorem isLegible_object : (object name args decl).isLegible ranges = true ↔
    isClassName name = true ∧ areLegible false args = true := by
  simp only [isLegible, Bool.and_eq_true]

theorem isLegible_func : (func params ret).isLegible ranges = true ↔
    areLegible false params = true ∧ ret.isLegible false = true := by
  simp only [isLegible, Bool.and_eq_true]

theorem isLegible_dict : (dict key value).isLegible ranges = true ↔
    key.isLegible ranges = true ∧ value.isLegible ranges = true := by
  simp only [isLegible, Bool.and_eq_true]

theorem isLegible_range : (range first last).isLegible ranges = true ↔
    ranges = true ∧ first.isLegible ranges = true ∧ last.isLegible ranges = true ∧
      first == last := by
  simp only [isLegible, Bool.and_eq_true, and_assoc]

theorem isLegible_maybe : (maybe inner).isLegible ranges = true ↔
    inner.isFunc = false ∧ inner.isLegible false = true := by
  simp only [isLegible, Bool.and_eq_true, Bool.not_eq_true']

theorem areLegible_cons : areLegible ranges (ty :: tys) = true ↔
    ty.isLegible ranges = true ∧ areLegible ranges tys = true := by
  simp only [areLegible, Bool.and_eq_true]

end

mutual

theorem isLegible_relax {ranges : Bool} : ∀ {ty : Ty}, ty.isLegible ranges = true →
    ty.isLegible true = true
  | builtin _, _ => rfl
  | object .., h => isLegible_object.mpr (isLegible_object.mp h)
  | func .., h => isLegible_func.mpr (isLegible_func.mp h)
  | proc _, h => h
  | maybe _, h => isLegible_maybe.mpr (isLegible_maybe.mp h)
  | tuple _, h => by
    simp only [isLegible] at h ⊢
    exact areLegible_relax h
  | dict .., h => by
    obtain ⟨hkey, hvalue⟩ := isLegible_dict.mp h
    exact isLegible_dict.mpr ⟨isLegible_relax hkey, isLegible_relax hvalue⟩
  | array _, h => by
    simp only [isLegible] at h ⊢
    exact isLegible_relax h
  | range .., h => by
    obtain ⟨_, hfirst, hlast, hends⟩ := isLegible_range.mp h
    exact isLegible_range.mpr ⟨rfl, isLegible_relax hfirst, isLegible_relax hlast, hends⟩

theorem areLegible_relax {ranges : Bool} : ∀ {tys : List Ty}, areLegible ranges tys = true →
    areLegible true tys = true
  | [], _ => rfl
  | _ :: _, h => by
    obtain ⟨hty, htys⟩ := areLegible_cons.mp h
    exact areLegible_cons.mpr ⟨isLegible_relax hty, areLegible_relax htys⟩

end

mutual

theorem text_mapHandle (g : Option ClassId → Option ClassId) :
    ∀ ty : Ty, (ty.mapHandle g).text = ty.text
  | builtin _ => rfl
  | object _ [] _ => rfl
  | object name (arg :: args) _ => by
    have h := texts_mapHandle g (arg :: args)
    simp only [mapHandle, mapHandleAll, text] at h ⊢
    rw [h]
  | tuple elems => by simp only [mapHandle, text, texts_mapHandle g elems]
  | func params ret => by
    simp only [mapHandle, text, texts_mapHandle g params, text_mapHandle g ret]
  | proc params => by simp only [mapHandle, text, texts_mapHandle g params]
  | dict key value => by simp only [mapHandle, text, text_mapHandle g key, text_mapHandle g value]
  | array elem => by simp only [mapHandle, text, text_mapHandle g elem]
  | range first last => by
    simp only [mapHandle, text, text_mapHandle g first, text_mapHandle g last]
  | maybe inner => by simp only [mapHandle, text, text_mapHandle g inner]

theorem texts_mapHandle (g : Option ClassId → Option ClassId) :
    ∀ tys : List Ty, texts (mapHandleAll g tys) = texts tys
  | [] => rfl
  | ty :: tys => by simp only [mapHandleAll, texts, text_mapHandle g ty, texts_mapHandle g tys]

end

theorem text_eq_of_beq {a b : Ty} (h : a == b) : a.text = b.text := by
  rw [← text_mapHandle (fun _ => none) a, ← text_mapHandle (fun _ => none) b]
  exact congrArg text (beq_iff_erase_eq.mp h)

/-- The text of a type, letter by letter. -/
def chars (ty : Ty) : List Char :=
  ty.text.toList

/-- The text of a list of types, without brackets. -/
def charsAll (tys : List Ty) : List Char :=
  (Text.joined "," (texts tys)).toList

/-- What follows the first type in the text of a list. -/
def charsRest : List Ty → List Char
  | [] => []
  | ty :: tys => ',' :: charsAll (ty :: tys)

theorem charsAll_cons (ty : Ty) (tys : List Ty) :
    charsAll (ty :: tys) = ty.chars ++ charsRest tys := by
  cases tys with
  | nil => simp [charsAll, charsRest, texts, Text.joined, chars]
  | cons ty' tys => simp [charsAll, charsRest, texts, Text.joined, chars]

theorem chars_range (first last : Ty) :
    (range first last).chars = first.chars ++ '.' :: '.' :: last.chars := by
  simp [chars, text]

theorem chars_maybe (inner : Ty) : (maybe inner).chars = inner.chars ++ ['?'] := by
  simp [chars, text]

theorem chars_eq_of_beq {a b : Ty} (h : a == b) : a.chars = b.chars :=
  congrArg String.toList (text_eq_of_beq h)

/-- The word that a text begins with. -/
def word : Ty → List Char
  | builtin b => b.name.toList
  | object name _ _ => name.toList
  | func .. => ['f', 'u', 'n', 'c']
  | proc _ => ['p', 'r', 'o', 'c']
  | _ => []

/-- What follows the word. -/
def tail : Ty → List Char
  | object _ (arg :: args) _ => '(' :: (charsAll (arg :: args) ++ [')'])
  | tuple elems => '(' :: (charsAll elems ++ [')'])
  | func params ret => ' ' :: '(' :: (charsAll params ++ ')' :: ' ' :: ':' :: ' ' :: ret.chars)
  | proc params => ' ' :: '(' :: (charsAll params ++ [')'])
  | dict key value =>
    '\x7b' :: (key.chars ++ ' ' :: '=' :: '>' :: ' ' :: (value.chars ++ ['\x7d']))
  | array elem => '\x7b' :: (elem.chars ++ ['\x7d'])
  | _ => []

/-- Neither a range nor an optional type. -/
def isCore : Ty → Bool
  | range .. | maybe _ => false
  | _ => true

theorem chars_eq_word_tail {ty : Ty} (h : ty.isCore = true) : ty.chars = ty.word ++ ty.tail := by
  cases ty with
  | object name args decl => cases args <;> simp [chars, charsAll, text, word, tail]
  | range | maybe => cases h
  | _ => simp [chars, charsAll, text, word, tail]

/-- What may stand after a type: a mark if `marks` holds, a dot if `dots` holds, and otherwise what
parts it from the next type or ends the type around it. -/
inductive Ends (marks dots : Bool) : List Char → Prop
  | nil : Ends marks dots []
  | comma {r : List Char} : Ends marks dots (',' :: r)
  | paren {r : List Char} : Ends marks dots (')' :: r)
  | brace {r : List Char} : Ends marks dots ('\x7d' :: r)
  | arrow {r : List Char} : Ends marks dots (' ' :: '=' :: r)
  | dot {r : List Char} (h : dots = true) : Ends marks dots ('.' :: r)
  | mark {r : List Char} (h : marks = true) : Ends marks dots ('?' :: r)

namespace Ends

variable {marks dots : Bool} {r : List Char}

theorem relax (h : Ends false dots r) : Ends marks true r := by
  cases h with
  | nil => exact .nil
  | comma => exact .comma
  | paren => exact .paren
  | brace => exact .brace
  | arrow => exact .arrow
  | dot => exact .dot rfl
  | mark h => cases h

theorem not_word (h : Ends marks dots r) : ∀ c ∈ r.head?, isWordChar c = false := by
  cases h <;> simp [isWordChar]

theorem not_mark (h : Ends false dots r) : ∀ c ∈ r.head?, (c == '?') = false := by
  cases h <;> simp_all

theorem not_dot (h : Ends false false r) : '.' ∉ r.head? := by
  cases h <;> simp_all

end Ends

/-- Where two runs of letters of one class end, the same text follows. -/
theorem split_eq {p : Char → Bool} {w w' l l' : List Char} (hw : w.all p = true)
    (hw' : w'.all p = true) (hl : ∀ c ∈ l.head?, p c = false) (hl' : ∀ c ∈ l'.head?, p c = false)
    (h : w ++ l = w' ++ l') : w = w' ∧ l = l' := by
  induction w generalizing w' with
  | nil =>
    cases w' with
    | nil => exact ⟨rfl, h⟩
    | cons c w' =>
      simp only [List.nil_append, List.cons_append] at h
      subst h
      simp_all
  | cons c w ih =>
    cases w' with
    | nil =>
      simp only [List.nil_append, List.cons_append] at h
      subst h
      simp_all
    | cons c' w' =>
      obtain ⟨rfl, hrest⟩ := List.cons.inj h
      simp only [List.all_cons, Bool.and_eq_true] at hw hw'
      obtain ⟨rfl, rfl⟩ := ih hw.2 hw'.2 hrest
      exact ⟨rfl, rfl⟩

/-! ### Optional types and ranges -/

/-- Without the marks around it. -/
def core : Ty → Ty
  | maybe inner => inner.core
  | ty => ty

def marks : Ty → Nat
  | maybe inner => inner.marks + 1
  | _ => 0

/-- Without the ranges around it. -/
def base : Ty → Ty
  | range first _ => first.base
  | ty => ty

def spans : Ty → Nat
  | range first _ => first.spans + 1
  | _ => 0

def marked (ty : Ty) : Nat → Ty
  | 0 => ty
  | n + 1 => maybe (ty.marked n)

def spanned (ty : Ty) : Nat → Ty
  | 0 => ty
  | n + 1 => range (ty.spanned n) (ty.spanned n)

theorem marked_core (ty : Ty) : ty.core.marked ty.marks = ty := by
  fun_induction core ty with
  | case1 inner ih => simp only [marks, marked, ih]
  | case2 ty hty =>
    cases ty with
    | maybe inner => exact (hty inner rfl).elim
    | _ => rfl

theorem marked_beq {a b : Ty} (h : a == b) (n : Nat) : a.marked n == b.marked n := by
  induction n with
  | zero => exact h
  | succ n ih => exact ih

theorem range_beq {a b c d : Ty} (h : a == c) (h' : b == d) : range a b == range c d :=
  Bool.and_eq_true_iff.mpr ⟨h, h'⟩

theorem spanned_beq {a b : Ty} (h : a == b) (n : Nat) : a.spanned n == b.spanned n := by
  induction n with
  | zero => exact h
  | succ n ih => exact range_beq ih ih

/-- The ends of a range are equal, so it is its base spanned once more than its first end is. -/
theorem beq_spanned_base {ty : Ty} (h : ty.isLegible true = true) :
    ty == ty.base.spanned ty.spans := by
  fun_induction base ty with
  | case1 first last ih =>
    obtain ⟨_, hfirst, _, hends⟩ := isLegible_range.mp h
    have hbase := ih hfirst
    exact range_beq hbase (BEq.trans (BEq.symm hends) hbase)
  | case2 ty hty =>
    cases ty with
    | range first last => exact (hty first last rfl).elim
    | _ => exact BEq.rfl

theorem base_isRange (ty : Ty) : ty.base.isRange = false := by
  fun_induction base ty with
  | case1 first last ih => exact ih
  | case2 ty hty =>
    cases ty with
    | range first last => exact (hty first last rfl).elim
    | _ => rfl

theorem isLegible_base {ty : Ty} (h : ty.isLegible true = true) :
    ty.base.isLegible true = true := by
  fun_induction base ty with
  | case1 first last ih =>
    obtain ⟨_, hfirst, _, _⟩ := isLegible_range.mp h
    exact ih hfirst
  | case2 ty hty => exact h

theorem isLegible_core {ty : Ty} (h : ty.isLegible true = true) :
    ty.core.isLegible true = true := by
  fun_induction core ty with
  | case1 inner ih => exact ih (isLegible_relax (isLegible_maybe.mp h).2)
  | case2 ty hty => exact h

theorem isRange_of_isLegible {ty : Ty} (h : ty.isLegible false = true) : ty.isRange = false := by
  cases ty with
  | range first last => cases (isLegible_range.mp h).1
  | _ => rfl

theorem isCore_core {ty : Ty} (h : ty.isLegible true = true) (hrange : ty.isRange = false) :
    ty.core.isCore = true := by
  fun_induction core ty with
  | case1 inner ih =>
    have hinner := (isLegible_maybe.mp h).2
    exact ih (isLegible_relax hinner) (isRange_of_isLegible hinner)
  | case2 ty hty =>
    cases ty with
    | maybe inner => exact (hty inner rfl).elim
    | range first last => cases hrange
    | _ => rfl

theorem core_isFunc {inner : Ty} (h : (maybe inner).isLegible true = true) :
    inner.core.isFunc = false := by
  fun_induction core inner with
  | case1 inner ih => exact ih (isLegible_relax (isLegible_maybe.mp h).2)
  | case2 ty hty => exact (isLegible_maybe.mp h).1

theorem chars_marked (ty : Ty) (n : Nat) :
    (ty.marked n).chars = ty.chars ++ List.replicate n '?' := by
  induction n with
  | zero => simp [marked]
  | succ n ih => rw [marked, chars_maybe, ih, List.append_assoc, List.replicate_succ']

/-- The text `w` again and again, with dots before it. -/
def echoes (n : Nat) (w : List Char) : List Char :=
  (List.replicate n ('.' :: '.' :: w)).flatten

theorem echoes_add (m n : Nat) (w : List Char) : echoes (m + n) w = echoes m w ++ echoes n w := by
  simp only [echoes, List.replicate_add, List.flatten_append]

theorem echoes_succ (n : Nat) (w : List Char) :
    echoes (n + 1) w = '.' :: '.' :: (w ++ echoes n w) := rfl

/-- How often the text of a type stands again in that of its `n`-fold range. -/
def copies : Nat → Nat
  | 0 => 0
  | n + 1 => copies n + (copies n + 1)

theorem copies_injective {m n : Nat} (h : copies m = copies n) : m = n := by
  induction m generalizing n with
  | zero => cases n <;> simp_all [copies]
  | succ m ih =>
    cases n with
    | zero => simp [copies] at h
    | succ n =>
      simp only [copies] at h
      exact congrArg (· + 1) (ih (by omega))

theorem chars_spanned (ty : Ty) (n : Nat) :
    (ty.spanned n).chars = ty.chars ++ echoes (copies n) ty.chars := by
  induction n with
  | zero => simp [spanned, copies, echoes]
  | succ n ih =>
    rw [spanned, chars_range, ih, copies, echoes_add, echoes_succ, List.append_assoc]

theorem echoes_eq {m n : Nat} {w r r' : List Char} (hr : '.' ∉ r.head?) (hr' : '.' ∉ r'.head?)
    (h : echoes m w ++ r = echoes n w ++ r') : m = n ∧ r = r' := by
  induction m generalizing n with
  | zero =>
    cases n with
    | zero => exact ⟨rfl, h⟩
    | succ n =>
      rw [show r = _ from h] at hr
      exact absurd rfl hr
  | succ m ih =>
    cases n with
    | zero =>
      rw [show r' = _ from h.symm] at hr'
      exact absurd rfl hr'
    | succ n =>
      simp only [echoes_succ, List.cons_append, List.append_assoc, List.cons.injEq, true_and,
        List.append_cancel_left_eq] at h
      obtain ⟨rfl, rfl⟩ := ih h
      exact ⟨rfl, rfl⟩

/-! ### Reading one type after another -/

/-- Where the text of `c` and what may follow it is also that of another type, that is the same type
and the same text follows. -/
def ReadsCore (c : Ty) : Prop :=
  ∀ ⦃c' : Ty⦄ ⦃r r' : List Char⦄, c'.isCore = true → c'.isLegible true = true →
    Ends (!c.isFunc) true r → Ends (!c'.isFunc) true r' → c.chars ++ r = c'.chars ++ r' →
    c == c' ∧ r = r'

def Reads (s : Ty) : Prop :=
  ∀ ⦃t : Ty⦄ ⦃r r' : List Char⦄, t.isLegible true = true → Ends false false r →
    Ends false false r' → s.chars ++ r = t.chars ++ r' → s == t ∧ r = r'

def ReadsAll (tys : List Ty) : Prop :=
  ∀ ⦃tys' : List Ty⦄ ⦃r r' : List Char⦄, areLegible true tys' = true →
    charsAll tys ++ ')' :: r = charsAll tys' ++ ')' :: r' → sameAll tys tys' = true ∧ r = r'

theorem Ends.marked {ty : Ty} {r : List Char} (h : ty.isLegible true = true)
    (hr : Ends false true r) :
    Ends (!ty.core.isFunc) true (List.replicate ty.marks '?' ++ r) := by
  cases ty with
  | maybe inner => exact .mark (by simp only [core, core_isFunc h, Bool.not_false])
  | _ => exact hr.relax

theorem chars_core (ty : Ty) : ty.chars = ty.core.chars ++ List.replicate ty.marks '?' := by
  rw [← chars_marked, marked_core]

/-- Outside a range, the marks after the core are counted. -/
theorem ReadsCore.marked {u v : Ty} {r r' : List Char} (hcore : u.core.ReadsCore)
    (hu : u.isLegible true = true) (hv : v.isLegible true = true) (hrange : v.isRange = false)
    (hr : Ends false true r) (hr' : Ends false true r') (h : u.chars ++ r = v.chars ++ r') :
    u == v ∧ r = r' := by
  rw [chars_core u, chars_core v, List.append_assoc, List.append_assoc] at h
  obtain ⟨hsame, hrest⟩ := hcore (isCore_core hv hrange) (isLegible_core hv) (hr.marked hu)
    (hr'.marked hv) h
  obtain ⟨hmarks, rfl⟩ := split_eq (by simp) (by simp) hr.not_mark hr'.not_mark hrest
  have hcount : u.marks = v.marks := by simpa using congrArg List.length hmarks
  refine ⟨?_, rfl⟩
  rw [← marked_core u, ← marked_core v, hcount]
  exact marked_beq hsame v.marks

theorem chars_base {ty : Ty} (h : ty.isLegible true = true) :
    ty.chars = ty.base.chars ++ echoes (copies ty.spans) ty.base.chars := by
  rw [← chars_spanned]
  exact chars_eq_of_beq (beq_spanned_base h)

theorem Ends.echoes {r : List Char} (n : Nat) (w : List Char) (hr : Ends false false r) :
    Ends false true (echoes n w ++ r) := by
  cases n with
  | zero => exact hr.relax
  | succ n => exact .dot rfl

/-- Once the base is read, its repetitions are counted. -/
theorem ReadsCore.reads {s : Ty} (hcore : s.base.core.ReadsCore) (hs : s.isLegible true = true) :
    s.Reads := by
  intro t r r' ht hr hr' h
  rw [chars_base hs, chars_base ht, List.append_assoc, List.append_assoc] at h
  obtain ⟨hsame, hrest⟩ := hcore.marked (isLegible_base hs) (isLegible_base ht) (base_isRange t)
    (hr.echoes _ _) (hr'.echoes _ _) h
  rw [chars_eq_of_beq hsame] at hrest
  obtain ⟨hcopies, rfl⟩ := echoes_eq hr.not_dot hr'.not_dot hrest
  refine ⟨?_, rfl⟩
  have hbase := spanned_beq hsame s.spans
  have hspans := BEq.trans (beq_spanned_base hs) hbase
  rw [copies_injective hcopies] at hspans
  exact BEq.trans hspans (BEq.symm (beq_spanned_base ht))

theorem isClassName_word {name : String} (h : isClassName name = true) :
    name.toList ≠ [] ∧ name.toList.all isWordChar = true ∧ Builtin.ofName? name = none := by
  simp only [isClassName, Bool.and_eq_true, Bool.not_eq_true', List.isEmpty_eq_false_iff,
    Option.isNone_iff_eq_none] at h
  exact ⟨h.1.1, h.1.2, h.2⟩

theorem chars_core_ne_paren {c : Ty} (hcore : c.isCore = true) (hc : c.isLegible true = true) :
    ∃ x l, c.chars = x :: l ∧ x ≠ ')' := by
  rw [chars_eq_word_tail hcore]
  cases c with
  | builtin b => cases b <;> exact ⟨_, _, rfl, by decide⟩
  | object name args decl =>
    obtain ⟨hne, hall, -⟩ := isClassName_word (isLegible_object.mp hc).1
    obtain ⟨x, l, hl⟩ := List.exists_cons_of_ne_nil hne
    rw [hl, List.all_cons, Bool.and_eq_true] at hall
    refine ⟨x, l ++ _, by rw [word, hl]; rfl, ?_⟩
    rintro rfl
    exact absurd hall.1 (by decide)
  | tuple | func | proc | dict | array => exact ⟨_, _, rfl, by decide⟩
  | range | maybe => cases hcore

/-- No text is empty or begins like the end of a list. -/
theorem charsAll_ne_paren {ty : Ty} {tys : List Ty} {r r' : List Char}
    (h : ty.isLegible true = true) : charsAll (ty :: tys) ++ r ≠ ')' :: r' := by
  have hbase := isLegible_base h
  obtain ⟨x, l, hl, hx⟩ :=
    chars_core_ne_paren (isCore_core hbase (base_isRange ty)) (isLegible_core hbase)
  rw [charsAll_cons, chars_base h, chars_core ty.base, hl]
  intro he
  exact hx (List.cons.inj he).1

theorem readsAll_nil : ReadsAll [] := by
  intro tys' r r' htys' h
  cases tys' with
  | nil => exact ⟨rfl, (List.cons.inj h).2⟩
  | cons t ts =>
    exact absurd h.symm (charsAll_ne_paren (areLegible_cons.mp htys').1)

theorem Ends.charsRest {marks dots : Bool} (tys : List Ty) (r : List Char) :
    Ends marks dots (charsRest tys ++ ')' :: r) := by
  cases tys with
  | nil => exact .paren
  | cons ty tys => exact .comma

theorem readsAll_cons {s : Ty} {ss : List Ty} (hlegible : s.isLegible true = true) (hs : s.Reads)
    (hss : ReadsAll ss) : ReadsAll (s :: ss) := by
  intro tys' r r' htys' h
  cases tys' with
  | nil => exact absurd h (charsAll_ne_paren hlegible)
  | cons t ts =>
    obtain ⟨ht, hts⟩ := areLegible_cons.mp htys'
    rw [charsAll_cons, charsAll_cons, List.append_assoc, List.append_assoc] at h
    obtain ⟨hsame, hrest⟩ := hs ht (.charsRest ss r) (.charsRest ts r') h
    cases ss with
    | nil =>
      cases ts with
      | nil => exact ⟨Bool.and_eq_true_iff.mpr ⟨hsame, rfl⟩, (List.cons.inj hrest).2⟩
      | cons t' ts => exact absurd (List.cons.inj hrest).1 (by decide)
    | cons s' ss =>
      cases ts with
      | nil => exact absurd (List.cons.inj hrest).1 (by decide)
      | cons t' ts =>
        obtain ⟨hsames, rfl⟩ := hss hts (List.cons.inj hrest).2
        exact ⟨Bool.and_eq_true_iff.mpr ⟨hsame, hsames⟩, rfl⟩

/-- What a text begins with tells. Arrays and dictionaries begin alike. -/
inductive Form where
  | builtin | object | tuple | func | proc | braces
  deriving DecidableEq

def form : Ty → Form
  | builtin _ => .builtin
  | object .. => .object
  | tuple _ => .tuple
  | func .. => .func
  | proc _ => .proc
  | dict .. | array _ => .braces
  | range first _ => first.form
  | maybe inner => inner.form

/-- The form of a type whose text is a word and a rest. -/
def Form.ofText (word rest : List Char) : Form :=
  if word = [] then
    if rest.head? = some '(' then .tuple else .braces
  else if (Builtin.ofName? (String.ofList word)).isSome then .builtin
  else if rest.take 2 = [' ', '('] then
    if word = ['f', 'u', 'n', 'c'] then .func else .proc
  else .object

theorem form_eq {c : Ty} {r : List Char} (hcore : c.isCore = true) (hc : c.isLegible true = true)
    (hr : Ends (!c.isFunc) true r) : c.form = Form.ofText c.word (c.tail ++ r) := by
  cases c with
  | builtin b => cases b <;> rfl
  | object name args decl =>
    obtain ⟨hne, -, hnone⟩ := isClassName_word (isLegible_object.mp hc).1
    have htail : ((object name args decl).tail ++ r).take 2 ≠ [' ', '('] := by
      cases args with
      | nil => cases hr <;> simp [tail]
      | cons arg args => simp [tail]
    simp [form, Form.ofText, word, hne, hnone, htail]
  | tuple elems => simp [form, Form.ofText, word, tail]
  | func params ret => rfl
  | proc params => rfl
  | dict key value => simp [form, Form.ofText, word, tail]
  | array elem => simp [form, Form.ofText, word, tail]
  | range | maybe => cases hcore

theorem word_all {c : Ty} (hc : c.isLegible true = true) : c.word.all isWordChar = true := by
  cases c with
  | builtin b => cases b <;> decide
  | object name args decl => exact (isClassName_word (isLegible_object.mp hc).1).2.1
  | _ => rfl

theorem tail_not_word {c : Ty} {marks dots : Bool} {r : List Char} (hr : Ends marks dots r) :
    ∀ x ∈ (c.tail ++ r).head?, isWordChar x = false := by
  cases c with
  | object name args decl =>
    cases args with
    | nil => exact hr.not_word
    | cons arg args => simp [tail, isWordChar]
  | tuple | func | proc | dict | array => simp [tail, isWordChar]
  | _ => exact hr.not_word

/-- The word and the form are read off, so only types of one form are left to compare. -/
theorem ReadsCore.of_form {c : Ty} (hcore : c.isCore = true) (hc : c.isLegible true = true)
    (h : ∀ ⦃c' : Ty⦄ ⦃r r' : List Char⦄, c'.isCore = true → c'.isLegible true = true →
      Ends (!c.isFunc) true r → Ends (!c'.isFunc) true r' → c.form = c'.form → c.word = c'.word →
      c.tail ++ r = c'.tail ++ r' → c == c' ∧ r = r') : c.ReadsCore := by
  intro c' r r' hcore' hc' hr hr' htext
  rw [chars_eq_word_tail hcore, chars_eq_word_tail hcore', List.append_assoc,
    List.append_assoc] at htext
  obtain ⟨hword, htail⟩ := split_eq (word_all hc) (word_all hc') (tail_not_word hr)
    (tail_not_word hr') htext
  refine h hcore' hc' hr hr' ?_ hword htail
  rw [form_eq hcore hc hr, form_eq hcore' hc' hr', hword, htail]

theorem ofName?_name (b : Builtin) : Builtin.ofName? b.name = some b := by
  cases b <;> decide

theorem readsCore_builtin (b : Builtin) : (builtin b).ReadsCore := by
  refine .of_form rfl rfl ?_
  intro c' r r' hcore' _ _ _ hform hword htail
  cases c' with
  | builtin b' =>
    have hname : b.name = b'.name := String.toList_inj.mp hword
    have hsome : some b = some b' := by rw [← ofName?_name b, hname, ofName?_name]
    exact ⟨builtin_beq.mpr (congrArg builtin (Option.some.inj hsome).symm), htail⟩
  | range | maybe => cases hcore'
  | _ => simp [form] at hform

theorem readsCore_object {name : String} {args : List Ty} {decl : Option ClassId}
    (hc : (object name args decl).isLegible true = true) (hargs : ReadsAll args) :
    (object name args decl).ReadsCore := by
  refine .of_form rfl hc ?_
  intro c' r r' hcore' hc' hr hr' hform hword htail
  cases c' with
  | object name' args' decl' =>
    have hname : name = name' := String.toList_inj.mp hword
    have hargs' := (isLegible_object.mp hc').2
    suffices h : sameAll args args' = true ∧ r = r' from
      ⟨Bool.and_eq_true_iff.mpr ⟨beq_iff_eq.mpr hname, h.1⟩, h.2⟩
    -- what stands after a class without arguments is no opening bracket
    cases args with
    | nil =>
      cases args' with
      | nil => exact ⟨rfl, htail⟩
      | cons arg' args' =>
        rw [show r = _ from htail] at hr
        cases hr
    | cons arg args =>
      cases args' with
      | nil =>
        rw [show r' = _ from htail.symm] at hr'
        cases hr'
      | cons arg' args' =>
        simp only [tail, List.cons_append, List.append_assoc, List.cons.injEq, true_and] at htail
        exact hargs (areLegible_relax hargs') htail
  | range | maybe => cases hcore'
  | _ => simp [form] at hform

theorem readsCore_tuple {elems : List Ty} (hc : (tuple elems).isLegible true = true)
    (helems : ReadsAll elems) : (tuple elems).ReadsCore := by
  refine .of_form rfl hc ?_
  intro c' r r' hcore' hc' _ _ hform _ htail
  cases c' with
  | tuple elems' =>
    simp only [tail, List.cons_append, List.append_assoc, List.cons.injEq, true_and] at htail
    exact helems hc' htail
  | range | maybe => cases hcore'
  | _ => simp [form] at hform

theorem readsCore_proc {params : List Ty} (hc : (proc params).isLegible true = true)
    (hparams : ReadsAll params) : (proc params).ReadsCore := by
  refine .of_form rfl hc ?_
  intro c' r r' hcore' hc' _ _ hform _ htail
  cases c' with
  | proc params' =>
    simp only [tail, List.cons_append, List.append_assoc, List.cons.injEq, true_and] at htail
    exact hparams (areLegible_relax hc') htail
  | range | maybe => cases hcore'
  | _ => simp [form] at hform

/-- A function ends with its return type, which is no range, so dots after it are not its own. -/
theorem readsCore_func {params : List Ty} {ret : Ty}
    (hc : (func params ret).isLegible true = true) (hparams : ReadsAll params)
    (hret : ret.core.ReadsCore) : (func params ret).ReadsCore := by
  refine .of_form rfl hc ?_
  intro c' r r' hcore' hc' hr hr' hform _ htail
  cases c' with
  | func params' ret' =>
    obtain ⟨_, hplain⟩ := isLegible_func.mp hc
    obtain ⟨hparams', hplain'⟩ := isLegible_func.mp hc'
    simp only [tail, List.cons_append, List.append_assoc, List.cons.injEq, true_and] at htail
    obtain ⟨hsames, hrest⟩ := hparams (areLegible_relax hparams') htail
    simp only [List.cons.injEq, true_and] at hrest
    obtain ⟨hsame, rfl⟩ := hret.marked (isLegible_relax hplain) (isLegible_relax hplain')
      (isRange_of_isLegible hplain') hr hr' hrest
    exact ⟨Bool.and_eq_true_iff.mpr ⟨hsames, hsame⟩, rfl⟩
  | range | maybe => cases hcore'
  | _ => simp [form] at hform

theorem readsCore_dict {key value : Ty} (hc : (dict key value).isLegible true = true)
    (hkey : key.Reads) (hvalue : value.Reads) : (dict key value).ReadsCore := by
  refine .of_form rfl hc ?_
  intro c' r r' hcore' hc' _ _ hform _ htail
  cases c' with
  | dict key' value' =>
    obtain ⟨hkey', hvalue'⟩ := isLegible_dict.mp hc'
    simp only [tail, List.cons_append, List.append_assoc, List.cons.injEq, true_and] at htail
    obtain ⟨hsame, hrest⟩ := hkey hkey' .arrow .arrow htail
    simp only [List.cons.injEq, true_and] at hrest
    obtain ⟨hsame', hrest⟩ := hvalue hvalue' .brace .brace hrest
    exact ⟨Bool.and_eq_true_iff.mpr ⟨hsame, hsame'⟩, (List.cons.inj hrest).2⟩
  | array elem =>
    simp only [isLegible] at hc'
    simp only [tail, List.cons_append, List.append_assoc, List.cons.injEq, true_and] at htail
    obtain ⟨-, hrest⟩ := hkey hc' .arrow .brace htail
    exact absurd (List.cons.inj hrest).1 (by decide)
  | range | maybe => cases hcore'
  | _ => simp [form] at hform

theorem readsCore_array {elem : Ty} (hc : (array elem).isLegible true = true)
    (helem : elem.Reads) : (array elem).ReadsCore := by
  refine .of_form rfl hc ?_
  intro c' r r' hcore' hc' _ _ hform _ htail
  cases c' with
  | dict key value =>
    obtain ⟨hkey, _⟩ := isLegible_dict.mp hc'
    simp only [tail, List.cons_append, List.append_assoc, List.cons.injEq, true_and] at htail
    obtain ⟨-, hrest⟩ := helem hkey .brace .arrow htail
    exact absurd (List.cons.inj hrest).1 (by decide)
  | array elem' =>
    simp only [isLegible] at hc'
    simp only [tail, List.cons_append, List.append_assoc, List.cons.injEq, true_and] at htail
    obtain ⟨hsame, hrest⟩ := helem hc' .brace .brace htail
    exact ⟨hsame, (List.cons.inj hrest).2⟩
  | range | maybe => cases hcore'
  | _ => simp [form] at hform

theorem base_eq_self {ty : Ty} (h : ty.isRange = false) : ty.base = ty := by
  cases ty with
  | range first last => cases h
  | _ => rfl

mutual

theorem readsCore_of_isLegible : ∀ {s : Ty}, s.isLegible true = true → s.base.core.ReadsCore
  | builtin b, _ => readsCore_builtin b
  | object .., h => readsCore_object h
      (readsAll_of_areLegible (areLegible_relax (isLegible_object.mp h).2))
  | tuple _, h => readsCore_tuple h (readsAll_of_areLegible h)
  | func .., h => by
    obtain ⟨hparams, hplain⟩ := isLegible_func.mp h
    have hret := readsCore_of_isLegible (isLegible_relax hplain)
    rw [base_eq_self (isRange_of_isLegible hplain)] at hret
    exact readsCore_func h (readsAll_of_areLegible (areLegible_relax hparams)) hret
  | proc _, h => readsCore_proc h (readsAll_of_areLegible (areLegible_relax h))
  | dict .., h => by
    obtain ⟨hkey, hvalue⟩ := isLegible_dict.mp h
    exact readsCore_dict h ((readsCore_of_isLegible hkey).reads hkey)
      ((readsCore_of_isLegible hvalue).reads hvalue)
  | array elem, h => readsCore_array h ((readsCore_of_isLegible (s := elem) h).reads h)
  | range first _, h => by
    obtain ⟨_, hfirst, _, _⟩ := isLegible_range.mp h
    exact readsCore_of_isLegible (s := first) hfirst
  | maybe inner, h => by
    obtain ⟨_, hplain⟩ := isLegible_maybe.mp h
    have hinner := readsCore_of_isLegible (isLegible_relax hplain)
    rw [base_eq_self (isRange_of_isLegible hplain)] at hinner
    exact hinner

theorem readsAll_of_areLegible : ∀ {tys : List Ty}, areLegible true tys = true → ReadsAll tys
  | [], _ => readsAll_nil
  | _ :: _, h => by
    obtain ⟨hty, htys⟩ := areLegible_cons.mp h
    exact readsAll_cons hty ((readsCore_of_isLegible hty).reads hty) (readsAll_of_areLegible htys)

end

/-- Legible types with the same text are equal. -/
theorem text_injective {s t : Ty} (hs : s.isLegible true = true) (ht : t.isLegible true = true)
    (h : s.text = t.text) : (s == t) = true := by
  have hchars : s.chars ++ [] = t.chars ++ [] := by simp only [chars, h]
  exact ((readsCore_of_isLegible hs).reads hs ht .nil .nil hchars).1

/-- Functions, found under ranges of optional points. -/
def chart (point : Option ClassId) : Ty :=
  let place := maybe (object "point" [string, unit] point)
  dict (range place place) (array (func [tuple [char, place], proc []] (maybe bool)))

theorem text_injective_chart : (chart none).isLegible true = true ∧
    (chart (some 3)).isLegible true = true ∧ (chart none).text = (chart (some 3)).text ∧
    (chart none == chart (some 3)) = true :=
  ⟨by decide, by decide, by decide, text_injective (by decide) (by decide) (by decide)⟩

-- A mark after a function is that of its return type.
example : (maybe (func [] bool)).text = (func [] (maybe bool)).text := by decide

end Ty

end Semant
