import Semant.Proofs.Outcome
import Semant.Proofs.TypeEquality
import Semant.Proofs.Typing.Names

/-! The rule for each kind of node accepts exactly what the typing judgment allows. -/

namespace Semant

open Outcome

theorem reject_ne_ok {α : Type} {loc : Location} {cause : Cause} {a : α} :
    reject loc cause = .ok a ↔ False := by
  simp [reject]

theorem Slot.get?_eq_some {α : Type} {slot : Slot α} {a : α} :
    slot.get? = some a ↔ slot = .resolved a := by
  cases slot <;> simp [get?]

theorem Expr.type_eq_ok {e : Expr} {ty : Ty} : e.type = .ok ty ↔ e.ty = .resolved ty := by
  rw [← Slot.get?_eq_some]
  unfold Expr.type
  split <;> simp_all

namespace Typing

theorem condition_eq_ok {what : String} {e : Expr} :
    condition what e = .ok () ↔ e.ty = .resolved .bool := by
  simp only [condition, bind_eq_ok, Expr.type_eq_ok]
  constructor
  · rintro ⟨ty, he, h⟩
    split at h
    · rename_i hb
      rwa [Ty.beq_builtin.mp hb] at he
    · simp [reject_ne_ok] at h
  · intro he
    exact ⟨_, he, by simp⟩

theorem array_eq_ok {tys : List Ty} {loc : Location} {ty : Ty} :
    array tys loc = .ok ty ↔
      ∃ first rest, tys = first :: rest ∧ (∀ other ∈ rest, other == first) ∧ ty = .array first := by
  cases tys with
  | nil => simp [array, reject_ne_ok]
  | cons first rest =>
    simp only [array]
    split
    · rename_i other ho
      simp only [reject_ne_ok, false_iff]
      rintro ⟨_, _, he, hall, _⟩
      cases he
      have hne := List.find?_some ho
      have heq := hall other (List.mem_of_find?_eq_some ho)
      simp [bne, heq] at hne
    · rename_i hn
      have hall : ∀ other ∈ rest, other == first := by simpa [bne] using hn
      constructor
      · intro h
        exact ⟨first, rest, rfl, hall, by simpa using h.symm⟩
      · rintro ⟨_, _, he, _, rfl⟩
        cases he
        rfl

theorem dict_eq_ok {tys : List (Ty × Ty)} {loc : Location} {ty : Ty} :
    dict tys loc = .ok ty ↔
      ∃ key value rest, tys = (key, value) :: rest ∧
        (∀ other ∈ rest, other.1 == key ∧ other.2 == value) ∧ ty = .dict key value := by
  cases tys with
  | nil => simp [dict, reject_ne_ok]
  | cons first rest =>
    obtain ⟨key, value⟩ := first
    simp only [dict]
    split
    · rename_i k v ho
      simp only [reject_ne_ok, false_iff]
      rintro ⟨_, _, _, he, hall, _⟩
      cases he
      have hne := List.find?_some ho
      have heq := hall (k, v) (List.mem_of_find?_eq_some ho)
      simp [bne, heq] at hne
    · rename_i hn
      have hall : ∀ other ∈ rest, other.1 == key ∧ other.2 == value := by
        simpa [bne] using hn
      constructor
      · intro h
        exact ⟨key, value, rest, rfl, hall, by simpa using h.symm⟩
      · rintro ⟨_, _, _, he, _, rfl⟩
        cases he
        rfl

theorem call_eq_ok {callee : Ty} {args : List Ty} {loc : Location} {ty : Ty} :
    call callee args loc = .ok ty ↔ callee.Applies args ty := by
  constructor
  · intro h
    unfold call at h
    split at h
    · split at h
      · cases h
        exact .func ‹_›
      · simp [reject_ne_ok] at h
    · split at h
      · cases h
        exact .proc ‹_›
      · simp [reject_ne_ok] at h
    · simp [reject_ne_ok] at h
  · rintro (h | h) <;> simp [call, h]

theorem index_eq_ok {child position : Ty} {e : Expr} {loc : Location} {ty : Ty} :
    index child position e loc = .ok ty ↔ child.Holds position e ty := by
  constructor
  · intro h
    unfold index at h
    split at h
    · split at h
      · cases h
        exact .array ‹_›
      · simp [reject_ne_ok] at h
    · split at h
      · cases h
        exact .string ‹_›
      · simp [reject_ne_ok] at h
    · split at h
      · cases h
        exact .dict ‹_›
      · simp [reject_ne_ok] at h
    · unfold element at h
      split at h
      · split at h
        · split at h
          · rename_i found
            cases h
            obtain ⟨n, hn, hty⟩ := Option.bind_eq_some_iff.mp found
            exact .tuple hn hty
          · simp [reject_ne_ok] at h
        · simp [reject_ne_ok] at h
      · simp [reject_ne_ok] at h
    · simp [reject_ne_ok] at h
  · rintro (h | h | h | ⟨hn, hty⟩)
    · simp [index, h]
    · simp [index, h]
    · simp [index, h]
    · rename_i value _ _ _
      have hi : value.isInteger := by
        cases value <;> simp [Literal.position?] at hn <;> rfl
      simp [index, element, hi, hn, hty]

theorem unary_eq_ok {op : UnaryOp} {operand : Expr} {loc : Location} {ty : Ty} :
    unary op operand loc = .ok ty ↔
      ∃ from_, operand.ty = .resolved from_ ∧ op.Takes from_ ty := by
  simp only [unary, bind_eq_ok, Expr.type_eq_ok]
  constructor
  · rintro ⟨from_, he, h⟩
    cases op with
    | not =>
      obtain ⟨_, hc, h⟩ := bind_eq_ok.mp h
      cases h
      exact ⟨_, condition_eq_ok.mp hc, .not⟩
    | negate =>
      refine ⟨from_, he, ?_⟩
      dsimp only at h
      split at h
      · cases h
        exact .negate ‹_›
      · simp [reject_ne_ok] at h
  · rintro ⟨from_, he, h | h⟩
    · exact ⟨_, he, by simp [condition_eq_ok.mpr he]⟩
    · exact ⟨_, he, by simp [h]⟩

theorem binary_eq_ok {op : BinaryOp} {lhs rhs : Ty} {loc : Location} {ty : Ty} :
    binary op lhs rhs loc = .ok ty ↔ op.Takes lhs rhs ty := by
  constructor
  · intro h
    unfold binary at h
    split at h
    · simp [reject_ne_ok] at h
    · rename_i hsame
      have heq : lhs == rhs := by simpa [bne] using hsame
      split at h
      · split at h
        · rename_i hl hb
          cases h
          have hlhs := Ty.beq_builtin.mp hb
          subst hlhs
          rw [Ty.builtin_beq.mp heq]
          exact .logical hl
        · simp [reject_ne_ok] at h
      · split at h
        · cases h
          exact .comparison ‹_› heq
        · split at h
          · cases h
            subst op
            exact .range heq
          · split at h
            · rename_i hl hc hr hty
              cases h
              have hop : op ∈ [BinaryOp.add, .sub, .mul, .div, .mod] := by
                cases op <;> simp_all [BinaryOp.isLogical, BinaryOp.isComparison]
              rcases Bool.or_eq_true_iff.mp hty with hn | hs
              · have hrhs : rhs = lhs := by
                  cases lhs <;> simp [Ty.isNumeric] at hn
                  exact Ty.builtin_beq.mp heq
                rw [hrhs]
                exact .arithmetic hop hn
              · obtain ⟨ha, hs⟩ := Bool.and_eq_true_iff.mp hs
                have hlhs := Ty.beq_builtin.mp hs
                subst hlhs
                rw [Ty.builtin_beq.mp heq, eq_of_beq ha]
                exact .concatenation
            · simp [reject_ne_ok] at h
  · intro h
    cases h with
    | logical hl => simp [binary, bne, hl]
    | comparison hc heq =>
      have hl : op.isLogical = false := by cases op <;> simp_all [BinaryOp.isComparison]; all_goals rfl
      simp [binary, bne, heq, hl, hc]
    | range heq => simp [binary, bne, heq, BinaryOp.isLogical, BinaryOp.isComparison]
    | arithmetic hop hn =>
      have hl : op.isLogical = false := by cases op <;> simp_all [BinaryOp.isLogical]
      have hc : op.isComparison = false := by cases op <;> simp_all [BinaryOp.isComparison]
      have hr : op ≠ .range := by rintro rfl; simp at hop
      simp [binary, bne, hl, hc, hr, hn]
    | concatenation => rfl

theorem choice_eq_ok {cond yes no : Expr} {loc : Location} {ty : Ty} :
    choice cond yes no loc = .ok ty ↔ cond.ty = .resolved .bool ∧ yes.ty = .resolved ty ∧
      ∃ other, no.ty = .resolved other ∧ ty == other := by
  simp only [choice, bind_eq_ok, Expr.type_eq_ok]
  constructor
  · rintro ⟨_, hc, yesTy, hy, noTy, hn, h⟩
    split at h
    · cases h
      exact ⟨condition_eq_ok.mp hc, hy, noTy, hn, ‹_›⟩
    · simp [reject_ne_ok] at h
  · rintro ⟨hc, hy, other, hn, heq⟩
    exact ⟨(), condition_eq_ok.mpr hc, ty, hy, other, hn, by simp [heq]⟩

theorem ascription_eq_ok {found written : Ty} {loc : Location} {ty : Ty} :
    ascription found written loc = .ok ty ↔ found == written ∧ ty = written := by
  unfold ascription
  split
  · rename_i heq
    exact ⟨fun h => ⟨heq, (Except.ok.inj h).symm⟩, fun h => congrArg _ h.2.symm⟩
  · rename_i hne
    exact ⟨fun h => (reject_ne_ok.mp h).elim, fun h => (hne h.1).elim⟩

theorem spread_eq_ok {values : List Ty} {n : Nat} {loc : Location} {parts : List Ty} :
    spread values n loc = .ok parts ↔ Spreads values n parts := by
  constructor
  · intro h
    unfold spread at h
    split at h
    · cases h
      exact .each ‹_›
    · rename_i hne
      split at h
      · split at h
        · cases h
          exact .tuple ‹_› (by simpa [eq_comm] using hne)
        · simp [reject_ne_ok] at h
      · simp [reject_ne_ok] at h
  · rintro (h | ⟨h, hne⟩)
    · simp [spread, h]
    · simp [spread, h, Ne.symm hne]

theorem declared_eq_ok {scope : Scope} {b : Binder} {value : Option Ty} {ty : Ty} :
    declared scope b value = .ok ty ↔ b.Declares scope value ty := by
  unfold declared
  constructor
  · intro h
    split at h
    · rename_i w value hw
      obtain ⟨found, hf, h⟩ := bind_eq_ok.mp h
      split at h
      · split at h
        · cases h
          exact .written hw hf (by simpa using ‹_›)
        · simp [reject_ne_ok] at h
      · cases h
        exact .written hw hf (by simp)
    · cases h
      exact .inferred ‹_›
    · simp [reject_ne_ok] at h
  · rintro (⟨hw, hf, hv⟩ | hw)
    · cases value with
      | none => simp [hw, hf]
      | some v => simp [hw, hf, hv v rfl]
    · simp [hw]

theorem iterated_eq_ok {range : Expr} {elem : Ty} :
    iterated range = .ok elem ↔ ∃ ty, range.ty = .resolved ty ∧ ty.Iterates elem := by
  simp only [iterated, bind_eq_ok, Expr.type_eq_ok]
  constructor
  · rintro ⟨ty, he, h⟩
    refine ⟨ty, he, ?_⟩
    split at h
    · cases h; exact .array
    · cases h; exact .range
    · cases h; exact .dict
    · simp [reject_ne_ok] at h
  · rintro ⟨ty, he, h⟩
    exact ⟨ty, he, by cases h <;> rfl⟩

theorem loopVariable_eq_ok {scope : Scope} {b : Binder} {elem ty : Ty} :
    loopVariable scope b elem = .ok ty ↔ b.Loops scope elem ty := by
  unfold loopVariable
  constructor
  · intro h
    split at h
    · cases h
      exact .inferred ‹_›
    · obtain ⟨found, hf, h⟩ := bind_eq_ok.mp h
      split at h
      · cases h
        exact .written ‹_› hf ‹_›
      · simp [reject_ne_ok] at h
  · rintro (⟨hw, hf, heq⟩ | hw)
    · simp [hw, hf, heq]
    · simp [hw]

theorem whenValue_eq_ok {target : Ty} {e : Expr} :
    whenValue target e = .ok () ↔ ∃ ty, e.ty = .resolved ty ∧ ty == target := by
  simp only [whenValue, bind_eq_ok, Expr.type_eq_ok]
  refine exists_congr fun ty => and_congr_right fun _ => ?_
  split <;> simp_all [reject_ne_ok]

theorem result_eq_ok {symbol : FuncSymbol} {ret : Option Ty} {loc : Location} {ty : Ty} :
    result symbol ret loc = .ok ty ↔
      (symbol.kind = .proc ∧ ty = .unit) ∨ (symbol.kind = .func ∧ ret = some ty) := by
  unfold result
  split <;> rename_i hk
  · simp [hk, eq_comm]
  · simp [hk]
  · simp [hk, reject_ne_ok]

theorem assigned_eq_ok {env : Env} {target : Expr} {value : Ty} :
    assigned env target value = .ok () ↔
      target.Assignable env.context ∧ ∃ ty, target.ty = .resolved ty ∧ ty == value := by
  have ha : assignable env target = .ok () ↔ target.Assignable env.context := by
    unfold assignable
    split
    · rename_i name _ _
      simp only [Expr.Assignable, ← Env.lookup?_eq]
      cases env.lookup? name with
      | none => simp
      | some binding => cases h : binding.isVar <;> simp [h, reject_ne_ok]
    · rename_i hv
      cases target <;> simp [Expr.Assignable] at hv ⊢
  simp only [assigned, bind_eq_ok, Expr.type_eq_ok]
  constructor
  · rintro ⟨_, hassign, ty, he, h⟩
    refine ⟨ha.mp hassign, ty, he, ?_⟩
    split at h
    · assumption
    · simp [reject_ne_ok] at h
  · rintro ⟨hassign, ty, he, heq⟩
    exact ⟨(), ha.mpr hassign, ty, he, by simp [heq]⟩

end Typing

theorem Scope.returnType?_eq_some {σ : Scope} {id : SymbolId} {ty : Ty} :
    σ.returnType? id = some ty ↔ ∃ f, σ.functions[id]? = some f ∧ f.ret = .resolved ty := by
  simp only [Scope.returnType?, Option.bind_eq_some_iff, Slot.get?_eq_some]

end Semant
