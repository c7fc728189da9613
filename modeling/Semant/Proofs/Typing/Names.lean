import Semant.Proofs.Typing.Judgment
import Semant.Typing.Expr

/-! Nested scopes seen as one list of names. Opening a scope does not change the list, and closing
it gives back the list from before. -/

namespace Semant.Env

def context (env : Env) : Context :=
  env.frames.flatten

theorem lookup?_eq (env : Env) (name : String) : env.lookup? name = env.context.lookup name := by
  simp only [lookup?, context]
  induction env.frames with
  | nil => rfl
  | cons frame frames ih =>
    rw [List.findSome?_cons, List.flatten_cons, List.lookup_append, ← ih]
    cases frame.lookup name <;> rfl

@[simp]
theorem context_push (env : Env) : env.push.context = env.context := rfl

@[simp]
theorem context_define (env : Env) (name : String) (binding : Binding) :
    (env.define name binding).context = (name, binding) :: env.context := rfl

theorem pop_eq {inner outer : Env} (h : inner.enclosing = outer.frames) : inner.pop = outer := by
  simp only [pop, h, frames]

end Semant.Env

theorem Semant.Expr.functionName?_eq_some {env : Env} {e : Expr} {name : String} :
    e.functionName? env = some name ↔
      ∃ slot loc, e = .var name slot loc ∧ env.context.lookup name = none := by
  cases e with
  | var other slot loc =>
    rw [Expr.functionName?, Env.lookup?_eq]
    cases hb : env.context.lookup other with
    | none =>
      constructor
      · rintro ⟨⟩
        exact ⟨slot, loc, rfl, hb⟩
      · rintro ⟨_, _, ⟨⟩, _⟩
        rfl
    | some =>
      constructor
      · rintro ⟨⟩
      · rintro ⟨_, _, ⟨⟩, hn⟩
        rw [hn] at hb
        cases hb
  | _ => simp [Expr.functionName?]
