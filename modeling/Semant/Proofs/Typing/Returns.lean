import Semant.Proofs.Typing.Rules

/-! The return statements of a function, one after another. The first one fixes the return type of
a function that has none, and all others have to agree. -/

namespace Semant

def Returns.Accepts (r : Returns) (tys : List Ty) (r' : Returns) : Prop :=
  (r.kind = .proc → tys = []) ∧
    ((r.expected = none ∧ r' = { r with expected := some (returnedType tys) }) ∨
      ∃ ty, r.expected = some ty ∧ ty == returnedType tys ∧ r' = r)

inductive Returned : Option Returns → List (List Ty) → Option Returns → Prop
  | nil {r : Option Returns} : Returned r [] r
  | cons {r r₁ : Returns} {r₂ : Option Returns} {tys : List Ty} {rets : List (List Ty)} :
      r.Accepts tys r₁ → Returned (some r₁) rets r₂ → Returned (some r) (tys :: rets) r₂

theorem Typing.returned_some (r : Returns) (tys : List Ty) (loc : Location) :
    returned (some r) tys loc =
      if r.kind = .proc ∧ tys ≠ [] then reject loc (.procedureReturns r.name)
      else
        match r.expected with
        | none => .ok { r with expected := some (returnedType tys) }
        | some expected =>
          if expected == returnedType tys then .ok r
          else reject loc (.returnType r.name expected (returnedType tys)) := by
  rcases tys with _ | ⟨_, _ | _⟩ <;> rfl

theorem Typing.returned_eq_ok {r : Option Returns} {tys : List Ty} {loc : Location} {r' : Returns} :
    returned r tys loc = .ok r' ↔ ∃ r₀, r = some r₀ ∧ r₀.Accepts tys r' := by
  cases r with
  | none => simp [returned, reject_ne_ok]
  | some r =>
    simp only [returned_some, Option.some.injEq, exists_eq_left', Returns.Accepts]
    split
    · rename_i hp
      exact ⟨fun h => (reject_ne_ok.mp h).elim, fun h => (hp.2 (h.1 hp.1)).elim⟩
    · rename_i hp
      have hv : r.kind = .proc → tys = [] := by simpa using hp
      cases he : r.expected with
      | none =>
        constructor
        · intro h
          exact ⟨hv, .inl ⟨rfl, (Except.ok.inj h).symm⟩⟩
        · rintro ⟨_, ⟨_, rfl⟩ | ⟨_, hn, _⟩⟩
          · rfl
          · cases hn
      | some expected =>
        dsimp only
        split
        · rename_i heq
          constructor
          · intro h
            exact ⟨hv, .inr ⟨expected, rfl, heq, (Except.ok.inj h).symm⟩⟩
          · rintro ⟨_, ⟨hn, _⟩ | ⟨_, _, _, rfl⟩⟩
            · cases hn
            · rfl
        · rename_i hne
          refine ⟨fun h => (reject_ne_ok.mp h).elim, ?_⟩
          rintro ⟨_, ⟨hn, _⟩ | ⟨_, hty, heq, _⟩⟩
          · cases hn
          · cases hty
            exact (hne heq).elim

namespace Returned

theorem append {r r₁ r₂ : Option Returns} {rets rets' : List (List Ty)}
    (h : Returned r rets r₁) (h' : Returned r₁ rets' r₂) : Returned r (rets ++ rets') r₂ := by
  induction h with
  | nil => exact h'
  | cons ha _ ih => exact .cons ha (ih h')

theorem of_append {r r₂ : Option Returns} {rets rets' : List (List Ty)}
    (h : Returned r (rets ++ rets') r₂) : ∃ r₁, Returned r rets r₁ ∧ Returned r₁ rets' r₂ := by
  induction rets generalizing r with
  | nil => exact ⟨r, .nil, h⟩
  | cons tys rets ih =>
    cases h with
    | cons ha h =>
      obtain ⟨r₁, h₁, h₂⟩ := ih h
      exact ⟨r₁, .cons ha h₁, h₂⟩

/-- Once a type is expected it stays, and every later return statement agrees with it. -/
theorem of_expected {r : Returns} {ret : Ty} (he : r.expected = some ret) {rets : List (List Ty)}
    {r' : Option Returns} :
    Returned (some r) rets r' ↔ r' = some r ∧ (∀ tys ∈ rets, ret == returnedType tys) ∧
      (r.kind = .proc → ∀ tys ∈ rets, tys = []) := by
  induction rets with
  | nil =>
    constructor
    · rintro ⟨⟩
      simp
    · rintro ⟨rfl, _⟩
      exact .nil
  | cons tys rets ih =>
    constructor
    · rintro ⟨⟩
      rename_i r₁ ha h
      obtain ⟨hp, ⟨hn, _⟩ | ⟨ty, hty, heq, rfl⟩⟩ := ha
      · rw [hn] at he
        cases he
      · rw [hty] at he
        cases he
        obtain ⟨rfl, hall, hproc⟩ := ih.mp h
        exact ⟨rfl, List.forall_mem_cons.mpr ⟨heq, hall⟩,
          fun hk => List.forall_mem_cons.mpr ⟨hp hk, hproc hk⟩⟩
    · rintro ⟨rfl, hall, hproc⟩
      rw [List.forall_mem_cons] at hall
      refine .cons ⟨fun hk => hproc hk tys List.mem_cons_self, .inr ⟨ret, he, hall.1, rfl⟩⟩
        (ih.mpr ⟨rfl, hall.2, fun hk t ht => hproc hk t (List.mem_cons_of_mem _ ht)⟩)

end Returned

/-- The return type that a body leaves its function with. -/
def settledReturn (known : Slot Ty) (r : Option Returns) : Ty :=
  known.get?.getD ((r.bind Returns.expected).getD .unit)

theorem Returned.returning {r : Returns} {known : Slot Ty} (hr : r.expected = known.get?)
    {rets : List (List Ty)} {r' : Option Returns} (h : Returned (some r) rets r') :
    Returning r.kind known rets (settledReturn known r') := by
  cases known with
  | resolved ty =>
    obtain ⟨rfl, hall, hproc⟩ := (Returned.of_expected hr).mp h
    exact ⟨hall, hproc, rfl⟩
  | unresolved =>
    cases h with
    | nil => exact ⟨by simp, by simp, by simp [settledReturn, Slot.get?, hr]⟩
    | @cons _ r₁ _ tys rets ha h =>
      obtain ⟨hp, ⟨_, rfl⟩ | ⟨_, hn, _⟩⟩ := ha
      · obtain ⟨rfl, hall, hproc⟩ := (Returned.of_expected rfl).mp h
        refine ⟨?_, ?_, rfl⟩
        · exact List.forall_mem_cons.mpr ⟨BEq.rfl, hall⟩
        · exact fun hk => List.forall_mem_cons.mpr ⟨hp hk, hproc hk⟩
      · rw [hr] at hn
        cases hn

theorem Returning.returned {r : Returns} {known : Slot Ty} (hr : r.expected = known.get?)
    {rets : List (List Ty)} {ret : Ty} (h : Returning r.kind known rets ret) :
    ∃ r', Returned (some r) rets r' ∧ settledReturn known r' = ret := by
  have hgiven := h.given
  cases known with
  | resolved ty =>
    cases hgiven
    exact ⟨some r, (Returned.of_expected hr).mpr ⟨rfl, h.agree, h.valueless⟩, rfl⟩
  | unresolved =>
    cases rets with
    | nil => exact ⟨some r, .nil, by simpa [settledReturn, Slot.get?, hr] using hgiven⟩
    | cons tys rets =>
      cases hgiven
      have hall := List.forall_mem_cons.mp h.agree
      refine ⟨some { r with expected := some (returnedType tys) }, ?_, rfl⟩
      refine .cons ⟨fun hk => h.valueless hk tys List.mem_cons_self, .inl ⟨hr, rfl⟩⟩ ?_
      exact (Returned.of_expected rfl).mpr
        ⟨rfl, hall.2, fun hk t ht => h.valueless hk t (List.mem_cons_of_mem _ ht)⟩

end Semant
