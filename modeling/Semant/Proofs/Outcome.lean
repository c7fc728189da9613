import Semant.Error

/-! Steps that may be refused: when a sequence of them succeeds, and what it can fail with. -/

namespace Semant.Outcome

variable {α β : Type}

@[simp]
theorem pure_eq (a : α) : (pure a : Except Error α) = .ok a := rfl

@[simp]
theorem ok_bind (a : α) (f : α → Except Error β) : (Except.ok a >>= f) = f a := rfl

@[simp]
theorem error_bind (error : Error) (f : α → Except Error β) :
    (Except.error error >>= f) = .error error := rfl

@[simp]
theorem map_ok (f : α → β) (a : α) : (f <$> (.ok a : Except Error α)) = .ok (f a) := rfl

@[simp]
theorem map_error (f : α → β) (error : Error) :
    (f <$> (.error error : Except Error α)) = .error error := rfl

theorem bind_eq_ok {x : Except Error α} {f : α → Except Error β} {b : β} :
    (x >>= f) = .ok b ↔ ∃ a, x = .ok a ∧ f a = .ok b := by
  cases x <;> simp

theorem exists_of_isOk {x : Except Error α} (h : x.isOk = true) : ∃ a, x = .ok a := by
  cases x with
  | ok a => exact ⟨a, rfl⟩
  | error => cases h

theorem forM_eq_ok {f : α → Except Error Unit} {as : List α} :
    as.forM f = .ok () ↔ ∀ a ∈ as, f a = .ok () := by
  induction as with
  | nil => simp [List.forM]
  | cons a as ih =>
    change (f a >>= fun _ => as.forM f) = .ok () ↔ _
    rw [bind_eq_ok, List.forall_mem_cons, ih]
    exact ⟨fun ⟨_, ha, has⟩ => ⟨ha, has⟩, fun ⟨ha, has⟩ => ⟨(), ha, has⟩⟩

/-- Whatever error comes out of `x` is one of `P`. -/
def FailsWith (P : Error → Prop) (x : Except Error α) : Prop :=
  ∀ error, x = .error error → P error

namespace FailsWith

variable {P : Error → Prop}

@[simp]
theorem ok (a : α) : FailsWith P (.ok a : Except Error α) := by
  intro error h
  cases h

theorem error {error : Error} (h : P error) : FailsWith P (.error error : Except Error α) := by
  intro other heq
  cases heq
  exact h

theorem bind {x : Except Error α} {f : α → Except Error β} (hx : FailsWith P x)
    (hf : ∀ a, FailsWith P (f a)) : FailsWith P (x >>= f) := by
  cases x with
  | error error => exact .error (hx error rfl)
  | ok a => exact hf a

theorem map {x : Except Error α} (hx : FailsWith P x) (f : α → β) : FailsWith P (f <$> x) := by
  cases x with
  | error error => exact .error (hx error rfl)
  | ok a => exact .ok (f a)

theorem forM {f : α → Except Error Unit} {as : List α} (h : ∀ a ∈ as, FailsWith P (f a)) :
    FailsWith P (as.forM f) := by
  induction as with
  | nil => exact .ok ()
  | cons a as ih =>
    obtain ⟨ha, has⟩ := List.forall_mem_cons.mp h
    exact ha.bind fun _ => ih has

theorem foldlM {γ : Type} {f : β → γ → Except Error β} {cs : List γ}
    (h : ∀ c ∈ cs, ∀ b, FailsWith P (f b c)) (b : β) : FailsWith P (cs.foldlM f b) := by
  induction cs generalizing b with
  | nil => exact .ok b
  | cons c cs ih =>
    obtain ⟨hc, hcs⟩ := List.forall_mem_cons.mp h
    exact (hc b).bind (ih hcs)

end FailsWith

end Semant.Outcome
