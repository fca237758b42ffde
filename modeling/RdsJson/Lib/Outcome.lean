import Mathlib.Logic.Basic

/-! # What a computation that may fault yields

`Yields E x P` is the weakest precondition of a computation in `Except`: it ends
in a value that satisfies `P`, or in a fault that `E` allows. -/
namespace RdsJson.Lib.Outcome

variable {ε α β : Type} {E : ε → Prop}

def Yields (E : ε → Prop) (x : Except ε α) (P : α → Prop) : Prop :=
  match x with
  | .ok a => P a
  | .error e => E e

@[simp] theorem yields_ok {a : α} {P : α → Prop} : Yields E (.ok a) P ↔ P a := Iff.rfl

@[simp] theorem yields_error {e : ε} {P : α → Prop} :
    Yields E (.error e : Except ε α) P ↔ E e := Iff.rfl

theorem Yields.mono {x : Except ε α} {P Q : α → Prop} (h : Yields E x P)
    (hPQ : ∀ a, P a → Q a) : Yields E x Q := by
  cases x with
  | ok a => exact hPQ a h
  | error e => exact h

theorem Yields.weaken {F : ε → Prop} {x : Except ε α} {P : α → Prop} (h : Yields E x P)
    (hEF : ∀ e, E e → F e) : Yields F x P := by
  cases x with
  | ok a => exact h
  | error e => exact hEF e h

theorem Yields.bind {x : Except ε α} {f : α → Except ε β} {P : α → Prop} {Q : β → Prop}
    (h : Yields E x P) (hf : ∀ a, P a → Yields E (f a) Q) : Yields E (x >>= f) Q := by
  cases x with
  | ok a => exact hf a h
  | error e => exact h

/-- The value is the one that the computation ended in. -/
theorem Yields.known {x : Except ε α} {P : α → Prop} (h : Yields E x P) :
    Yields E x fun a => x = .ok a ∧ P a := by
  cases x with
  | ok a => exact ⟨rfl, h⟩
  | error e => exact h

theorem Yields.ok_or_error {x : Except ε α} {P : α → Prop} (h : Yields E x P) :
    (∃ a, x = .ok a ∧ P a) ∨ ∃ e, x = .error e ∧ E e := by
  cases x with
  | ok a => exact .inl ⟨a, rfl, h⟩
  | error e => exact .inr ⟨e, rfl, h⟩

theorem Yields.of_eq_ok {x : Except ε α} {P : α → Prop} {a : α} (h : Yields E x P)
    (hx : x = .ok a) : P a := by
  rw [hx] at h
  exact h

theorem Yields.exists_ok {x : Except ε α} {P : α → Prop} (h : Yields E x P)
    (hE : ∀ e, ¬ E e) : ∃ a, x = .ok a ∧ P a := by
  cases x with
  | ok a => exact ⟨a, rfl, h⟩
  | error e => exact absurd h (hE e)

@[simp] theorem ok_bind {a : α} {f : α → Except ε β} : (Except.ok a >>= f) = f a := rfl

/-- A computation that ended did so through each of its parts. -/
theorem bind_eq_ok {x : Except ε α} {f : α → Except ε β} {b : β} :
    (x >>= f) = .ok b ↔ ∃ a, x = .ok a ∧ f a = .ok b := by
  cases x with
  | ok a =>
    constructor
    · intro h; exact ⟨a, rfl, h⟩
    · rintro ⟨_, ha, h⟩; cases ha; exact h
  | error e =>
    constructor
    · intro h; cases h
    · rintro ⟨_, h, _⟩; cases h

end RdsJson.Lib.Outcome
