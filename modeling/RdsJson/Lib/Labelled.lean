/-! # Sequences of labelled steps

A step relation that says what it reads, and the states that a word leads to. -/
namespace RdsJson.Lib.Labelled

variable {σ α : Type} {step : σ → α → σ → Prop} {s t u : σ} {a : α} {word word' : List α}

/-- `word` leads from one state to another. -/
inductive Steps (step : σ → α → σ → Prop) : σ → List α → σ → Prop
  | nil (s : σ) : Steps step s [] s
  | cons {s t u : σ} {a : α} {word : List α} (h : step s a t) (hs : Steps step t word u) :
      Steps step s (a :: word) u

theorem Steps.single (h : step s a t) : Steps step s [a] t := .cons h (.nil t)

theorem Steps.append (h : Steps step s word t) (h' : Steps step t word' u) :
    Steps step s (word ++ word') u := by
  induction h with
  | nil s => exact h'
  | cons h hs ih => exact .cons h (ih h')

theorem Steps.split (h : Steps step s (word ++ word') u) :
    ∃ t, Steps step s word t ∧ Steps step t word' u := by
  induction word generalizing s with
  | nil => exact ⟨s, .nil s, h⟩
  | cons a word ih =>
    cases h with
    | cons h hs =>
      obtain ⟨t, ht, ht'⟩ := ih hs
      exact ⟨t, .cons h ht, ht'⟩

/-- A state that no step leaves is the end of every word from it. -/
theorem Steps.stuck (hstuck : ∀ a t, ¬ step s a t) (h : Steps step s word u) :
    word = [] ∧ u = s := by
  cases h with
  | nil => exact ⟨rfl, rfl⟩
  | cons h hs => exact absurd h (hstuck _ _)

end RdsJson.Lib.Labelled
