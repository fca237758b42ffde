import RdsJson.Lib.Labelled
import Mathlib.Data.List.Basic

/-! # Labels that are read off their codes

Where the codes of the labels that may come next are a prefix code, a word that
is read is read in one way only. -/
namespace RdsJson.Lib.Words
open RdsJson.Lib.Labelled

variable {σ α β γ : Type} {step : σ → α → σ → Prop} {code : α → List β}
variable {s t u : σ} {word word' : List α}

/-- The empty word leads nowhere. -/
theorem Steps.eq_of_nil (h : Steps step s [] t) : t = s := by
  cases h
  rfl

/-- From every state, what starts with the code of one label starts with that of
no other, and the label says where it leads. -/
def Decodable (step : σ → α → σ → Prop) (code : α → List β) : Prop :=
  ∀ s a a' t t' x x', step s a t → step s a' t' → code a ++ x = code a' ++ x' →
    a = a' ∧ t = t' ∧ x = x'

/-- Of two words that begin alike one goes on where the other ends. -/
theorem Steps.comparable (hdec : Decodable step code) {x x' : List β} (h : Steps step s word t)
    (h' : Steps step s word' u) (heq : word.flatMap code ++ x = word'.flatMap code ++ x') :
    (∃ rest, word' = word ++ rest ∧ Steps step t rest u) ∨
      ∃ rest, word = word' ++ rest ∧ Steps step u rest t := by
  induction h generalizing word' with
  | nil s => exact .inl ⟨word', rfl, h'⟩
  | @cons s r t a word hstep hs ih =>
    cases h' with
    | nil => exact .inr ⟨a :: word, rfl, .cons hstep hs⟩
    | @cons _ r' _ a' word' hstep' hs' =>
      rw [List.flatMap_cons, List.flatMap_cons, List.append_assoc, List.append_assoc] at heq
      obtain ⟨rfl, rfl, hcodes⟩ := hdec _ _ _ _ _ _ _ hstep hstep' heq
      rcases ih hs' hcodes with ⟨rest, rfl, hrest⟩ | ⟨rest, rfl, hrest⟩
      · exact .inl ⟨rest, rfl, hrest⟩
      · exact .inr ⟨rest, rfl, hrest⟩

/-- What every step makes longer while an invariant holds, a word does. -/
theorem Steps.grows (Inv : σ → Prop) {f : σ → List γ}
    (hstep : ∀ s a t, Inv s → step s a t → Inv t ∧ f s <+: f t) (hs : Inv s)
    (h : Steps step s word t) : f s <+: f t := by
  induction h with
  | nil s => exact List.prefix_rfl
  | cons h hrest ih =>
    obtain ⟨hinv, hle⟩ := hstep _ _ _ hs h
    exact hle.trans (ih hinv)

/-- What the labels of a word cost. -/
def cost (price : α → Nat) : List α → Nat
  | [] => 0
  | a :: word => price a + cost price word

/-- Where every step pays for what it adds to a weight, a word does. The steps that lead
to a state that is allowed come from states that are. -/
theorem Steps.pays (Inv Allowed : σ → Prop) {weight : σ → Nat} {price : α → Nat}
    (hinv : ∀ s a t, Inv s → step s a t → Inv t)
    (hallowed : ∀ s a t, step s a t → Allowed t → Allowed s)
    (hpays : ∀ s a t, Inv s → Allowed t → step s a t → weight t ≤ weight s + price a)
    (hs : Inv s) (h : Steps step s word t) (ht : Allowed t) :
    Allowed s ∧ weight t ≤ weight s + cost price word := by
  induction h with
  | nil s => exact ⟨ht, Nat.le_add_right _ _⟩
  | cons h hrest ih =>
    obtain ⟨hmid, hle⟩ := ih (hinv _ _ _ hs h) ht
    have hstep := hpays _ _ _ hs hmid h
    rw [cost]
    exact ⟨hallowed _ _ _ h hmid, by omega⟩

end RdsJson.Lib.Words
