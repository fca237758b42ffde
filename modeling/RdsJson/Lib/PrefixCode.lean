import Mathlib.Data.List.Basic

/-! # Codes that say themselves where they end

Where no code is the beginning of another, what was put together from codes
comes apart in one way only. -/
namespace RdsJson.Lib.PrefixCode

variable {α σ : Type} {ok : α → Prop} {enc : α → List σ}

/-- What starts with the code of `a` starts with no other. -/
def Delimits (ok : α → Prop) (enc : α → List σ) : Prop :=
  ∀ a b x y, ok a → ok b → enc a ++ x = enc b ++ y → a = b ∧ x = y

/-- A code that can be read off the front. -/
theorem delimits_of_decoder (dec : List σ → Option (α × List σ))
    (h : ∀ a x, ok a → dec (enc a ++ x) = some (a, x)) : Delimits ok enc := by
  intro a b x y ha hb heq
  have hdec := (h a x ha).symm.trans ((congrArg dec heq).trans (h b y hb))
  exact Prod.mk.inj (Option.some.inj hdec)

/-- As many codes on both sides. -/
theorem Delimits.list (h : Delimits ok enc) {as bs : List α} {x y : List σ}
    (ha : ∀ a ∈ as, ok a) (hb : ∀ b ∈ bs, ok b) (hlen : as.length = bs.length)
    (heq : as.flatMap enc ++ x = bs.flatMap enc ++ y) : as = bs ∧ x = y := by
  induction as generalizing bs with
  | nil =>
    obtain rfl := List.eq_nil_of_length_eq_zero hlen.symm
    exact ⟨rfl, heq⟩
  | cons a as ih =>
    cases bs with
    | nil => cases hlen
    | cons b bs =>
      rw [List.flatMap_cons, List.flatMap_cons, List.append_assoc, List.append_assoc] at heq
      obtain ⟨rfl, htail⟩ := h a b _ _ (ha a (by simp)) (hb b (by simp)) heq
      obtain ⟨rfl, rfl⟩ := ih (fun c hc => ha c (by simp [hc])) (fun c hc => hb c (by simp [hc]))
        (Nat.succ.inj hlen) htail
      exact ⟨rfl, rfl⟩

/-- Any number of codes, up to an end that none of them starts with. -/
theorem Delimits.terminated (h : Delimits ok enc) {stop : List σ}
    (hstop : ∀ a x y, ok a → enc a ++ x ≠ stop ++ y) {as bs : List α} {x y : List σ}
    (ha : ∀ a ∈ as, ok a) (hb : ∀ b ∈ bs, ok b)
    (heq : as.flatMap enc ++ (stop ++ x) = bs.flatMap enc ++ (stop ++ y)) : as = bs ∧ x = y := by
  induction as generalizing bs with
  | nil =>
    cases bs with
    | nil => exact ⟨rfl, List.append_cancel_left heq⟩
    | cons b bs =>
      rw [List.flatMap_cons, List.append_assoc] at heq
      exact absurd heq.symm (hstop b _ _ (hb b (by simp)))
  | cons a as ih =>
    rw [List.flatMap_cons, List.append_assoc] at heq
    cases bs with
    | nil => exact absurd heq (hstop a _ _ (ha a (by simp)))
    | cons b bs =>
      rw [List.flatMap_cons, List.append_assoc] at heq
      obtain ⟨rfl, htail⟩ := h a b _ _ (ha a (by simp)) (hb b (by simp)) heq
      obtain ⟨rfl, rfl⟩ := ih (fun c hc => ha c (by simp [hc])) (fun c hc => hb c (by simp [hc])) htail
      exact ⟨rfl, rfl⟩

end RdsJson.Lib.PrefixCode
