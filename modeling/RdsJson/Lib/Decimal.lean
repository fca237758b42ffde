import RdsJson.Lib.Json
import Mathlib.Data.List.Induction
import Mathlib.Data.List.TakeWhile

/-! # Numbers in decimal

The numeral of a number, the number of a string of digits, and which strings of
digits are numerals: JSON allows these and no others. -/
namespace RdsJson.Lib.Decimal
open RdsJson.Lib.LittleEndian RdsJson.Lib.Json

/-- The numeral of `n`. -/
def digits (n : Nat) : Bytes := (Nat.toDigits 10 n).map fun c => UInt8.ofNat c.toNat

def digit (k : Nat) : UInt8 := UInt8.ofNat (48 + k)

/-- What a string of digits comes to, whatever it begins with. -/
def value (s : Bytes) : Nat := s.foldl (fun n c => 10 * n + (c.toNat - 48)) 0

/-- Nothing but digits, and a zero at the front only where it is all there is. -/
def Canonical (s : Bytes) : Prop := s = [48] ∨ s ≠ [] ∧ s.head? ≠ some 48

instance (s : Bytes) : Decidable (Canonical s) := inferInstanceAs (Decidable (_ ∨ _))

/-! ## Digits -/

theorem isDigit_iff {c : UInt8} : isDigit c = true ↔ ∃ k < 10, c = digit k := by
  simp only [isDigit, Bool.and_eq_true, decide_eq_true_eq, UInt8.le_iff_toNat_le, digit]
  constructor
  · intro ⟨hlow, hhigh⟩
    simp only [UInt8.reduceToNat] at hlow hhigh
    refine ⟨c.toNat - 48, by omega, ?_⟩
    rw [Nat.add_sub_cancel' hlow, UInt8.ofNat_toNat]
  · intro ⟨k, hk, hc⟩
    subst hc
    simp only [UInt8.reduceToNat, UInt8.toNat_ofNat', Nat.reducePow]
    omega

theorem digit_toNat {k : Nat} (h : k < 10) : (digit k).toNat = 48 + k := by
  rw [digit, UInt8.toNat_ofNat']
  omega

theorem isDigit_digit {k : Nat} (h : k < 10) : isDigit (digit k) = true :=
  isDigit_iff.mpr ⟨k, h, rfl⟩

theorem digits_of_lt {k : Nat} (h : k < 10) : digits k = [digit k] := by
  have hchar : ∀ k < 10, UInt8.ofNat k.digitChar.toNat = digit k := by decide
  rw [digits, Nat.toDigits_of_lt_base h, List.map_singleton, hchar k h]

theorem digits_append {n k : Nat} (hn : 0 < n) (hk : k < 10) :
    digits (10 * n + k) = digits n ++ [digit k] := by
  have hone := digits_of_lt hk
  rw [digits] at hone
  rw [digits, ← Nat.toDigits_append_toDigits (by decide : 1 < 10) hn hk, List.map_append, hone]
  rfl

/-- Every number is one digit, or a number with a digit behind it. -/
theorem digit_induction {P : Nat → Prop} (hlow : ∀ k < 10, P k)
    (hsnoc : ∀ n k, 0 < n → k < 10 → P n → P (10 * n + k)) (n : Nat) : P n := by
  induction n using Nat.strongRecOn with
  | _ n ih =>
    by_cases h : n < 10
    · exact hlow n h
    · have hsplit : 10 * (n / 10) + n % 10 = n := Nat.div_add_mod n 10
      have := hsnoc (n / 10) (n % 10) (by omega) (by omega) (ih (n / 10) (by omega))
      rwa [hsplit] at this

theorem digits_ne_nil (n : Nat) : digits n ≠ [] := by simp [digits]

theorem digits_all (n : Nat) : (digits n).all isDigit = true := by
  induction n using digit_induction with
  | hlow k hk => simp [digits_of_lt hk, isDigit_digit hk]
  | hsnoc n k hn hk ih => simp [digits_append hn hk, ih, isDigit_digit hk]

/-! ## Values -/

theorem value_snoc (s : Bytes) (c : UInt8) : value (s ++ [c]) = 10 * value s + (c.toNat - 48) := by
  simp [value]

theorem value_digits (n : Nat) : value (digits n) = n := by
  induction n using digit_induction with
  | hlow k hk => simp [digits_of_lt hk, value, digit_toNat hk]
  | hsnoc n k hn hk ih =>
    rw [digits_append hn hk, value_snoc, ih, digit_toNat hk, Nat.add_sub_cancel_left]

/-- Numbers that begin with another digit than zero are not zero. -/
theorem value_pos {c : UInt8} {s : Bytes} (hc : isDigit c = true) (hne : c ≠ 48) :
    0 < value (c :: s) := by
  induction s using List.reverseRecOn with
  | nil =>
    obtain ⟨k, hk, rfl⟩ := isDigit_iff.mp hc
    have : k ≠ 0 := fun h => hne (by rw [h]; rfl)
    simp only [value, List.foldl_cons, List.foldl_nil, digit_toNat hk]
    omega
  | append_singleton s d ih =>
    rw [← List.cons_append, value_snoc]
    omega

/-- A numeral is determined by its value. -/
theorem digits_value {s : Bytes} (hs : s.all isDigit = true) (h : Canonical s) :
    digits (value s) = s := by
  obtain h | ⟨hne, hhead⟩ := h
  · rw [h]
    rfl
  obtain ⟨c, s, rfl⟩ := List.exists_cons_of_ne_nil hne
  have hc48 : c ≠ 48 := fun hc => hhead (by rw [hc]; rfl)
  rw [List.all_cons, Bool.and_eq_true] at hs
  obtain ⟨hc, hs⟩ := hs
  induction s using List.reverseRecOn with
  | nil =>
    obtain ⟨k, hk, rfl⟩ := isDigit_iff.mp hc
    have hvalue : value [digit k] = k := by simp [value, digit_toNat hk]
    rw [hvalue, digits_of_lt hk]
  | append_singleton s d ih =>
    rw [List.all_append, Bool.and_eq_true] at hs
    have hd : isDigit d = true := by simpa using hs.2
    obtain ⟨k, hk, rfl⟩ := isDigit_iff.mp hd
    have ih := ih (by simp) (by simpa using hc48) hs.1
    rw [← List.cons_append, value_snoc, digit_toNat hk, Nat.add_sub_cancel_left,
      digits_append (value_pos hc hc48) hk, ih]

theorem canonical_digits (n : Nat) : Canonical (digits n) := by
  have hhead : n ≠ 0 → (digits n).head? ≠ some 48 := by
    induction n using digit_induction with
    | hlow k hk =>
      intro hk0 hhead
      rw [digits_of_lt hk] at hhead
      have := digit_toNat hk
      rw [Option.some.inj hhead] at this
      simp only [UInt8.reduceToNat] at this
      omega
    | hsnoc n k hn hk ih =>
      intro _
      rw [digits_append hn hk, List.head?_append_of_ne_nil _ (digits_ne_nil n)]
      exact ih (by omega)
  by_cases hn : n = 0
  · subst hn
    exact .inl rfl
  · exact .inr ⟨digits_ne_nil n, hhead hn⟩

/-! ## Numbers of JSON -/

/-- Of the strings of digits, JSON takes the numerals. -/
theorem isNumber_iff {s : Bytes} (hs : s.all isDigit = true) :
    isNumber s = true ↔ Canonical s := by
  cases s with
  | nil => simp [isNumber, afterSign, afterInt, Canonical]
  | cons c s =>
    rw [List.all_cons, Bool.and_eq_true] at hs
    have hsign : c ≠ 45 := by
      rintro rfl
      exact absurd hs.1 (by decide)
    have hstep : isNumber (c :: s) =
        decide (((if c = 48 then some s else some (s.dropWhile isDigit)).bind fun bs =>
          (afterFraction bs).bind afterExponent) = some []) := by
      simp only [isNumber, afterSign, hsign, decide_false, Bool.false_eq_true, if_false, afterInt,
        afterDigits, hs.1, if_true, Option.bind_eq_bind]
    rw [hstep]
    by_cases hc : c = 48
    · subst hc
      cases s with
      | nil => simp [Canonical, afterFraction, afterExponent]
      | cons d s =>
        have hd : isDigit d = true := by
          have := hs.2
          simp only [List.all_cons, Bool.and_eq_true] at this
          exact this.1
        have hfrac : d ≠ 46 := by
          rintro rfl
          exact absurd hd (by decide)
        have hexp : ¬ (d = 101 ∨ d = 69) := by
          rintro (rfl | rfl) <;> exact absurd hd (by decide)
        simp [Canonical, afterFraction, afterExponent, hfrac, hexp]
    · have hall : s.dropWhile isDigit = [] :=
        List.dropWhile_eq_nil_iff.mpr (List.all_eq_true.mp hs.2)
      simp [Canonical, hc, hall, afterFraction, afterExponent]

theorem isNumber_digits (n : Nat) : isNumber (digits n) = true :=
  (isNumber_iff (digits_all n)).mpr (canonical_digits n)

/-- Digits that are no numeral are no value. -/
theorem readValue_none {s rest : Bytes} (hs : s.all isDigit = true) (hne : s ≠ [])
    (hcan : ¬ Canonical s) (hrest : Ends rest) (depth : Nat) : readValue depth (s ++ rest) = none := by
  have hdigit : ∀ c ∈ s, isDigit c = true := List.all_eq_true.mp hs
  have hword : ∀ c ∈ s, wordByte c = true := fun c hc =>
    wordByte_of_numberByte (numberByte_of_isDigit (hdigit c hc))
  have hnumber : isNumber s = false := by
    rwa [← Bool.not_eq_true, isNumber_iff hs]
  have hnot (c : UInt8) (hc : isDigit c = false) (word : Bytes) : s ≠ c :: word := by
    intro he
    exact Bool.false_ne_true (hc.symm.trans (hdigit c (by simp [he])))
  obtain ⟨htake, hdrop⟩ := takeWhile_word hword hrest
  have hread : readWord (s ++ rest) = none := by
    simp [readWord, htake, hnumber, hnot 110 rfl, hnot 116 rfl, hnot 102 rfl]
  cases depth with
  | zero => rfl
  | succ depth =>
    obtain ⟨c, s, rfl⟩ := List.exists_cons_of_ne_nil hne
    rw [List.cons_append] at hread ⊢
    rw [readValue_word (hword c (by simp)), hread]

end RdsJson.Lib.Decimal
