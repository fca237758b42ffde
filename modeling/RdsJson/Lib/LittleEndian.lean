import Mathlib.Data.List.Basic
import Mathlib.Tactic.Ring

/-! # Little-endian byte strings

Fixed-width unsigned numbers as the byte strings a little-endian host keeps in
memory, least significant byte first. -/
namespace RdsJson.Lib.LittleEndian

abbrev Bytes := List UInt8

/-- The `n` low bytes of `v`. -/
def leBytes : Nat → Nat → Bytes
  | 0, _ => []
  | n + 1, v => UInt8.ofNat (v % 256) :: leBytes n (v / 256)

/-- The number a byte string stands for. -/
def leVal : Bytes → Nat
  | [] => 0
  | b :: bs => b.toNat + 256 * leVal bs

@[simp] theorem leBytes_length (n v : Nat) : (leBytes n v).length = n := by
  induction n generalizing v with
  | zero => rfl
  | succ n ih => simp [leBytes, ih]

theorem leVal_lt (bs : Bytes) : leVal bs < 256 ^ bs.length := by
  induction bs with
  | nil => simp [leVal]
  | cons b bs ih =>
    have hb := b.toNat_lt
    simp only [leVal, List.length_cons, pow_succ]
    omega

theorem leVal_leBytes (n v : Nat) (h : v < 256 ^ n) : leVal (leBytes n v) = v := by
  induction n generalizing v with
  | zero =>
    simp only [pow_zero, Nat.lt_one_iff] at h
    simp [leBytes, leVal, h]
  | succ n ih =>
    have hq : v / 256 < 256 ^ n := by
      rw [pow_succ] at h
      exact Nat.div_lt_of_lt_mul (by rwa [Nat.mul_comm] at h)
    have hb : (UInt8.ofNat (v % 256)).toNat = v % 256 := by
      rw [UInt8.toNat_ofNat']
      omega
    simp only [leBytes, leVal, ih _ hq, hb]
    omega

theorem leBytes_leVal (bs : Bytes) : leBytes bs.length (leVal bs) = bs := by
  induction bs with
  | nil => rfl
  | cons b bs ih =>
    have hb := b.toNat_lt
    have hm : (b.toNat + 256 * leVal bs) % 256 = b.toNat := by omega
    have hd : (b.toNat + 256 * leVal bs) / 256 = leVal bs := by omega
    simp only [List.length_cons, leBytes, leVal, hm, hd, ih, UInt8.ofNat_toNat]

/-- Reading `n` bytes off the front of a byte string. -/
def takeLE (n : Nat) (bs : Bytes) : Option (Nat × Bytes) :=
  if bs.length < n then none else some (leVal (bs.take n), bs.drop n)

theorem takeLE_append (n v : Nat) (rest : Bytes) (h : v < 256 ^ n) :
    takeLE n (leBytes n v ++ rest) = some (v, rest) := by
  have hl := leBytes_length n v
  simp [takeLE, List.take_left' hl, List.drop_left' hl, leVal_leBytes n v h]

theorem takeLE_some {n v : Nat} {bs rest : Bytes} (h : takeLE n bs = some (v, rest)) :
    bs = leBytes n v ++ rest ∧ v < 256 ^ n := by
  unfold takeLE at h
  split at h
  · cases h
  · next hlen =>
    simp only [Option.some.injEq, Prod.mk.injEq] at h
    obtain ⟨rfl, rfl⟩ := h
    have hl : (bs.take n).length = n := by rw [List.length_take]; omega
    have hb := leBytes_leVal (bs.take n)
    rw [hl] at hb
    refine ⟨by rw [hb, List.take_append_drop], ?_⟩
    have := leVal_lt (bs.take n)
    rwa [hl] at this

/-- A reader that went on behind a number found one. -/
theorem takeLE_bind {α : Type} {n : Nat} {bs : Bytes} {f : Nat × Bytes → Option α} {r : α}
    (h : (takeLE n bs >>= f) = some r) :
    ∃ v t, bs = leBytes n v ++ t ∧ v < 256 ^ n ∧ f (v, t) = some r := by
  obtain ⟨⟨v, t⟩, ht, hf⟩ := Option.bind_eq_some_iff.mp h
  obtain ⟨hb, hv⟩ := takeLE_some ht
  exact ⟨v, t, hb, hv, hf⟩

@[simp] theorem takeLE_uint16 (x : UInt16) (rest : Bytes) :
    takeLE 2 (leBytes 2 x.toNat ++ rest) = some (x.toNat, rest) :=
  takeLE_append 2 _ rest x.toNat_lt

@[simp] theorem takeLE_uint64 (x : UInt64) (rest : Bytes) :
    takeLE 8 (leBytes 8 x.toNat ++ rest) = some (x.toNat, rest) :=
  takeLE_append 8 _ rest x.toNat_lt

theorem leBytes_uint16 {v : Nat} (h : v < 256 ^ 2) :
    leBytes 2 (UInt16.ofNat v).toNat = leBytes 2 v := by
  rw [UInt16.toNat_ofNat_of_lt' h]

theorem leBytes_uint64 {v : Nat} (h : v < 256 ^ 8) :
    leBytes 8 (UInt64.ofNat v).toNat = leBytes 8 v := by
  rw [UInt64.toNat_ofNat_of_lt' h]

end RdsJson.Lib.LittleEndian
