import Mathlib.Logic.Function.Basic
import Mathlib.Data.List.Nodup

/-! # Chains of saved pointers

Handlers that are called one after the other: a pointer to the first of them, and
each of them keeps its own to the next. One more is put in front by saving the
pointer to the first and replacing it. -/
namespace RdsJson.Lib.Links

variable {α : Type}

structure Chain (α : Type) where
  top : α
  next : α → α

/-- The chain that is called from `a` on, up to `last`, which calls no other. -/
inductive Linked (next : α → α) (last : α) : α → List α → Prop
  | last : Linked next last last [last]
  | cons {a : α} {as : List α} (hne : a ≠ last) (h : Linked next last (next a) as) :
      Linked next last a (a :: as)

variable {next : α → α} {last a : α} {as bs : List α}

theorem Linked.last_mem (h : Linked next last a as) : last ∈ as := by
  induction h with
  | last => simp
  | cons hne h ih => exact List.mem_cons_of_mem _ ih

/-- Nobody looks at what the handlers elsewhere have saved. -/
theorem Linked.congr {next' : α → α} (h : Linked next last a as)
    (hsame : ∀ b ∈ as, next' b = next b) : Linked next' last a as := by
  induction h with
  | last => exact .last
  | @cons a as hne h ih =>
    refine .cons hne ?_
    rw [hsame a (by simp)]
    exact ih fun b hb => hsame b (by simp [hb])

variable [DecidableEq α] {c : Chain α}

def Chain.push (c : Chain α) (a : α) : Chain α := ⟨a, Function.update c.next a c.top⟩

/-- The chain that is called. -/
def Chain.Calls (c : Chain α) (last : α) (as : List α) : Prop := Linked c.next last c.top as

/-- A handler that was not there yet comes first. -/
theorem Chain.Calls.push (h : c.Calls last as) (hnew : a ∉ as) : (c.push a).Calls last (a :: as) := by
  have hne : a ≠ last := fun heq => hnew (heq ▸ h.last_mem)
  refine .cons hne ?_
  show Linked (Function.update c.next a c.top) last (Function.update c.next a c.top a) as
  rw [Function.update_self]
  refine h.congr fun b hb => Function.update_of_ne ?_ _ _
  rintro rfl
  exact hnew hb

theorem Chain.Calls.pushes (h : c.Calls last as) (hnodup : bs.Nodup) (hnew : ∀ b ∈ bs, b ∉ as) :
    (bs.foldl Chain.push c).Calls last (bs.reverse ++ as) := by
  induction bs generalizing c as with
  | nil => exact h
  | cons b bs ih =>
    obtain ⟨hb, hnodup⟩ := List.nodup_cons.mp hnodup
    rw [List.reverse_cons, List.append_assoc, List.singleton_append]
    refine ih (h.push (hnew b (by simp))) hnodup fun b' hb' => ?_
    rw [List.mem_cons, not_or]
    refine ⟨?_, hnew b' (by simp [hb'])⟩
    rintro rfl
    exact hb hb'

end RdsJson.Lib.Links
