import RdsJson.Lib.Labelled
import Mathlib.Data.List.Nodup
import Mathlib.Data.List.Range

/-! # A pool of numbered cells

A cell is taken when it is free or new, passed on, and free again when it comes
back; passing on and coming back go in the order of taking. A cell that is taken
may also be lost. `Moves` is the pool as a machine whose labels are what was done
to which cell, `Cycle` what may be done to one cell. -/
namespace RdsJson.Lib.Pool
open RdsJson.Lib.Labelled

/-- The cells that are taken and those that were passed on, the oldest first, and
the free ones, the next to be taken first. -/
structure Cells where
  taken : List Nat
  busy : List Nat
  free : List Nat
  lost : List Nat
  made : Nat

/-- What is done to a cell. Passing it on shows what is in it. -/
inductive Deed (α : Type) where
  | take (id : Nat)
  | pass (id : Nat) (content : α)
  | recycle (id : Nat)
  | lose (id : Nat)

variable {α : Type}

def Deed.id : Deed α → Nat
  | .take id => id
  | .pass id _ => id
  | .recycle id => id
  | .lose id => id

/-- What a deed shows of the contents of the cells. -/
def Deed.shown : Deed α → List α
  | .take _ => []
  | .pass _ content => [content]
  | .recycle _ => []
  | .lose _ => []

inductive Moves : Cells → Deed α → Cells → Prop
  | reuse {taken busy rest lost : List Nat} {made : Nat} (id : Nat) :
      Moves ⟨taken, busy, id :: rest, lost, made⟩ (.take id)
        ⟨taken ++ [id], busy, rest, lost, made⟩
  | create {taken busy lost : List Nat} {made : Nat} :
      Moves ⟨taken, busy, [], lost, made⟩ (.take made)
        ⟨taken ++ [made], busy, [], lost, made + 1⟩
  | pass {rest busy free lost : List Nat} {made : Nat} (id : Nat) (content : α) :
      Moves ⟨id :: rest, busy, free, lost, made⟩ (.pass id content)
        ⟨rest, busy ++ [id], free, lost, made⟩
  | recycle {taken rest free lost : List Nat} {made : Nat} (id : Nat) :
      Moves ⟨taken, id :: rest, free, lost, made⟩ (.recycle id)
        ⟨taken, rest, id :: free, lost, made⟩
  | lose {rest busy free lost : List Nat} {made : Nat} (id : Nat) :
      Moves ⟨rest ++ [id], busy, free, lost, made⟩ (.lose id)
        ⟨rest, busy, free, lost ++ [id], made⟩

/-! ## Every cell in one place -/

/-- Every cell that was made is in one of the lists, and once. -/
def Partition (p : Cells) : Prop :=
  (p.taken ++ (p.busy ++ (p.free ++ p.lost))).Perm (List.range p.made)

theorem Partition.nodup {p : Cells} (h : Partition p) :
    (p.taken ++ (p.busy ++ (p.free ++ p.lost))).Nodup :=
  h.nodup_iff.mpr List.nodup_range

theorem Partition.lt {p : Cells} (h : Partition p) {id : Nat}
    (hid : id ∈ p.taken ++ (p.busy ++ (p.free ++ p.lost))) : id < p.made :=
  List.mem_range.mp (h.mem_iff.mp hid)

variable {p q : Cells} {deed : Deed α} {deeds : List (Deed α)}

theorem Moves.partition (h : Moves p deed q) (hp : Partition p) : Partition q := by
  cases h with
  | create =>
    rw [Partition, List.range_succ]
    refine List.Perm.trans ?_ (hp.append_right _)
    rw [List.perm_iff_count]
    intro id
    simp only [List.count_append]
    omega
  | _ =>
    refine List.Perm.trans ?_ hp
    rw [List.perm_iff_count]
    intro id
    simp only [List.count_append, List.count_cons, List.count_nil]
    omega

theorem partition_steps (h : Steps Moves p deeds q) (hp : Partition p) : Partition q := by
  induction h with
  | nil => exact hp
  | cons hmove _ ih => exact ih (hmove.partition hp)

/-- How many cells were made. -/
theorem Partition.count {p : Cells} (h : Partition p) :
    p.made = p.taken.length + p.busy.length + p.free.length + p.lost.length := by
  have hlen := h.length_eq
  simp only [List.length_append, List.length_range] at hlen
  omega

/-- As long as no cell is passed on or comes back, cells are made only where none is
free, and none gets free. -/
theorem steps_make (h : Steps Moves p deeds q) (hshown : deeds.flatMap Deed.shown = []) :
    q.busy.length ≤ p.busy.length ∧ (q.busy.length = p.busy.length →
      q.free <:+ p.free ∧ (q.made = p.made ∨ q.free = [])) := by
  induction h with
  | nil p => exact ⟨le_rfl, fun _ => ⟨List.suffix_rfl, .inl rfl⟩⟩
  | cons hmove _ ih =>
    rw [List.flatMap_cons, List.append_eq_nil_iff] at hshown
    obtain ⟨hle, hsame⟩ := ih hshown.2
    cases hmove with
    | reuse id =>
      refine ⟨hle, fun hbusy => ?_⟩
      obtain ⟨hfree, hmade⟩ := hsame hbusy
      exact ⟨hfree.trans (List.suffix_cons _ _), hmade⟩
    | create =>
      refine ⟨hle, fun hbusy => ?_⟩
      have hfree := List.suffix_nil.mp (hsame hbusy).1
      exact ⟨hfree ▸ List.suffix_rfl, .inr hfree⟩
    | pass id content => cases hshown.1
    | recycle id =>
      dsimp only at hle ⊢
      rw [List.length_cons]
      exact ⟨hle.trans (Nat.le_succ _), fun hbusy => absurd hbusy (by omega)⟩
    | lose id => exact ⟨hle, hsame⟩

/-! ## The life of one cell -/

/-- A cell that is on none of the other lists is free, or not made yet. -/
inductive Place where
  | free
  | taken
  | busy
  | lost
  deriving DecidableEq

def Cells.place (p : Cells) (id : Nat) : Place :=
  if id ∈ p.taken then .taken
  else if id ∈ p.busy then .busy
  else if id ∈ p.lost then .lost
  else .free

/-- Once taken, a cell is passed on once, and then not taken before it is free. -/
inductive Cycle : Place → Deed α → Place → Prop
  | take (id : Nat) : Cycle .free (.take id) .taken
  | pass (id : Nat) (content : α) : Cycle .taken (.pass id content) .busy
  | recycle (id : Nat) : Cycle .busy (.recycle id) .free
  | lose (id : Nat) : Cycle .taken (.lose id) .lost

theorem place_taken {id : Nat} (h : id ∈ p.taken) : p.place id = .taken := if_pos h

theorem Partition.place_busy (hp : Partition p) {id : Nat} (h : id ∈ p.busy) :
    p.place id = .busy := by
  have htaken : id ∉ p.taken := fun hin =>
    List.disjoint_of_nodup_append hp.nodup hin (List.mem_append_left _ h)
  rw [Cells.place, if_neg htaken, if_pos h]

theorem Partition.place_free (hp : Partition p) {id : Nat} (h : id ∈ p.free) :
    p.place id = .free := by
  have htaken : id ∉ p.taken := fun hin =>
    List.disjoint_of_nodup_append hp.nodup hin (by simp [h])
  have hnd := (List.nodup_append.mp hp.nodup).2.1
  have hbusy : id ∉ p.busy := fun hin => List.disjoint_of_nodup_append hnd hin (by simp [h])
  have hlost : id ∉ p.lost := List.disjoint_of_nodup_append (List.nodup_append.mp hnd).2.1 h
  rw [Cells.place, if_neg htaken, if_neg hbusy, if_neg hlost]

theorem Partition.place_lost (hp : Partition p) {id : Nat} (h : id ∈ p.lost) :
    p.place id = .lost := by
  have htaken : id ∉ p.taken := fun hin =>
    List.disjoint_of_nodup_append hp.nodup hin (by simp [h])
  have hbusy : id ∉ p.busy := fun hin =>
    List.disjoint_of_nodup_append (List.nodup_append.mp hp.nodup).2.1 hin (by simp [h])
  rw [Cells.place, if_neg htaken, if_neg hbusy, if_pos h]

theorem Partition.place_new (hp : Partition p) : p.place p.made = .free := by
  have hnew : p.made ∉ p.taken ++ (p.busy ++ (p.free ++ p.lost)) :=
    fun hin => Nat.lt_irrefl _ (hp.lt hin)
  simp only [List.mem_append, not_or] at hnew
  obtain ⟨htaken, hbusy, -, hlost⟩ := hnew
  rw [Cells.place, if_neg htaken, if_neg hbusy, if_neg hlost]

theorem Partition.taken_not_busy (hp : Partition p) {id : Nat} (h : id ∈ p.taken) :
    id ∉ p.busy := by
  intro hbusy
  have hplace := (place_taken h).symm.trans (hp.place_busy hbusy)
  cases hplace

theorem Partition.free_not_busy (hp : Partition p) {id : Nat} (h : id ∈ p.free) :
    id ∉ p.busy := by
  intro hbusy
  have hplace := (hp.place_free h).symm.trans (hp.place_busy hbusy)
  cases hplace

theorem Partition.free_not_taken (hp : Partition p) {id : Nat} (h : id ∈ p.free) :
    id ∉ p.taken := by
  intro htaken
  have hplace := (hp.place_free h).symm.trans (place_taken htaken)
  cases hplace

theorem Moves.cycle (h : Moves p deed q) (hp : Partition p) :
    Cycle (p.place deed.id) deed (q.place deed.id) := by
  have hq := h.partition hp
  cases h with
  | reuse id =>
    rw [Deed.id, hp.place_free (by simp), place_taken (by simp)]
    exact .take id
  | @create taken busy lost made =>
    rw [Deed.id, hp.place_new, place_taken (by simp)]
    exact .take made
  | pass id content =>
    rw [Deed.id, place_taken (by simp), hq.place_busy (by simp)]
    exact .pass id content
  | recycle id =>
    rw [Deed.id, hp.place_busy (by simp), hq.place_free (by simp)]
    exact .recycle id
  | lose id =>
    rw [Deed.id, place_taken (by simp), hq.place_lost (by simp)]
    exact .lose id

/-- All other cells stay where they are. -/
theorem Moves.elsewhere (h : Moves p deed q) {id : Nat} (hne : id ≠ deed.id) :
    q.place id = p.place id := by
  unfold Cells.place
  cases h <;> simp only [Deed.id, ne_eq] at hne <;> simp [hne]

/-- What was done to one cell, out of all that was done. -/
def lifeOf (id : Nat) (deeds : List (Deed α)) : List (Deed α) :=
  deeds.filter fun deed => deed.id = id

/-- Whatever is done to the pool, each cell goes round its cycle. -/
theorem steps_cycle (h : Steps Moves p deeds q) (hp : Partition p) (id : Nat) :
    Steps Cycle (p.place id) (lifeOf id deeds) (q.place id) := by
  induction h with
  | nil => exact .nil _
  | @cons p p' q deed deeds hmove hrest ih =>
    have hlife := ih (hmove.partition hp)
    unfold lifeOf at hlife ⊢
    by_cases hid : deed.id = id
    · rw [List.filter_cons_of_pos (by simpa using hid)]
      subst hid
      exact .cons (hmove.cycle hp) hlife
    · rw [List.filter_cons_of_neg (by simpa using hid), ← hmove.elsewhere (Ne.symm hid)]
      exact hlife

/-! ## Many cells at once -/

/-- All of `ids` are passed on, in order. -/
theorem passes (content : Nat → α) (ids rest busy free lost : List Nat) (made : Nat) :
    Steps Moves ⟨ids ++ rest, busy, free, lost, made⟩
      (ids.map fun id => .pass id (content id)) ⟨rest, busy ++ ids, free, lost, made⟩ := by
  induction ids generalizing busy with
  | nil =>
    rw [List.append_nil]
    exact .nil _
  | cons id ids ih =>
    rw [List.append_cons busy id ids]
    exact .cons (.pass id (content id)) (ih (busy ++ [id]))

/-- All of `ids` come back; the last to do so is the first to be taken again. -/
theorem recycles (ids taken rest free lost : List Nat) (made : Nat) :
    Steps (Moves (α := α)) ⟨taken, ids ++ rest, free, lost, made⟩
      (ids.map .recycle) ⟨taken, rest, ids.reverse ++ free, lost, made⟩ := by
  induction ids generalizing free with
  | nil => exact .nil _
  | cons id ids ih =>
    rw [List.reverse_cons, List.append_assoc]
    exact .cons (.recycle id) (ih (id :: free))

end RdsJson.Lib.Pool
