import RdsJson.OutputMem
import Mathlib.Data.List.Nodup

/-! # What the write layer keeps

The output bufs of a context are all different and of one size: those on the
three chains, and the one that is being filled. `Carry` is the state in which a
buf is being filled, `Wrote` the one in which a write is over; both say which
bytes were taken over since a state `o₀`. -/
namespace RdsJson.WriteLayer
open RdsJson.Lib.LittleEndian RdsJson.Lib.TailLoop RdsJson.Lib.Outcome RdsJson.Nginx
open RdsJson.Context RdsJson.OutputMem

/-- The bufs on the three chains. -/
def held (o : OutCtx) : List Nat := o.busyBufs ++ (o.out ++ o.freeBufs)

/-- What `output_bufs` would pass on if the stream ended now. -/
def chain (o : OutCtx) : List Nat := o.out ++ if o.availOut = 0 then [] else [o.outBuf]

/-- The bytes on `ids`, consumed or not. -/
def memory (o : OutCtx) (ids : List Nat) : Bytes := ids.flatMap fun id => (o.bufs id).mem

/-- What was written and not passed on. -/
def pending (o : OutCtx) : Bytes := memory o (chain o)

/-- No buf that waits to be passed on was consumed before. -/
def Fresh (o : OutCtx) : Prop := ∀ id ∈ o.out, (o.bufs id).pos = 0

variable {B : Nat} {mark : Bool}

/-- `mark` is whether the last buf carries `last_buf`; no other buf does. -/
structure Owned (B : Nat) (mark : Bool) (o : OutCtx) : Prop where
  nodup : (held o).Nodup
  known : ∀ id ∈ held o, id < o.nbufs
  sized : ∀ id ∈ held o, (o.bufs id).size = B
  marks : ∀ id ∈ held o, (o.bufs id).lastBuf = (mark && decide (id = o.outBuf))
  full : ∀ id ∈ o.out, (o.bufs id).mem.length = B
  empty : ∀ id ∈ o.freeBufs, (o.bufs id).mem = [] ∧ (o.bufs id).pos = 0

/-- The buf that is being filled is on no chain. -/
structure Current (B : Nat) (mark : Bool) (o : OutCtx) : Prop where
  apart : o.outBuf ∉ held o
  known : o.outBuf < o.nbufs
  sized : (o.bufs o.outBuf).size = B
  marked : (o.bufs o.outBuf).lastBuf = mark
  filled : (o.bufs o.outBuf).mem.length + o.availOut = B
  unread : (o.bufs o.outBuf).pos = 0

/-- `bytes` were taken over since `o₀`, and the room left shrank by as much. -/
structure Added (B : Nat) (o₀ o : OutCtx) (bytes laid : Bytes) : Prop where
  laid : laid = pending o₀ ++ bytes
  busy : o.busyBufs = o₀.busyBufs
  avail : (bytes.length + o.availOut) % B = o₀.availOut % B
  fresh : Fresh o₀ → Fresh o
  seen : o.seenStreamEnd = o₀.seenStreamEnd

/-- A buf is being filled. -/
structure Carry (B : Nat) (mark : Bool) (o₀ o : OutCtx) (bytes : Bytes) : Prop where
  owned : Owned B false o
  current : Current B mark o
  added : Added B o₀ o bytes (memory o o.out ++ (o.bufs o.outBuf).mem)

/-- A write is over: a buf that was filled up is on `out`. -/
structure Wrote (B : Nat) (mark : Bool) (o₀ o : OutCtx) (bytes : Bytes) : Prop where
  owned : Owned B mark o
  current : o.availOut ≠ 0 → Current B mark o
  added : Added B o₀ o bytes (pending o)
  last : bytes ≠ [] → (∃ ids, chain o = ids ++ [o.outBuf]) ∧ (o.bufs o.outBuf).mem ≠ []

/-- Ready for the next write. -/
structure Ready (B : Nat) (o : OutCtx) : Prop where
  owned : Owned B false o
  current : o.availOut ≠ 0 → Current B false o
  idle : o.postponed = none

theorem pending_of_avail_zero {o : OutCtx} (h : o.availOut = 0) :
    pending o = memory o o.out := by
  simp [pending, chain, h]

theorem pending_of_avail {o : OutCtx} (h : o.availOut ≠ 0) :
    pending o = memory o o.out ++ (o.bufs o.outBuf).mem := by
  simp [pending, chain, memory, h]

theorem memory_append (o : OutCtx) (ids ids' : List Nat) :
    memory o (ids ++ ids') = memory o ids ++ memory o ids' := by
  simp [memory]

/-- Bufs with the same bytes hold the same bytes. -/
theorem memory_congr {o o' : OutCtx} {ids : List Nat}
    (h : ∀ id ∈ ids, (o'.bufs id).mem = (o.bufs id).mem) : memory o' ids = memory o ids :=
  List.flatMap_congr h

theorem memory_length {o : OutCtx} {B : Nat} {ids : List Nat}
    (h : ∀ id ∈ ids, (o.bufs id).mem.length = B) : (memory o ids).length = ids.length * B := by
  induction ids with
  | nil => simp [memory]
  | cons id ids ih =>
    have hid := h id (by simp)
    have ih := ih fun id' hid' => h id' (by simp [hid'])
    simp only [memory, List.flatMap_cons, List.length_append, List.length_cons] at ih ⊢
    rw [hid, ih, Nat.add_mul, Nat.one_mul, Nat.add_comm]

theorem mem_held_of_out {o : OutCtx} {id : Nat} (h : id ∈ o.out) : id ∈ held o := by
  simp [held, h]

theorem mem_held_of_free {o : OutCtx} {id : Nat} (h : id ∈ o.freeBufs) : id ∈ held o := by
  simp [held, h]

theorem Added.refl (o : OutCtx) : Added B o o [] (pending o) := by
  constructor <;> simp

theorem Added.trans {o₀ o₁ o₂ : OutCtx} {b₁ b₂ laid : Bytes} (h₁ : Added B o₀ o₁ b₁ (pending o₁))
    (h₂ : Added B o₁ o₂ b₂ laid) : Added B o₀ o₂ (b₁ ++ b₂) laid := by
  refine ⟨?_, h₂.busy.trans h₁.busy, ?_, fun hf => h₂.fresh (h₁.fresh hf), h₂.seen.trans h₁.seen⟩
  · rw [h₂.laid, h₁.laid, List.append_assoc]
  · rw [List.length_append, Nat.add_assoc, Nat.add_mod, h₂.avail, ← Nat.add_mod, h₁.avail]

theorem Ready.wrote {o : OutCtx} (h : Ready B o) : Wrote B false o o [] :=
  ⟨h.owned, h.current, Added.refl o, fun h => absurd rfl h⟩

/-- The fault that a write may end in: bufs of size zero make the copying loop
endless. -/
def EndlessIn (B : Nat) (e : Fault) : Prop := e = .endless ∧ B = 0

/-! ## What the parts of a write do -/

/-- The scratch area and the allocations are no part of the bufs. -/
theorem Carry.frame {o₀ o : OutCtx} {bytes : Bytes} (h : Carry B mark o₀ o bytes)
    (postponed : Option Bytes) (cached : Option Nat) (allocs : Nat) :
    Carry B mark o₀ { o with postponed := postponed, cached := cached, allocs := allocs } bytes :=
  ⟨⟨h.owned.nodup, h.owned.known, h.owned.sized, h.owned.marks, h.owned.full, h.owned.empty⟩,
    ⟨h.current.apart, h.current.known, h.current.sized, h.current.marked, h.current.filled,
      h.current.unread⟩,
    ⟨h.added.laid, h.added.busy, h.added.avail, h.added.fresh, h.added.seen⟩⟩

theorem Carry.avail_le {o₀ o : OutCtx} {bytes : Bytes} (h : Carry B mark o₀ o bytes) :
    o.availOut ≤ B := by
  have := h.current.filled
  omega

/-- What only touches bufs on no chain leaves the chains as they are; the front
of the free ones may be taken off. -/
theorem Owned.transfer {o o' : OutCtx} (h : Owned B false o) (hbusy : o'.busyBufs = o.busyBufs)
    (hout : o'.out = o.out) (hfree : o'.freeBufs <:+ o.freeBufs) (hn : o.nbufs ≤ o'.nbufs)
    (hbufs : ∀ id ∈ held o, o'.bufs id = o.bufs id) : Owned B false o' := by
  have hsub : (held o').Sublist (held o) := by
    rw [held, held, hbusy, hout]
    exact (List.Sublist.refl _).append ((List.Sublist.refl _).append hfree.sublist)
  have hmem : ∀ id ∈ held o', id ∈ held o := fun id hid => hsub.subset hid
  constructor
  · exact h.nodup.sublist hsub
  · exact fun id hid => Nat.lt_of_lt_of_le (h.known id (hmem id hid)) hn
  · intro id hid
    rw [hbufs id (hmem id hid)]
    exact h.sized id (hmem id hid)
  · intro id hid
    rw [hbufs id (hmem id hid)]
    simpa using h.marks id (hmem id hid)
  · intro id hid
    rw [hout] at hid
    rw [hbufs id (mem_held_of_out hid)]
    exact h.full id hid
  · intro id hid
    rw [hbufs id (mem_held_of_free (hfree.subset hid))]
    exact h.empty id (hfree.subset hid)

/-- The same for the bytes that wait, and for their being untouched. -/
theorem memory_transfer (o o' : OutCtx) (hout : o'.out = o.out)
    (hbufs : ∀ id ∈ held o, o'.bufs id = o.bufs id) :
    memory o' o'.out = memory o o.out ∧ (Fresh o → Fresh o') := by
  constructor
  · rw [hout]
    exact memory_congr fun id hid => by rw [hbufs id (mem_held_of_out hid)]
  · intro hf id hid
    rw [hout] at hid
    rw [hbufs id (mem_held_of_out hid)]
    exact hf id hid

variable (env : Env)

/-- The first free buf is the one to be filled. -/
theorem Wrote.reuse {o₀ o : OutCtx} {bytes : Bytes} {id : Nat} {rest : List Nat}
    (h : Wrote B false o₀ o bytes) (ha : o.availOut = 0) (hfree : o.freeBufs = id :: rest) :
    Carry B false o₀ { o with outBuf := id, freeBufs := rest, availOut := B } bytes := by
  have hid : id ∈ held o := mem_held_of_free (by simp [hfree])
  obtain ⟨hmem, hpos⟩ := h.owned.empty id (by simp [hfree])
  have hnd : (id :: (o.busyBufs ++ (o.out ++ rest))).Nodup := by
    have := h.owned.nodup
    rwa [held, hfree, ← List.append_assoc, List.nodup_middle, List.append_assoc] at this
  refine ⟨h.owned.transfer rfl rfl ⟨[id], hfree.symm⟩ le_rfl fun _ _ => rfl, ?_, ?_⟩
  · refine ⟨(List.nodup_cons.mp hnd).1, h.owned.known id hid, h.owned.sized id hid, ?_, ?_, hpos⟩
    · simpa using h.owned.marks id hid
    · simp [hmem]
  · refine ⟨?_, h.added.busy, ?_, h.added.fresh, h.added.seen⟩
    · show memory o o.out ++ (o.bufs id).mem = _
      rw [hmem, List.append_nil, ← pending_of_avail_zero ha, h.added.laid]
    · have := h.added.avail
      rw [ha] at this
      simpa using this

/-- A new buf has a number that nobody has. -/
theorem Wrote.create {o₀ o : OutCtx} {bytes : Bytes} (h : Wrote B false o₀ o bytes)
    (ha : o.availOut = 0) (allocs : Nat) :
    Carry B false o₀ { o with
      allocs := allocs
      outBuf := o.nbufs
      nbufs := o.nbufs + 1
      bufs := Function.update o.bufs o.nbufs ⟨B, [], 0, false⟩
      availOut := B } bytes := by
  have hne : ∀ id ∈ held o, id ≠ o.nbufs := fun id hid => Nat.ne_of_lt (h.owned.known id hid)
  have hsame : ∀ id ∈ held o,
      Function.update o.bufs o.nbufs ⟨B, [], 0, false⟩ id = o.bufs id :=
    fun id hid => Function.update_of_ne (hne id hid) _ _
  obtain ⟨hmem, hfresh⟩ := memory_transfer o { o with
    bufs := Function.update o.bufs o.nbufs ⟨B, [], 0, false⟩ } rfl hsame
  refine ⟨h.owned.transfer rfl rfl List.suffix_rfl (Nat.le_succ _) hsame, ?_, ?_⟩
  · refine ⟨fun hid => hne _ hid rfl, Nat.lt_succ_self _, ?_, ?_, ?_, ?_⟩ <;> simp
  · refine ⟨?_, h.added.busy, ?_, fun hf => hfresh (h.added.fresh hf), h.added.seen⟩
    · rw [← h.added.laid, pending_of_avail_zero ha, ← hmem]
      simp [memory]
    · have := h.added.avail
      rw [ha] at this
      simpa using this

/-- Either an allocation failed or there is a buf to fill. -/
theorem getBuf_spec {o₀ o : OutCtx} {bytes : Bytes} (h : Wrote B false o₀ o bytes) :
    (∃ o', getBuf env B o = (NGX_OK, o') ∧ Carry B false o₀ o' bytes ∧
        o'.postponed = o.postponed ∧
        o'.availOut = (if o.availOut = 0 then B else o.availOut)) ∨
      (∃ o', getBuf env B o = (NGX_ERROR, o') ∧ ∃ k, env.alloc k = false) := by
  obtain ⟨ha, hget⟩ | ⟨ha, ⟨id, rest, hfree, hget⟩ | ⟨-, allocs, hget | ⟨hget, hal⟩⟩⟩ :=
    getBuf_cases env B o
  · have hadd := h.added
    rw [pending_of_avail ha] at hadd
    exact .inl ⟨o, hget, ⟨h.owned, h.current ha, hadd⟩, rfl, (if_neg ha).symm⟩
  · exact .inl ⟨_, hget, h.reuse ha hfree, rfl, (if_pos ha).symm⟩
  · exact .inl ⟨_, hget, h.create ha _, rfl, (if_pos ha).symm⟩
  · exact .inr ⟨_, hget, hal⟩

/-- The buf that is being filled may grow by `more`, and be marked. -/
theorem Carry.update {o₀ o : OutCtx} {bytes : Bytes} (h : Carry B mark o₀ o bytes)
    (b : OutBuf) (more : Bytes) (hle : more.length ≤ o.availOut)
    (hsize : b.size = (o.bufs o.outBuf).size) (hmem : b.mem = (o.bufs o.outBuf).mem ++ more)
    (hpos : b.pos = (o.bufs o.outBuf).pos) :
    Carry B b.lastBuf o₀ { o with
      bufs := Function.update o.bufs o.outBuf b
      availOut := o.availOut - more.length } (bytes ++ more) := by
  have hfilled := h.current.filled
  have hsame : ∀ id ∈ held o, Function.update o.bufs o.outBuf b id = o.bufs id := by
    intro id hid
    refine Function.update_of_ne ?_ _ _
    rintro rfl
    exact h.current.apart hid
  have hself : Function.update o.bufs o.outBuf b o.outBuf = b := Function.update_self _ _ _
  obtain ⟨hout, hfresh⟩ := memory_transfer o { o with
    bufs := Function.update o.bufs o.outBuf b } rfl hsame
  refine ⟨h.owned.transfer rfl rfl List.suffix_rfl le_rfl hsame, ?_, ?_⟩
  · refine ⟨h.current.apart, h.current.known, ?_, ?_, ?_, ?_⟩
    · exact (congrArg OutBuf.size hself).trans (hsize.trans h.current.sized)
    · exact congrArg OutBuf.lastBuf hself
    · dsimp only
      rw [hself, hmem, List.length_append]
      omega
    · exact (congrArg OutBuf.pos hself).trans (hpos.trans h.current.unread)
  · refine ⟨?_, h.added.busy, ?_, fun hf => hfresh (h.added.fresh hf), h.added.seen⟩
    · dsimp only
      rw [hself, hmem, ← List.append_assoc, ← List.append_assoc, ← h.added.laid, ← hout]
      rfl
    · dsimp only
      rw [← h.added.avail, List.length_append]
      congr 1
      omega

/-- Bytes that fit land behind those that are there. -/
theorem Carry.append {o₀ o : OutCtx} {bytes : Bytes} (h : Carry B false o₀ o bytes)
    (more : Bytes) (hle : more.length ≤ o.availOut) :
    ∃ o', appendOut o more = .ok o' ∧ Carry B false o₀ o' (bytes ++ more) ∧
      o'.availOut = o.availOut - more.length ∧ o'.postponed = o.postponed ∧
      (o'.bufs o'.outBuf).mem = (o.bufs o.outBuf).mem ++ more := by
  have hfilled := h.current.filled
  have hsized := h.current.sized
  have hcarry := h.update { o.bufs o.outBuf with mem := (o.bufs o.outBuf).mem ++ more } more hle
    rfl rfl rfl
  rw [show _ = false from h.current.marked] at hcarry
  have hfits : ¬ (o.bufs o.outBuf).size < (o.bufs o.outBuf).mem.length + more.length := by omega
  exact ⟨_, if_neg hfits, hcarry, rfl, rfl, by simp⟩

theorem Carry.setLastBuf {o₀ o : OutCtx} {bytes : Bytes} (h : Carry B mark o₀ o bytes)
    (lastBuf : Bool) : Carry B lastBuf o₀ (setLastBuf o lastBuf) bytes := by
  have hcarry := h.update { o.bufs o.outBuf with lastBuf := lastBuf } [] (Nat.zero_le _)
    rfl (List.append_nil _).symm rfl
  rwa [List.append_nil] at hcarry

/-- A buf with room left stays where it is. -/
theorem Carry.keep {o₀ o : OutCtx} {bytes : Bytes} (h : Carry B mark o₀ o bytes)
    (ha : o.availOut ≠ 0) (hlast : bytes ≠ [] → (o.bufs o.outBuf).mem ≠ []) :
    Wrote B mark o₀ o bytes := by
  refine ⟨⟨h.owned.nodup, h.owned.known, h.owned.sized, ?_, h.owned.full, h.owned.empty⟩,
    fun _ => h.current, ?_, fun hb => ⟨⟨o.out, by simp [chain, ha]⟩, hlast hb⟩⟩
  · intro id hid
    have hne : id ≠ o.outBuf := fun he => h.current.apart (he ▸ hid)
    simpa [hne] using h.owned.marks id hid
  · rw [pending_of_avail ha]
    exact h.added

/-- A buf that is full goes to the end of `out`. -/
theorem Carry.link {o₀ o : OutCtx} {bytes : Bytes} (h : Carry B mark o₀ o bytes)
    (ha : o.availOut = 0) (hlast : bytes ≠ [] → (o.bufs o.outBuf).mem ≠ []) (allocs : Nat) :
    Wrote B mark o₀ { o with allocs := allocs, out := o.out ++ [o.outBuf] } bytes := by
  have hperm : (held { o with allocs := allocs, out := o.out ++ [o.outBuf] }).Perm
      (o.outBuf :: held o) := by
    simp only [held, List.append_assoc, List.singleton_append]
    exact ((List.perm_middle.append_left o.busyBufs).trans List.perm_middle)
  have hmem : ∀ id ∈ held { o with allocs := allocs, out := o.out ++ [o.outBuf] },
      id = o.outBuf ∨ id ∈ held o := fun id hid => by
    simpa using hperm.subset hid
  have hfilled := h.current.filled
  refine ⟨⟨?_, ?_, ?_, ?_, ?_, h.owned.empty⟩, fun hne => absurd ha hne,
    ⟨?_, h.added.busy, h.added.avail, ?_, h.added.seen⟩, ?_⟩
  · exact hperm.nodup_iff.mpr (List.nodup_cons.mpr ⟨h.current.apart, h.owned.nodup⟩)
  · intro id hid
    rcases hmem id hid with rfl | hid
    · exact h.current.known
    · exact h.owned.known id hid
  · intro id hid
    rcases hmem id hid with rfl | hid
    · exact h.current.sized
    · exact h.owned.sized id hid
  · intro id hid
    rcases hmem id hid with rfl | hid
    · simpa using h.current.marked
    · have hne : id ≠ o.outBuf := fun he => h.current.apart (he ▸ hid)
      simpa [hne] using h.owned.marks id hid
  · intro id hid
    rcases List.mem_append.mp hid with hid | hid
    · exact h.owned.full id hid
    · rw [List.mem_singleton.mp hid]
      show (o.bufs o.outBuf).mem.length = B
      omega
  · rw [← h.added.laid]
    simp [pending, chain, memory, ha]
  · intro hf id hid
    rcases List.mem_append.mp hid with hid | hid
    · exact h.added.fresh hf id hid
    · rw [List.mem_singleton.mp hid]
      exact h.current.unread
  · exact fun hb => ⟨⟨o.out, by simp [chain, ha]⟩, hlast hb⟩

/-! ## Copying the scratch area over -/

/-- Whether `n` bytes end where a buf ends, with `avail` bytes of room before. -/
def Fills (B avail n : Nat) : Prop := (n + (B - avail)) % B = 0

instance (B avail n : Nat) : Decidable (Fills B avail n) := inferInstanceAs (Decidable (_ = _))

theorem not_fills_of_lt {avail n : Nat} (hn : 0 < n) (h : n < avail) (hB : avail ≤ B) :
    ¬ Fills B avail n := by
  unfold Fills
  rw [Nat.mod_eq_of_lt (by omega)]
  omega

theorem fills_self {avail : Nat} (hB : avail ≤ B) : Fills B avail avail := by
  rw [Fills, Nat.add_sub_cancel' hB, Nat.mod_self]

theorem fills_next {avail n : Nat} (h : avail ≤ n) (hB : avail ≤ B) :
    Fills B B (n - avail) ↔ Fills B avail n := by
  have hs : n + (B - avail) = n - avail + B := by omega
  rw [Fills, Fills, hs, Nat.add_mod_right, Nat.sub_self, Nat.add_zero]

/-- How a write may end: an allocation failed, or the bytes are taken over. -/
def Ends (B : Nat) (mark : Bool) (o₀ : OutCtx) (bytes : Bytes) (r : Int × OutCtx) : Prop :=
  (r.1 = NGX_OK ∧ Wrote B mark o₀ r.2 bytes ∧ r.2.postponed = none) ∨
    (r.1 = NGX_ERROR ∧ ∃ k, env.alloc k = false)

/-- One round: the rest fits, or the buf is filled up and another one taken. -/
theorem copyTurn_spec {o₀ o : OutCtx} {bytes ps : Bytes} (lastBuf : Bool)
    (h : Carry B false o₀ o bytes) (hp : o.postponed = some ps) (hps : ps ≠ [])
    (hnone : B = 0 → bytes = []) :
    ∃ t, copyTurn env B lastBuf o = .ok t ∧
      match t with
      | .done r =>
        Ends env B (lastBuf && decide (Fills B o.availOut ps.length)) o₀ (bytes ++ ps) r
      | .again o' => o.availOut < ps.length ∧ Carry B false o₀ o' (bytes ++ ps.take o.availOut) ∧
          o'.postponed = some (ps.drop o.availOut) ∧ o'.availOut = B := by
  have hle := h.avail_le
  have hlen : 0 < ps.length := List.length_pos_iff.mpr hps
  obtain ⟨o₁, happ, hc, havail, -, hmem⟩ :=
    h.append (ps.take (min ps.length o.availOut)) (by simp)
  rw [List.length_take] at havail
  unfold copyTurn
  simp only [hp, Option.getD_some, happ, ok_bind]
  have hframe := fun p n => hc.frame p o₁.cached n
  by_cases hfit : ps.length < o.availOut
  · have hmin : min ps.length o.availOut = ps.length := by omega
    rw [hmin, List.take_length] at hc hmem hframe
    have ha : o₁.availOut ≠ 0 := by omega
    rw [if_pos hmin, if_pos (Nat.pos_of_ne_zero ha)]
    refine ⟨_, rfl, .inl ⟨rfl, ?_, rfl⟩⟩
    rw [decide_eq_false (not_fills_of_lt hlen hfit hle), Bool.and_false]
    refine (hframe none o₁.allocs).keep ha fun _ => ?_
    show (o₁.bufs o₁.outBuf).mem ≠ []
    simp [hmem, hps]
  · have hmin : min ps.length o.availOut = o.availOut := by omega
    rw [hmin] at hc hmem hframe
    have ha : o₁.availOut = 0 := by omega
    -- the buf is full; it is empty only if no buf has any room
    have hlast : bytes ++ ps.take o.availOut ≠ [] → (o₁.bufs o₁.outBuf).mem ≠ [] := by
      intro hb he
      have hfilled := hc.current.filled
      rw [he, ha] at hfilled
      have hB : B = 0 := by simpa using hfilled.symm
      have : o.availOut = 0 := by omega
      simp [hnone hB, this] at hb
    rw [hmin, if_neg (by omega : ¬ o₁.availOut > 0)]
    obtain ⟨allocs, hlink | ⟨hlink, hal⟩⟩ := linkOutBuf_cases env { o₁ with
      postponed := if o.availOut = ps.length then none else some (ps.drop o.availOut) }
    · rw [hlink]
      by_cases hall : o.availOut = ps.length
      · simp only [hall, if_true, Bool.not_true, Bool.false_eq_true, if_false]
        refine ⟨_, rfl, .inl ⟨rfl, ?_, rfl⟩⟩
        have hfills : Fills B ps.length ps.length := fills_self (by omega)
        rw [decide_eq_true hfills, Bool.and_true]
        rw [hall, List.take_length] at hframe hlast
        refine ((hframe none allocs).setLastBuf lastBuf).link ha ?_ allocs
        show _ → (Function.update o₁.bufs o₁.outBuf _ o₁.outBuf).mem ≠ []
        rw [Function.update_self]
        exact hlast
      · simp only [if_neg hall, Bool.not_true, Bool.false_eq_true, if_false, reduceCtorEq]
        have hw := (hframe (some (ps.drop o.availOut)) allocs).link ha hlast allocs
        rcases getBuf_spec env hw with ⟨o₂, hget, hc₂, hp₂, ha₂⟩ | ⟨o₂, hget, hal₂⟩
        · dsimp only at hget
          rw [hget]
          refine ⟨.again o₂, rfl, by omega, hc₂, hp₂, ?_⟩
          rw [ha₂]
          exact if_pos ha
        · dsimp only at hget
          rw [hget]
          exact ⟨_, rfl, .inr ⟨rfl, hal₂⟩⟩
    · rw [hlink]
      exact ⟨_, rfl, .inr ⟨rfl, hal⟩⟩

/-- The loop ends, unless the bufs are of size zero: every other round leaves
less in the scratch area. -/
theorem copy_spec (lastBuf : Bool) {o₀ : OutCtx} (fuel : Nat) {o : OutCtx} {bytes ps : Bytes}
    (h : Carry B false o₀ o bytes) (hp : o.postponed = some ps) (hps : ps ≠ [])
    (hroom : B ≠ 0 → o.availOut ≠ 0 ∧ ps.length < fuel) (hnone : B = 0 → bytes = []) :
    Yields (EndlessIn B)
      ((turns (copyTurn env B lastBuf) fuel o).getD (.error .endless))
      (Ends env B (lastBuf && decide (Fills B o.availOut ps.length)) o₀ (bytes ++ ps)) := by
  induction fuel generalizing o bytes ps with
  | zero =>
    have hB : B = 0 := by
      by_contra hB
      exact absurd (hroom hB).2 (Nat.not_lt_zero _)
    exact ⟨rfl, hB⟩
  | succ fuel ih =>
    obtain ⟨t, ht, hspec⟩ := copyTurn_spec env lastBuf h hp hps hnone
    unfold turns
    rw [ht]
    cases t with
    | done r => exact hspec
    | again o' =>
      obtain ⟨hlt, hc, hp', ha'⟩ := hspec
      have hps' : ps.drop o.availOut ≠ [] := by simpa using hlt
      have := ih hc hp' hps' (fun hB => ⟨by omega, by
        have := hroom hB
        rw [List.length_drop]
        omega⟩) (fun hB => by
          have := h.avail_le
          have : o.availOut = 0 := by omega
          simp [hnone hB, this])
      have hfills : decide (Fills B B (ps.length - o.availOut)) =
          decide (Fills B o.availOut ps.length) :=
        decide_eq_decide.mpr (fills_next hlt.le h.avail_le)
      rwa [ha', List.length_drop, hfills, List.append_assoc, List.take_append_drop] at this

/-! ## A whole write -/

/-- Whether a write of `n` bytes that ends the stream marks the last buf: it
fits into the room there is, or it ends where a buf ends. -/
def Marks (B : Nat) (o : OutCtx) (n : Nat) : Prop :=
  let avail := if o.availOut = 0 then B else o.availOut
  n ≤ avail ∨ Fills B avail n

instance (B : Nat) (o : OutCtx) (n : Nat) : Decidable (Marks B o n) :=
  inferInstanceAs (Decidable (_ ∨ _))

/-- The same told from the number of bytes written before: the write fits into
the rest of the buf it begins in, or it ends where a buf ends. -/
def Closes (B before n : Nat) : Prop := n ≤ B - before % B ∨ (before + n) % B = 0

instance (B before n : Nat) : Decidable (Closes B before n) :=
  inferInstanceAs (Decidable (_ ∨ _))

theorem marks_iff {o : OutCtx} {before n : Nat} (hle : o.availOut ≤ B)
    (hroom : (before + o.availOut) % B = 0) : Marks B o n ↔ Closes B before n := by
  rcases Nat.eq_zero_or_pos B with rfl | hB
  · simp only [Nat.mod_zero] at hroom
    have ha : o.availOut = 0 := by omega
    have hb : before = 0 := by omega
    simp [Marks, Closes, Fills, ha, hb]
  have hlt := Nat.mod_lt before hB
  have hrest : before % B = B - (if o.availOut = 0 then B else o.availOut) := by
    split
    · next ha =>
      rw [ha, Nat.add_zero] at hroom
      omega
    · next ha =>
      rw [← Nat.mod_add_mod] at hroom
      obtain ⟨k, hk⟩ := Nat.dvd_of_mod_eq_zero hroom
      have hk1 : k = 1 := by
        have : k < 2 := by
          by_contra hk2
          have := Nat.mul_le_mul_left B (Nat.not_lt.mp hk2)
          omega
        have : k ≠ 0 := by
          rintro rfl
          omega
        omega
      subst hk1
      omega
  have hle' : (if o.availOut = 0 then B else o.availOut) ≤ B := by split <;> omega
  unfold Marks Closes Fills
  dsimp only
  rw [Nat.add_comm before n, Nat.add_mod n before B, hrest, Nat.sub_sub_self hle', Nat.mod_add_mod]

/-- A write that fits goes into the buf directly. -/
theorem submitMem_inPlace {o₀ o : OutCtx} {write : Bytes} (lastBuf : Bool)
    (h : Carry B false o₀ o []) (hp : o.postponed = none) (hle : write.length ≤ o.availOut) :
    Yields (fun _ => False) (submitMem env B o write lastBuf) (Ends env B lastBuf o₀ write) := by
  obtain ⟨o₁, happ, hc, havail, hp₁, hmem⟩ := h.append write hle
  rw [List.nil_append] at hc
  rw [hp] at hp₁
  have hc := hc.setLastBuf lastBuf
  have hmem' : ((setLastBuf o₁ lastBuf).bufs (setLastBuf o₁ lastBuf).outBuf).mem =
      (o.bufs o.outBuf).mem ++ write := by
    show (Function.update o₁.bufs o₁.outBuf _ o₁.outBuf).mem = _
    rw [Function.update_self, ← hmem]
  have hlast' : write ≠ [] →
      ((setLastBuf o₁ lastBuf).bufs (setLastBuf o₁ lastBuf).outBuf).mem ≠ [] := by
    intro hw
    simp [hmem', hw]
  unfold submitMem
  simp only [hp, happ, ok_bind]
  split
  · next ha =>
    obtain ⟨allocs, hlink | ⟨hlink, hal⟩⟩ := linkOutBuf_cases env (setLastBuf o₁ lastBuf)
    · rw [hlink]
      exact .inl ⟨rfl, hc.link ha hlast' allocs, hp₁⟩
    · rw [hlink]
      exact .inr ⟨rfl, hal⟩
  · next ha => exact .inl ⟨rfl, hc.keep ha hlast', hp₁⟩

/-- `seen_stream_end` is no part of the bufs either. -/
theorem Carry.see {o₀ o : OutCtx} {bytes : Bytes} (h : Carry B mark o₀ o bytes) (seen : Bool) :
    Carry B mark { o₀ with seenStreamEnd := seen } { o with seenStreamEnd := seen } bytes :=
  ⟨⟨h.owned.nodup, h.owned.known, h.owned.sized, h.owned.marks, h.owned.full, h.owned.empty⟩,
    ⟨h.current.apart, h.current.known, h.current.sized, h.current.marked, h.current.filled,
      h.current.unread⟩,
    ⟨h.added.laid, h.added.busy, h.added.avail, h.added.fresh, rfl⟩⟩

/-- The scratch area is as large as it has to be, whatever it was before. -/
theorem getPostponed_spec (o : OutCtx) (len : Nat) :
    ∃ ok cached allocs,
      getPostponed env o len = (ok, { o with cached := cached, allocs := allocs }) ∧
        (ok = false → ∃ k, env.alloc k = false) ∧
        (ok = true → ∃ size, cached = some size ∧ len ≤ size) := by
  have halloc : ∃ ok cached allocs,
      (if (!env.alloc o.allocs) = true then (false, { o with allocs := o.allocs + 1 })
        else (true, { o with cached := some len, allocs := o.allocs + 1 })) =
          (ok, { o with cached := cached, allocs := allocs }) ∧
        (ok = false → ∃ k, env.alloc k = false) ∧
        (ok = true → ∃ size, cached = some size ∧ len ≤ size) := by
    cases hal : env.alloc o.allocs with
    | false =>
      exact ⟨false, _, _, rfl, fun _ => ⟨_, hal⟩, fun hok => absurd hok Bool.false_ne_true⟩
    | true =>
      exact ⟨true, _, _, rfl, fun hok => absurd hok.symm Bool.false_ne_true,
        fun _ => ⟨len, rfl, le_rfl⟩⟩
  unfold getPostponed OutCtx.palloc
  dsimp only
  split
  · exact halloc
  · next size hsize =>
    split
    · exact halloc
    · next hle =>
      exact ⟨true, _, _, rfl, fun hok => absurd hok.symm Bool.false_ne_true,
        fun _ => ⟨size, hsize, Nat.not_lt.mp hle⟩⟩

/-- An allocation failed, or there is room: in the buf, or in the scratch area
for a write that does not fit. -/
theorem requestMem_spec {o : OutCtx} (h : Ready B o) (size : Nat) :
    (∃ area o', requestMem env B o size = (some area, o') ∧ Carry B false o o' [] ∧
        o'.availOut = (if o.availOut = 0 then B else o.availOut) ∧
        match area with
        | .inPlace => size ≤ o'.availOut ∧ o'.postponed = none
        | .scratch => o'.availOut < size) ∨
      (∃ o', requestMem env B o size = (none, o') ∧ ∃ k, env.alloc k = false) := by
  unfold requestMem
  rcases getBuf_spec env h.wrote with ⟨o₁, hget, hc, hp, ha⟩ | ⟨o₁, hget, hal⟩
  · rw [hget]
    dsimp only
    rw [if_neg (not_not_intro rfl)]
    split
    · next hlt =>
      obtain ⟨ok, cached, allocs, hpostponed, hfail, -⟩ := getPostponed_spec env o₁ size
      rw [hpostponed]
      cases ok with
      | false => exact .inr ⟨_, rfl, hfail rfl⟩
      | true => exact .inl ⟨.scratch, _, rfl, hc.frame _ cached allocs, ha, hlt⟩
    · next hlt =>
      exact .inl ⟨.inPlace, o₁, rfl, hc, ha, Nat.not_lt.mp hlt, hp.trans h.idle⟩
  · rw [hget]
    exact .inr ⟨_, rfl, hal⟩

/-- What the output functions do with the bytes they counted right. -/
theorem writeMem_spec {o : OutCtx} (h : Ready B o) (bytes : Bytes) (checked final lastBuf : Bool) :
    Yields (EndlessIn B)
      (writeMem env B o bytes.length bytes checked final lastBuf)
      (Ends env B (lastBuf && decide (Marks B o bytes.length))
        { o with seenStreamEnd := o.seenStreamEnd || final } bytes) := by
  unfold writeMem
  rcases requestMem_spec env h bytes.length with ⟨area, o₁, hreq, hc, ha, harea⟩ | ⟨o₁, hreq, hal⟩
  · have hle := hc.avail_le
    rw [hreq, ← hc.added.seen]
    have hc := hc.see (o₁.seenStreamEnd || final)
    simp only [lt_irrefl, if_false, Nat.sub_self, List.replicate_zero, List.append_nil, ne_eq,
      not_true_eq_false, and_false]
    cases area with
    | inPlace =>
      have hmarks : Marks B o bytes.length := .inl (ha ▸ harea.1)
      rw [decide_eq_true hmarks, Bool.and_true]
      exact (submitMem_inPlace env lastBuf hc harea.2 harea.1).weaken fun _ => False.elim
    | scratch =>
      have hmarks : Marks B o bytes.length ↔ Fills B o₁.availOut bytes.length := by
        unfold Marks
        rw [← ha, or_iff_right (Nat.not_le.mpr harea)]
      rw [decide_eq_decide.mpr hmarks]
      have hne : bytes ≠ [] := by
        rintro rfl
        exact Nat.not_lt_zero _ harea
      exact copy_spec env lastBuf _ (hc.frame (some bytes) o₁.cached o₁.allocs) rfl hne
        (fun hB => ⟨by dsimp only; split at ha <;> omega, Nat.lt_succ_self _⟩) fun _ => rfl
  · rw [hreq]
    exact .inr ⟨rfl, hal⟩

/-- Allocations alone change nothing for the writes that follow. -/
theorem Ready.alloc {o : OutCtx} (h : Ready B o) (allocs : Nat) :
    Ready B { o with allocs := allocs } :=
  ⟨⟨h.owned.nodup, h.owned.known, h.owned.sized, h.owned.marks, h.owned.full, h.owned.empty⟩,
    fun ha => ⟨(h.current ha).apart, (h.current ha).known, (h.current ha).sized,
      (h.current ha).marked, (h.current ha).filled, (h.current ha).unread⟩, h.idle⟩

theorem Ends.alloc (o₀ : OutCtx) {bytes : Bytes} {allocs : Nat} {seen : Bool} {r : Int × OutCtx}
    (h : Ends env B mark { o₀ with allocs := allocs, seenStreamEnd := seen } bytes r) :
    Ends env B mark { o₀ with seenStreamEnd := seen } bytes r := by
  rcases h with ⟨hrc, hw, hidle⟩ | h
  · exact .inl ⟨hrc, ⟨hw.owned, hw.current, ⟨hw.added.laid, hw.added.busy, hw.added.avail,
      hw.added.fresh, hw.added.seen⟩, hw.last⟩, hidle⟩
  · exact .inr h

theorem Wrote.ready {o₀ o : OutCtx} {bytes : Bytes} (h : Wrote B false o₀ o bytes)
    (hidle : o.postponed = none) : Ready B o :=
  ⟨h.owned, h.current, hidle⟩

/-- A write within the stream. -/
theorem writeMem_piece {o : OutCtx} (h : Ready B o) (bytes : Bytes) (checked : Bool) :
    Yields (EndlessIn B)
      (writeMem env B o bytes.length bytes checked false false) (Ends env B false o bytes) := by
  have := writeMem_spec env h bytes checked false false
  rwa [Bool.or_false, Bool.false_and] at this

theorem Ready.avail_le {B : Nat} {o : OutCtx} (h : Ready B o) : o.availOut ≤ B := by
  by_cases ha : o.availOut = 0
  · omega
  · have := (h.current ha).filled
    omega

/-- Room that `bytes` more take is room that was there. -/
theorem Added.room {B n : Nat} {o o' : OutCtx} {bytes laid : Bytes} (h : Added B o o' bytes laid)
    (hroom : (n + o.availOut) % B = 0) : (n + bytes.length + o'.availOut) % B = 0 := by
  rw [Nat.add_assoc, Nat.add_mod, h.avail, ← Nat.add_mod, hroom]

/-- Nothing is written, at most allocated. -/
theorem added_alloc (B : Nat) (o : OutCtx) (allocs : Nat) :
    Added B o { o with allocs := allocs } [] (pending { o with allocs := allocs }) :=
  ⟨by simp [pending, chain, memory], rfl, by simp, fun hf => hf, rfl⟩

/-- A write that is over leaves the bufs ready for the next. -/
theorem Ends.cases {B : Nat} {o₀ : OutCtx} {bytes : Bytes} {rc : Int} {o : OutCtx}
    (h : Ends env B false o₀ bytes (rc, o)) :
    (rc = NGX_OK ∧ Ready B o ∧ Added B o₀ o bytes (pending o)) ∨
      (rc = NGX_ERROR ∧ ∃ k, env.alloc k = false) := by
  rcases h with ⟨hrc, hw, hidle⟩ | h
  · exact .inl ⟨hrc, hw.ready hidle, hw.added⟩
  · exact .inr h

/-! ## Passing the bufs on -/

/-- The output bufs that went down the chain, as they were passed. -/
def sentBufs (trace : List Event) : List OutBuf :=
  trace.flatMap fun
    | .json bufs => bufs
    | .header _ => []
    | .body _ => []

/-- The bytes of the module's output that went down the chain. -/
def sent (trace : List Event) : Bytes := (sentBufs trace).flatMap OutBuf.unread

@[simp] theorem sentBufs_append (t t' : List Event) :
    sentBufs (t ++ t') = sentBufs t ++ sentBufs t' := by
  simp [sentBufs]

@[simp] theorem sentBufs_json (bufs : List OutBuf) : sentBufs [.json bufs] = bufs := by
  simp [sentBufs]

@[simp] theorem sentBufs_header (status : Nat) : sentBufs [.header status] = [] := rfl

@[simp] theorem sentBufs_body (chain : List Buf) : sentBufs [.body chain] = [] := rfl

/-- The body data of an event. -/
def bodyBytes : Event → Bytes
  | .header _ => []
  | .body chain => chain.flatMap Buf.rest
  | .json bufs => bufs.flatMap OutBuf.unread

/-- All the data that went down the chain. -/
def delivered (trace : List Event) : Bytes := trace.flatMap bodyBytes

/-- What is gathered from a trace comes from the module's bufs alone where no other
chain holds anything. -/
theorem flatMap_of_sentBufs {α : Type} {trace : List Event} {f : Event → List α}
    {g : OutBuf → List α} (hheader : ∀ status, f (.header status) = []) (hnil : f (.body []) = [])
    (hjson : ∀ bufs, f (.json bufs) = bufs.flatMap g)
    (h : ∀ chain, Event.body chain ∈ trace → chain = []) :
    trace.flatMap f = (sentBufs trace).flatMap g := by
  rw [sentBufs, List.flatMap_assoc]
  refine List.flatMap_congr fun e he => ?_
  cases e with
  | header status => exact hheader status
  | body chain =>
    rw [h chain he]
    exact hnil
  | json bufs => exact hjson bufs

theorem delivered_eq_sent {trace : List Event}
    (h : ∀ chain, Event.body chain ∈ trace → chain = []) : delivered trace = sent trace :=
  flatMap_of_sentBufs (fun _ => rfl) rfl (fun _ => rfl) h

/-- Consuming moves nothing but `pos`, and only of the bufs on the chain. -/
theorem consumeFront_spec (n : Nat) (ids : List Nat) (bufs : Nat → OutBuf) (id : Nat) :
    (∃ pos, consumeFront n ids bufs id = { bufs id with pos := pos }) ∧
      (id ∉ ids → consumeFront n ids bufs id = bufs id) := by
  induction ids generalizing n bufs with
  | nil => exact ⟨⟨_, rfl⟩, fun _ => rfl⟩
  | cons head ids ih =>
    unfold consumeFront
    obtain ⟨⟨pos, hpos⟩, hsame⟩ := ih (n - min n (bufs head).unread.length)
      (Function.update bufs head
        { bufs head with pos := (bufs head).pos + min n (bufs head).unread.length })
    constructor
    · refine ⟨pos, hpos.trans ?_⟩
      by_cases he : id = head
      · subst he
        rw [Function.update_self]
      · rw [Function.update_of_ne he]
    · intro hid
      rw [List.mem_cons, not_or] at hid
      rw [hsame hid.2, Function.update_of_ne hid.1]

theorem consumeFront_other {n id : Nat} {ids : List Nat} {bufs : Nat → OutBuf} (h : id ∉ ids) :
    consumeFront n ids bufs id = bufs id :=
  (consumeFront_spec n ids bufs id).2 h

/-- Consuming takes unread bytes away at the front, and no others. -/
theorem consumeFront_drop (n : Nat) (ids : List Nat) (bufs : Nat → OutBuf) (id : Nat) :
    ∃ k, (consumeFront n ids bufs id).unread = (bufs id).unread.drop k := by
  induction ids generalizing n bufs with
  | nil => exact ⟨0, List.drop_zero.symm⟩
  | cons head ids ih =>
    unfold consumeFront
    obtain ⟨k, hk⟩ := ih (n - min n (bufs head).unread.length) (Function.update bufs head
      { bufs head with pos := (bufs head).pos + min n (bufs head).unread.length })
    by_cases heq : id = head
    · subst heq
      rw [Function.update_self] at hk
      refine ⟨min n (bufs id).unread.length + k, hk.trans ?_⟩
      simp only [OutBuf.unread, List.drop_drop, Nat.add_assoc]
    · rw [Function.update_of_ne heq] at hk
      exact ⟨k, hk⟩

theorem Current.transfer {o o' : OutCtx} (h : Current B mark o) (hcur : o'.outBuf = o.outBuf)
    (hheld : ∀ id ∈ held o', id ∈ held o) (hn : o'.nbufs = o.nbufs)
    (ha : o'.availOut = o.availOut) (hsame : o'.bufs o.outBuf = o.bufs o.outBuf) :
    Current B mark o' := by
  rw [← hcur] at hsame
  constructor
  · exact fun hin => h.apart (hcur ▸ hheld _ hin)
  · rw [hcur, hn]
    exact h.known
  · rw [hsame, hcur]
    exact h.sized
  · rw [hsame, hcur]
    exact h.marked
  · rw [hsame, hcur, ha]
    exact h.filled
  · rw [hsame, hcur]
    exact h.unread

/-- Consuming bufs that were passed on disturbs no later write. -/
theorem Ready.consume {o : OutCtx} (h : Ready B o) (n : Nat) (ids : List Nat)
    (hids : ∀ id ∈ ids, id ∈ o.busyBufs ++ o.out) :
    Ready B { o with bufs := consumeFront n ids o.bufs } := by
  have hspec := consumeFront_spec n ids o.bufs
  have hnd := h.owned.nodup
  rw [held, ← List.append_assoc] at hnd
  have hfree : ∀ id ∈ o.freeBufs, consumeFront n ids o.bufs id = o.bufs id :=
    fun id hid => consumeFront_other fun hin => (List.disjoint_of_nodup_append hnd) (hids id hin) hid
  refine ⟨⟨h.owned.nodup, h.owned.known, ?_, ?_, ?_, ?_⟩, fun ha => ?_, h.idle⟩
  · intro id hid
    obtain ⟨pos, hp⟩ := (hspec id).1
    exact (congrArg OutBuf.size hp).trans (h.owned.sized id hid)
  · intro id hid
    obtain ⟨pos, hp⟩ := (hspec id).1
    exact (congrArg OutBuf.lastBuf hp).trans (h.owned.marks id hid)
  · intro id hid
    obtain ⟨pos, hp⟩ := (hspec id).1
    exact (congrArg (fun b => b.mem.length) hp).trans (h.owned.full id hid)
  · intro id hid
    dsimp only
    rw [hfree id hid]
    exact h.owned.empty id hid
  · have hcur := h.current ha
    refine hcur.transfer rfl (fun _ hid => hid) rfl rfl ((hspec _).2 fun hin => hcur.apart ?_)
    have := hids _ hin
    simp only [held, List.mem_append] at this ⊢
    tauto

/-- Consuming leaves the bytes in place. -/
theorem pending_consume (o : OutCtx) (n : Nat) (ids : List Nat) :
    pending { o with bufs := consumeFront n ids o.bufs } = pending o :=
  memory_congr fun id _ => by
    obtain ⟨pos, hp⟩ := (consumeFront_spec n ids o.bufs id).1
    show (consumeFront n ids o.bufs id).mem = _
    rw [hp]

/-- A consumed buf comes back empty, all others stay as they are. -/
theorem Ready.updateChains {o : OutCtx} (h : Ready B o) : Ready B (updateChains o) := by
  have hperm : (held (OutputMem.updateChains o)).Perm (held o) := by
    simp only [held, OutputMem.updateChains, List.nil_append]
    rw [← List.append_assoc, ← List.append_assoc]
    refine List.Perm.append_right _ ?_
    refine ((List.reverse_perm _).append_left _).trans ?_
    refine List.perm_append_comm.trans ?_
    rw [List.takeWhile_append_dropWhile]
  have hbuf : ∀ id, ((OutputMem.updateChains o).bufs id).size = (o.bufs id).size ∧
      ((OutputMem.updateChains o).bufs id).lastBuf = (o.bufs id).lastBuf := by
    intro id
    simp only [OutputMem.updateChains, emptyBufs]
    split <;> exact ⟨rfl, rfl⟩
  refine ⟨⟨hperm.nodup_iff.mpr h.owned.nodup, ?_, ?_, ?_, ?_, ?_⟩, fun ha => ?_, h.idle⟩
  · exact fun id hid => h.owned.known id (hperm.subset hid)
  · exact fun id hid => (hbuf id).1.trans (h.owned.sized id (hperm.subset hid))
  · exact fun id hid => (hbuf id).2.trans (h.owned.marks id (hperm.subset hid))
  · exact fun id hid => absurd hid List.not_mem_nil
  · intro id hid
    simp only [OutputMem.updateChains, emptyBufs]
    split
    · exact ⟨rfl, rfl⟩
    · next hnot =>
      rcases List.mem_append.mp hid with hid | hid
      · exact absurd (List.mem_reverse.mp hid) hnot
      · exact h.owned.empty id hid
  · have hcur := h.current ha
    refine hcur.transfer rfl (fun _ hid => hperm.subset hid) rfl rfl
      (if_neg fun hin => hcur.apart ?_)
    have := (List.takeWhile_sublist _).subset hin
    simp only [held, List.mem_append] at this ⊢
    tauto

/-- What was passed on does not wait any more. -/
theorem pending_pass {o : OutCtx} (h : Ready B o) (n : Nat) (ids : List Nat) :
    pending o = memory o o.out ++
      pending (updateChains { o with bufs := consumeFront n ids o.bufs }) := by
  by_cases ha : o.availOut = 0
  · simp [pending, chain, ha, OutputMem.updateChains, memory]
  · have hkeep : ((OutputMem.updateChains { o with bufs := consumeFront n ids o.bufs }).bufs
        o.outBuf).mem = (o.bufs o.outBuf).mem := by
      obtain ⟨pos, hp⟩ := (consumeFront_spec n ids o.bufs o.outBuf).1
      have hnot : o.outBuf ∉ (o.busyBufs ++ o.out).takeWhile fun id =>
          decide ((consumeFront n ids o.bufs id).unread = []) := by
        intro hin
        apply (h.current ha).apart
        have := (List.takeWhile_sublist _).subset hin
        simp only [held, List.mem_append] at this ⊢
        tauto
      show (emptyBufs (consumeFront n ids o.bufs) _ o.outBuf).mem = _
      rw [emptyBufs, if_neg hnot, hp]
    rw [pending_of_avail ha, pending_of_avail
      (show (OutputMem.updateChains { o with bufs := consumeFront n ids o.bufs }).availOut ≠ 0
        from ha)]
    show _ = _ ++ ([] ++ ((OutputMem.updateChains { o with
      bufs := consumeFront n ids o.bufs }).bufs o.outBuf).mem)
    rw [hkeep, List.nil_append]

/-- Bufs nobody consumed anything of show all their bytes. -/
theorem unread_of_fresh (o : OutCtx) (ids : List Nat) (h : ∀ id ∈ ids, (o.bufs id).pos = 0) :
    (ids.map o.bufs).flatMap OutBuf.unread = memory o ids := by
  rw [List.flatMap_map]
  refine List.flatMap_congr fun id hid => ?_
  rw [OutBuf.unread, h id hid, List.drop_zero]

/-- What `output_bufs` leaves alone. -/
structure Passes (w w' : World) : Prop where
  r : w'.r = w.r
  ctx : w'.ctx = w.ctx
  ctxSet : w'.ctxSet = w.ctxSet

/-- Whatever the bufs are like, at most one chain of them is passed on. -/
theorem outputBufs_passes (w : World) :
    Passes w (outputBufs env w).2 ∧ ((outputBufs env w).2.trace = w.trace ∨
      ∃ bufs, (outputBufs env w).2.trace = w.trace ++ [.json bufs]) := by
  unfold outputBufs nextBodyFilterOut
  dsimp only
  split
  · exact ⟨⟨rfl, rfl, rfl⟩, .inl rfl⟩
  · split
    · exact ⟨⟨rfl, rfl, rfl⟩, .inl rfl⟩
    · split <;> exact ⟨⟨rfl, rfl, rfl⟩, .inr ⟨_, rfl⟩⟩

/-- What is on `out` is passed on, and taken off it unless the next filter fails. -/
theorem outputBufs_of_flush {w : World} {o : OutCtx} (hflush : flushOutBuf env w.out = (NGX_OK, o))
    (hout : o.out ≠ []) :
    ∃ rc w', outputBufs env w = (rc, w') ∧ Passes w w' ∧
      w'.trace = w.trace ++ [.json (o.out.map o.bufs)] ∧
      ((failed (env.bodyRc w.trace.length) = true ∧ rc = env.bodyRc w.trace.length ∧
          w'.out = { o with
            bufs := consumeFront (env.consume w.trace.length) (o.busyBufs ++ o.out) o.bufs }) ∨
        (failed (env.bodyRc w.trace.length) = false ∧ rc = NGX_OK ∧
          w'.out = updateChains { o with
            bufs := consumeFront (env.consume w.trace.length) (o.busyBufs ++ o.out) o.bufs })) := by
  unfold outputBufs
  rw [hflush]
  dsimp only
  rw [if_neg (not_not_intro rfl), if_neg hout]
  unfold nextBodyFilterOut
  dsimp only
  cases hrc : failed (env.bodyRc w.trace.length) with
  | true =>
    rw [if_pos rfl]
    exact ⟨_, _, rfl, ⟨rfl, rfl, rfl⟩, rfl, .inl ⟨rfl, rfl, rfl⟩⟩
  | false =>
    rw [if_neg Bool.false_ne_true]
    exact ⟨_, _, rfl, ⟨rfl, rfl, rfl⟩, rfl, .inr ⟨rfl, rfl, rfl⟩⟩

theorem flushOutBuf_within {o : OutCtx} (hseen : o.seenStreamEnd = false) :
    flushOutBuf env o = (NGX_OK, o) := by
  rw [flushOutBuf, hseen]
  rfl

/-- Within the stream nothing happens as long as no buf is full. -/
theorem outputBufs_nothing {w : World} (hseen : w.out.seenStreamEnd = false)
    (hout : w.out.out = []) : outputBufs env w = (NGX_OK, w) := by
  unfold outputBufs
  rw [flushOutBuf_within env hseen]
  dsimp only
  rw [if_neg (not_not_intro rfl), if_pos hout]

/-- Within the stream the full bufs are passed on, if there are any. -/
theorem outputBufs_ready (w : World) (h : Ready B w.out) (hseen : w.out.seenStreamEnd = false) :
    ∃ rc w', outputBufs env w = (rc, w') ∧ Passes w w' ∧ Ready B w'.out ∧
      w'.out.seenStreamEnd = false ∧ w'.out.availOut = w.out.availOut ∧
      ((w.out.out = [] ∧ rc = NGX_OK ∧ w' = w) ∨
        (w.out.out ≠ [] ∧ w'.trace = w.trace ++ [.json (w.out.out.map w.out.bufs)] ∧
          ((failed (env.bodyRc w.trace.length) = true ∧ rc = env.bodyRc w.trace.length) ∨
            (failed (env.bodyRc w.trace.length) = false ∧ rc = NGX_OK ∧ w'.out.out = [] ∧
              pending w.out = memory w.out w.out.out ++ pending w'.out)))) := by
  by_cases hout : w.out.out = []
  · exact ⟨NGX_OK, w, outputBufs_nothing env hseen hout, ⟨rfl, rfl, rfl⟩, h, hseen, rfl,
      .inl ⟨hout, rfl, rfl⟩⟩
  · have hconsume := h.consume (env.consume w.trace.length) (w.out.busyBufs ++ w.out.out)
      fun _ hid => hid
    obtain ⟨rc, w', heq, hp, htrace, ⟨hb, hrc, ho⟩ | ⟨hb, hrc, ho⟩⟩ :=
      outputBufs_of_flush env (flushOutBuf_within env hseen) hout
    · refine ⟨rc, w', heq, hp, ?_, ?_, ?_, .inr ⟨hout, htrace, .inl ⟨hb, hrc⟩⟩⟩ <;> rw [ho]
      · exact hconsume
      · exact hseen
    · refine ⟨rc, w', heq, hp, ?_, ?_, ?_, .inr ⟨hout, htrace, .inr ⟨hb, hrc, ?_, ?_⟩⟩⟩ <;> rw [ho]
      · exact hconsume.updateChains
      · exact hseen
      · rfl
      · rfl
      · exact pending_pass h _ _

/-- At the end of the stream the last buf goes with the full ones, even when it
is not full itself. -/
theorem outputBufs_ended (w : World) {o₀ : OutCtx} {bytes : Bytes}
    (h : Wrote B mark o₀ w.out bytes) (hne : bytes ≠ []) (hseen : w.out.seenStreamEnd = true) :
    ∃ rc w', outputBufs env w = (rc, w') ∧ Passes w w' ∧
      ((rc = NGX_ERROR ∧ w'.trace = w.trace ∧ ∃ k, env.alloc k = false) ∨
        (w'.trace = w.trace ++ [.json ((chain w.out).map w.out.bufs)] ∧
          failed rc = failed (env.bodyRc w.trace.length) ∧ (failed rc = false → rc = NGX_OK))) := by
  obtain ⟨ids, hids⟩ := (h.last hne).1
  have hchain : chain w.out ≠ [] := by simp [hids]
  have hflush : (∃ o, flushOutBuf env w.out = (NGX_OK, o) ∧ o.out = chain w.out ∧
      o.bufs = w.out.bufs) ∨ (∃ o, flushOutBuf env w.out = (NGX_ERROR, o)) ∧
        ∃ k, env.alloc k = false := by
    obtain ⟨hnone, hf⟩ | ⟨ha, allocs, hf | ⟨hf, hal⟩⟩ := flushOutBuf_cases env w.out
    · have ha : w.out.availOut = 0 := hnone.resolve_left (hseen ▸ Bool.noConfusion)
      exact .inl ⟨_, hf, by simp [chain, ha], rfl⟩
    · exact .inl ⟨_, hf, by simp [chain, ha], rfl⟩
    · exact .inr ⟨⟨_, hf⟩, hal⟩
  rcases hflush with ⟨o, hf, hout, hbufs⟩ | ⟨⟨o, hf⟩, hal⟩
  · obtain ⟨rc, w', heq, hp, htrace, hcase⟩ := outputBufs_of_flush env hf (hout ▸ hchain)
    rw [hout, hbufs] at htrace
    refine ⟨rc, w', heq, hp, .inr ⟨htrace, ?_⟩⟩
    rcases hcase with ⟨hb, rfl, -⟩ | ⟨hb, rfl, -⟩
    · exact ⟨rfl, by simp [hb]⟩
    · exact ⟨hb.symm, fun _ => rfl⟩
  · refine ⟨NGX_ERROR, { w with out := o }, ?_, ⟨rfl, rfl, rfl⟩, .inl ⟨rfl, rfl, hal⟩⟩
    unfold outputBufs
    rw [hf]
    rfl

end RdsJson.WriteLayer
