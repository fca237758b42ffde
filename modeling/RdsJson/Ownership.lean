import RdsJson.Sizes
import RdsJson.Lib.Pool
import Mathlib.Data.List.TakeWhile

/-! # Who has the output bufs

The bufs of a context are the cells of a pool: those on `out` and the one that is
being filled are taken, and each of them goes down the chain once before it is
taken again. -/
namespace RdsJson.Ownership
open RdsJson.Lib.LittleEndian RdsJson.Lib.TailLoop RdsJson.Lib.Outcome RdsJson.Lib.Labelled
open RdsJson.Lib.Pool RdsJson.Nginx RdsJson.Rds RdsJson.Conf RdsJson.Context RdsJson.OutputMem
open RdsJson.Output RdsJson.WriteLayer RdsJson.Generators RdsJson.Sizes

/-- The output side of a context, the buf in hand, and the bufs that were full
when there was no memory for their chain link: nothing points to these. -/
structure Hold where
  o : OutCtx
  hand : List Nat
  lost : List Nat

def Hold.cells (s : Hold) : Cells where
  taken := s.o.out ++ s.hand
  busy := s.o.busyBufs
  free := s.o.freeBufs
  lost := s.lost
  made := s.o.nbufs

/-- `out_buf`, as long as `avail_out > 0`. -/
def current (o : OutCtx) : List Nat := if o.availOut = 0 then [] else [o.outBuf]

/-- The invariant. Between filling up a buf and linking it, it is in hand with no
room left. -/
structure Owns (B : Nat) (s : Hold) : Prop where
  partition : Partition s.cells
  sized : ∀ id < s.o.nbufs, (s.o.bufs id).size = B
  hand : (s.hand = [] ∧ s.o.availOut = 0) ∨
    (s.hand = [s.o.outBuf] ∧ (s.o.bufs s.o.outBuf).mem.length + s.o.availOut = B)
  whole : ∀ id ∈ s.o.out ++ s.hand, (s.o.bufs id).pos = 0
  empty : ∀ id ∈ s.o.freeBufs, (s.o.bufs id).mem = [] ∧ (s.o.bufs id).pos = 0

/-- What a write does: it passes nothing on, and leaves alone what is unread of
the bufs that wait to be passed on or consumed. -/
structure Advances (env : Env) (B : Nat) (s : Hold) (deeds : List (Deed OutBuf)) (s' : Hold) :
    Prop where
  owns : Owns B s'
  path : Steps Moves s.cells deeds s'.cells
  busy : s'.o.busyBufs = s.o.busyBufs
  out : s.o.out ⊆ s'.o.out
  kept : ∀ id ∈ s.o.busyBufs ++ s.o.out, (s'.o.bufs id).unread = (s.o.bufs id).unread
  hidden : deeds.flatMap Deed.shown = []
  lost : s'.lost ≠ s.lost → ∃ k, env.alloc k = false

variable {env : Env} {B : Nat} {o o' : OutCtx} {s s' s'' : Hold} {lost hand : List Nat}
variable {deeds deeds' : List (Deed OutBuf)}

theorem Advances.refl (h : Owns B s) : Advances env B s [] s :=
  ⟨h, .nil _, rfl, fun _ hid => hid, fun _ _ => rfl, rfl, fun hne => absurd rfl hne⟩

theorem Advances.trans (h : Advances env B s deeds s') (h' : Advances env B s' deeds' s'') :
    Advances env B s (deeds ++ deeds') s'' := by
  refine ⟨h'.owns, h.path.append h'.path, h'.busy.trans h.busy, fun _ hid => h'.out (h.out hid),
    fun id hid => ?_, ?_, fun hne => ?_⟩
  · refine (h'.kept id ?_).trans (h.kept id hid)
    rw [h.busy]
    obtain hid | hid := List.mem_append.mp hid
    · exact List.mem_append_left _ hid
    · exact List.mem_append_right _ (h.out hid)
  · rw [List.flatMap_append, h.hidden, h'.hidden]
    rfl
  · by_cases heq : s'.lost = s.lost
    · exact h'.lost (heq ▸ hne)
    · exact h.lost heq

/-- The scratch area, the allocations and the flag are no part of the bufs. -/
theorem Advances.frame (h : Advances env B s deeds ⟨o, hand, lost⟩) (postponed : Option Bytes)
    (cached : Option Nat) (allocs : Nat) (seen : Bool) :
    Advances env B s deeds ⟨{ o with
      postponed := postponed, cached := cached, allocs := allocs, seenStreamEnd := seen },
      hand, lost⟩ :=
  ⟨⟨h.owns.partition, h.owns.sized, h.owns.hand, h.owns.whole, h.owns.empty⟩, h.path, h.busy,
    h.out, h.kept, h.hidden, h.lost⟩

/-- What is in hand is on no chain. -/
theorem Owns.apart (h : Owns B ⟨o, [o.outBuf], lost⟩) :
    o.outBuf ∉ o.busyBufs ++ o.out ∧ o.outBuf ∉ o.freeBufs := by
  have hnd := h.partition.nodup
  dsimp only [Hold.cells] at hnd
  rw [List.append_assoc, List.singleton_append, List.nodup_middle, List.nodup_cons] at hnd
  have hnot := hnd.1
  simp only [List.mem_append, not_or] at hnot ⊢
  tauto

theorem Owns.lt (h : Owns B s) {id : Nat} (hid : id ∈ s.o.busyBufs ++ (s.o.out ++ s.o.freeBufs)) :
    id < s.o.nbufs := by
  refine h.partition.lt (p := s.cells) ?_
  simp only [Hold.cells, List.mem_append] at hid ⊢
  tauto

/-- As long as there is room in the current buf, `avail_out` is what lies between
`last` and `end`. -/
theorem Owns.room (h : Owns B ⟨o, current o, lost⟩) (ha : o.availOut ≠ 0) :
    o.availOut = (o.bufs o.outBuf).size - (o.bufs o.outBuf).mem.length := by
  obtain ⟨-, hnone⟩ | ⟨hhand, hfilled⟩ := h.hand
  · exact absurd hnone ha
  · have hhand : current o = [o.outBuf] := hhand
    have hsize := h.sized o.outBuf (h.partition.lt (by simp [Hold.cells, hhand]))
    dsimp only at hfilled hsize
    omega

/-! ## What the parts of a write do -/

theorem current_of_avail (h : o.availOut ≠ 0) : current o = [o.outBuf] := if_neg h

theorem current_of_none (h : o.availOut = 0) : current o = [] := if_pos h

/-- The first free buf is taken. -/
theorem Owns.reuse {id : Nat} {rest : List Nat} (h : Owns B ⟨o, [], lost⟩)
    (hfree : o.freeBufs = id :: rest) :
    Advances env B ⟨o, [], lost⟩ [.take id]
      ⟨{ o with outBuf := id, freeBufs := rest, availOut := B }, [id], lost⟩ := by
  have hmove : Moves (α := OutBuf) (Hold.cells ⟨o, [], lost⟩) (.take id)
      (Hold.cells ⟨{ o with outBuf := id, freeBufs := rest, availOut := B }, [id], lost⟩) := by
    unfold Hold.cells
    dsimp only
    rw [hfree, List.append_nil]
    exact .reuse id
  obtain ⟨hmem, hpos⟩ := h.empty id (by simp [hfree])
  refine ⟨⟨hmove.partition h.partition, h.sized, .inr ⟨rfl, ?_⟩, fun id' hid' => ?_,
    fun id' hid' => h.empty id' ?_⟩, .single hmove, rfl, fun _ hid => hid, fun _ _ => rfl, rfl,
    fun hne => absurd rfl hne⟩
  · simpa using hmem
  · obtain hid' | hid' := List.mem_append.mp hid'
    · exact h.whole id' (List.mem_append_left _ hid')
    · rwa [List.mem_singleton.mp hid']
  · simp only [hfree]
    exact List.mem_cons_of_mem _ hid'

/-- There is no free buf, and a new one is made. -/
theorem Owns.create (h : Owns B ⟨o, [], lost⟩) (hfree : o.freeBufs = []) (allocs : Nat) :
    Advances env B ⟨o, [], lost⟩ [.take o.nbufs]
      ⟨{ o with
        allocs := allocs
        outBuf := o.nbufs
        nbufs := o.nbufs + 1
        bufs := Function.update o.bufs o.nbufs ⟨B, [], 0, false⟩
        availOut := B }, [o.nbufs], lost⟩ := by
  have hmove : Moves (α := OutBuf) (Hold.cells ⟨o, [], lost⟩) (.take o.nbufs)
      (Hold.cells ⟨{ o with
        allocs := allocs
        outBuf := o.nbufs
        nbufs := o.nbufs + 1
        bufs := Function.update o.bufs o.nbufs ⟨B, [], 0, false⟩
        availOut := B }, [o.nbufs], lost⟩) := by
    unfold Hold.cells
    dsimp only
    rw [hfree, List.append_nil]
    exact .create
  have hold : ∀ id ∈ o.busyBufs ++ (o.out ++ o.freeBufs),
      Function.update o.bufs o.nbufs ⟨B, [], 0, false⟩ id = o.bufs id :=
    fun id hid => Function.update_of_ne (Nat.ne_of_lt (h.lt hid)) _ _
  refine ⟨⟨hmove.partition h.partition, fun id hid => ?_, .inr ⟨rfl, ?_⟩, fun id hid => ?_,
    fun id hid => ?_⟩, .single hmove, rfl, fun _ hid => hid, fun id hid => ?_, rfl,
    fun hne => absurd rfl hne⟩
  · obtain hid | rfl := Nat.lt_succ_iff_lt_or_eq.mp hid
    · exact (congrArg OutBuf.size (Function.update_of_ne (Nat.ne_of_lt hid) _ _)).trans
        (h.sized id hid)
    · dsimp only
      rw [Function.update_self]
  · simp
  · obtain hid | hid := List.mem_append.mp hid
    · exact (congrArg OutBuf.pos (hold id (by simp [show id ∈ o.out from hid]))).trans
        (h.whole id (List.mem_append_left _ hid))
    · obtain rfl := List.mem_singleton.mp hid
      dsimp only
      rw [Function.update_self]
  · have hid : id ∈ o.freeBufs := hid
    rw [hfree] at hid
    cases hid
  · refine congrArg OutBuf.unread (hold id ?_)
    rw [← List.append_assoc]
    exact List.mem_append_left _ hid

/-- There is room in hand now, unless there is no memory for a buf. -/
theorem getBuf_advances (hB : 1 ≤ B) (h : Owns B ⟨o, current o, lost⟩) :
    (∃ o' deeds, getBuf env B o = (NGX_OK, o') ∧
        Advances env B ⟨o, current o, lost⟩ deeds ⟨o', [o'.outBuf], lost⟩ ∧ o'.availOut ≠ 0 ∧
        o'.postponed = o.postponed) ∨
      ∃ allocs, getBuf env B o = (NGX_ERROR, { o with allocs := allocs }) := by
  have hroom : B ≠ 0 := by omega
  obtain ⟨ha, hget⟩ | ⟨ha, hcase⟩ := getBuf_cases env B o
  · rw [current_of_avail ha] at h ⊢
    exact .inl ⟨o, [], hget, .refl h, ha, rfl⟩
  rw [current_of_none ha] at h ⊢
  obtain ⟨id, rest, hfree, hget⟩ | ⟨hfree, allocs, hget | ⟨hget, -⟩⟩ := hcase
  · exact .inl ⟨_, _, hget, h.reuse hfree, hroom, rfl⟩
  · exact .inl ⟨_, _, hget, h.create hfree allocs, hroom, rfl⟩
  · exact .inr ⟨allocs, hget⟩

/-- What is in hand may be filled further, and marked. -/
theorem Owns.fill (h : Owns B ⟨o, [o.outBuf], lost⟩) (b : OutBuf) (more : Bytes)
    (hle : more.length ≤ o.availOut) (hsize : b.size = (o.bufs o.outBuf).size)
    (hmem : b.mem = (o.bufs o.outBuf).mem ++ more) (hpos : b.pos = (o.bufs o.outBuf).pos) :
    Advances env B ⟨o, [o.outBuf], lost⟩ [] ⟨{ o with
      bufs := Function.update o.bufs o.outBuf b
      availOut := o.availOut - more.length }, [o.outBuf], lost⟩ := by
  obtain ⟨hwait, hfree⟩ := h.apart
  have hother {ids : List Nat} (hnot : o.outBuf ∉ ids) :
      ∀ id ∈ ids, Function.update o.bufs o.outBuf b id = o.bufs id := by
    intro id hid
    refine Function.update_of_ne ?_ _ _
    rintro rfl
    exact hnot hid
  have hfilled : (o.bufs o.outBuf).mem.length + o.availOut = B := by
    obtain ⟨hnil, -⟩ | ⟨-, hfilled⟩ := h.hand
    · exact absurd hnil (List.cons_ne_nil _ _)
    · exact hfilled
  refine ⟨⟨h.partition, fun id hid => ?_, .inr ⟨rfl, ?_⟩, fun id hid => ?_, fun id hid => ?_⟩,
    .nil _, rfl, fun _ hid => hid, fun id hid => ?_, rfl, fun hne => absurd rfl hne⟩
  · dsimp only
    by_cases heq : id = o.outBuf
    · subst heq
      rw [Function.update_self, hsize]
      exact h.sized _ hid
    · rw [Function.update_of_ne heq]
      exact h.sized id hid
  · dsimp only
    rw [Function.update_self, hmem, List.length_append]
    omega
  · dsimp only at hid ⊢
    obtain hid | hid := List.mem_append.mp hid
    · rw [hother hwait id (List.mem_append_right _ hid)]
      exact h.whole id (List.mem_append_left _ hid)
    · rw [List.mem_singleton.mp hid, Function.update_self, hpos]
      exact h.whole _ (by simp)
  · dsimp only
    rw [hother hfree id hid]
    exact h.empty id hid
  · exact congrArg OutBuf.unread (hother hwait id hid)

/-- Marking a buf, in hand or not, leaves its bytes alone. -/
theorem Owns.mark (h : Owns B ⟨o, hand, lost⟩) (lastBuf : Bool) :
    Advances env B ⟨o, hand, lost⟩ [] ⟨setLastBuf o lastBuf, hand, lost⟩ := by
  have hsame (id : Nat) : ((setLastBuf o lastBuf).bufs id).size = (o.bufs id).size ∧
      ((setLastBuf o lastBuf).bufs id).mem = (o.bufs id).mem ∧
      ((setLastBuf o lastBuf).bufs id).pos = (o.bufs id).pos := by
    unfold setLastBuf
    dsimp only
    by_cases heq : id = o.outBuf
    · subst heq
      rw [Function.update_self]
      exact ⟨rfl, rfl, rfl⟩
    · rw [Function.update_of_ne heq]
      exact ⟨rfl, rfl, rfl⟩
  refine ⟨⟨h.partition, fun id hid => (hsame id).1.trans (h.sized id hid), ?_,
    fun id hid => (hsame id).2.2.trans (h.whole id hid), fun id hid => ?_⟩, .nil _, rfl,
    fun _ hid => hid, fun id _ => ?_, rfl, fun hne => absurd rfl hne⟩
  · obtain ⟨hnil, ha⟩ | ⟨hhand, hfilled⟩ := h.hand
    · exact .inl ⟨hnil, ha⟩
    · exact .inr ⟨hhand, (congrArg (fun mem => mem.length + o.availOut) (hsame _).2.1).trans hfilled⟩
  · exact ⟨(hsame id).2.1.trans (h.empty id hid).1, (hsame id).2.2.trans (h.empty id hid).2⟩
  · dsimp only
    rw [OutBuf.unread, OutBuf.unread, (hsame id).2.1, (hsame id).2.2]

/-- What is in hand goes to the end of `out`. -/
theorem Owns.link (h : Owns B ⟨o, [o.outBuf], lost⟩) (allocs : Nat) :
    Advances env B ⟨o, [o.outBuf], lost⟩ []
      ⟨{ o with allocs := allocs, out := o.out ++ [o.outBuf], availOut := 0 }, [], lost⟩ := by
  have hcells : Hold.cells ⟨{ o with
      allocs := allocs, out := o.out ++ [o.outBuf], availOut := 0 }, [], lost⟩ =
      Hold.cells ⟨o, [o.outBuf], lost⟩ := by
    simp [Hold.cells]
  refine ⟨⟨hcells ▸ h.partition, h.sized, .inl ⟨rfl, rfl⟩, fun id hid => ?_, h.empty⟩,
    hcells ▸ .nil _, rfl, List.subset_append_left .., fun _ _ => rfl, rfl,
    fun hne => absurd rfl hne⟩
  rw [List.append_nil] at hid
  exact h.whole id hid

/-- Without memory for its link, a full buf is lost. -/
theorem Owns.lose (h : Owns B ⟨o, [o.outBuf], lost⟩) (ha : o.availOut = 0) (allocs : Nat)
    (hal : ∃ k, env.alloc k = false) :
    Advances env B ⟨o, [o.outBuf], lost⟩ [.lose o.outBuf]
      ⟨{ o with allocs := allocs }, [], lost ++ [o.outBuf]⟩ := by
  have hmove : Moves (α := OutBuf) (Hold.cells ⟨o, [o.outBuf], lost⟩) (.lose o.outBuf)
      (Hold.cells ⟨{ o with allocs := allocs }, [], lost ++ [o.outBuf]⟩) := by
    unfold Hold.cells
    dsimp only
    rw [List.append_nil]
    exact .lose o.outBuf
  refine ⟨⟨hmove.partition h.partition, h.sized, .inl ⟨rfl, ha⟩, fun id hid => ?_, h.empty⟩,
    .single hmove, rfl, fun _ hid => hid, fun _ _ => rfl, rfl, fun _ => hal⟩
  rw [List.append_nil] at hid
  exact h.whole id (List.mem_append_left _ hid)

/-! ## A whole write -/

/-- A write is over, with success or without. -/
def Settled (env : Env) (B : Nat) (s : Hold) (r : Int × OutCtx) : Prop :=
  ∃ deeds lost, Advances env B s deeds ⟨r.2, current r.2, lost⟩

/-- In hand is a buf with room. -/
structure Filling (env : Env) (B : Nat) (s : Hold) (o : OutCtx) : Prop where
  advances : ∃ deeds lost, Advances env B s deeds ⟨o, [o.outBuf], lost⟩
  room : o.availOut ≠ 0

theorem Advances.settled {rc : Int} (h : Advances env B s deeds ⟨o, hand, lost⟩)
    (hhand : hand = current o) : Settled env B s (rc, o) := by
  subst hhand
  exact ⟨deeds, lost, h⟩

theorem Filling.settled {rc : Int} (h : Filling env B s o) : Settled env B s (rc, o) := by
  obtain ⟨deeds, lost, hadv⟩ := h.advances
  exact hadv.settled (current_of_avail h.room).symm

theorem Filling.frame (h : Filling env B s o) (postponed : Option Bytes) (cached : Option Nat)
    (allocs : Nat) (seen : Bool) :
    Filling env B s { o with
      postponed := postponed, cached := cached, allocs := allocs, seenStreamEnd := seen } := by
  obtain ⟨deeds, lost, hadv⟩ := h.advances
  exact ⟨⟨deeds, lost, hadv.frame postponed cached allocs seen⟩, h.room⟩

/-- What was filled up is linked; this is where a buf may be lost. -/
theorem linkOutBuf_advances (h : Advances env B s deeds ⟨o, [o.outBuf], lost⟩)
    (ha : o.availOut = 0) :
    ∃ ok o' deeds lost', linkOutBuf env o = (ok, o') ∧ o'.availOut = 0 ∧
      o'.postponed = o.postponed ∧ Advances env B s deeds ⟨o', [], lost'⟩ := by
  obtain ⟨allocs, hlink | ⟨hlink, hal⟩⟩ := linkOutBuf_cases env o
  · have hadv := h.trans (h.owns.link allocs)
    rw [← ha] at hadv
    exact ⟨_, _, _, _, hlink, ha, rfl, hadv⟩
  · exact ⟨_, _, _, _, hlink, ha, rfl, h.trans (h.owns.lose ha allocs hal)⟩

/-- Bytes that fit into what is in hand. -/
theorem Filling.append (h : Filling env B s o) (more : Bytes) (hle : more.length ≤ o.availOut) :
    ∃ o' deeds lost, appendOut o more = .ok o' ∧ o'.availOut = o.availOut - more.length ∧
      o'.postponed = o.postponed ∧ Advances env B s deeds ⟨o', [o'.outBuf], lost⟩ := by
  obtain ⟨deeds, lost, hadv⟩ := h.advances
  have howns := hadv.owns
  have hsize := howns.sized o.outBuf (howns.partition.lt (by simp [Hold.cells]))
  obtain ⟨hnil, -⟩ | ⟨-, hfilled⟩ := howns.hand
  · exact absurd hnil (List.cons_ne_nil _ _)
  have hfits : ¬ (o.bufs o.outBuf).size < (o.bufs o.outBuf).mem.length + more.length := by
    dsimp only at hsize hfilled
    omega
  exact ⟨_, _, _, if_neg hfits, rfl, rfl, hadv.trans (howns.fill
    { o.bufs o.outBuf with mem := (o.bufs o.outBuf).mem ++ more } more hle rfl rfl rfl)⟩

/-- One round of the copying loop; another round has less to copy. -/
theorem copyTurn_advances (hB : 1 ≤ B) (h : Filling env B s o) (lastBuf : Bool) :
    ∃ t, copyTurn env B lastBuf o = .ok t ∧ t.Leads
      (fun o' => Filling env B s o' ∧
        (o'.postponed.getD []).length < (o.postponed.getD []).length)
      (Settled env B s) := by
  have hroom := h.room
  obtain ⟨o₁, deeds, lost, happ, ha, -, hadv⟩ := h.append
    ((o.postponed.getD []).take (min (o.postponed.getD []).length o.availOut)) (by simp)
  rw [List.length_take] at ha
  unfold copyTurn
  simp only [happ, ok_bind]
  have hframe := hadv.frame (if min (o.postponed.getD []).length o.availOut =
    (o.postponed.getD []).length then none else
      some ((o.postponed.getD []).drop (min (o.postponed.getD []).length o.availOut)))
    o₁.cached o₁.allocs o₁.seenStreamEnd
  split
  · next hmore =>
    exact ⟨_, rfl, hframe.settled (current_of_avail (Nat.ne_of_gt hmore)).symm⟩
  next hfull =>
  obtain ⟨ok, o₃, deeds₃, lost₃, hlink, ha₃, hp₃, hadv₃⟩ :=
    linkOutBuf_advances hframe (Nat.eq_zero_of_not_pos hfull)
  have hcurrent : [] = current o₃ := (current_of_none ha₃).symm
  rw [hlink]
  dsimp only
  cases ok with
  | false => exact ⟨_, rfl, hadv₃.settled hcurrent⟩
  | true =>
    rw [Bool.not_true, if_neg Bool.false_ne_true]
    split
    · exact ⟨_, rfl, (hadv₃.trans (hadv₃.owns.mark lastBuf)).settled hcurrent⟩
    next hleft =>
    rw [hcurrent] at hadv₃
    obtain ⟨o₄, deeds₄, hget, hadv₄, hroom₄, hp₄⟩ | ⟨allocs, hget⟩ :=
      getBuf_advances hB hadv₃.owns
    · rw [hget]
      refine ⟨_, rfl, ⟨⟨_, _, hadv₃.trans hadv₄⟩, hroom₄⟩, ?_⟩
      rw [hp₃] at hleft
      rw [hp₄, hp₃, if_neg fun heq => hleft (if_pos heq), Option.getD_some, List.length_drop]
      omega
    · rw [hget]
      exact ⟨_, rfl, (hadv₃.frame o₃.postponed o₃.cached allocs o₃.seenStreamEnd).settled rfl⟩

/-- The copying loop comes to its end. -/
theorem copy_settled (hB : 1 ≤ B) (lastBuf : Bool) (fuel : Nat) (h : Filling env B s o)
    (hfuel : (o.postponed.getD []).length < fuel) :
    Yields (fun _ => False) ((turns (copyTurn env B lastBuf) fuel o).getD (.error .endless))
      (Settled env B s) := by
  have hturn (o : OutCtx) (h : Filling env B s o) :
      Yields (fun _ => False) (copyTurn env B lastBuf o) (Turn.Leads
        (fun o' => Filling env B s o' ∧
          (o'.postponed.getD []).length < (o.postponed.getD []).length)
        (Settled env B s)) := by
    obtain ⟨t, hturn, hleads⟩ := copyTurn_advances hB h lastBuf
    rw [hturn]
    exact hleads
  obtain ⟨r, hr, hyields⟩ := turns_yields hturn fuel h hfuel
  rw [hr]
  exact hyields

/-- A write that fits into what is in hand, or that is copied over. -/
theorem submitMem_settled (hB : 1 ≤ B) (h : Filling env B s o) (write : Bytes) (lastBuf : Bool)
    (hfits : o.postponed = none → write.length ≤ o.availOut) :
    Yields (fun _ => False) (submitMem env B o write lastBuf) (Settled env B s) := by
  unfold submitMem
  split
  · next postponed hp =>
    refine copy_settled hB lastBuf _ h ?_
    rw [hp]
    exact Nat.lt_succ_self _
  next hp =>
  obtain ⟨o₁, deeds, lost, happ, -, -, hadv⟩ := h.append write (hfits hp)
  rw [happ, ok_bind]
  have hmark := hadv.trans (hadv.owns.mark lastBuf)
  dsimp only
  split
  · next ha =>
    obtain ⟨ok, o₂, deeds₂, lost₂, hlink, ha₂, -, hadv₂⟩ := linkOutBuf_advances hmark ha
    rw [hlink]
    have hcurrent : [] = current o₂ := (current_of_none ha₂).symm
    cases ok with
    | false => exact hadv₂.settled hcurrent
    | true => exact hadv₂.settled hcurrent
  · next ha => exact hmark.settled (current_of_avail ha).symm

/-- In hand is room for what goes there. -/
theorem requestMem_filling (env : Env) (hB : 1 ≤ B) (h : Owns B ⟨o, current o, lost⟩) (n : Nat) :
    (∃ area o', requestMem env B o n = (some area, o') ∧
        Filling env B ⟨o, current o, lost⟩ o' ∧ (area = .inPlace → n ≤ o'.availOut)) ∨
      ∃ o', requestMem env B o n = (none, o') ∧
        Settled env B ⟨o, current o, lost⟩ (NGX_ERROR, o') := by
  unfold requestMem
  obtain ⟨o₁, deeds, hget, hadv, hroom, -⟩ | ⟨allocs, hget⟩ := getBuf_advances hB h
  · have hfill : Filling env B ⟨o, current o, lost⟩ o₁ := ⟨⟨_, _, hadv⟩, hroom⟩
    rw [hget]
    dsimp only
    rw [if_neg (not_not_intro rfl)]
    split
    · obtain ⟨ok, cached, allocs, hpostponed, -⟩ := getPostponed_spec env o₁ n
      rw [hpostponed]
      cases ok with
      | false =>
        exact .inr ⟨_, rfl, (hfill.frame o₁.postponed cached allocs o₁.seenStreamEnd).settled⟩
      | true => exact .inl ⟨.scratch, _, rfl, hfill.frame _ cached allocs o₁.seenStreamEnd, nofun⟩
    · next hle => exact .inl ⟨.inPlace, o₁, rfl, hfill, fun _ => Nat.not_lt.mp hle⟩
  · rw [hget]
    exact .inr ⟨_, rfl, ((Advances.refl h).frame o.postponed o.cached allocs
      o.seenStreamEnd).settled rfl⟩

/-- Every write, whatever was left in the scratch area before it. -/
theorem exactWrite_settled (hB : 1 ≤ B) (h : Owns B ⟨o, current o, lost⟩) (bytes : Bytes)
    (final lastBuf : Bool) :
    Yields (fun _ => False) (exactWrite env B o bytes final lastBuf)
      (Settled env B ⟨o, current o, lost⟩) := by
  unfold exactWrite
  obtain ⟨area, o₁, hreq, hfill, hfits⟩ | ⟨o₁, hreq, hsettled⟩ :=
    requestMem_filling env hB h bytes.length
  · rw [hreq]
    cases area with
    | inPlace =>
      exact submitMem_settled hB (hfill.frame o₁.postponed o₁.cached o₁.allocs _) bytes lastBuf
        fun _ => hfits rfl
    | scratch =>
      exact submitMem_settled hB (hfill.frame (some bytes) o₁.cached o₁.allocs _) bytes lastBuf
        nofun
  · rw [hreq]
    exact hsettled

/-! ## Passing the bufs on -/

/-- The flush at the end of the stream moves what is in hand to `out`. -/
theorem flushOutBuf_advances (env : Env) (h : Owns B ⟨o, current o, lost⟩) :
    ∃ rc o', flushOutBuf env o = (rc, o') ∧ o'.bufs = o.bufs ∧
      Advances env B ⟨o, current o, lost⟩ [] ⟨o', current o', lost⟩ := by
  have hkeep (allocs : Nat) : Advances env B ⟨o, current o, lost⟩ []
      ⟨{ o with allocs := allocs, seenStreamEnd := false }, current o, lost⟩ :=
    (Advances.refl h).frame o.postponed o.cached allocs false
  obtain ⟨-, hflush⟩ | ⟨ha, allocs, hflush | ⟨hflush, -⟩⟩ := flushOutBuf_cases env o
  · exact ⟨_, _, hflush, rfl, hkeep o.allocs⟩
  · rw [current_of_avail ha] at h ⊢
    exact ⟨_, _, hflush, rfl, (h.link allocs).frame o.postponed o.cached allocs false⟩
  · exact ⟨_, _, hflush, rfl, hkeep allocs⟩

/-- The next filter consumes some of what it was passed before. -/
theorem Owns.consume (h : Owns B ⟨o, hand, lost⟩) (n : Nat) :
    Owns B ⟨{ o with bufs := consumeFront n o.busyBufs o.bufs }, hand, lost⟩ := by
  have htaken : ∀ id ∈ o.out ++ hand, consumeFront n o.busyBufs o.bufs id = o.bufs id :=
    fun id hid => consumeFront_other (h.partition.taken_not_busy hid)
  refine ⟨h.partition, fun id hid => ?_, ?_, fun id hid => ?_, fun id hid => ?_⟩
  · obtain ⟨pos, hpos⟩ := (consumeFront_spec n o.busyBufs o.bufs id).1
    exact (congrArg OutBuf.size hpos).trans (h.sized id hid)
  · obtain ⟨hnil, ha⟩ | ⟨hhand, hfilled⟩ := h.hand
    · exact .inl ⟨hnil, ha⟩
    · have hin : o.outBuf ∈ o.out ++ hand := by simp [show hand = [o.outBuf] from hhand]
      refine .inr ⟨hhand, ?_⟩
      dsimp only
      rw [htaken _ hin]
      exact hfilled
  · dsimp only
    rw [htaken id hid]
    exact h.whole id hid
  · have hfree : consumeFront n o.busyBufs o.bufs id = o.bufs id :=
      consumeFront_other (h.partition.free_not_busy hid)
    dsimp only
    rw [hfree]
    exact h.empty id hid

/-- The bufs that are consumed to their end come back. -/
def consumed (o : OutCtx) (bufs : Nat → OutBuf) : List Nat :=
  (o.busyBufs ++ o.out).takeWhile fun id => (bufs id).unread = []

/-- What is done to the bufs when `out` is passed on and taken. -/
def passing (o : OutCtx) (bufs : Nat → OutBuf) : List (Deed OutBuf) :=
  o.out.map (fun id => .pass id (o.bufs id)) ++ (consumed o bufs).map .recycle

theorem passing_path (o : OutCtx) (bufs : Nat → OutBuf) (hand lost : List Nat) :
    Steps Moves (Hold.cells ⟨o, hand, lost⟩) (passing o bufs)
      (Hold.cells ⟨updateChains { o with bufs := bufs }, hand, lost⟩) := by
  have hpass := passes o.bufs o.out hand o.busyBufs o.freeBufs lost o.nbufs
  refine hpass.append ?_
  have hrecycle := recycles (α := OutBuf) (consumed o bufs) hand
    ((o.busyBufs ++ o.out).dropWhile fun id => (bufs id).unread = []) o.freeBufs lost o.nbufs
  rwa [consumed, List.takeWhile_append_dropWhile] at hrecycle

theorem passing_shown (o : OutCtx) (bufs : Nat → OutBuf) :
    (passing o bufs).flatMap Deed.shown = o.out.map o.bufs := by
  have hshown (ids : List Nat) :
      (ids.map fun id => Deed.pass id (o.bufs id)).flatMap Deed.shown = ids.map o.bufs := by
    rw [List.flatMap_map]
    exact List.flatMap_pure_eq_map o.bufs ids
  have hhidden (ids : List Nat) :
      (ids.map (Deed.recycle (α := OutBuf))).flatMap Deed.shown = [] := by
    rw [List.flatMap_map]
    exact List.flatMap_eq_nil_iff.mpr fun _ _ => rfl
  rw [passing, List.flatMap_append, hshown, hhidden, List.append_nil]

theorem mem_of_consumed {bufs : Nat → OutBuf} {id : Nat} (h : id ∈ consumed o bufs) :
    id ∈ o.busyBufs ++ o.out := (List.takeWhile_sublist _).subset h

/-- Emptying a buf that is consumed to its end takes nothing unread away. -/
theorem updateChains_unread (o : OutCtx) (bufs : Nat → OutBuf) (id : Nat) :
    ((updateChains { o with bufs := bufs }).bufs id).unread = (bufs id).unread := by
  show (emptyBufs bufs (consumed o bufs) id).unread = _
  unfold emptyBufs
  split
  · next hin =>
    have hread : (bufs id).unread = [] := by simpa using List.mem_takeWhile_imp hin
    rw [hread, OutBuf.unread, List.drop_nil]
  · rfl

/-- What is neither passed on nor busy is as it was. -/
theorem passOn_other (o : OutCtx) (n : Nat) {id : Nat} (h : id ∉ o.busyBufs ++ o.out) :
    (updateChains { o with bufs := consumeFront n (o.busyBufs ++ o.out) o.bufs }).bufs id =
      o.bufs id :=
  (if_neg fun hin => h (mem_of_consumed hin)).trans (consumeFront_other h)

theorem Owns.passOn (h : Owns B ⟨o, hand, lost⟩) (n : Nat) :
    Owns B ⟨updateChains { o with bufs := consumeFront n (o.busyBufs ++ o.out) o.bufs }, hand,
      lost⟩ := by
  have hpath := passing_path o (consumeFront n (o.busyBufs ++ o.out) o.bufs) hand lost
  refine ⟨partition_steps hpath h.partition, fun id hid => ?_, ?_, fun id hid => ?_,
    fun id hid => ?_⟩
  · obtain ⟨pos, hpos⟩ := (consumeFront_spec n (o.busyBufs ++ o.out) o.bufs id).1
    have hsize := (congrArg OutBuf.size hpos).trans (h.sized id hid)
    show (emptyBufs _ _ id).size = B
    unfold emptyBufs
    split
    · exact hsize
    · exact hsize
  · obtain ⟨hnil, ha⟩ | ⟨hhand, hfilled⟩ := h.hand
    · exact .inl ⟨hnil, ha⟩
    · obtain rfl : hand = [o.outBuf] := hhand
      exact .inr ⟨rfl, (congrArg (fun b => b.mem.length + o.availOut)
        (passOn_other o n h.apart.1)).trans hfilled⟩
  · obtain ⟨rfl, -⟩ | ⟨hhand, -⟩ := h.hand
    · cases hid
    · obtain rfl : hand = [o.outBuf] := hhand
      obtain rfl := List.mem_singleton.mp hid
      exact (congrArg OutBuf.pos (passOn_other o n h.apart.1)).trans (h.whole _ (by simp))
  · show (emptyBufs _ _ id).mem = [] ∧ (emptyBufs _ _ id).pos = 0
    unfold emptyBufs
    split
    · exact ⟨rfl, rfl⟩
    · next hnot =>
      obtain hid | hid := List.mem_append.mp hid
      · exact absurd (List.mem_reverse.mp hid) hnot
      · have hbusy := h.partition.free_not_busy hid
        have htaken := h.partition.free_not_taken hid
        have hfree : id ∉ o.busyBufs ++ o.out := by
          simp only [Hold.cells, List.mem_append, not_or] at hbusy htaken ⊢
          exact ⟨hbusy, htaken.1⟩
        dsimp only
        rw [consumeFront_other hfree]
        exact h.empty id hid

end RdsJson.Ownership
