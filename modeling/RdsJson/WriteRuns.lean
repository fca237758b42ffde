import RdsJson.Sizes
import RdsJson.Runs
import RdsJson.Lib.Labelled

/-! # Runs of writes

Writes one after the other, with `output_bufs` called in between: where the bytes
are, and which bufs go down the chain. -/
namespace RdsJson.WriteRuns
open RdsJson.Lib.LittleEndian RdsJson.Lib.Outcome RdsJson.Lib.Labelled RdsJson.Nginx
open RdsJson.Context RdsJson.OutputMem RdsJson.FilterModule RdsJson.WriteLayer RdsJson.Sizes
open RdsJson.Runs

/-! ## Runs -/

/-- `final` is whether the write sets `seen_stream_end`. -/
inductive Op where
  | write (bytes : Bytes) (final lastBuf : Bool)
  | pass

/-- No write that ends the stream; only such a write passes `last_buf` on. -/
def Op.Within : Op → Prop
  | .write _ final lastBuf => final = false ∧ lastBuf = false
  | .pass => True

/-- A write succeeds where its memory can be had; `output_bufs` may also fail. -/
inductive Performs (env : Env) (B : Nat) : World → Op → World → Prop
  | write {w : World} {o : OutCtx} {bytes : Bytes} {final lastBuf : Bool}
      (h : exactWrite env B w.out bytes final lastBuf = .ok (NGX_OK, o)) :
      Performs env B w (.write bytes final lastBuf) { w with out := o }
  | pass {w w' : World} {rc : Int} (h : outputBufs env w = (rc, w')) : Performs env B w .pass w'

def written (ops : List Op) : Bytes :=
  ops.flatMap fun
    | .write bytes _ _ => bytes
    | .pass => []

/-- The bytes that went down the chain and were taken: where the next filter fails
the bufs stay on `out`. -/
def passedOn (env : Env) (trace : List Event) : Bytes :=
  trace.zipIdx.flatMap fun
    | (.json bufs, k) => if failed (env.bodyRc k) then [] else bufs.flatMap OutBuf.mem
    | _ => []

/-- Nothing was written or passed on. -/
structure Unwritten (B : Nat) (w : World) : Prop where
  ready : Ready B w.out
  seen : w.out.seenStreamEnd = false
  pending : pending w.out = []
  trace : w.trace = []

theorem unwritten_of_started {env : Env} {w : World} (h : Started env w) :
    Unwritten w.r.conf.bufBytes w := by
  refine ⟨h.live.ready, h.live.seen, ?_, h.trace⟩
  rw [pending_of_avail_zero h.avail, h.out]
  rfl

@[simp] theorem written_append (ops ops' : List Op) :
    written (ops ++ ops') = written ops ++ written ops' := by
  simp [written]

theorem passedOn_json (env : Env) (trace : List Event) (bufs : List OutBuf) :
    passedOn env (trace ++ [.json bufs]) = passedOn env trace ++
      if failed (env.bodyRc trace.length) then [] else bufs.flatMap OutBuf.mem := by
  simp [passedOn, List.zipIdx_append]

/-! ## Within the stream -/

variable {env : Env} {B : Nat}

/-- What runs within the stream keep. -/
structure Keeps (env : Env) (B : Nat) (ops : List Op) (w : World) : Prop where
  ready : Ready B w.out
  seen : w.out.seenStreamEnd = false
  bytes : passedOn env w.trace ++ pending w.out = written ops
  full : ∀ b ∈ sentBufs w.trace, b.mem.length = B

theorem Unwritten.keeps {w : World} (h : Unwritten B w) : Keeps env B [] w := by
  refine ⟨h.ready, h.seen, ?_, ?_⟩
  · rw [h.trace, h.pending]
    rfl
  · rw [h.trace]
    exact fun b hb => nomatch hb

theorem Keeps.write {ops : List Op} {w : World} {o : OutCtx} {bytes : Bytes}
    (h : Keeps env B ops w) (hrun : exactWrite env B w.out bytes false false = .ok (NGX_OK, o)) :
    Keeps env B (ops ++ [.write bytes false false]) { w with out := o } := by
  have hends := (exactWrite_spec env h.ready bytes false false).of_eq_ok hrun
  rw [Bool.or_false, Bool.false_and] at hends
  obtain ⟨-, hready, hadd⟩ | ⟨hrc, -⟩ := hends.cases
  · refine ⟨hready, hadd.seen.trans h.seen, ?_, h.full⟩
    rw [written_append, ← h.bytes, List.append_assoc]
    exact congrArg (passedOn env w.trace ++ ·) (hadd.laid.trans (by simp [written]))
  · cases hrc

theorem Keeps.pass {ops : List Op} {w w' : World} {rc : Int} (h : Keeps env B ops w)
    (hrun : outputBufs env w = (rc, w')) : Keeps env B (ops ++ [.pass]) w' := by
  have hwritten : written (ops ++ [.pass]) = written ops := by simp [written]
  obtain ⟨rc', w₁, hrun', -, hready, hseen, -, ⟨-, -, rfl⟩ | ⟨hout, -⟩⟩ :=
    outputBufs_ready env w h.ready h.seen
  · cases hrun.symm.trans hrun'
    exact ⟨h.ready, h.seen, hwritten ▸ h.bytes, h.full⟩
  cases hrun.symm.trans hrun'
  have hmem : (w.out.out.map w.out.bufs).flatMap OutBuf.mem = memory w.out w.out.out := by
    rw [List.flatMap_map]
    rfl
  obtain ⟨rc', w₂, hrun₂, -, htrace, hcase⟩ :=
    outputBufs_of_flush env (flushOutBuf_within env h.seen) hout
  cases hrun.symm.trans hrun₂
  refine ⟨hready, hseen, ?_, ?_⟩
  · rw [hwritten, ← h.bytes, htrace, passedOn_json, hmem]
    obtain ⟨hfail, -, ho⟩ | ⟨hok, -, ho⟩ := hcase
    · rw [hfail, if_pos rfl, List.append_nil, ho, pending_consume]
    · rw [hok, if_neg Bool.false_ne_true, List.append_assoc, ho, ← pending_pass h.ready]
  · rw [htrace, sentBufs_append, sentBufs_json]
    intro b hb
    obtain hb | hb := List.mem_append.mp hb
    · exact h.full b hb
    · obtain ⟨id, hid, rfl⟩ := List.mem_map.mp hb
      exact h.ready.owned.full id hid

theorem Keeps.step {ops : List Op} {w w' : World} {op : Op} (h : Keeps env B ops w)
    (hop : op.Within) (hstep : Performs env B w op w') : Keeps env B (ops ++ [op]) w' := by
  cases hstep with
  | write hrun =>
    obtain ⟨rfl, rfl⟩ := hop
    exact h.write hrun
  | pass hrun => exact h.pass hrun

theorem Keeps.steps {before ops : List Op} {w w' : World} (h : Keeps env B before w)
    (hops : ∀ op ∈ ops, op.Within) (hrun : Steps (Performs env B) w ops w') :
    Keeps env B (before ++ ops) w' := by
  induction hrun generalizing before with
  | nil => rwa [List.append_nil]
  | @cons w w₁ w' op ops hstep hrun ih =>
    have hnext := ih (h.step (hops op (by simp)) hstep) fun op hop => hops op (by simp [hop])
    rwa [List.append_assoc] at hnext

/-! ## What a write finds -/

/-- The area that `request_mem` found in `o` has room for `n` bytes: behind `last`
of a buf that is on no chain, or in the scratch area while nothing in there is
left to be copied. -/
def Room (env : Env) (o : OutCtx) (n : Nat) : Option Area × OutCtx → Prop
  | (some .inPlace, o') => o'.outBuf ∉ held o' ∧
      (o'.bufs o'.outBuf).mem.length + n ≤ (o'.bufs o'.outBuf).size
  | (some .scratch, o') => o.postponed = none ∧ ∃ size, o'.cached = some size ∧ n ≤ size
  | (none, _) => ∃ k, env.alloc k = false

theorem requestMem_scratch {o o' : OutCtx} {n : Nat}
    (h : requestMem env B o n = (some .scratch, o')) :
    ∃ size, o'.cached = some size ∧ n ≤ size := by
  unfold requestMem at h
  dsimp only at h
  split at h
  · cases h
  · split at h
    · obtain ⟨ok, cached, allocs, hpostponed, -, hroom⟩ :=
        getPostponed_spec env (getBuf env B o).2 n
      rw [hpostponed] at h
      cases ok with
      | false => cases h
      | true =>
        cases h
        exact hroom rfl
    · cases h

theorem requestMem_room {o : OutCtx} (h : Ready B o) (n : Nat) :
    Room env o n (requestMem env B o n) := by
  obtain ⟨area, o', hreq, hc, -, harea⟩ | ⟨o', hreq, hal⟩ := requestMem_spec env h n
  · rw [hreq]
    cases area with
    | inPlace =>
      have hfilled := hc.current.filled
      have hsized := hc.current.sized
      have hle := harea.1
      exact ⟨hc.current.apart, by omega⟩
    | scratch => exact ⟨h.idle, requestMem_scratch hreq⟩
  · rw [hreq]
    exact hal

/-- A write is taken over, unless an allocation fails. -/
theorem exactWrite_completes (hB : 1 ≤ B) {o : OutCtx} (h : Ready B o) (bytes : Bytes)
    (final lastBuf : Bool) :
    ∃ rc o', exactWrite env B o bytes final lastBuf = .ok (rc, o') ∧
      (rc = NGX_OK ∨ rc = NGX_ERROR ∧ ∃ k, env.alloc k = false) := by
  obtain ⟨⟨rc, o'⟩, hrun, ⟨hrc, -⟩ | hfail⟩ :=
    (exactWrite_spec env h bytes final lastBuf).exists_ok fun e he => by
      have := he.2
      omega
  · exact ⟨rc, o', hrun, .inl hrc⟩
  · exact ⟨rc, o', hrun, .inr hfail⟩

/-! ## What a write leaves -/

/-- Nothing is postponed, all that was written is on bufs in order, and the bufs
that a write linked are full. -/
structure Laid (env : Env) (B : Nat) (ops : List Op) (w : World) : Prop where
  idle : w.out.postponed = none
  bytes : passedOn env w.trace ++ pending w.out = written ops
  linked : ∀ id ∈ w.out.out, (w.out.bufs id).mem.length = B
  sent : ∀ b ∈ sentBufs w.trace, b.mem.length = B

theorem Keeps.laid {ops : List Op} {w : World} (h : Keeps env B ops w) : Laid env B ops w :=
  ⟨h.ready.idle, h.bytes, h.ready.owned.full, h.full⟩

theorem Keeps.submit {ops : List Op} {w w₁ : World} {bytes : Bytes} {final lastBuf : Bool}
    (h : Keeps env B ops w) (hstep : Performs env B w (.write bytes final lastBuf) w₁) :
    Laid env B (ops ++ [.write bytes final lastBuf]) w₁ ∧ w₁.trace = w.trace ∧
      ∃ mark o₀, Wrote B mark o₀ w₁.out bytes := by
  cases hstep with
  | write hrun =>
    obtain ⟨-, hwrote, hidle⟩ | ⟨hrc, -⟩ :=
      (exactWrite_spec env h.ready bytes final lastBuf).of_eq_ok hrun
    · refine ⟨⟨hidle, ?_, hwrote.owned.full, h.full⟩, rfl, _, _, hwrote⟩
      rw [written_append, ← h.bytes, List.append_assoc]
      refine congrArg (passedOn env w.trace ++ ·) (hwrote.added.laid.trans ?_)
      simp [written, pending, chain, memory]
    · cases hrc

/-- Nothing to write leaves room in the buf. -/
theorem exactWrite_nil (hB : 1 ≤ B) {o o' : OutCtx} {final lastBuf : Bool} (h : Ready B o)
    (hrun : exactWrite env B o [] final lastBuf = .ok (NGX_OK, o')) : o'.availOut ≠ 0 := by
  unfold exactWrite at hrun
  obtain ⟨area, o₁, hreq, hc, ha, harea⟩ | ⟨o₁, hreq, -⟩ := requestMem_spec env h 0
  · rw [List.length_nil, hreq] at hrun
    cases area with
    | scratch => exact absurd harea (Nat.not_lt_zero _)
    | inPlace =>
      have hroom : o₁.availOut ≠ 0 := by
        rw [ha]
        split <;> omega
      obtain ⟨o₂, happ, -, havail, -⟩ :=
        (hc.see (o₁.seenStreamEnd || final)).append [] (Nat.zero_le _)
      have hkeep : (setLastBuf o₂ lastBuf).availOut ≠ 0 := by
        rw [setLastBuf, havail]
        exact hroom
      unfold submitMem at hrun
      simp only [harea.2] at happ hrun
      simp only [happ, ok_bind, if_neg hkeep] at hrun
      obtain rfl := (Prod.mk.inj (Except.ok.inj hrun)).2
      exact hkeep
  · rw [List.length_nil, hreq] at hrun
    cases hrun

/-- The buf that was filled last is linked where it is full, and only there. -/
theorem linked_iff_full (hB : 1 ≤ B) {ops : List Op} {w w₁ : World} {bytes : Bytes}
    {final lastBuf : Bool} (h : Keeps env B ops w)
    (hstep : Performs env B w (.write bytes final lastBuf) w₁) :
    w₁.out.outBuf ∈ w₁.out.out ↔ (w₁.out.bufs w₁.out.outBuf).mem.length = B := by
  obtain ⟨-, -, mark, o₀, hwrote⟩ := h.submit hstep
  by_cases ha : w₁.out.availOut = 0
  · have hne : bytes ≠ [] := by
      rintro rfl
      cases hstep with
      | write hrun => exact exactWrite_nil hB h.ready hrun ha
    obtain ⟨ids, hids⟩ := (hwrote.last hne).1
    have hin : w₁.out.outBuf ∈ w₁.out.out := by
      have hout : w₁.out.out = ids ++ [w₁.out.outBuf] := by simpa [chain, ha] using hids
      rw [hout]
      simp
    exact iff_of_true hin (hwrote.owned.full _ hin)
  · have hcur := hwrote.current ha
    refine iff_of_false (fun hin => hcur.apart (mem_held_of_out hin)) fun hfull => ha ?_
    have := hcur.filled
    omega

/-! ## Behind the final write -/

/-- Chunks of `B` bytes, except that behind them `last` may come. -/
def FullBut (B : Nat) (last : Bytes) (chunks : List Bytes) : Prop :=
  ∃ full rest, chunks = full ++ rest ∧ (∀ chunk ∈ full, chunk.length = B) ∧
    (rest = [] ∨ rest = [last])

theorem fullBut_full {last : Bytes} {chunks : List Bytes}
    (h : ∀ chunk ∈ chunks, chunk.length = B) : FullBut B last chunks :=
  ⟨chunks, [], (List.append_nil _).symm, h, .inl rfl⟩

theorem fullBut_flush {last : Bytes} {chunks : List Bytes}
    (h : ∀ chunk ∈ chunks, chunk.length = B) : FullBut B last (chunks ++ [last]) :=
  ⟨chunks, [last], rfl, h, .inr rfl⟩

/-- What lies on the bufs of `out`, one chunk a buf. -/
def chunks (o : OutCtx) : List Bytes := o.out.map fun id => (o.bufs id).mem

/-- The final write left `last` in the buf that was filled last: until it is
flushed that buf is on no chain to be passed on. -/
structure Closing (B : Nat) (last : Bytes) (o : OutCtx) : Prop where
  linked : FullBut B last (chunks o)
  waits : o.availOut ≠ 0 → (∀ chunk ∈ chunks o, chunk.length = B) ∧
    o.outBuf ∉ o.busyBufs ++ o.out ∧ (o.bufs o.outBuf).mem = last

theorem closing_of_wrote {mark : Bool} {o₀ o : OutCtx} {bytes : Bytes}
    (h : Wrote B mark o₀ o bytes) : Closing B (o.bufs o.outBuf).mem o := by
  have hfull : ∀ chunk ∈ chunks o, chunk.length = B := by
    intro chunk hchunk
    obtain ⟨id, hid, rfl⟩ := List.mem_map.mp hchunk
    exact h.owned.full id hid
  refine ⟨fullBut_full hfull, fun ha => ⟨hfull, fun hin => (h.current ha).apart ?_, rfl⟩⟩
  rw [held, ← List.append_assoc]
  exact List.mem_append_left _ hin

variable {last : Bytes} {o o' : OutCtx}

theorem Closing.flush {rc : Int} (h : Closing B last o) (hrun : flushOutBuf env o = (rc, o')) :
    Closing B last o' := by
  obtain ⟨-, hf⟩ | ⟨ha, allocs, hf | ⟨hf, -⟩⟩ := flushOutBuf_cases env o
  · cases hf.symm.trans hrun
    exact ⟨h.linked, h.waits⟩
  · cases hf.symm.trans hrun
    obtain ⟨hfull, -, hmem⟩ := h.waits ha
    refine ⟨?_, fun hne => absurd rfl hne⟩
    show FullBut B last ((o.out ++ [o.outBuf]).map fun id => (o.bufs id).mem)
    rw [List.map_append, List.map_singleton, hmem]
    exact fullBut_flush hfull
  · cases hf.symm.trans hrun
    exact ⟨h.linked, h.waits⟩

/-- Consuming bufs leaves their bytes where they are. -/
theorem Closing.consume (h : Closing B last o) (n : Nat) (ids : List Nat) :
    Closing B last { o with bufs := consumeFront n ids o.bufs } := by
  have hmem (id : Nat) : (consumeFront n ids o.bufs id).mem = (o.bufs id).mem := by
    obtain ⟨pos, hpos⟩ := (consumeFront_spec n ids o.bufs id).1
    rw [hpos]
  have hchunks : chunks { o with bufs := consumeFront n ids o.bufs } = chunks o :=
    List.map_congr_left fun id _ => hmem id
  refine ⟨hchunks.symm ▸ h.linked, fun ha => ?_⟩
  obtain ⟨hfull, hapart, hlast⟩ := h.waits ha
  exact ⟨hchunks.symm ▸ hfull, hapart, (hmem _).trans hlast⟩

theorem Closing.updateChains (h : Closing B last o) : Closing B last (updateChains o) := by
  have hnone : ∀ chunk ∈ chunks (OutputMem.updateChains o), chunk.length = B :=
    fun chunk hchunk => nomatch hchunk
  refine ⟨fullBut_full hnone, fun ha => ?_⟩
  obtain ⟨-, hapart, hlast⟩ := h.waits ha
  refine ⟨hnone, fun hin => hapart ?_, ?_⟩
  · have hin : o.outBuf ∈ (o.busyBufs ++ o.out).dropWhile fun id => (o.bufs id).unread = [] := by
      simpa [OutputMem.updateChains] using hin
    exact (List.dropWhile_sublist _).subset hin
  · refine Eq.trans (congrArg OutBuf.mem (if_neg fun hin => hapart ?_)) hlast
    exact (List.takeWhile_sublist _).subset hin

/-- What `output_bufs` passes on behind the final write. -/
theorem Closing.pass {w w' : World} {rc : Int} (h : Closing B last w.out)
    (hrun : outputBufs env w = (rc, w')) :
    Closing B last w'.out ∧ ∃ events, w'.trace = w.trace ++ events ∧
      ∀ bufs, Event.json bufs ∈ events → FullBut B last (bufs.map OutBuf.mem) := by
  unfold outputBufs at hrun
  cases hf : flushOutBuf env w.out with
  | mk rc₁ o₁ =>
    have hflush := h.flush hf
    rw [hf] at hrun
    dsimp only at hrun
    split at hrun
    · cases hrun
      exact ⟨hflush, [], (List.append_nil _).symm, fun bufs hbufs => nomatch hbufs⟩
    split at hrun
    · cases hrun
      exact ⟨hflush, [], (List.append_nil _).symm, fun bufs hbufs => nomatch hbufs⟩
    have hconsume := hflush.consume (env.consume w.trace.length) (o₁.busyBufs ++ o₁.out)
    have hjson : ∀ bufs, Event.json bufs ∈ [Event.json (o₁.out.map o₁.bufs)] →
        FullBut B last (bufs.map OutBuf.mem) := by
      intro bufs hbufs
      cases List.mem_singleton.mp hbufs
      rw [List.map_map]
      exact hflush.linked
    unfold nextBodyFilterOut at hrun
    dsimp only at hrun
    split at hrun
    · cases hrun
      exact ⟨hconsume, _, rfl, hjson⟩
    · cases hrun
      exact ⟨hconsume.updateChains, _, rfl, hjson⟩

theorem Closing.passes {w w' : World} {ops : List Op} (h : Closing B last w.out)
    (hops : ∀ op ∈ ops, op = .pass) (hrun : Steps (Performs env B) w ops w') :
    ∃ events, w'.trace = w.trace ++ events ∧
      ∀ bufs, Event.json bufs ∈ events → FullBut B last (bufs.map OutBuf.mem) := by
  induction hrun with
  | nil w => exact ⟨[], (List.append_nil _).symm, fun bufs hbufs => nomatch hbufs⟩
  | @cons w w₁ w' op ops hstep hrun ih =>
    obtain rfl := hops op (by simp)
    cases hstep with
    | pass hpass =>
      obtain ⟨hnext, events, htrace, hjson⟩ := h.pass hpass
      obtain ⟨events', htrace', hjson'⟩ := ih hnext fun op hop => hops op (by simp [hop])
      refine ⟨events ++ events', by rw [htrace', htrace, List.append_assoc], fun bufs hbufs => ?_⟩
      obtain hbufs | hbufs := List.mem_append.mp hbufs
      · exact hjson bufs hbufs
      · exact hjson' bufs hbufs

/-! ## The write layer -/

/-- What holds after `ops` and of every write that may follow, the final one
included. -/
structure Upheld (env : Env) (B : Nat) (ops : List Op) (w : World) : Prop where
  laid : Laid env B ops w
  room : ∀ n, Room env w.out n (requestMem env B w.out n)
  completes : ∀ bytes final lastBuf, ∃ rc o,
    exactWrite env B w.out bytes final lastBuf = .ok (rc, o) ∧
      (rc = NGX_OK ∨ rc = NGX_ERROR ∧ ∃ k, env.alloc k = false)
  submitted : ∀ bytes final lastBuf w₁, Performs env B w (.write bytes final lastBuf) w₁ →
    Laid env B (ops ++ [.write bytes final lastBuf]) w₁ ∧
      (w₁.out.outBuf ∈ w₁.out.out ↔ (w₁.out.bufs w₁.out.outBuf).mem.length = B)
  flushed : ∀ bytes lastBuf w₁ passes w₂, bytes ≠ [] →
    Performs env B w (.write bytes true lastBuf) w₁ → (∀ op ∈ passes, op = .pass) →
    Steps (Performs env B) w₁ passes w₂ → (w₁.out.bufs w₁.out.outBuf).mem ≠ [] ∧
      ∃ events, w₂.trace = w.trace ++ events ∧ ∀ bufs, Event.json bufs ∈ events →
        FullBut B (w₁.out.bufs w₁.out.outBuf).mem (bufs.map OutBuf.mem)

/-- For bufs of any size that is not zero: writes of any lengths find room, lay
their bytes down in order on full bufs, and only the flush behind the final write
passes on a buf that is not full, but not empty either. -/
theorem write_layer (hB : 1 ≤ B) {w₀ w : World} {ops : List Op} (hstart : Unwritten B w₀)
    (hops : ∀ op ∈ ops, op.Within) (hrun : Steps (Performs env B) w₀ ops w) :
    Upheld env B ops w := by
  have hkeeps : Keeps env B ops w := hstart.keeps.steps hops hrun
  constructor
  · exact hkeeps.laid
  · exact requestMem_room hkeeps.ready
  · exact exactWrite_completes hB hkeeps.ready
  · intro bytes final lastBuf w₁ hstep
    exact ⟨(hkeeps.submit hstep).1, linked_iff_full hB hkeeps hstep⟩
  · intro bytes lastBuf w₁ passes w₂ hne hstep hpasses hrun
    obtain ⟨-, htrace, mark, o₀, hwrote⟩ := hkeeps.submit hstep
    rw [← htrace]
    exact ⟨(hwrote.last hne).2, (closing_of_wrote hwrote).passes hpasses hrun⟩

/-- Three bytes into bufs of two, and the first buf passed on. -/
theorem write_layer_spill : ∃ w, Steps (Performs calm 2) (postpone calm (plainConf 2) true)
    [.write (lit "abc") false false, .pass] w ∧
      Upheld calm 2 [.write (lit "abc") false false, .pass] w := by
  have hpostponed : Postponed calm (postpone calm (plainConf 2) true) :=
    postponed_postpone rfl rfl true
  have hstart : Unwritten 2 (postpone calm (plainConf 2) true) :=
    unwritten_of_started (started hpostponed)
  have hrun : Steps (Performs calm 2) (postpone calm (plainConf 2) true)
      [.write (lit "abc") false false, .pass] _ :=
    .cons (.write rfl) (.cons (.pass rfl) (.nil _))
  refine ⟨_, hrun, write_layer (by decide) hstart ?_ hrun⟩
  intro op hop
  obtain rfl | rfl : op = .write (lit "abc") false false ∨ op = .pass := by simpa using hop
  · exact ⟨rfl, rfl⟩
  · trivial

end RdsJson.WriteRuns
