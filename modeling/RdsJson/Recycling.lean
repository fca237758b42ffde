import RdsJson.Frame
import RdsJson.OwnedBufs
import Mathlib.Algebra.Order.Floor.Div

/-! # How many output bufs there are

Bufs are made only where none is free, and between two calls none waits but the
one that is being filled. So their number depends on what one call may bring and
on what the next filter has not consumed, and not on the length of the response. -/
namespace RdsJson.Recycling
open RdsJson.Lib.LittleEndian RdsJson.Lib.TailLoop RdsJson.Lib.Outcome RdsJson.Lib.Pool
open RdsJson.Nginx RdsJson.Context RdsJson.OutputMem RdsJson.Processor RdsJson.FilterModule
open RdsJson.Reader RdsJson.Render RdsJson.WriteLayer RdsJson.Sizes RdsJson.Simulation
open RdsJson.Ownership RdsJson.OwnedBufs RdsJson.Calls RdsJson.Runs

variable {env : Env} {B n : Nat} {o o₁ : OutCtx} {p q : Progress} {w w' w₀ : World}

/-! ## Within a call -/

/-- What became of `o₁` without anything passed on: a buf was made only if no free
one is left. -/
structure Makes (B : Nat) (o₁ o : OutCtx) : Prop where
  owns : Owns B ⟨o, current o, []⟩
  busy : o.busyBufs = o₁.busyBufs
  made : o.nbufs = o₁.nbufs ∨ o.freeBufs = []

theorem Makes.advances {deeds : List (Deed OutBuf)} {o' : OutCtx} {lost : List Nat}
    (halloc : ∀ k, env.alloc k = true) (h : Makes B o₁ o)
    (hadv : Advances env B ⟨o, current o, []⟩ deeds ⟨o', current o', lost⟩) : Makes B o₁ o' := by
  obtain rfl : lost = [] := by
    by_contra hne
    obtain ⟨k, hk⟩ := hadv.lost hne
    exact Bool.false_ne_true (hk.symm.trans (halloc k))
  obtain ⟨hfree, hmade⟩ := (steps_make hadv.path hadv.hidden).2 (congrArg List.length hadv.busy)
  refine ⟨hadv.owns, hadv.busy.trans h.busy, ?_⟩
  obtain hsame | hnone := h.made
  · obtain hmade | hnone := hmade
    · exact .inl (hmade.trans hsame)
    · exact .inr hnone
  · exact .inr (List.suffix_nil.mp ((show o.freeBufs = [] from hnone) ▸ hfree))

theorem framed_makes (halloc : ∀ k, env.alloc k = true) (hB : 1 ≤ B) (o₁ : OutCtx) :
    Frame.Framed env B (Makes B o₁) where
  alloc o n h := ⟨⟨h.owns.partition, h.owns.sized, h.owns.hand, h.owns.whole, h.owns.empty⟩,
    h.busy, h.made⟩
  write g o h hsized := by
    refine ((run_settled env hB h.owns g hsized).weaken fun _ _ => trivial).mono ?_
    rintro ⟨rc, o'⟩ ⟨deeds, lost, hadv⟩
    exact h.advances halloc hadv
  consume o n h := ⟨h.owns.consume n, h.busy, h.made⟩

theorem length_chain_le (h : ∀ id ∈ o.out, (o.bufs id).mem.length = B) :
    o.out.length * B ≤ (pending o).length := by
  rw [← memory_length h, pending, WriteLayer.chain, memory_append, List.length_append]
  exact Nat.le_add_right _ _

/-- One buf that is not full at most. -/
theorem pending_lt (hB : 1 ≤ B) (h : Owns B ⟨o, current o, []⟩) (hout : o.out = []) :
    (pending o).length < B := by
  by_cases ha : o.availOut = 0
  · rw [pending_of_avail_zero ha, hout]
    exact hB
  · have hhand : (o.bufs o.outBuf).mem.length + o.availOut = B :=
      (h.hand.resolve_left fun hnone => ha hnone.2).2
    rw [pending_of_avail ha, hout, memory, List.flatMap_nil, List.nil_append]
    omega

theorem length_current_le (o : OutCtx) : (current o).length ≤ 1 := by
  unfold current
  split
  · exact Nat.zero_le 1
  · exact le_rfl

/-- The bufs behind `n` more bytes of text. -/
theorem Makes.le (hB : 1 ≤ B) (h : Makes B o₁ o) (howns : Owns B ⟨o₁, current o₁, []⟩)
    (hout : o₁.out = []) (hfull : ∀ id ∈ o.out, (o.bufs id).mem.length = B)
    (hlen : (pending o).length = (pending o₁).length + n) :
    o.nbufs ≤ max o₁.nbufs (o₁.busyBufs.length + n ⌈/⌉ B + 1) := by
  obtain hsame | hnone := h.made
  · exact hsame ▸ le_max_left _ _
  have hcount := h.owns.partition.count
  have hchain : o.out.length ≤ n ⌈/⌉ B := by
    have hle := length_chain_le hfull
    have hlt := pending_lt hB howns hout
    rw [Nat.ceilDiv_eq_add_pred_div, Nat.le_div_iff_mul_le hB]
    omega
  have hcurrent := length_current_le o
  have hbusy := congrArg List.length h.busy
  simp only [Hold.cells, List.length_append, List.length_nil, hnone] at hcount
  refine le_max_of_le_right ?_
  omega

/-! ## Between two calls -/

/-- Where no full buf waits. -/
structure Tidy (B : Nat) (o : OutCtx) : Prop where
  owns : Owns B ⟨o, current o, []⟩
  out : o.out = []

/-- No buf is out of reach, and none is in two places. -/
theorem Tidy.partition (h : Tidy B o) :
    Lib.Pool.Partition ⟨current o, o.busyBufs, o.freeBufs, [], o.nbufs⟩ := by
  have hpartition := h.owns.partition
  rw [Hold.cells, h.out] at hpartition
  exact hpartition

theorem Tidy.pass (h : Tidy w.r.conf.bufBytes w.out) (chain : List Buf) :
    Tidy w.r.conf.bufBytes (nextBodyFilter env w chain).2.out :=
  ⟨h.owns.consume _, h.out⟩

theorem flushOutBuf_nbufs (o : OutCtx) : (flushOutBuf env o).2.nbufs = o.nbufs := by
  obtain ⟨-, hflush⟩ | ⟨-, allocs, hflush | ⟨hflush, -⟩⟩ := flushOutBuf_cases env o
  · rw [hflush]
  · rw [hflush]
  · rw [hflush]

/-- What was passed on does not wait any more, and no buf is made for it. -/
theorem outputBufs_empties {rc : Int} (h : outputBufs env w = (rc, w'))
    (hok : failed rc = false) : w'.out.out = [] ∧ w'.out.nbufs = w.out.nbufs := by
  have hnbufs := @flushOutBuf_nbufs env w.out
  unfold outputBufs at h
  dsimp only at h
  split at h
  · cases h
    cases hok
  · split at h
    · next hout =>
      cases h
      exact ⟨hout, hnbufs⟩
    · split at h
      · next hfailed =>
        cases h
        exact absurd (hok.symm.trans hfailed) Bool.false_ne_true
      · cases h
        exact ⟨rfl, hnbufs⟩

theorem bodyFailed_rc {rc : Int} {c : Cursor} {ret : Return}
    (h : bodyFailed env rc w c = .ok ret) : ret.rc = NGX_ERROR := by
  unfold bodyFailed at h
  dsimp only at h
  split at h
  · obtain ⟨x, -, h⟩ := bind_eq_ok.mp h
    cases h
    rfl
  · cases h
    rfl

/-- A call that does not fail gets through the processors, and passes on what they
wrote. -/
theorem bodyFilter_processed {chain : List Buf} {ret : Return} (h : Live env p w)
    (hchain : chain ≠ []) (honly : w.r.headerOnly = false)
    (hcall : bodyFilter env w chain = .ok ret) (hok : failed ret.rc = false) :
    ∃ r, (processLoop env).run ⟨w.ctx.state, w, ⟨[], chain⟩⟩ = .ok r ∧ failed r.rc = false ∧
      outputBufs env r.w = (ret.rc, ret.w) := by
  unfold bodyFilter at hcall
  rw [if_neg (by simp [hchain, honly]), if_neg (by simp [h.installed]),
    if_neg (Live.state_ne_done h)] at hcall
  obtain ⟨r, hrun, hcall⟩ := bind_eq_ok.mp hcall
  refine ⟨r, hrun, ?_⟩
  split at hcall
  · have hrc := bodyFailed_rc hcall
    rw [hrc] at hok
    cases hok
  · next hfine =>
    cases hcall
    exact ⟨by simpa using hfine, rfl⟩

/-- What a call wrote is the text of what it read, and all bufs that wait are full. -/
theorem result_written {c : Cursor} {r : Return} (h : Result env p w c r)
    (hok : failed r.rc = false) :
    ∃ q rest bytes, readBufs p c.rest = some (q, rest) ∧
      jsonSoFar w.r.conf env.complexValue q = jsonSoFar w.r.conf env.complexValue p ++ bytes ∧
      pending r.w.out = pending w.out ++ bytes ∧
      ∀ id ∈ r.w.out.out, (r.w.out.bufs id).mem.length = w.r.conf.bufBytes := by
  cases h with
  | pauses q w' c' hm hrest =>
    obtain ⟨bytes, hjson, hadd⟩ := hm.added
    refine ⟨q, [], bytes, ?_, hjson, hadd.laid, ?_⟩
    · rw [hm.reads, hrest, readBufs_nil]
    · rw [← hm.request.1]
      exact hm.live.ready.owned.full
  | ends t behind w' c' he =>
    obtain ⟨bytes, hjson, -, hw⟩ := he.wrote
    exact ⟨.done t, behind, bytes, he.reads, hjson, hw.added.laid, hw.owned.full⟩
  | rejects => cases hok
  | fails rc w' c' hrc => exact absurd (hok.symm.trans hrc) Bool.false_ne_true

/-- One call with a chain: as many bufs as before, or no more than what was busy and
the text of the call need. -/
theorem Tidy.processed {chain : List Buf} {r : Return} {rc : Int} (hs : Serves env)
    (h : Live env p w) (hroom : 0 < w.r.conf.bufBytes) (ht : Tidy w.r.conf.bufBytes w.out)
    (hrun : (processLoop env).run ⟨w.ctx.state, w, ⟨[], chain⟩⟩ = .ok r)
    (hok : failed r.rc = false) (hout : outputBufs env r.w = (rc, w')) (hrc : failed rc = false) :
    Tidy w.r.conf.bufBytes w'.out ∧ ∃ q rest bytes, readBufs p chain = some (q, rest) ∧
      jsonSoFar w.r.conf env.complexValue q = jsonSoFar w.r.conf env.complexValue p ++ bytes ∧
      w'.out.nbufs ≤
        max w.out.nbufs (w.out.busyBufs.length + bytes.length ⌈/⌉ w.r.conf.bufBytes + 1) := by
  have hmakes : Makes w.r.conf.bufBytes w.out r.w.out :=
    ((framed_makes hs.alloc hroom w.out).processLoop ⟨ht.owns, rfl, .inl rfl⟩ _).of_eq_ok hrun
  have hres := (processLoop_result ⟨[], chain⟩ h).of_eq_ok hrun
  obtain ⟨q, rest, bytes, hreads, hjson, hpending, hfull⟩ := result_written hres hok
  obtain ⟨hempty, hnbufs⟩ := outputBufs_empties hout hrc
  obtain ⟨⟨deeds, hserves⟩, -⟩ := outputBufs_serves hmakes.owns hout fun _ => hs.body _
  refine ⟨⟨hserves.owns, hempty⟩, q, rest, bytes, hreads, hjson, ?_⟩
  rw [hnbufs]
  exact hmakes.le hroom ht.owns ht.out hfull (by rw [hpending, List.length_append])

/-! ## Over a run -/

/-- The text of the input so far. -/
def textSoFar (env : Env) (w₀ : World) (calls : List (List Buf)) : Bytes :=
  ((readCalls .header calls).map (jsonSoFar w₀.r.conf env.complexValue)).getD []

/-- What the next filter has not consumed, and what a call brings. -/
structure Loaded (env : Env) (w₀ : World) (L M : Nat) (before : List (List Buf)) (w : World)
    (chain : List Buf) : Prop where
  busy : w.out.busyBufs.length ≤ L
  text : (textSoFar env w₀ (before ++ [chain])).length ≤ (textSoFar env w₀ before).length + M

theorem Tidy.call {calls : List (List Buf)} {rets : List Return} {chain : List Buf} {ret : Return}
    {L M : Nat} (h : Served env w₀) (hrun : runCalls env w₀ calls = .ok (rets, w))
    (hok : ∀ r ∈ rets ++ [ret], failed r.rc = false) (hcall : bodyFilter env w chain = .ok ret)
    (ht : Tidy w₀.r.conf.bufBytes w.out) :
    Tidy w₀.r.conf.bufBytes ret.w.out ∧ (Loaded env w₀ L M calls w chain →
      ret.w.out.nbufs ≤ max w.out.nbufs (L + M ⌈/⌉ w₀.r.conf.bufBytes + 1)) := by
  obtain ⟨rets', w', hrun', hcourse, hsame⟩ := h.course calls
  cases hrun.symm.trans hrun'
  have honly := hsame.headerOnly
  by_cases hchain : chain = []
  · rw [bodyFilter, if_pos (.inl hchain)] at hcall
    cases hcall
    rw [← hsame.conf] at ht
    exact ⟨hsame.conf ▸ ht.pass chain, fun _ => le_max_left _ _⟩
  cases hcourse with
  | flowing p hflow hread hfine =>
    obtain ⟨r, hr, hrok, hout⟩ := bodyFilter_processed hflow.toLive hchain honly hcall
      (hok ret (by simp))
    rw [← hsame.conf] at ht
    obtain ⟨htidy, q, rest, bytes, hreads, hjson, hle⟩ :=
      ht.processed h.toServes hflow.toLive (by rw [hsame.conf]; exact h.room) hr hrok hout
        (hok ret (by simp))
    rw [hsame.conf] at htidy hjson hle
    refine ⟨htidy, fun hload => hle.trans (max_le_max le_rfl ?_)⟩
    have hbytes : bytes.length ≤ M := by
      have htext := hload.text
      rw [textSoFar, textSoFar, readCalls_snoc, hread, Option.bind_some, hreads, Option.map_some,
        Option.map_some, Option.map_some, Option.getD_some, Option.getD_some, hjson,
        List.length_append] at htext
      omega
    have hbusy := hload.busy
    have hceil : bytes.length ⌈/⌉ w₀.r.conf.bufBytes ≤ M ⌈/⌉ w₀.r.conf.bufBytes :=
      (gc_mul_ceilDiv h.room).monotone_l hbytes
    omega
  | finished t hfin hread hfine =>
    rw [bodyFilter, if_neg (by simp [hchain, honly]), if_neg (by simp [hfin.installed]),
      if_pos hfin.state] at hcall
    cases hcall
    exact ⟨ht, fun _ => le_max_left _ _⟩
  | broken hstate hmarks hbad hwhy =>
    obtain ⟨bad, hin, hfailed⟩ := hbad
    exact absurd ((hok bad (by simp [hin])).symm.trans hfailed) Bool.false_ne_true

theorem tidy_of_run {calls : List (List Buf)} {rets : List Return} {L M : Nat}
    (h : Served env w₀) (hstart : Untouched w₀) (hrun : runCalls env w₀ calls = .ok (rets, w))
    (hok : ∀ ret ∈ rets, failed ret.rc = false) :
    Tidy w₀.r.conf.bufBytes w.out ∧ (AtEach env w₀ (Loaded env w₀ L M) calls →
      w.out.nbufs ≤ L + M ⌈/⌉ w₀.r.conf.bufBytes + 1) := by
  refine runCalls_induction (I := fun calls rets w => (∀ ret ∈ rets, failed ret.rc = false) →
    Tidy w₀.r.conf.bufBytes w.out ∧ (AtEach env w₀ (Loaded env w₀ L M) calls →
      w.out.nbufs ≤ L + M ⌈/⌉ w₀.r.conf.bufBytes + 1)) ?_ ?_ hrun hok
  · intro _
    exact ⟨⟨hstart.owns _, hstart.out⟩, fun _ => hstart.made ▸ Nat.zero_le _⟩
  · intro calls rets w chain ret hrun ih hcall hok
    obtain ⟨ht, hle⟩ := ih fun r hr => hok r (by simp [hr])
    obtain ⟨ht', hle'⟩ := ht.call h hrun hok hcall
    refine ⟨ht', fun hload => ?_⟩
    obtain ⟨hloads, hloaded⟩ := AtEach.snoc hload hrun
    exact (hle' hloaded).trans (max_le (hle hloads) le_rfl)

/-- As long as the calls succeed, every output buf that was made is in one place: it waits
for the next filter, is free or is being filled; and where at no call more than `L` bufs wait, and no call brings
more than `M` bytes of text, no more are ever made than hold `M` bytes beside them. -/
theorem output_bufs_recycled {calls : List (List Buf)} {rets : List Return} (h : Served env w₀)
    (hstart : Untouched w₀) (hrun : runCalls env w₀ calls = .ok (rets, w))
    (hok : ∀ ret ∈ rets, failed ret.rc = false) :
    w.out.out = [] ∧
      Partition ⟨current w.out, w.out.busyBufs, w.out.freeBufs, [], w.out.nbufs⟩ ∧
      ∀ L M, AtEach env w₀ (Loaded env w₀ L M) calls →
        w.out.nbufs ≤ L + M ⌈/⌉ w₀.r.conf.bufBytes + 1 := by
  have htidy (L M : Nat) := @tidy_of_run env w w₀ calls rets L M h hstart hrun hok
  exact ⟨(htidy 0 0).1.out, (htidy 0 0).1.partition, fun L M => (htidy L M).2⟩

/-- A row with a string and one with null, in a call each. -/
def rowByRow : List (List Buf) :=
  [[Buf.memory ((oneColumn [some (lit "b"), none]).encode.take 44)],
    [Buf.memory ((oneColumn [some (lit "b"), none]).encode.drop 44)]]

theorem loaded_rowByRow : AtEach calm (postpone calm (plainConf 4) true)
    (Loaded calm (postpone calm (plainConf 4) true) 0 12) rowByRow := by
  intro before chain after rets w hsplit hrun
  unfold rowByRow at hsplit
  cases before with
  | nil =>
    cases hrun
    cases hsplit
    exact ⟨le_rfl, by decide +kernel⟩
  | cons first before =>
    rw [List.cons_append, List.cons.injEq] at hsplit
    obtain ⟨rfl, hsplit⟩ := hsplit
    cases before with
    | nil =>
      cases hsplit
      have hbusy : (runCalls calm (postpone calm (plainConf 4) true)
          [[Buf.memory ((oneColumn [some (lit "b"), none]).encode.take 44)]]).toOption.map
          (fun x => x.2.out.busyBufs) = some [] := by decide +kernel
      rw [hrun] at hbusy
      have hnone : w.out.busyBufs = [] := Option.some.inj hbusy
      exact ⟨by rw [hnone]; exact le_rfl, by decide +kernel⟩
    | cons second before => simp at hsplit

theorem served_four : Served calm (postpone calm (plainConf 4) true) where
  toTakes := takes_calm
  alloc _ := rfl
  postponed := postponed_postpone rfl rfl true
  notHead := rfl
  supported := .inl rfl
  room := by decide

/-- Bufs of four bytes, and twelve bytes of text in a call: a fourth buf is made only
because the first call leaves its last one half full. -/
theorem output_bufs_recycled_rowByRow : ∃ rets w,
    runCalls calm (postpone calm (plainConf 4) true) rowByRow = .ok (rets, w) ∧
      Partition ⟨current w.out, w.out.busyBufs, w.out.freeBufs, [], w.out.nbufs⟩ ∧
      w.out.nbufs ≤ 4 := by
  obtain ⟨rets, w, hrun, -⟩ := served_four.course rowByRow
  have hok : (runCalls calm (postpone calm (plainConf 4) true) rowByRow).toOption.map
      (fun x => x.1.all fun ret => !failed ret.rc) = some true := by decide +kernel
  rw [hrun] at hok
  have hstart : Untouched (postpone calm (plainConf 4) true) := ⟨rfl, rfl, rfl, rfl, rfl, rfl⟩
  obtain ⟨-, hpartition, hle⟩ := output_bufs_recycled served_four hstart hrun
    (by simpa using Option.some.inj hok)
  exact ⟨rets, w, hrun, hpartition, hle 0 12 loaded_rowByRow⟩

end RdsJson.Recycling
