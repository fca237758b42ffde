import RdsJson.HeaderBuf
import RdsJson.Runs

/-! # After an error

What a failing call passes on, and what the calls behind it pass on. -/
namespace RdsJson.Containment
open RdsJson.Lib.LittleEndian RdsJson.Lib.TailLoop RdsJson.Lib.Outcome RdsJson.Nginx RdsJson.Util
open RdsJson.Context RdsJson.OutputMem RdsJson.Processor RdsJson.FilterModule RdsJson.Format
open RdsJson.ResultSet RdsJson.Reader RdsJson.Render RdsJson.WriteLayer RdsJson.Simulation
open RdsJson.Calls RdsJson.HeaderBuf RdsJson.Runs

variable {env : Env} {w w' w₀ : World} {calls : List (List Buf)} {chain : List Buf}

/-- Nothing but headers and bufs without data went down the chain in between. -/
def Quiet (w w' : World) : Prop :=
  ∃ events, w'.trace = w.trace ++ events ∧ ∀ e ∈ events, bodyBytes e = []

theorem Quiet.of_eq (h : w'.trace = w.trace) : Quiet w w' := ⟨[], by simp [h], by simp⟩

theorem Quiet.of_snoc {e : Event} (h : w'.trace = w.trace ++ [e]) (he : bodyBytes e = []) :
    Quiet w w' := ⟨[e], h, by simp [he]⟩

/-! ## A call that fails -/

/-- The processors of the call fail. -/
def ProcessingFails (env : Env) (w : World) (chain : List Buf) : Prop :=
  chain ≠ [] ∧ w.r.headerOnly = false ∧ w.ctxSet = true ∧ w.ctx.state ≠ .done ∧
    ∃ ret, (processLoop env).run ⟨w.ctx.state, w, ⟨[], chain⟩⟩ = .ok ret ∧ failed ret.rc = true

theorem Refused.quiet (h : Refused env w w') : Quiet w w' := by
  obtain ⟨rest, htrace, hrest⟩ := h.trace
  refine ⟨.header 500 :: rest, htrace, ?_⟩
  rcases hrest with ⟨rfl, -⟩ | rfl <;> simp [bodyBytes, specialBuf]

theorem Forwarded.quiet {p : Progress} (h : Forwarded env p w w') : Quiet w w' := by
  unfold Forwarded at h
  split at h
  · exact .of_snoc h.2 rfl
  · exact .of_eq h.2

theorem Live.failing_quiet {p : Progress} {ret : Return} (h : Live env p w)
    (hfails : ProcessingFails env w chain) (hcall : bodyFilter env w chain = .ok ret) :
    Quiet w ret.w := by
  obtain ⟨hchain, honly, hset, hstate, r, hr, hfail⟩ := hfails
  unfold bodyFilter at hcall
  rw [if_neg (by simp [hchain, honly]), if_neg (by simp [hset]), if_neg hstate, hr, ok_bind,
    if_pos hfail] at hcall
  cases (processLoop_result ⟨[], chain⟩ h).of_eq_ok hr with
  | pauses q w₁ c hm hrest => cases hfail
  | ends t behind w₁ c he => cases hfail
  | rejects w₁ c hp hrefused hwhy =>
    rw [bodyFailed_sent hrefused.headerSent] at hcall
    cases hcall
    exact show Quiet w w₁ from Refused.quiet hrefused
  | fails rc w₁ c hrc hinstalled hsent hforwarded hheader hwhy =>
    rw [bodyFailed_sent hsent] at hcall
    cases hcall
    exact show Quiet w w₁ from Forwarded.quiet hforwarded

/-! ## The calls behind it -/

/-- What the next body filter answers in this call, if it is asked. -/
def answer (env : Env) (w : World) (chain : List Buf) : Int :=
  env.bodyRc (w.trace.length +
    if w.ctx.state = .expectHeader ∧ (headerBuf chain).isSome then 1 else 0)

/-- The text that waits and the text due for the chain fill a buf. -/
def FillsBuf (env : Env) (w : World) (p q : Progress) : Prop :=
  w.r.conf.bufBytes ≤ (pending w.out).length +
    ((jsonSoFar w.r.conf env.complexValue q).length -
      (jsonSoFar w.r.conf env.complexValue p).length)

/-- Neither of the two errors that leave the context as it is, or off the
request: a refused header, and an error from the next body filter with more of
the stream to come. -/
structure Contains (env : Env) (calls : List (List Buf)) (w : World) (chain : List Buf) : Prop where
  headerOnly : w.r.headerOnly = false
  header : w.ctx.state = .expectHeader → ∀ b, headerBuf chain = some b → HoldsHeader b ∧
    ∀ h t, b.rest = encodeHeader h ++ t → h.colCount ≠ 0 → env.alloc w.out.allocs = true
  body : ∀ p q, readCalls .header calls = some p → readBufs p chain = some (q, []) →
    q.isDone = false → (chain = [] ∨ FillsBuf env w p q) → answer env w chain ≠ NGX_ERROR

/-- Within the stream, with no error so far, or past it. -/
inductive Phase (env : Env) (calls : List (List Buf)) (rets : List Return) (w : World) : Prop
  | going (p : Progress) (h : Live env p w) (hread : readCalls .header calls = some p)
      (hok : ∀ ret ∈ rets, ret.rc ≠ NGX_ERROR)
  | closed (hinstalled : w.ctxSet = true) (hstate : w.ctx.state = .done)

theorem Contains.not_refused (h : Contains env calls w chain) (hstate : w.ctx.state = .expectHeader)
    (hwhy : Refuses .header ⟨[], chain⟩ ∨
      OpensCols .header ⟨[], chain⟩ ∧ env.alloc w.out.allocs = false) : False := by
  rcases hwhy with hrefuses | ⟨hopens, hal⟩
  · obtain ⟨b, hb, hnot⟩ := Refuses.headerBuf hrefuses
    exact hnot (h.header hstate b hb).1
  · obtain ⟨b, h', x, hb, hrest, hcols⟩ := OpensCols.headerBuf hopens
    have := (h.header hstate b hb).2 h' x hrest hcols
    exact Bool.false_ne_true (hal.symm.trans this)

/-- The output of a call is numbered behind the header, if that goes first. -/
theorem Moved.events {p q : Progress} {w₁ : World} {c : Cursor} (h : Live env p w)
    (hm : Moved env p w ⟨[], chain⟩ q w₁ c) (hrest : c.rest = []) :
    env.bodyRc w₁.trace.length = answer env w chain := by
  unfold answer
  by_cases hp : p = .header
  · subst hp
    by_cases hq : q = .header
    · subst hq
      have hnone : headerBuf chain = none := by
        refine headerBuf_of_waits ?_
        rw [hm.reads, hrest, readBufs_nil]
      simp [hm.still, hnone]
    · have hf := hm.forwarded_of_ne hq
      rw [Forwarded, if_pos rfl] at hf
      obtain ⟨b, hb, -⟩ := Accepts.headerBuf (hm.accepted rfl hq)
      rw [hf.2, if_pos ⟨(Live.state_header h).mpr rfl, by rw [hb]; rfl⟩]
      simp [nextHeaderFilter]
  · have hf := hm.forwarded_of_ne fun hq => hp (hm.begun hq)
    rw [Forwarded, if_neg hp] at hf
    rw [hf.2, if_neg fun hs => hp ((Live.state_header h).mp hs.1), Nat.add_zero]

/-- A buf on `out` was filled by what waited and what was added. -/
theorem Moved.fills {p q : Progress} {w₁ : World} {c : Cursor}
    (hm : Moved env p w ⟨[], chain⟩ q w₁ c) (hout : w₁.out.out ≠ []) : FillsBuf env w p q := by
  obtain ⟨bytes, hjson, hadd⟩ := hm.added
  have hlen := memory_length hm.live.ready.owned.full
  rw [hm.request.1] at hlen
  have hle : (memory w₁.out w₁.out.out).length ≤ (pending w₁.out).length := by
    unfold pending WriteLayer.chain
    rw [memory_append, List.length_append]
    exact Nat.le_add_right _ _
  have hpos : w.r.conf.bufBytes ≤ w₁.out.out.length * w.r.conf.bufBytes :=
    Nat.le_mul_of_pos_left _ (List.length_pos_iff.mpr hout)
  rw [hadd.laid, List.length_append] at hle
  rw [FillsBuf, hjson, List.length_append]
  omega

/-- A call within the stream. -/
theorem Phase.goes_on {p : Progress} {rets : List Return} {ret : Return} (h : Live env p w)
    (hread : readCalls .header calls = some p) (hok : ∀ ret ∈ rets, ret.rc ≠ NGX_ERROR)
    (hc : Contains env calls w chain) (hcalled : Called env p w chain ret) :
    Phase env (calls ++ [chain]) (rets ++ [ret]) ret.w := by
  cases hcalled with
  | pauses q w₁ c rc w' hm hrest hflush =>
    have hbufs : readBufs p chain = some (q, []) := by rw [hm.reads, hrest, readBufs_nil]
    refine .going q (Live.flush hm.live hflush).1 ?_ fun r hr => ?_
    · rw [readCalls_snoc, hread, Option.bind_some, hbufs]
      rfl
    rcases List.mem_append.mp hr with hr | hr
    · exact hok r hr
    obtain rfl := List.mem_singleton.mp hr
    obtain ⟨rc, w₂, heq, -, -, -, -, hcase⟩ :=
      outputBufs_ready env w₁ hm.live.ready hm.live.seen
    rw [heq] at hflush
    cases hflush
    rcases hcase with ⟨-, rfl, -⟩ | ⟨hout, -, ⟨-, rfl⟩ | ⟨-, rfl, -⟩⟩
    · exact nofun
    · rw [Moved.events h hm hrest]
      exact hc.body p q hread hbufs hm.live.notDone (.inr (Moved.fills hm hout))
    · exact nofun
  | ends t behind w₁ c rc w' he hflush =>
    have hp := Ended.passes he hflush
    exact .closed (hp.ctxSet.trans he.installed) (hp.ctx ▸ he.state)
  | rejects w₁ c hp hr hwhy =>
    subst hp
    exact (hc.not_refused ((Live.state_header h).mpr rfl) hwhy).elim
  | fails w₁ c hinstalled hsent hforwarded hheader hwhy => exact .closed hinstalled rfl

/-- What a contained call makes of a phase. -/
theorem Phase.call {rets : List Return} {ret : Return} (h : Phase env calls rets w)
    (hc : Contains env calls w chain) (hcall : bodyFilter env w chain = .ok ret) :
    Phase env (calls ++ [chain]) (rets ++ [ret]) ret.w := by
  have honly := hc.headerOnly
  by_cases hchain : chain = []
  · subst hchain
    unfold bodyFilter at hcall
    rw [if_pos (.inl rfl)] at hcall
    cases hcall
    cases h with
    | going p h hread hok =>
      refine .going p (Live.pass h []) ?_ fun r hr => ?_
      · rw [readCalls_snoc, hread, Option.bind_some, readBufs_nil]
        rfl
      rcases List.mem_append.mp hr with hr | hr
      · exact hok r hr
      · obtain rfl := List.mem_singleton.mp hr
        have := hc.body p p hread (readBufs_nil p) h.notDone (.inl rfl)
        simpa [answer, headerBuf, nextBodyFilter] using this
    | closed hinstalled hstate => exact .closed hinstalled hstate
  · cases h with
    | going p h hread hok =>
      exact Phase.goes_on h hread hok hc ((bodyFilter_called h hchain honly).of_eq_ok hcall)
    | closed hinstalled hstate =>
      unfold bodyFilter at hcall
      rw [if_neg (by simp [hchain, honly]), if_neg (by simp [hinstalled]), if_pos hstate] at hcall
      cases hcall
      exact .closed hinstalled hstate

theorem phase_of_run {rets : List Return} (h : Postponed env w₀)
    (hrun : runCalls env w₀ calls = .ok (rets, w)) (hc : AtEach env w₀ (Contains env) calls) :
    Phase env calls rets w := by
  refine runCalls_induction (I := fun calls rets w => AtEach env w₀ (Contains env) calls →
    Phase env calls rets w) (fun _ => .going .header (started h).live rfl (by simp)) ?_ hrun hc
  intro calls rets w chain ret hrun ih hcall hc
  obtain ⟨hc', hlast⟩ := hc.snoc hrun
  exact (ih hc').call hlast hcall

/-- Behind the stream all input is discarded. -/
theorem closed_quiet {ret : Return} (hinstalled : w.ctxSet = true) (hstate : w.ctx.state = .done)
    (honly : w.r.headerOnly = false) (hcall : bodyFilter env w chain = .ok ret) :
    Quiet w ret.w ∧ ret.c.chain = discardBufs chain := by
  unfold bodyFilter at hcall
  by_cases hchain : chain = []
  · subst hchain
    rw [if_pos (.inl rfl)] at hcall
    cases hcall
    exact ⟨.of_snoc rfl rfl, rfl⟩
  · rw [if_neg (by simp [hchain, honly]), if_neg (by simp [hinstalled]), if_pos hstate] at hcall
    cases hcall
    exact ⟨.of_eq rfl, rfl⟩

/-- A call whose processing fails passes no data on; and behind an error, none is
passed on either, as long as no call refuses the header, is entered with
`header_only`, or gets an error from the next body filter within the stream. -/
theorem errors_contained {rets : List Return} {ret : Return} (h : Postponed env w₀)
    (hrun : runCalls env w₀ calls = .ok (rets, w)) (hcall : bodyFilter env w chain = .ok ret) :
    (ProcessingFails env w chain → Quiet w ret.w) ∧
      (AtEach env w₀ (Contains env) (calls ++ [chain]) → (∃ r ∈ rets, r.rc = NGX_ERROR) →
        Quiet w ret.w ∧ ret.c.chain = discardBufs chain) := by
  refine ⟨fun hfails => ?_, fun hc hbad => ?_⟩
  · have hset := hfails.2.2.1
    have hstate := hfails.2.2.2.1
    cases ((standing_of_run h calls).of_eq_ok hrun).1 with
    | live p h hread => exact Live.failing_quiet h hfails hcall
    | past hinstalled hdone hsent => exact absurd hdone hstate
    | off hinstalled hdone hsent => exact absurd hdone hstate
  · obtain ⟨hc', hlast⟩ := hc.snoc hrun
    cases phase_of_run h hrun hc' with
    | going p h hread hok =>
      obtain ⟨r, hr, hrc⟩ := hbad
      exact absurd hrc (hok r hr)
    | closed hinstalled hstate => exact closed_quiet hinstalled hstate hlast.headerOnly hcall

/-- A column spec that is none, and input behind it. -/
theorem errors_contained_bad_column : ∃ x ret,
    runCalls calm (postpone calm (plainConf 4096) true)
      [[Buf.memory (encodeHeader ⟨0, 0, [], 0, 0, 1⟩)], [Buf.memory (lit "a")]] = .ok x ∧
    (∃ r ∈ x.1, r.rc = NGX_ERROR) ∧ bodyFilter calm x.2 [Buf.memory (lit "b")] = .ok ret ∧
    Quiet x.2 ret.w ∧ ∀ b ∈ ret.c.chain, b.rest = [] := by
  obtain ⟨⟨rets, w⟩, hrun, hbad, ret, hcall⟩ : ∃ x,
      runCalls calm (postpone calm (plainConf 4096) true)
        [[Buf.memory (encodeHeader ⟨0, 0, [], 0, 0, 1⟩)], [Buf.memory (lit "a")]] = .ok x ∧
      (∃ r ∈ x.1, r.rc = NGX_ERROR) ∧
      ∃ ret, bodyFilter calm x.2 [Buf.memory (lit "b")] = .ok ret :=
    ⟨_, rfl, ⟨_, .tail _ (.head _), rfl⟩, _, rfl⟩
  have hpostponed := (served_calm true).postponed
  have hcontains : AtEach calm (postpone calm (plainConf 4096) true) (Contains calm)
      [[Buf.memory (encodeHeader ⟨0, 0, [], 0, 0, 1⟩)], [Buf.memory (lit "a")],
        [Buf.memory (lit "b")]] := by
    intro before chain after rets w hsplit hrun
    refine ⟨?_, fun hstate b hb => ?_, fun _ _ _ _ _ _ => by simp [answer, calm, NGX_OK, NGX_ERROR]⟩
    · exact entered_of_takes takes_calm hpostponed rfl before chain [] rets w rfl hrun
    · rcases before with - | ⟨first, - | ⟨second, - | ⟨third, before⟩⟩⟩ <;>
        simp only [List.nil_append, List.cons_append, List.cons.injEq] at hsplit
      · obtain ⟨rfl, -⟩ := hsplit
        obtain rfl := Option.some.inj hb
        exact ⟨⟨⟨0, 0, [], 0, 0, 1⟩, [], by simp [Header.Fits], by simp, by simp⟩, fun _ _ _ _ => rfl⟩
      · obtain ⟨rfl, -⟩ := hsplit
        cases hrun
        cases hstate
      · obtain ⟨rfl, rfl, -⟩ := hsplit
        cases hrun
        cases hstate
      · simp at hsplit
  obtain ⟨hquiet, hchain⟩ := (errors_contained hpostponed hrun hcall).2 hcontains hbad
  exact ⟨_, _, hrun, hbad, hcall, hquiet, by rw [hchain]; decide⟩

/-- A refused header takes the context off the request: the next call passes its
chain on as it came. -/
theorem passes_input_on : ∃ x ret, Postponed calm (postpone calm (plainConf 4096) true) ∧
    runCalls calm (postpone calm (plainConf 4096) true) [[Buf.memory (lit "a")]] = .ok x ∧
    (∃ r ∈ x.1, r.rc = NGX_ERROR) ∧ bodyFilter calm x.2 [Buf.memory (lit "b")] = .ok ret ∧
    ¬ Quiet x.2 ret.w := by
  refine ⟨_, _, postponed_postpone rfl rfl true, rfl, ⟨_, .head _, rfl⟩, rfl, ?_⟩
  rintro ⟨events, htrace, hquiet⟩
  have hevents : [Event.body [Buf.memory (lit "b")]] = events := List.append_cancel_left htrace
  have := hquiet (.body [Buf.memory (lit "b")]) (by simp [← hevents])
  revert this
  decide

end RdsJson.Containment
