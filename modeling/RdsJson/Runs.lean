import RdsJson.Calls
import Mathlib.Data.List.Induction

/-! # Runs of calls

What one call keeps and, from it, what any number of calls keep. `Standing` is
what holds of a request between two calls whatever the surroundings do;
`Flowing` adds the output, as long as the next body filter takes it. -/
namespace RdsJson.Runs
open RdsJson.Lib.LittleEndian RdsJson.Lib.Outcome RdsJson.Nginx RdsJson.Rds RdsJson.Conf
open RdsJson.Context RdsJson.OutputMem RdsJson.Processor RdsJson.FilterModule RdsJson.ResultSet
open RdsJson.Reader RdsJson.Render RdsJson.WriteLayer RdsJson.Generators RdsJson.Simulation
open RdsJson.Calls

variable {env : Env} {p q : Progress} {w w' : World} {chain : List Buf}

/-! ## Induction on the calls -/

/-- What every call keeps holds behind any number of them. -/
theorem runCalls_yields {E : Fault → Prop} {I : List (List Buf) → List Return → World → Prop}
    {w₀ : World} (hstart : I [] [] w₀)
    (hcall : ∀ calls rets w chain, I calls rets w → Yields E (bodyFilter env w chain) fun ret =>
      I (calls ++ [chain]) (rets ++ [ret]) ret.w) (calls : List (List Buf)) :
    Yields E (runCalls env w₀ calls) fun x => I calls x.1 x.2 := by
  have hrun (before : List (List Buf)) (rets : List Return) (w : World) (h : I before rets w) :
      Yields E (runCalls env w calls) fun x => I (before ++ calls) (rets ++ x.1) x.2 := by
    induction calls generalizing before rets w with
    | nil => simpa [runCalls] using h
    | cons chain calls ih =>
      unfold runCalls
      refine (hcall before rets w chain h).bind fun ret hret => ?_
      refine (ih _ _ _ hret).bind fun x hx => ?_
      simpa using hx
  simpa using hrun [] [] w₀ hstart

/-- A run is a shorter one and one call more. -/
theorem runCalls_snoc {w₀ : World} {calls : List (List Buf)} {rets : List Return}
    (h : runCalls env w₀ (calls ++ [chain]) = .ok (rets, w)) :
    ∃ rets' w' ret, runCalls env w₀ calls = .ok (rets', w') ∧
      bodyFilter env w' chain = .ok ret ∧ rets = rets' ++ [ret] ∧ w = ret.w := by
  induction calls generalizing w₀ rets with
  | nil =>
    obtain ⟨ret, hret, hk⟩ := bind_eq_ok.mp h
    cases hk
    exact ⟨[], w₀, ret, rfl, hret, rfl, rfl⟩
  | cons head calls ih =>
    obtain ⟨ret₀, hret₀, hk⟩ := bind_eq_ok.mp h
    obtain ⟨⟨rets₁, w₁⟩, hrun, hk⟩ := bind_eq_ok.mp hk
    cases hk
    obtain ⟨rets', w', ret, hrun', hret, rfl, rfl⟩ := ih hrun
    refine ⟨ret₀ :: rets', w', ret, ?_, hret, rfl, rfl⟩
    rw [runCalls, hret₀, ok_bind, hrun', ok_bind]

/-- What holds at the start and is kept by every call of a run holds at its end. -/
theorem runCalls_induction {I : List (List Buf) → List Return → World → Prop} {w₀ : World}
    (hstart : I [] [] w₀)
    (hcall : ∀ calls rets w chain ret, runCalls env w₀ calls = .ok (rets, w) → I calls rets w →
      bodyFilter env w chain = .ok ret → I (calls ++ [chain]) (rets ++ [ret]) ret.w)
    {calls : List (List Buf)} {rets : List Return}
    (hrun : runCalls env w₀ calls = .ok (rets, w)) : I calls rets w := by
  induction calls using List.reverseRecOn generalizing rets w with
  | nil =>
    cases hrun
    exact hstart
  | append_singleton calls chain ih =>
    obtain ⟨rets', w', ret, hrun', hret, rfl, rfl⟩ := runCalls_snoc hrun
    exact hcall calls rets' w' chain ret hrun' (ih hrun') hret

/-- `C` holds at each call of a run: of the calls before it, the request as they
left it, and the chain that comes in. -/
def AtEach (env : Env) (w₀ : World) (C : List (List Buf) → World → List Buf → Prop)
    (calls : List (List Buf)) : Prop :=
  ∀ before chain after rets w, calls = before ++ chain :: after →
    runCalls env w₀ before = .ok (rets, w) → C before w chain

theorem AtEach.snoc {w₀ : World} {C : List (List Buf) → World → List Buf → Prop}
    {calls : List (List Buf)} {rets : List Return} (h : AtEach env w₀ C (calls ++ [chain]))
    (hrun : runCalls env w₀ calls = .ok (rets, w)) : AtEach env w₀ C calls ∧ C calls w chain := by
  refine ⟨fun before chain' after rets' w' hsplit => ?_, h calls chain [] rets w rfl hrun⟩
  exact h before chain' (after ++ [chain]) rets' w' (by simp [hsplit])

/-- Every call is entered with `header_only` off. -/
def Entered (env : Env) (w₀ : World) (calls : List (List Buf)) : Prop :=
  AtEach env w₀ (fun _ w _ => w.r.headerOnly = false) calls

/-! ## Between two calls -/

/-- The next filter may go on consuming the bufs it has. -/
theorem Live.pass (h : Live env p w) (chain : List Buf) :
    Live env p (nextBodyFilter env w chain).2 :=
  ⟨h.installed, h.agrees, h.ok, h.notDone, h.headerSent,
    h.ready.consume _ _ fun _ hid => List.mem_append_left _ hid, h.seen, h.room, h.supported⟩

theorem Live.flush {rc : Int} (h : Live env p w) (hout : outputBufs env w = (rc, w')) :
    Live env p w' ∧ w'.r = w.r := by
  obtain ⟨rc, w₁, heq, hp, hready, hseen, havail, -⟩ := outputBufs_ready env w h.ready h.seen
  rw [heq] at hout
  cases hout
  refine ⟨⟨hp.ctxSet.trans h.installed, hp.ctx ▸ h.agrees, h.ok, h.notDone, hp.ctx ▸ h.headerSent,
    hp.r ▸ hready, hseen, ?_, hp.r ▸ h.supported⟩, hp.r⟩
  rw [hp.r, havail]
  exact h.room

theorem Ended.passes {c c' : Cursor} {t : Table} {behind : List Buf} {w₁ : World} {rc : Int}
    (h : Ended env p w c t behind w₁ c') (hout : outputBufs env w₁ = (rc, w')) : Passes w₁ w' := by
  obtain ⟨bytes, -, hne, hw⟩ := h.wrote
  obtain ⟨rc, w₂, heq, hp, -⟩ := outputBufs_ended env w₁ hw hne hw.added.seen
  rw [heq] at hout
  cases hout
  exact hp

/-- Where a request stands after `calls`: within the stream, past it or past an
error, or off the module. -/
inductive Standing (env : Env) (calls : List (List Buf)) (w : World) : Prop
  | live (p : Progress) (h : Live env p w)
      (hread : w.r.headerOnly = false → readCalls .header calls = some p)
  | past (hinstalled : w.ctxSet = true) (hstate : w.ctx.state = .done)
      (hsent : w.ctx.headerSent = true)
  | off (hinstalled : w.ctxSet = false) (hstate : w.ctx.state = .done)
      (hsent : w.ctx.headerSent = true)

/-- A request for a result set, before its header is filtered. -/
def request (conf : LocConf) (main : Bool) : World where
  r := {
    main := main
    headerOnly := false
    status := NGX_HTTP_OK
    contentType := rdsContentType
    contentLength := none
    filterNeedInMemory := false
    conf := conf }
  ctx := {
    state := .done
    colCount := 0
    curCol := 0
    cols := []
    row := 0
    fieldDataRest := 0
    headerSent := false
    generatedColNames := false }
  ctxSet := false
  out := {
    out := []
    busyBufs := []
    freeBufs := []
    outBuf := 0
    cached := none
    postponed := none
    availOut := 0
    seenStreamEnd := false
    bufs _ := default
    nbufs := 0
    allocs := 0 }
  trace := []

/-- An output that nothing was written to. -/
theorem ready_request (B : Nat) (conf : LocConf) (main : Bool) :
    Ready B (request conf main).out := by
  refine ⟨⟨?_, ?_, ?_, ?_, ?_, ?_⟩, fun ha => absurd rfl ha, rfl⟩ <;> simp [held, request]

/-- The request once its header is filtered. -/
def postpone (env : Env) (conf : LocConf) (main : Bool) : World :=
  (headerFilter env (request conf main)).2

theorem postponed_postpone {conf : LocConf} (henabled : conf.enabled = some true)
    (halloc : env.alloc 0 = true) (main : Bool) : Postponed env (postpone env conf main) := by
  have heq : headerFilter env (request conf main) = (NGX_OK, postpone env conf main) := by
    unfold postpone headerFilter World.palloc OutCtx.palloc
    simp [request, henabled, halloc, NGX_HTTP_OK, NGX_HTTP_SPECIAL_RESPONSE,
      NGX_HTTP_NO_CONTENT, NGX_HTTP_RESET_CONTENT, Util.testContentType]
  refine ⟨request conf main, rfl, rfl, heq, ?_⟩
  unfold postpone headerFilter World.palloc OutCtx.palloc
  simp [request, henabled, halloc, NGX_HTTP_OK, NGX_HTTP_SPECIAL_RESPONSE,
    NGX_HTTP_NO_CONTENT, NGX_HTTP_RESET_CONTENT, Util.testContentType]

/-- The defaults, with the module switched on. -/
def plainConf (pagesize : Nat) : LocConf :=
  mergeLocConf pagesize createLocConf { createLocConf with enabled := some true }

/-- One string column, with these values in its rows. -/
def oneColumn (values : List Field) : Table where
  header := ⟨0, 0, [], 0, 0, 1⟩
  cols := [⟨0x8000, 0, lit "a"⟩]
  rows := values.map fun v => ⟨1, [v]⟩

theorem oneColumn_ok {values : List Field}
    (h : ∀ v, some v ∈ values → v.length < nullLength) : (oneColumn values).Ok := by
  refine ⟨by simp [Format.Header.Fits, oneColumn], rfl,
    by simp [oneColumn, Format.Column.Fits, lit], ?_, by simp [oneColumn]⟩
  intro row hrow
  obtain ⟨f, hf, rfl⟩ := List.mem_map.mp hrow
  refine ⟨by simp, rfl, ?_, trivial⟩
  cases f with
  | none => trivial
  | some v =>
    refine ⟨h v hf, ?_⟩
    cases v <;> rfl

/-- Surroundings in which everything succeeds and all output is consumed at once. -/
def calm : Env where
  headerRc _ := NGX_OK
  headerOnly _ := false
  bodyRc _ := NGX_OK
  consume _ := 2 ^ 64
  alloc _ := true
  complexValue value := value

/-- What the header filter leaves behind when it postpones the header. -/
structure Started (env : Env) (w : World) : Prop where
  live : Live env .header w
  trace : w.trace = []
  status : 200 ≤ w.r.status ∧ w.r.status < 300
  out : w.out.out = []
  avail : w.out.availOut = 0

theorem started (h : Postponed env w) : Started env w := by
  obtain ⟨w₀, hset, htrace, heq, hinstalled⟩ := h
  have hpassed {w₁ : World} (h₁ : w₁.ctxSet = false)
      (heq : nextHeaderFilter env w₁ = (NGX_OK, w)) : Started env w := by
    have hset' : w.ctxSet = false := (congrArg (fun x => x.2.ctxSet) heq).symm.trans h₁
    exact absurd (hset'.symm.trans hinstalled) Bool.false_ne_true
  unfold headerFilter at heq
  split at heq
  · exact hpassed rfl heq
  next hstatus =>
  simp only [not_or, Nat.not_lt, Nat.not_le] at hstatus
  split at heq
  · exact hpassed hset heq
  split at heq
  · exact hpassed hset heq
  unfold World.palloc OutCtx.palloc at heq
  dsimp only at heq
  split at heq
  · cases heq
  · cases heq
    refine ⟨⟨rfl, rfl, trivial, rfl, by simp, ?_, rfl, by simp [jsonSoFar],
      fun hm => by cases hm⟩, htrace, ⟨hstatus.1, hstatus.2.1⟩, rfl, rfl⟩
    refine ⟨⟨?_, ?_, ?_, ?_, ?_, ?_⟩, fun ha => absurd rfl ha, rfl⟩ <;> simp [held]

/-- One call, whatever the surroundings answer. -/
theorem Standing.call {calls : List (List Buf)} (h : Standing env calls w) (chain : List Buf) :
    Yields (EndlessIn w.r.conf.bufBytes) (bodyFilter env w chain) fun ret =>
      Standing env (calls ++ [chain]) ret.w ∧ ret.w.r.conf = w.r.conf := by
  by_cases hpass : chain = [] ∨ w.r.headerOnly = true
  · unfold bodyFilter
    rw [if_pos hpass]
    refine ⟨?_, rfl⟩
    cases h with
    | live p h hread =>
      refine .live p (Live.pass h chain) fun honly => ?_
      have honly : w.r.headerOnly = false := honly
      obtain rfl := hpass.resolve_right (by simp [honly])
      rw [readCalls_snoc, hread honly]
      simp [readBufs]
    | past hinstalled hstate hsent => exact .past hinstalled hstate hsent
    | off hinstalled hstate hsent => exact .off hinstalled hstate hsent
  obtain ⟨hchain, honly⟩ := not_or.mp hpass
  rw [Bool.not_eq_true] at honly
  cases h with
  | live p h hread =>
    refine (bodyFilter_called h hchain honly).mono fun ret hret => ?_
    cases hret with
    | pauses q w₁ c rc w' hm hrest hout =>
      obtain ⟨hlive, hr⟩ := Live.flush hm.live hout
      refine ⟨.live q hlive fun _ => ?_, by rw [hr, hm.request.1]⟩
      rw [readCalls_snoc, hread honly, Option.bind_some, hm.reads, hrest]
      simp [readBufs]
    | ends t behind w₁ c rc w' he hout =>
      have hp := Ended.passes he hout
      refine ⟨.past (hp.ctxSet.trans he.installed) (hp.ctx ▸ he.state) (hp.ctx ▸ he.headerSent), ?_⟩
      rw [hp.r, he.forwarded.request.1]
    | rejects w₁ c hp hr hwhy => exact ⟨.off hr.uninstalled rfl hr.headerSent, by rw [hr.r]; rfl⟩
    | fails w₁ c hinstalled hsent hforwarded hheader hwhy =>
      exact ⟨.past hinstalled rfl hsent, hforwarded.request.1⟩
  | past hinstalled hstate hsent =>
    unfold bodyFilter
    rw [if_neg hpass, if_neg (by simp [hinstalled]), if_pos hstate]
    exact ⟨.past hinstalled hstate hsent, rfl⟩
  | off hinstalled hstate hsent =>
    unfold bodyFilter
    rw [if_neg hpass, if_pos (by simp [hinstalled])]
    exact ⟨.off hinstalled hstate hsent, rfl⟩

/-- Any number of calls. -/
theorem standing_of_run {w₀ : World} (h : Postponed env w₀) (calls : List (List Buf)) :
    Yields (EndlessIn w₀.r.conf.bufBytes) (runCalls env w₀ calls) fun x =>
      Standing env calls x.2 ∧ x.2.r.conf = w₀.r.conf := by
  have hstart : Standing env [] w₀ := .live .header (started h).live fun _ => rfl
  refine runCalls_yields (I := fun calls _ w => Standing env calls w ∧ w.r.conf = w₀.r.conf)
    ⟨hstart, rfl⟩ ?_ calls
  rintro calls rets w chain ⟨hs, hconf⟩
  have hcall := hs.call chain
  rw [hconf] at hcall
  exact hcall

/-! ## Output -/

/-- The stream is read as far as `p`, what is due for it was passed on or waits,
and no buf was marked. -/
structure Flowing (env : Env) (p : Progress) (w : World) : Prop extends Live env p w where
  sent : sent w.trace ++ pending w.out = jsonSoFar w.r.conf env.complexValue p
  fresh : Fresh w.out
  unmarked : ∀ b ∈ sentBufs w.trace, b.lastBuf = false
  bodies : ∀ chain, Event.body chain ∈ w.trace → chain = []

theorem Started.flowing (h : Started env w) : Flowing env .header w := by
  refine ⟨h.live, ?_, ?_, ?_, by simp [h.trace]⟩
  · simp [h.trace, WriteLayer.sent, sentBufs, pending, chain, memory, h.out, h.avail, jsonSoFar]
  · intro id hid
    simp [h.out] at hid
  · simp [h.trace, sentBufs]

theorem Flowing.pass (h : Flowing env p w) : Flowing env p (nextBodyFilter env w []).2 := by
  refine ⟨Live.pass h.toLive [], ?_, ?_, ?_, ?_⟩
  · refine Eq.trans ?_ h.sent
    congr 1
    · simp [WriteLayer.sent, nextBodyFilter]
    · exact pending_consume w.out _ _
  · intro id hid
    have hnd := h.ready.owned.nodup
    have hnot : id ∉ w.out.busyBufs := fun hbusy =>
      (List.disjoint_of_nodup_append hnd) hbusy (List.mem_append_left _ hid)
    show (consumeFront _ _ _ id).pos = 0
    rw [(consumeFront_spec _ _ _ id).2 hnot]
    exact h.fresh id hid
  · simpa [nextBodyFilter] using h.unmarked
  · intro chain hchain
    rcases List.mem_append.mp hchain with hchain | hchain
    · exact h.bodies chain hchain
    · simpa using hchain

/-- A header more or less on the trace is no output. -/
theorem Forwarded.sentBufs {w₁ : World} (h : Forwarded env p w w₁) :
    sentBufs w₁.trace = sentBufs w.trace := by
  unfold Forwarded at h
  split at h <;> rw [h.2]
  simp [nextHeaderFilter]

theorem Forwarded.bodies {w₁ : World} (h : Forwarded env p w w₁) (chain : List Buf) :
    Event.body chain ∈ w₁.trace ↔ Event.body chain ∈ w.trace := by
  unfold Forwarded at h
  split at h <;> rw [h.2]
  simp [nextHeaderFilter]

theorem Refused.sentBufs {w₁ : World} (h : Refused env w w₁) :
    sentBufs w₁.trace = sentBufs w.trace := by
  obtain ⟨rest, htrace, hrest⟩ := h.trace
  rw [htrace]
  rcases hrest with ⟨rfl, -⟩ | rfl <;> simp [WriteLayer.sentBufs]

theorem Moved.sentBufs {c c' : Cursor} {w₁ : World} (h : Moved env p w c q w₁ c') :
    sentBufs w₁.trace = sentBufs w.trace := by
  have hf := h.forwarded
  split at hf
  · rw [hf]
  · exact Forwarded.sentBufs hf

theorem Moved.bodies {c c' : Cursor} {w₁ : World} (h : Moved env p w c q w₁ c')
    (chain : List Buf) : Event.body chain ∈ w₁.trace ↔ Event.body chain ∈ w.trace := by
  have hf := h.forwarded
  split at hf
  · rw [hf]
  · exact Forwarded.bodies hf chain

theorem Flowing.moved {c c' : Cursor} {w₁ : World} (h : Flowing env p w)
    (hm : Moved env p w c q w₁ c') : Flowing env q w₁ := by
  obtain ⟨bytes, hjson, hadd⟩ := hm.added
  refine ⟨hm.live, ?_, hadd.fresh h.fresh, ?_, fun chain hchain =>
    h.bodies chain ((Moved.bodies hm chain).mp hchain)⟩
  · rw [hm.request.1, hjson, hadd.laid, ← h.sent, WriteLayer.sent, Moved.sentBufs hm,
      WriteLayer.sent, List.append_assoc]
  · rw [Moved.sentBufs hm]
    exact h.unmarked

/-- What is passed on does not wait any more. -/
theorem Flowing.flush {rc : Int} (h : Flowing env p w) (hout : outputBufs env w = (rc, w'))
    (hbody : failed (env.bodyRc w.trace.length) = false) : rc = NGX_OK ∧ Flowing env p w' := by
  obtain ⟨hlive, hr⟩ := Live.flush h.toLive hout
  obtain ⟨rc, w₁, heq, -, -, -, -, hcase⟩ := outputBufs_ready env w h.ready h.seen
  rw [heq] at hout
  cases hout
  rcases hcase with ⟨-, rfl, rfl⟩ | ⟨hne, htrace, hcase⟩
  · exact ⟨rfl, h⟩
  rcases hcase with ⟨hfail, -⟩ | ⟨-, rfl, hempty, hpending⟩
  · exact absurd (hbody.symm.trans hfail) Bool.false_ne_true
  refine ⟨rfl, hlive, ?_, ?_, ?_, ?_⟩
  · rw [hr, ← h.sent, hpending, htrace, WriteLayer.sent, sentBufs_append,
      sentBufs_json, List.flatMap_append,
      unread_of_fresh _ _ h.fresh, WriteLayer.sent, List.append_assoc]
  · intro id hid
    simp [hempty] at hid
  · rw [htrace, sentBufs_append, sentBufs_json]
    intro b hb
    rcases List.mem_append.mp hb with hb | hb
    · exact h.unmarked b hb
    · obtain ⟨id, hid, rfl⟩ := List.mem_map.mp hb
      simpa using h.ready.owned.marks id (mem_held_of_out hid)
  · intro chain hchain
    rw [htrace] at hchain
    exact h.bodies chain (by simpa using hchain)

/-- The whole text was passed on. Its last byte is in the last buf, the only one
that may be marked. -/
structure Finished (env : Env) (t : Table) (w : World) : Prop where
  installed : w.ctxSet = true
  state : w.ctx.state = .done
  headerSent : w.ctx.headerSent = true
  sent : sent w.trace = render w.r.conf env.complexValue t
  marks : ∃ bufs last, sentBufs w.trace = bufs ++ [last] ∧ last.unread ≠ [] ∧
    last.lastBuf = (w.r.main && closes w.r.conf env.complexValue t) ∧
    ∀ b ∈ bufs, b.lastBuf = false
  bodies : ∀ chain, Event.body chain ∈ w.trace → chain = []

/-- The bufs that are passed on at the end, all untouched, with the mark on the
last. -/
theorem Wrote.chain_spec {B : Nat} {mark : Bool} {o₀ o : OutCtx} {bytes : Bytes}
    (h : Wrote B mark o₀ o bytes) (hne : bytes ≠ []) (hfresh : Fresh o) :
    (∀ id ∈ WriteLayer.chain o, (o.bufs id).pos = 0) ∧
      ∃ ids, WriteLayer.chain o = ids ++ [o.outBuf] ∧ (o.bufs o.outBuf).mem ≠ [] ∧
        (o.bufs o.outBuf).lastBuf = mark ∧ ∀ id ∈ ids, (o.bufs id).lastBuf = false := by
  obtain ⟨⟨ids, hids⟩, hmem⟩ := h.last hne
  have hnd := h.owned.nodup
  by_cases ha : o.availOut = 0
  · have hout : o.out = ids ++ [o.outBuf] := by simpa [WriteLayer.chain, ha] using hids
    rw [held, hout] at hnd
    have hnd := ((List.nodup_append.mp (List.nodup_append.mp hnd).2.1).1)
    refine ⟨fun id hid => hfresh id ?_, ids, hids, hmem, ?_, fun id hid => ?_⟩
    · simpa [WriteLayer.chain, ha] using hid
    · simpa using h.owned.marks o.outBuf (mem_held_of_out (by simp [hout]))
    · have hne' : id ≠ o.outBuf := fun he =>
        (List.disjoint_of_nodup_append hnd) hid (by simp [he])
      simpa [hne'] using h.owned.marks id (mem_held_of_out (by simp [hout, hid]))
  · have hcur := h.current ha
    have hout : o.out = ids := by
      have : o.out ++ [o.outBuf] = ids ++ [o.outBuf] := by simpa [WriteLayer.chain, ha] using hids
      exact List.append_cancel_right this
    refine ⟨fun id hid => ?_, ids, hids, hmem, hcur.marked, fun id hid => ?_⟩
    · rw [hids] at hid
      rcases List.mem_append.mp hid with hid | hid
      · exact hfresh id (hout ▸ hid)
      · rw [List.mem_singleton.mp hid]
        exact hcur.unread
    · have hheld := mem_held_of_out (hout ▸ hid)
      have hne' : id ≠ o.outBuf := fun he => hcur.apart (he ▸ hheld)
      simpa [hne'] using h.owned.marks id hheld

/-- The end of the stream: no memory, or all of the text is out. -/
theorem Flowing.finish {c c' : Cursor} {t : Table} {behind : List Buf} {w₁ : World} {rc : Int}
    (h : Flowing env p w) (he : Ended env p w c t behind w₁ c')
    (hout : outputBufs env w₁ = (rc, w')) :
    (rc = NGX_ERROR ∧ w'.trace = w₁.trace ∧ ∃ k, env.alloc k = false) ∨
      (Finished env t w' ∧ failed rc = failed (env.bodyRc w₁.trace.length) ∧
        (failed rc = false → rc = NGX_OK)) := by
  obtain ⟨bytes, hjson, hne, hw⟩ := he.wrote
  obtain ⟨rc, w₂, heq, hp, hcase⟩ := outputBufs_ended env w₁ hw hne hw.added.seen
  rw [heq] at hout
  cases hout
  rcases hcase with hfail | ⟨htrace, hrc, hok⟩
  · exact .inl hfail
  obtain ⟨hpos, ids, hids, hmem, hmark, hunmarked⟩ :=
    Wrote.chain_spec hw hne (hw.added.fresh h.fresh)
  have hbufs := Forwarded.sentBufs he.forwarded
  obtain ⟨hconf, hmain⟩ := he.forwarded.request
  refine .inr ⟨⟨hp.ctxSet.trans he.installed, hp.ctx ▸ he.state, hp.ctx ▸ he.headerSent, ?_,
    ⟨sentBufs w.trace ++ ids.map w₁.out.bufs, w₁.out.bufs w₁.out.outBuf, ?_, ?_, ?_, ?_⟩, ?_⟩,
    hrc, hok⟩
  · rw [htrace, WriteLayer.sent, sentBufs_append, sentBufs_json, List.flatMap_append,
      unread_of_fresh _ _ hpos, hbufs, hp.r, hconf, hjson, ← h.sent, List.append_assoc]
    exact congrArg _ hw.added.laid
  · rw [htrace, sentBufs_append, sentBufs_json, hbufs, hids]
    simp
  · rw [OutBuf.unread, hpos _ (by rw [hids]; simp), List.drop_zero]
    exact hmem
  · rw [hmark, hp.r, hconf, hmain]
  · intro b hb
    rcases List.mem_append.mp hb with hb | hb
    · exact h.unmarked b hb
    · obtain ⟨id, hid, rfl⟩ := List.mem_map.mp hb
      exact hunmarked id hid
  · intro chain hchain
    rw [htrace] at hchain
    exact h.bodies chain ((Forwarded.bodies he.forwarded chain).mp (by simpa using hchain))

/-! ## Runs without failures downstream -/

/-- The filters below take what they get, and answer no HEAD request. -/
structure Takes (env : Env) : Prop where
  header : ∀ k, failed (env.headerRc k) = false
  body : ∀ k, failed (env.bodyRc k) = false
  headerOnly : ∀ k, env.headerOnly k = false

theorem takes_calm : Takes calm := ⟨fun _ => rfl, fun _ => rfl, fun _ => rfl⟩

/-- The course of a run: every call succeeds up to one that reads something the
stream cannot go on with, or that runs into trouble. -/
inductive Course (env : Env) (calls : List (List Buf)) (rets : List Return) (w : World) : Prop
  | flowing (p : Progress) (h : Flowing env p w) (hread : readCalls .header calls = some p)
      (hok : ∀ ret ∈ rets, failed ret.rc = false)
  | finished (t : Table) (h : Finished env t w)
      (hread : readCalls .header calls = some (.done t))
      (hok : ∀ ret ∈ rets, failed ret.rc = false)
  | broken (hstate : w.ctx.state = .done)
      (hmarks : ∀ b ∈ sentBufs w.trace, b.lastBuf = false)
      (hbad : ∃ ret ∈ rets, failed ret.rc = true)
      (hwhy : readCalls .header calls = none ∨ Troubled env w.r.conf)

theorem ok_snoc {rets : List Return} {ret : Return} (h : ∀ r ∈ rets, failed r.rc = false)
    (hret : failed ret.rc = false) : ∀ r ∈ rets ++ [ret], failed r.rc = false := by
  intro r hr
  rcases List.mem_append.mp hr with hr | hr
  · exact h r hr
  · rwa [List.mem_singleton.mp hr]

theorem failed_last (rets : List Return) {ret : Return} (h : failed ret.rc = true) :
    ∃ r ∈ rets ++ [ret], failed r.rc = true :=
  ⟨ret, by simp, h⟩

theorem readCalls_none {calls : List (List Buf)} (h : readCalls p calls = none)
    (chain : List Buf) : readCalls p (calls ++ [chain]) = none := by
  rw [readCalls_snoc, h]
  rfl

/-- The request between two calls of such a run. -/
structure SameRequest (w w' : World) : Prop where
  conf : w'.r.conf = w.r.conf
  main : w'.r.main = w.r.main
  headerOnly : w'.r.headerOnly = false

theorem Forwarded.same {w₁ : World} (h : Forwarded env p w w₁) (ht : Takes env)
    (honly : w.r.headerOnly = false) : SameRequest w w₁ := by
  refine ⟨h.request.1, h.request.2, ?_⟩
  unfold Forwarded at h
  split at h
  · rw [h.1]
    simp [nextHeaderFilter, honly, ht.headerOnly]
  · rw [h.1, honly]

theorem Course.live {calls : List (List Buf)} {rets : List Return} (ht : Takes env)
    (h : Flowing env p w) (hread : readCalls .header calls = some p)
    (hok : ∀ ret ∈ rets, failed ret.rc = false) (honly : w.r.headerOnly = false)
    {chain : List Buf} (hchain : chain ≠ []) :
    Yields (EndlessIn w.r.conf.bufBytes) (bodyFilter env w chain) fun ret =>
      Course env (calls ++ [chain]) (rets ++ [ret]) ret.w ∧ SameRequest w ret.w := by
  refine (bodyFilter_called h.toLive hchain honly).mono fun ret hret => ?_
  cases hret with
  | pauses q w₁ c rc w' hm hrest hout =>
    obtain ⟨rfl, hflow⟩ := (h.moved hm).flush hout (ht.body _)
    obtain ⟨-, hr⟩ := Live.flush hm.live hout
    refine ⟨.flowing q hflow ?_ (ok_snoc hok failed_ok), ?_⟩
    · rw [readCalls_snoc, hread, Option.bind_some, hm.reads, hrest]
      simp [readBufs]
    · have hf := hm.forwarded
      split at hf
      · exact ⟨by rw [hr, hf], by rw [hr, hf], by rw [hr, hf, honly]⟩
      · have := Forwarded.same hf ht honly
        exact ⟨hr ▸ this.conf, hr ▸ this.main, hr ▸ this.headerOnly⟩
  | ends t behind w₁ c rc w' he hout =>
    have hp := Ended.passes he hout
    have hsame := Forwarded.same he.forwarded ht honly
    refine ⟨?_, ⟨hp.r ▸ hsame.conf, hp.r ▸ hsame.main, hp.r ▸ hsame.headerOnly⟩⟩
    rcases h.finish he hout with ⟨rfl, htrace, hal⟩ | ⟨hfin, hrc, -⟩
    · refine .broken (hp.ctx ▸ he.state) ?_ (failed_last rets failed_error) (.inr (.inl hal))
      rw [htrace, Forwarded.sentBufs he.forwarded]
      exact h.unmarked
    · refine .finished t hfin ?_ (ok_snoc hok (hrc.trans (ht.body _)))
      rw [readCalls_snoc, hread, Option.bind_some, he.reads]
      rfl
  | rejects w₁ c hp hr hwhy =>
    subst hp
    refine ⟨.broken rfl ?_ (failed_last rets failed_error) ?_, ?_⟩
    · rw [Refused.sentBufs hr]
      exact h.unmarked
    · refine hwhy.imp (fun hrefuses => ?_) fun hal => .inl ⟨_, hal.2⟩
      rw [readCalls_snoc, hread, Option.bind_some, hrefuses.readBufs rfl rfl]
      rfl
    · refine ⟨by rw [hr.r]; rfl, by rw [hr.r]; rfl, ?_⟩
      rw [hr.r]
      simp [nextHeaderFilter, honly, ht.headerOnly]
  | fails w₁ c hinstalled hsent hforwarded hheader hwhy =>
    have hsame := Forwarded.same hforwarded ht honly
    refine ⟨.broken rfl ?_ (failed_last rets failed_error) ?_,
      ⟨hsame.conf, hsame.main, hsame.headerOnly⟩⟩
    · rw [Forwarded.sentBufs hforwarded]
      exact h.unmarked
    · refine hwhy.imp (fun hnone => ?_) fun ht => ?_
      · rw [readCalls_snoc, hread, Option.bind_some, hnone]
        rfl
      · rw [hsame.conf]
        exact ht

/-- Without failures downstream every call keeps to its course. -/
theorem Course.call {calls : List (List Buf)} {rets : List Return} (ht : Takes env)
    (h : Course env calls rets w) (honly : w.r.headerOnly = false) (chain : List Buf) :
    Yields (EndlessIn w.r.conf.bufBytes) (bodyFilter env w chain) fun ret =>
      Course env (calls ++ [chain]) (rets ++ [ret]) ret.w ∧ SameRequest w ret.w := by
  by_cases hchain : chain = []
  · subst hchain
    unfold bodyFilter
    rw [if_pos (.inl rfl)]
    have hbufs : sentBufs (nextBodyFilter env w []).2.trace = sentBufs w.trace := by
      simp [nextBodyFilter]
    have hsnoc : readCalls .header (calls ++ [[]]) = readCalls .header calls := by
      rw [readCalls_snoc]
      cases readCalls .header calls <;> simp [readBufs]
    refine ⟨?_, ⟨rfl, rfl, honly⟩⟩
    cases h with
    | flowing p h hread hok =>
      exact .flowing p h.pass (hsnoc.trans hread) (ok_snoc hok (ht.body _))
    | finished t h hread hok =>
      obtain ⟨bufs, last, hsplit, hmarks⟩ := h.marks
      have hsent := (congrArg (List.flatMap OutBuf.unread) hbufs).trans h.sent
      refine .finished t ⟨h.installed, h.state, h.headerSent, hsent, ⟨bufs, last,
        hbufs.trans hsplit, hmarks⟩, fun chain hchain => ?_⟩ (hsnoc.trans hread)
        (ok_snoc hok (ht.body _))
      rcases List.mem_append.mp hchain with hchain | hchain
      · exact h.bodies chain hchain
      · simpa using hchain
    | broken hstate hmarks hbad hwhy =>
      refine .broken hstate (hbufs ▸ hmarks) ?_ (hsnoc ▸ hwhy)
      obtain ⟨r, hr, hfail⟩ := hbad
      exact ⟨r, by simp [hr], hfail⟩
  · have hpass : ¬ (chain = [] ∨ w.r.headerOnly = true) := by simp [hchain, honly]
    cases h with
    | flowing p h hread hok => exact Course.live ht h hread hok honly hchain
    | finished t h hread hok =>
      unfold bodyFilter
      rw [if_neg hpass, if_neg (by simp [h.installed]), if_pos h.state]
      refine ⟨.finished t h ?_ (ok_snoc hok failed_ok), ⟨rfl, rfl, honly⟩⟩
      rw [readCalls_snoc, hread, Option.bind_some, readBufs_done]
      rfl
    | broken hstate hmarks hbad hwhy =>
      have hwhy := hwhy.imp_left fun hnone => readCalls_none hnone chain
      obtain ⟨r, hr, hfail⟩ := hbad
      have hbad (ret : Return) : ∃ r ∈ rets ++ [ret], failed r.rc = true := ⟨r, by simp [hr], hfail⟩
      unfold bodyFilter
      rw [if_neg hpass]
      by_cases hset : w.ctxSet = true
      · rw [if_neg (by simp [hset]), if_pos hstate]
        exact ⟨.broken hstate hmarks (hbad _) hwhy, ⟨rfl, rfl, honly⟩⟩
      · rw [if_pos (by simp [hset])]
        refine ⟨.broken hstate ?_ (hbad _) hwhy, ⟨rfl, rfl, honly⟩⟩
        simpa [nextBodyFilter] using hmarks

theorem course_of_run {w₀ : World} (ht : Takes env) (h : Postponed env w₀)
    (honly : w₀.r.headerOnly = false) (calls : List (List Buf)) :
    Yields (EndlessIn w₀.r.conf.bufBytes) (runCalls env w₀ calls) fun x =>
      Course env calls x.1 x.2 ∧ SameRequest w₀ x.2 := by
  refine runCalls_yields (I := fun calls rets w => Course env calls rets w ∧ SameRequest w₀ w)
    ⟨.flowing .header (started h).flowing rfl (by simp), ⟨rfl, rfl, honly⟩⟩ ?_ calls
  rintro calls rets w chain ⟨hc, hsame⟩
  have hcall := hc.call ht hsame.headerOnly chain
  rw [hsame.conf] at hcall
  refine hcall.mono fun ret hret => ⟨hret.1, ?_⟩
  exact ⟨hret.2.conf.trans hsame.conf, hret.2.main.trans hsame.main, hret.2.headerOnly⟩

/-- Nothing turns `header_only` on in such a run. -/
theorem entered_of_takes {w₀ : World} {calls : List (List Buf)} (ht : Takes env)
    (h : Postponed env w₀) (honly : w₀.r.headerOnly = false) : Entered env w₀ calls :=
  fun before _ _ _ _ _ hrun => ((course_of_run ht h honly before).of_eq_ok hrun).2.headerOnly

/-! ## Requests that nothing comes in the way of -/

/-- There is memory, too. -/
structure Serves (env : Env) : Prop extends Takes env where
  alloc : ∀ k, env.alloc k = true

/-- A request in such surroundings, under a configuration that was merged. -/
structure Served (env : Env) (w₀ : World) : Prop extends Serves env where
  postponed : Postponed env w₀
  notHead : w₀.r.headerOnly = false
  supported : Supported w₀.r.conf
  room : 0 < w₀.r.conf.bufBytes

theorem Serves.not_troubled {conf : LocConf} (h : Serves env) (hs : Supported conf) :
    ¬ Troubled env conf := by
  rintro (⟨k, hk⟩ | ⟨k, hk⟩ | hnot)
  · exact Bool.false_ne_true (hk.symm.trans (h.alloc k))
  · exact Bool.false_ne_true ((h.header k).symm.trans hk)
  · exact hnot hs

theorem served_calm (main : Bool) : Served calm (postpone calm (plainConf 4096) main) where
  toTakes := takes_calm
  alloc _ := rfl
  postponed := postponed_postpone rfl rfl main
  notHead := rfl
  supported := .inl rfl
  room := by cases main <;> decide

theorem Served.course {w₀ : World} (h : Served env w₀) (calls : List (List Buf)) :
    ∃ rets w, runCalls env w₀ calls = .ok (rets, w) ∧ Course env calls rets w ∧
      SameRequest w₀ w := by
  have hyields := course_of_run h.toTakes h.postponed h.notHead calls
  obtain ⟨⟨rets, w⟩, hrun, hcourse⟩ := hyields.exists_ok fun e he => h.room.ne' he.2
  exact ⟨rets, w, hrun, hcourse⟩

/-- Input that is read as a stream is answered with its text. -/
theorem Served.completes {w₀ : World} {calls : List (List Buf)} {t : Table} (h : Served env w₀)
    (hread : readCalls .header calls = some (.done t)) :
    ∃ rets w, runCalls env w₀ calls = .ok (rets, w) ∧ (∀ ret ∈ rets, failed ret.rc = false) ∧
      delivered w.trace = render w₀.r.conf env.complexValue t := by
  obtain ⟨rets, w, hrun, hcourse, hsame⟩ := h.course calls
  refine ⟨rets, w, hrun, ?_⟩
  cases hcourse with
  | flowing p hflow hread' hok =>
    obtain rfl := Option.some.inj (hread'.symm.trans hread)
    cases hflow.notDone
  | finished t' hfin hread' hok =>
    obtain rfl := Progress.done.inj (Option.some.inj (hread'.symm.trans hread))
    exact ⟨hok, by rw [delivered_eq_sent hfin.bodies, hfin.sent, hsame.conf]⟩
  | broken hstate hmarks hbad hwhy =>
    rcases hwhy with hnone | htrouble
    · cases hnone.symm.trans hread
    · exact absurd (hsame.conf ▸ htrouble) (h.not_troubled h.supported)

/-- On input that cannot be read a call fails. -/
theorem Served.breaks {w₀ : World} {calls : List (List Buf)} (h : Served env w₀)
    (hread : readCalls .header calls = none) :
    ∃ rets w, runCalls env w₀ calls = .ok (rets, w) ∧ ∃ ret ∈ rets, failed ret.rc = true := by
  obtain ⟨rets, w, hrun, hcourse, -⟩ := h.course calls
  refine ⟨rets, w, hrun, ?_⟩
  cases hcourse with
  | flowing p hflow hread' hok => cases hread'.symm.trans hread
  | finished t hfin hread' hok => cases hread'.symm.trans hread
  | broken hstate hmarks hbad hwhy => exact hbad

/-- A run that ends behind its stream without error has read one. -/
theorem Served.reads {w₀ : World} {calls : List (List Buf)} {rets : List Return}
    (h : Served env w₀) (hrun : runCalls env w₀ calls = .ok (rets, w))
    (hok : ∀ ret ∈ rets, failed ret.rc = false) (hdone : w.ctx.state = .done) :
    ∃ t, readCalls .header calls = some (.done t) := by
  obtain ⟨rets', w', hrun', hcourse, -⟩ := h.course calls
  cases hrun'.symm.trans hrun
  cases hcourse with
  | flowing p hflow hread hok => exact absurd hdone (Live.state_ne_done hflow.toLive)
  | finished t hfin hread hok => exact ⟨t, hread⟩
  | broken hstate hmarks hbad hwhy =>
    obtain ⟨ret, hret, hfail⟩ := hbad
    exact absurd ((hok ret hret).symm.trans hfail) Bool.false_ne_true

/-- What cannot be read in the first call is answered with nothing. -/
theorem Served.breaks_at_once {w₀ : World} {chain : List Buf} (h : Served env w₀)
    (hread : readBufs .header chain = none) :
    ∃ rets w, runCalls env w₀ [chain] = .ok (rets, w) ∧ delivered w.trace = [] := by
  obtain ⟨rets, w, hrun, -⟩ := h.course [chain]
  refine ⟨rets, w, hrun, ?_⟩
  obtain ⟨rets', w', ret, hnil, hcall, -, rfl⟩ :=
    runCalls_snoc (show runCalls env w₀ ([] ++ [chain]) = _ from hrun)
  cases hnil
  have hs := started h.postponed
  have hchain : chain ≠ [] := by
    rintro rfl
    simp at hread
  have hcalled := (bodyFilter_called hs.live hchain h.notHead).of_eq_ok hcall
  cases hcalled with
  | pauses q w₁ c rc w' hm hrest hout =>
    rw [hm.reads, hrest, readBufs_nil] at hread
    cases hread
  | ends t behind w₁ c rc w' he hout => cases he.reads.symm.trans hread
  | rejects w₁ c hp hr hwhy =>
    obtain ⟨rest, htrace, hrest⟩ := hr.trace
    show delivered w₁.trace = []
    rw [htrace, hs.trace]
    rcases hrest with ⟨rfl, -⟩ | rfl <;> rfl
  | fails w₁ c hinstalled hsent hforwarded hheader hwhy =>
    rw [Forwarded, if_pos rfl] at hforwarded
    show delivered w₁.trace = []
    rw [hforwarded.2]
    simp [nextHeaderFilter, hs.trace, delivered, bodyBytes]

end RdsJson.Runs
