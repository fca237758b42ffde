import RdsJson.ParserState
import RdsJson.SpecialBufs

/-! # Whether the processors end

The processors call each other, and two of them go round in loops of their own,
without a counter anywhere. What every turn makes smaller is what is left of the
chain: its bufs, or the bytes in them. More data of a value does so only because
some of it is missing, so the parser's invariant is needed. -/
namespace RdsJson.ParserTermination
open RdsJson.Lib.LittleEndian RdsJson.Lib.TailLoop RdsJson.Lib.Outcome RdsJson.Nginx
open RdsJson.Conf RdsJson.Context RdsJson.Processor RdsJson.FilterModule RdsJson.Format
open RdsJson.ResultSet RdsJson.Reader RdsJson.WriteLayer RdsJson.Simulation RdsJson.Calls
open RdsJson.Runs RdsJson.ParserState RdsJson.SpecialBufs

variable {env : Env} {conf : LocConf} {w : World} {e e' : Entry}

/-- Each round of a loop and each call of another processor leaves bufs behind
or bytes, and takes none back. -/
theorem process_remaining (hstate : e.state = e.w.ctx.state) (hinv : Invariant e.w.ctx)
    (h : process env e = .ok (.again e')) : remaining e'.c.rest < remaining e.c.rest := by
  unfold process at h
  cases hs : e.state <;> rw [hs] at h <;> dsimp only at h
  case expectHeader => exact processHeader_again env h
  case expectCol => exact processCol_again env h
  case expectRow => exact processRow_again env h
  case expectField => exact processField_again env h
  case expectMoreFieldData =>
    obtain ⟨hmissing, -⟩ := hinv.inValue (hstate.symm.trans hs)
    obtain hless | ⟨hnone, -, -⟩ := processMoreFieldData_again env h
    · exact hless
    · exact absurd hnone (Nat.ne_of_gt hmissing)
  case done => exact absurd h ret_ne_again

/-- Where a call may stand: at a processor that is entered within the stream, for
the state of the context, or nowhere because the stream is over. -/
structure Stands (env : Env) (conf : LocConf) (e : Entry) : Prop where
  state : e.state = e.w.ctx.state
  conf : e.w.r.conf = conf
  place : e.state = .done ∨ ∃ p, Live env p e.w

theorem Stands.invariant (h : Stands env conf e) : Invariant e.w.ctx := by
  obtain hdone | ⟨p, hlive⟩ := h.place
  · exact invariant_of_state (.inr (h.state.symm.trans hdone))
  · exact Live.invariant hlive

theorem Stands.kept (h : Stands env conf e) :
    Yields (EndlessIn conf.bufBytes) (process env e)
      (Turn.Leads (Stands env conf) fun _ => True) := by
  obtain ⟨s, w, c⟩ := e
  obtain ⟨hstate, hconf, hplace⟩ := h
  dsimp only at hstate hconf hplace
  subst hstate hconf
  obtain hdone | ⟨p, hlive⟩ := hplace
  · unfold process
    dsimp only
    rw [hdone]
    trivial
  · refine (process_outcome c hlive).mono fun t ht => ?_
    cases t with
    | done r => trivial
    | again e' =>
      cases ht with
      | moves q w' c' hq hm => exact ⟨rfl, by rw [hm.request.1], .inr ⟨q, hm.live⟩⟩

/-- One turn: the processor returns, or goes on with less. -/
theorem Stands.turn (h : Stands env conf e) :
    Yields (EndlessIn conf.bufBytes) (process env e) (Turn.Leads
      (fun e' => Stands env conf e' ∧ left e'.c.rest < left e.c.rest) fun _ => True) := by
  refine h.kept.known.mono ?_
  rintro t ⟨hturn, hkept⟩
  cases t with
  | done r => trivial
  | again e' => exact ⟨hkept, left_lt (process_remaining h.state h.invariant hturn)⟩

/-- Between two calls a request stands where the next call may begin. -/
theorem Standing.stands {calls : List (List Buf)} (h : Standing env calls w) (c : Cursor) :
    Stands env w.r.conf ⟨w.ctx.state, w, c⟩ := by
  refine ⟨rfl, rfl, ?_⟩
  cases h with
  | live p hlive hread => exact .inr ⟨p, hlive⟩
  | past hinstalled hstate hsent => exact .inl hstate
  | off hinstalled hstate hsent => exact .inl hstate

/-- The processors end, whatever state the calls so far have led to and whatever bufs
come in. From one turn to the next there are fewer bufs, or fewer bytes in them,
and never more of either; so there are no more such steps than bufs and bytes. The
last turn returns, unless a write into bufs of size zero keeps it for ever. -/
theorem processors_end (h : Reachable env w) (chain : List Buf) :
    (∀ e e', (processLoop env).Visits ⟨w.ctx.state, w, ⟨[], chain⟩⟩ e →
      process env e = .ok (.again e') → remaining e'.c.rest < remaining e.c.rest) ∧
    ∃ result,
      turns (process env) ((remaining chain).1 + (remaining chain).2 + 1)
        ⟨w.ctx.state, w, ⟨[], chain⟩⟩ = some result ∧
      ((∃ r, result = .ok r) ∨ (result = .error .endless ∧ w.r.conf.bufBytes = 0)) := by
  obtain ⟨w₀, calls, rets, hpostponed, hrun⟩ := h
  have hs : Standing env calls w := ((standing_of_run hpostponed calls).of_eq_ok hrun).1
  have hstart := Standing.stands hs ⟨[], chain⟩
  refine ⟨fun e e' hvisits hturn => ?_, ?_⟩
  · have hstands : Stands env w.r.conf e :=
      hvisits.invariant (fun e e' he hturn => he.kept.of_eq_ok hturn) hstart
    exact process_remaining hstands.state hstands.invariant hturn
  · have hbound : left chain < (remaining chain).1 + (remaining chain).2 + 1 := by
      rw [left_eq]
      exact Nat.lt_succ_self _
    obtain ⟨result, hturns, hyields⟩ := turns_yields (fun e he => Stands.turn he) _ hstart hbound
    refine ⟨result, hturns, ?_⟩
    cases result with
    | ok r => exact .inl ⟨r, rfl⟩
    | error f =>
      obtain ⟨rfl, hzero⟩ := hyields
      exact .inr ⟨rfl, hzero⟩

/-- The rest of a value behind an empty buf, a row that is null, one that is
empty, and special bufs between them. -/
def manyTurns : List Buf :=
  [Buf.memory [], Buf.memory (lit "cd"), Buf.memory (lit "e" ++ 1 :: leBytes 4 nullLength),
    flushBuf, Buf.memory [1], Buf.memory (leBytes 4 0), flushBuf, Buf.memory [0]]

theorem processors_end_manyTurns : ∃ x r,
    runCalls calm (postpone calm (plainConf 4096) true) [[Buf.memory
      (encodeHeader ⟨0, 0, [], 0, 0, 1⟩ ++ encodeCol ⟨0x8000, 0, lit "a"⟩ ++
        (1 :: leBytes 4 5 ++ lit "ab"))]] = .ok x ∧
      x.2.ctx.state = .expectMoreFieldData ∧
      turns (process calm) 23 ⟨.expectMoreFieldData, x.2, ⟨[], manyTurns⟩⟩ = some (.ok r) := by
  obtain ⟨x, hrun, hstate, hsize⟩ : ∃ x,
      runCalls calm (postpone calm (plainConf 4096) true) [[Buf.memory
        (encodeHeader ⟨0, 0, [], 0, 0, 1⟩ ++ encodeCol ⟨0x8000, 0, lit "a"⟩ ++
          (1 :: leBytes 4 5 ++ lit "ab"))]] = .ok x ∧
        x.2.ctx.state = .expectMoreFieldData ∧ x.2.r.conf.bufBytes ≠ 0 :=
    ⟨_, rfl, rfl, by decide⟩
  obtain ⟨-, result, hturns, ⟨r, rfl⟩ | ⟨-, hzero⟩⟩ :=
    processors_end ⟨_, _, _, postponed_postpone rfl rfl true, hrun⟩ manyTurns
  · rw [hstate] at hturns
    exact ⟨x, r, hrun, hstate, hturns⟩
  · exact absurd hzero hsize

end RdsJson.ParserTermination
