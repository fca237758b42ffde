import RdsJson.Runs

/-! # Consumption of the input

Which bufs of a chain are consumed when a call returns. -/
namespace RdsJson.Consumption
open RdsJson.Lib.LittleEndian RdsJson.Lib.Outcome RdsJson.Nginx RdsJson.Util RdsJson.Context
open RdsJson.Processor RdsJson.FilterModule RdsJson.ResultSet RdsJson.Reader RdsJson.Simulation
open RdsJson.Calls RdsJson.Runs

variable {env : Env} {p : Progress} {w : World} {calls : List (List Buf)} {chain : List Buf}

/-- The bufs that stand behind the row terminator in the chain it comes in. -/
def behindTerminator (calls : List (List Buf)) (chain : List Buf) : List Buf :=
  match (readCalls .header calls).bind fun p => readBufs p chain with
  | some (.done t, behind) => if t.cols = [] then [] else behind
  | _ => []

theorem behindTerminator_open {q : Progress} {rest : List Buf}
    (hread : readCalls .header calls = some p) (hbufs : readBufs p chain = some (q, rest))
    (hdone : q.isDone = false) : behindTerminator calls chain = [] := by
  rw [behindTerminator, hread, Option.bind_some, hbufs]
  cases q <;> first | rfl | cases hdone

theorem behindTerminator_done {t : Table} {behind : List Buf}
    (hread : readCalls .header calls = some p) (hbufs : readBufs p chain = some (.done t, behind)) :
    behindTerminator calls chain = if t.cols = [] then [] else behind := by
  rw [behindTerminator, hread, Option.bind_some, hbufs]

theorem consumed_passed {c : Cursor} (h : Through ⟨[], chain⟩ c) : ∀ b ∈ c.passed, b.rest = [] :=
  h.passed (by simp)

/-- Discarding consumes all and drops nothing. -/
theorem discardBufs_consumed (chain : List Buf) :
    (∀ b ∈ discardBufs chain, b.rest = []) ∧
      (discardBufs chain).map Buf.whole = chain.map Buf.whole := by
  constructor
  · intro b hb
    obtain ⟨b', -, rfl⟩ := List.mem_map.mp hb
    exact Buf.discard_rest b'
  · simp [discardBufs, Buf.discard]

/-- A call within the stream leaves only what stands behind the row terminator. -/
theorem Called.consumed {ret : Return} (h : Called env p w chain ret)
    (hread : readCalls .header calls = some p) (hrc : ret.rc = NGX_OK) :
    ret.c.chain.map Buf.whole = chain.map Buf.whole ∧
      ((∀ b ∈ ret.c.chain, b.rest = []) ↔
        ∀ b ∈ behindTerminator calls chain, b.rest = []) := by
  cases h with
  | pauses q w₁ c rc w' hm hrest hout =>
    have hbufs : readBufs p chain = some (q, []) := by
      rw [hm.reads, hrest, readBufs_nil]
    refine ⟨hm.through.whole, ?_⟩
    rw [behindTerminator_open hread hbufs hm.live.notDone]
    have hpassed := consumed_passed hm.through
    simpa [Cursor.chain, hrest] using hpassed
  | ends t behind w₁ c rc w' he hout =>
    refine ⟨he.through.whole, ?_⟩
    rw [behindTerminator_done hread he.reads]
    have hpassed := consumed_passed he.through
    have hleft := he.left
    unfold Cursor.chain
    split at hleft
    · next hcols =>
      rw [if_pos hcols]
      refine ⟨fun _ b hb => absurd hb List.not_mem_nil, fun _ b hb => ?_⟩
      exact (List.mem_append.mp hb).elim (hpassed b) (hleft b)
    · next hcols =>
      obtain ⟨b, hrest, hb⟩ := hleft
      rw [if_neg hcols, hrest]
      simp only [List.mem_append, List.mem_cons]
      exact ⟨fun h b' hb' => h b' (.inr (.inr hb')),
        fun h b' hb' => hb'.elim (hpassed b') (Or.elim · (· ▸ hb) (h b'))⟩
  | rejects w₁ c hp hr hwhy => cases hrc
  | fails w₁ c hinstalled hsent hforwarded hheader hwhy => cases hrc

/-- A call that returns `NGX_OK` consumes its chain if and only if the chain has
no byte behind the buf with the row terminator. -/
theorem consumes_chain_iff {w₀ : World} {rets : List Return} {ret : Return}
    (h : Postponed env w₀) (hrun : runCalls env w₀ calls = .ok (rets, w))
    (hset : w.ctxSet = true) (honly : w.r.headerOnly = false)
    (hcall : bodyFilter env w chain = .ok ret) (hrc : ret.rc = NGX_OK) :
    ret.c.chain.map Buf.whole = chain.map Buf.whole ∧
      ((∀ b ∈ ret.c.chain, b.rest = []) ↔
        (w.ctx.state ≠ .done → ∀ b ∈ behindTerminator calls chain, b.rest = [])) := by
  have hs : Standing env calls w := ((standing_of_run h calls).of_eq_ok hrun).1
  by_cases hchain : chain = []
  · subst hchain
    have hnone : behindTerminator calls [] = [] ∨ w.ctx.state = .done := by
      cases hs with
      | live p hlive hread =>
        exact .inl (behindTerminator_open (hread honly) (readBufs_nil p) hlive.notDone)
      | past hinstalled hstate hsent => exact .inr hstate
      | off hinstalled hstate hsent => exact .inr hstate
    unfold bodyFilter at hcall
    rw [if_pos (.inl rfl)] at hcall
    cases hcall
    rcases hnone with hnone | hdone
    · simp [Cursor.chain, hnone]
    · simp [Cursor.chain, hdone]
  cases hs with
  | live p hlive hread =>
    have hcalled := (bodyFilter_called hlive hchain honly).of_eq_ok hcall
    obtain ⟨hwhole, hiff⟩ := Called.consumed hcalled (hread honly) hrc
    exact ⟨hwhole, hiff.trans ⟨fun h _ => h, fun h => h (Live.state_ne_done hlive)⟩⟩
  | past hinstalled hstate hsent =>
    unfold bodyFilter at hcall
    rw [if_neg (by simp [hchain, honly]), if_neg (by simp [hset]), if_pos hstate] at hcall
    cases hcall
    obtain ⟨hempty, hwhole⟩ := discardBufs_consumed chain
    exact ⟨hwhole, fun _ hne => absurd hstate hne, fun _ => hempty⟩
  | off hinstalled hstate hsent => exact absurd (hinstalled.symm.trans hset) Bool.false_ne_true

/-- An empty buf behind the row terminator does no harm. -/
theorem consumes_chain_iff_empty_buf : ∃ ret,
    bodyFilter calm (postpone calm (plainConf 4096) true)
      [Buf.memory (oneColumn [some (lit "b")]).encode, Buf.memory []] = .ok ret ∧
    ret.rc = NGX_OK ∧ ∀ b ∈ ret.c.chain, b.rest = [] := by
  have hrun : runCalls calm (postpone calm (plainConf 4096) true) [] = .ok ([], _) := rfl
  obtain ⟨ret, hcall, hrc⟩ : ∃ ret, bodyFilter calm (postpone calm (plainConf 4096) true)
      [Buf.memory (oneColumn [some (lit "b")]).encode, Buf.memory []] = .ok ret ∧
      ret.rc = NGX_OK := ⟨_, rfl, rfl⟩
  refine ⟨ret, hcall, hrc, ?_⟩
  rw [(consumes_chain_iff (postponed_postpone rfl rfl true) hrun rfl rfl hcall hrc).2]
  decide

/-- A buf with a byte behind the row terminator is left as it came. -/
theorem leaves_buf_behind_terminator :
    ∃ w ret, Postponed calm w ∧ w.ctxSet = true ∧ w.r.headerOnly = false ∧
      bodyFilter calm w [Buf.memory (oneColumn [some (lit "b")]).encode, Buf.memory [0]] = .ok ret ∧
      ret.rc = NGX_OK ∧ ¬ ∀ b ∈ ret.c.chain, b.rest = [] :=
  ⟨postpone calm (plainConf 4096) true, _, postponed_postpone rfl rfl true, rfl, rfl, rfl, rfl,
    by decide⟩

end RdsJson.Consumption
