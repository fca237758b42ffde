import RdsJson.Runs

/-! # Soundness

Whatever bytes come in and however they are cut: input that is taken for a
complete stream is one, and what went out for it is its text. -/
namespace RdsJson.Soundness
open RdsJson.Lib.LittleEndian RdsJson.Lib.Outcome RdsJson.Nginx RdsJson.Context
open RdsJson.Processor RdsJson.FilterModule RdsJson.ResultSet RdsJson.Reader RdsJson.Render
open RdsJson.WriteLayer RdsJson.Simulation RdsJson.Calls RdsJson.Runs

variable {env : Env} {w w₀ : World} {calls : List (List Buf)} {rets : List Return}

/-- A course of calls that ends well has no failed call in it. -/
theorem Course.no_failure (h : Course env calls rets w) (hstate : w.ctx.state ≠ .done) :
    ∀ ret ∈ rets, failed ret.rc = false := by
  cases h with
  | flowing p h hread hok => exact hok
  | finished t h hread hok => exact absurd h.state hstate
  | broken hdone hmarks hbad hwhy => exact absurd hdone hstate

/-- A call enters the final state and succeeds, or a buf with `last_buf` was
passed on: only at the end of a stream. -/
theorem Course.finished_of_end {chain : List Buf} {ret : Return} (h : Course env calls rets w)
    (h' : Course env (calls ++ [chain]) (rets ++ [ret]) ret.w)
    (hend : (w.ctx.state ≠ .done ∧ ret.w.ctx.state = .done ∧ ret.rc = NGX_OK) ∨
      ∃ b ∈ sentBufs ret.w.trace, b.lastBuf = true) :
    ∃ t, Finished env t ret.w ∧ readCalls .header (calls ++ [chain]) = some (.done t) := by
  cases h' with
  | finished t hfin hread hok => exact ⟨t, hfin, hread⟩
  | flowing p hflow hread hok =>
    rcases hend with ⟨-, hdone, -⟩ | ⟨b, hb, hmark⟩
    · exact absurd hdone (Live.state_ne_done hflow.toLive)
    · exact absurd ((hflow.unmarked b hb).symm.trans hmark) Bool.false_ne_true
  | broken hdone hmarks hbad hwhy =>
    rcases hend with ⟨hstate, -, hrc⟩ | ⟨b, hb, hmark⟩
    · obtain ⟨r, hr, hfail⟩ := hbad
      have hok := ok_snoc (Course.no_failure h hstate) (hrc ▸ failed_ok) r hr
      exact absurd (hok.symm.trans hfail) Bool.false_ne_true
    · exact absurd ((hmarks b hb).symm.trans hmark) Bool.false_ne_true

/-- The input is the encoding of a stream, the last byte of it at the end of a
buf, with `behind` after it; the output is its text. -/
structure Accepted (env : Env) (calls : List (List Buf)) (w : World) (s : Stream)
    (behind : List Buf) : Prop where
  brings : ∃ front b, calls.flatten = front ++ b :: behind ∧ b.rest ≠ [] ∧
    (front ++ [b]).flatMap Buf.rest = s.encode
  sent : sent w.trace = render w.r.conf env.complexValue s.toTable

/-- The call that ends the stream leaves what stands behind it, unless it
discards it. -/
theorem Called.accepted {p : Progress} {chain : List Buf} {ret : Return} {t : Table}
    (h : Called env p w chain ret) (hread : readCalls .header calls = some p) (hp : Live env p w)
    (hfin : Finished env t ret.w) (hdone : readCalls .header (calls ++ [chain]) = some (.done t))
    (hrc : ret.rc = NGX_OK) :
    ∃ s behind, Accepted env (calls ++ [chain]) ret.w s behind ∧
      (s.cols ≠ [] → ret.c.chain.flatMap Buf.rest = behind.flatMap Buf.rest) := by
  cases h with
  | rejects w₁ c hp hr hwhy => cases hrc
  | fails w₁ c hinstalled hsent hforwarded hheader hwhy => cases hrc
  | pauses q w₁ c rc w' hm hrest hout =>
    exact absurd hfin.state (Live.state_ne_done (Live.flush hm.live hout).1)
  | ends t' behind w₁ c rc w' he hout =>
    rw [readCalls_snoc, hread, Option.bind_some, he.reads] at hdone
    obtain rfl := Progress.done.inj (Option.some.inj hdone)
    obtain ⟨-, -, front, hfront, hbytes⟩ := readBufs_spec hp.ok he.reads
    obtain ⟨front', b, hsplit, hb⟩ := readBufs_last he.reads hp.notDone rfl
    have hfront' : front = front' ++ [b] := by
      rw [hfront, List.append_cons] at hsplit
      exact List.append_cancel_right hsplit
    have hp' := readCalls_spec (p := .header) trivial hread hp.notDone
    refine ⟨⟨t', he.ok⟩, behind, ⟨⟨calls.flatten ++ front', b, by simpa using hsplit, hb, ?_⟩,
      hfin.sent⟩, fun hcols => ?_⟩
    · show _ = (Progress.done t').bytes
      rw [hbytes, hp', hfront']
      simp [Progress.bytes]
    · have hleft := he.left
      rw [if_neg hcols] at hleft
      obtain ⟨b', hrest, hb'⟩ := hleft
      have hpassed : c.passed.flatMap Buf.rest = [] :=
        List.flatMap_eq_nil_iff.mpr (he.through.passed (by simp))
      simp [Cursor.chain, hrest, hb', hpassed]

/-- A call enters the final state and succeeds, or a buf with `last_buf` was
passed on: then the input up to the last byte that was parsed is a well-formed
stream, and the output its text. -/
theorem accepted_is_stream {chain : List Buf} {ret : Return} (ht : Takes env)
    (h : Postponed env w₀) (honly : w₀.r.headerOnly = false)
    (hrun : runCalls env w₀ calls = .ok (rets, w)) (hcall : bodyFilter env w chain = .ok ret)
    (hend : (w.ctx.state ≠ .done ∧ ret.w.ctx.state = .done ∧ ret.rc = NGX_OK) ∨
      ∃ b ∈ sentBufs ret.w.trace, b.lastBuf = true) :
    ∃ s behind, Accepted env (calls ++ [chain]) ret.w s behind ∧
      (w.ctx.state ≠ .done → ret.rc = NGX_OK → s.cols ≠ [] →
        ret.c.chain.flatMap Buf.rest = behind.flatMap Buf.rest) := by
  obtain ⟨hcourse, hsame⟩ := (course_of_run ht h honly calls).of_eq_ok hrun
  obtain ⟨hcourse', -⟩ := (hcourse.call ht hsame.headerOnly chain).of_eq_ok hcall
  obtain ⟨t, hfin, hread'⟩ := Course.finished_of_end hcourse hcourse' hend
  by_cases hcase : w.ctx.state ≠ .done ∧ ret.rc = NGX_OK
  · cases hcourse with
    | finished t hfin hread hok => exact absurd hfin.state hcase.1
    | broken hdone hmarks hbad hwhy => exact absurd hdone hcase.1
    | flowing p hflow hread hok =>
      have hchain : chain ≠ [] := by
        rintro rfl
        rw [readCalls_snoc, hread, Option.bind_some, readBufs_nil] at hread'
        obtain rfl := Option.some.inj hread'
        cases hflow.notDone
      have hcalled := (bodyFilter_called hflow.toLive hchain hsame.headerOnly).of_eq_ok hcall
      obtain ⟨s, behind, hacc, hleft⟩ :=
        Called.accepted hcalled hread hflow.toLive hfin hread' hcase.2
      exact ⟨s, behind, hacc, fun _ _ => hleft⟩
  · obtain ⟨front, b, behind, hsplit, hb, hencode⟩ :=
      readCalls_complete (p := .header) trivial rfl hread'
    have hok : t.Ok := readCalls_ok (p := .header) trivial hread'
    refine ⟨⟨t, hok⟩, behind, ⟨⟨front, b, hsplit, hb, ?_⟩, hfin.sent⟩,
      fun hstate hrc => absurd ⟨hstate, hrc⟩ hcase⟩
    simp [hencode, Progress.bytes]

/-- A row that is cut behind its flag, and a buf behind the end. -/
theorem accepted_is_stream_cut : ∃ w s behind,
    Accepted calm ([[Buf.memory ((oneColumn [some (lit "b")]).encode.take 38)]] ++
      [[Buf.memory ((oneColumn [some (lit "b")]).encode.drop 38), Buf.memory [0]]]) w s behind := by
  obtain ⟨⟨rets, w⟩, hrun, hstate, ret, hcall, hdone, hrc⟩ : ∃ x,
      runCalls calm (postpone calm (plainConf 4096) true)
        [[Buf.memory ((oneColumn [some (lit "b")]).encode.take 38)]] = .ok x ∧
      x.2.ctx.state ≠ .done ∧ ∃ ret, bodyFilter calm x.2
        [Buf.memory ((oneColumn [some (lit "b")]).encode.drop 38), Buf.memory [0]] = .ok ret ∧
      ret.w.ctx.state = .done ∧ ret.rc = NGX_OK := ⟨_, rfl, by decide, _, rfl, rfl, rfl⟩
  obtain ⟨s, behind, hacc, -⟩ := accepted_is_stream takes_calm (postponed_postpone rfl rfl true) rfl
    hrun hcall (.inl ⟨hstate, hdone, hrc⟩)
  exact ⟨_, s, behind, hacc⟩

end RdsJson.Soundness
