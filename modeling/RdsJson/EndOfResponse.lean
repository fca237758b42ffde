import RdsJson.Runs

/-! # The end of the response

Which of the bufs that go down the chain carry `last_buf`. -/
namespace RdsJson.EndOfResponse
open RdsJson.Lib.LittleEndian RdsJson.Lib.Outcome RdsJson.Nginx RdsJson.Context
open RdsJson.Processor RdsJson.FilterModule RdsJson.Format RdsJson.ResultSet RdsJson.Reader
open RdsJson.Render RdsJson.WriteLayer RdsJson.Simulation RdsJson.Runs

variable {env : Env} {w : World}

/-- All bufs that were passed on: their bytes, and whether `last_buf` is set. -/
def passed (trace : List Event) : List (Bytes × Bool) :=
  trace.flatMap fun
    | .header _ => []
    | .body chain => chain.map fun b => (b.rest, b.lastBuf)
    | .json bufs => bufs.map fun b => (b.unread, b.lastBuf)

/-- Exactly one buf is marked, and it holds the last byte. -/
def MarksEnd (bufs : List (Bytes × Bool)) : Prop :=
  ∃ front last back, bufs = front ++ last :: back ∧ last.1 ≠ [] ∧ last.2 = true ∧
    (∀ b ∈ front, b.2 = false) ∧ ∀ b ∈ back, b.1 = [] ∧ b.2 = false

/-- What the filter owes the client: a mark on the end of the main response, and
none in a subrequest. -/
def Marked (main : Bool) (bufs : List (Bytes × Bool)) : Prop :=
  if main then MarksEnd bufs else ∀ b ∈ bufs, b.2 = false

theorem MarksEnd.exists_marked {bufs : List (Bytes × Bool)} (h : MarksEnd bufs) :
    ∃ b ∈ bufs, b.2 = true := by
  obtain ⟨front, last, back, rfl, -, hlast, -⟩ := h
  exact ⟨last, by simp, hlast⟩

/-- Chains of nothing add nothing. -/
theorem passed_eq {trace : List Event} (h : ∀ chain, Event.body chain ∈ trace → chain = []) :
    passed trace = (sentBufs trace).map fun b => (b.unread, b.lastBuf) := by
  rw [← List.flatMap_pure_eq_map]
  exact flatMap_of_sentBufs (fun _ => rfl) rfl
    (fun bufs => (List.flatMap_pure_eq_map (fun b => (b.unread, b.lastBuf)) bufs).symm) h

theorem marked_iff {main mark : Bool} {front : List (Bytes × Bool)} {bytes : Bytes}
    (hbytes : bytes ≠ []) (hfront : ∀ b ∈ front, b.2 = false) :
    Marked main (front ++ [(bytes, main && mark)]) ↔ (main = true → mark = true) := by
  unfold Marked
  cases main with
  | false =>
    simp only [Bool.false_eq_true, if_false, Bool.false_and, false_implies, iff_true]
    intro b hb
    rcases List.mem_append.mp hb with hb | hb
    · exact hfront b hb
    · rw [List.mem_singleton.mp hb]
  | true =>
    simp only [if_true, Bool.true_and, forall_const]
    constructor
    · intro hmarks
      obtain ⟨last, hmem, hlast⟩ := hmarks.exists_marked
      rcases List.mem_append.mp hmem with hmem | hmem
      · exact absurd ((hfront last hmem).symm.trans hlast) Bool.false_ne_true
      · rw [List.mem_singleton.mp hmem] at hlast
        exact hlast
    · rintro rfl
      exact ⟨front, (bytes, true), [], rfl, hbytes, rfl, hfront, by simp⟩

/-- A response that was completed without error is marked as it should be if and
only if it is a subrequest's, or its last piece of text fits into the rest of the
buf it begins in or ends where a buf ends. -/
theorem marked_iff_closes {w₀ : World} {calls : List (List Buf)} {rets : List Return}
    (ht : Takes env) (h : Postponed env w₀) (honly : w₀.r.headerOnly = false)
    (hrun : runCalls env w₀ calls = .ok (rets, w)) (hok : ∀ ret ∈ rets, failed ret.rc = false)
    (hdone : w.ctx.state = .done) :
    ∃ t, readCalls .header calls = some (.done t) ∧ t.Ok ∧
      (Marked w₀.r.main (passed w.trace) ↔
        (w₀.r.main = true → closes w₀.r.conf env.complexValue t = true)) := by
  obtain ⟨hcourse, hsame⟩ := (course_of_run ht h honly calls).of_eq_ok hrun
  cases hcourse with
  | flowing p h hread hok => exact absurd hdone (Calls.Live.state_ne_done h.toLive)
  | broken hstate hmarks hbad hwhy =>
    obtain ⟨ret, hret, hfail⟩ := hbad
    exact absurd ((hok ret hret).symm.trans hfail) Bool.false_ne_true
  | finished t hfin hread hok =>
    obtain ⟨bufs, last, hsplit, hbytes, hlast, hbufs⟩ := hfin.marks
    refine ⟨t, hread, readCalls_ok (p := .header) trivial hread, ?_⟩
    rw [passed_eq hfin.bodies, hsplit, List.map_append, List.map_singleton, hlast, hsame.main,
      hsame.conf]
    exact marked_iff hbytes (by simpa using hbufs)

/-- A header without columns in bufs of 13 bytes, which its text just fills. -/
theorem marked_iff_closes_exact : ∃ x,
    runCalls calm (postpone calm (plainConf 13) true)
      [[Buf.memory (encodeHeader ⟨0, 0, [], 0, 0, 0⟩)]] = .ok x ∧ MarksEnd (passed x.2.trace) := by
  obtain ⟨⟨rets, w⟩, hrun, hok, hdone⟩ : ∃ x, runCalls calm (postpone calm (plainConf 13) true)
      [[Buf.memory (encodeHeader ⟨0, 0, [], 0, 0, 0⟩)]] = .ok x ∧
      (∀ ret ∈ x.1, failed ret.rc = false) ∧ x.2.ctx.state = .done := ⟨_, rfl, by simp, rfl⟩
  obtain ⟨t, hread, -, hiff⟩ := marked_iff_closes takes_calm (postponed_postpone rfl rfl true) rfl
    hrun hok hdone
  obtain rfl : t = ⟨⟨0, 0, [], 0, 0, 0⟩, [], []⟩ := (Progress.done.inj (Option.some.inj hread)).symm
  exact ⟨_, hrun, hiff.mpr fun _ => by decide⟩

/-- The same header in bufs of 4 bytes: its text ends within a buf, and the
client waits for more. -/
theorem loses_last_buf : ∃ x,
    Postponed calm (postpone calm (plainConf 4) true) ∧
    runCalls calm (postpone calm (plainConf 4) true)
      [[Buf.memory (encodeHeader ⟨0, 0, [], 0, 0, 0⟩)]] = .ok x ∧
    (∀ ret ∈ x.1, ret.rc = NGX_OK) ∧ x.2.ctx.state = .done ∧ x.2.r.main = true ∧
    ¬ MarksEnd (passed x.2.trace) := by
  refine ⟨_, postponed_postpone rfl rfl true, rfl, by simp, rfl, rfl, fun h => ?_⟩
  obtain ⟨b, hb, hmark⟩ := h.exists_marked
  revert b
  decide

end RdsJson.EndOfResponse
