import RdsJson.JsonText

/-! # The success flag

What stands under the success key in the output for a stream, against the error
code in the stream's header. -/
namespace RdsJson.SuccessFlag
open RdsJson.Lib.LittleEndian RdsJson.Lib.Json RdsJson.Nginx RdsJson.Util RdsJson.Conf
open RdsJson.Context RdsJson.Escaping RdsJson.Processor RdsJson.FilterModule RdsJson.ResultSet
open RdsJson.Reader RdsJson.Render RdsJson.Blocks RdsJson.Levels RdsJson.WriteLayer
open RdsJson.Runs RdsJson.JsonText

/-- The flag under `key`, where it is the first member of an object. -/
def successFlag (key text : Bytes) : Option Bool := do
  let bs ← expect 123 text
  let (m, _) ← readMember (readValue text.length) bs
  match m.2 with
  | .bool b => if m.1 = key then some b else none
  | _ => none

/-- A flag that is written in front is read there, whatever follows. -/
theorem successFlag_lead (key : Bytes) (ok : Bool) (rest : Bytes) :
    successFlag key (lit "\x7b" ++ (quote key ++ (if ok then lit ":true," else lit ":false,")) ++
      rest) = some ok := by
  have hmember : SpellsMember (quote key ++ lit ":" ++ if ok then lit "true" else lit "false")
      (key, .bool ok) := spellsMember_quote key (spells_bool ok)
  have htext : lit "\x7b" ++ (quote key ++ (if ok then lit ":true," else lit ":false,")) ++ rest =
      123 :: ((quote key ++ lit ":" ++ if ok then lit "true" else lit "false") ++ 44 :: rest) := by
    cases ok <;> simp [lit]
  rw [htext]
  have hlen : (quote key ++ lit ":" ++ if ok then lit "true" else lit "false").length ≤
      (123 :: ((quote key ++ lit ":" ++ if ok then lit "true" else lit "false") ++
        44 :: rest)).length := by
    simp
    omega
  have hread := hmember.reads hlen (44 :: rest) (ends_cons rfl rest)
  rw [successFlag, expect_cons rfl]
  simp only [Option.bind_eq_bind, Option.bind_some, hread, if_true]

variable {levels : List Block} {conf : LocConf} {key : Bytes}

theorem successText_key (h : Effective levels conf) (hkey : successKey levels = some key)
    (ok : Bool) :
    successText conf ok = quote key ++ (if ok then lit ":true," else lit ":false,") := by
  unfold successText
  rw [Str.len, h.success, hkey, if_neg (keyText_length.mpr rfl)]
  rfl

/-- A success key brings a root key along. -/
theorem root_of_successKey (h : Effective levels conf) (hkey : successKey levels = some key) :
    conf.root.len ≠ 0 := by
  rw [Str.len, h.root]
  refine keyText_length.mpr ?_
  simp [rootKey, wrapped, hkey]

/-- The object for an empty set has the flag of its header; where there are rows
the flag is always true. -/
theorem successFlag_render (h : Effective levels conf) (hkey : successKey levels = some key)
    (complexValue : Bytes → Bytes) (t : Table) :
    successFlag key (render conf complexValue t) =
      some (decide (t.cols = [] → t.header.stdErrcode = 0)) := by
  unfold render
  by_cases hcols : t.cols = []
  · rw [if_pos hcols]
    simp only [headerText, successText_key h hkey, List.append_assoc]
    have hlead := successFlag_lead key (decide (t.header.stdErrcode = 0))
    simp only [List.append_assoc] at hlead
    rw [hlead]
    simp [hcols]
  · rw [if_neg hcols, tableText, beginText, if_neg (root_of_successKey h hkey)]
    simp only [successText_key h hkey, List.append_assoc]
    have hlead := successFlag_lead key true
    simp only [List.append_assoc] at hlead
    rw [hlead]
    simp [hcols]

/-- The flag tells of the error code just where the set has no columns, or the
code is zero. -/
theorem success_flag_iff {env : Env} {w₀ w : World} {calls : List (List Buf)} {rets : List Return}
    {compiles : Bytes → Bool} {pagesize : Nat} (ht : Takes env) (h : Postponed env w₀)
    (honly : w₀.r.headerOnly = false) (hconf : InEffect compiles pagesize levels w₀.r.conf)
    (hkey : successKey levels = some key) (s : Stream) {extra : Bytes}
    (hin : calls.flatten.flatMap Buf.rest = s.encode ++ extra)
    (hrun : runCalls env w₀ calls = .ok (rets, w)) (hok : ∀ ret ∈ rets, failed ret.rc = false)
    (hdone : w.ctx.state = .done) :
    successFlag key (delivered w.trace) = some (decide (s.header.stdErrcode = 0)) ↔
      s.cols = [] ∨ s.header.stdErrcode = 0 := by
  rw [delivered_of_accepted ht h honly s hin hrun hok hdone,
    successFlag_render hconf.effective hkey]
  by_cases hcols : s.cols = [] <;> by_cases hcode : s.header.stdErrcode = 0 <;> simp [hcols, hcode]

/-- A set with rows, sent along with an error. -/
def failedSet : Table where
  header := ⟨1, 0, lit "oops", 0, 0, 1⟩
  cols := [⟨0x8000, 0, lit "a"⟩]
  rows := [⟨1, [some (lit "x")]⟩]

theorem failedSet_ok : failedSet.Ok := by
  refine ⟨by simp [failedSet, Format.Header.Fits, lit], rfl, ?_, ?_, by simp [failedSet]⟩
  · simp [failedSet, Format.Column.Fits, lit]
  · intro row hrow
    obtain rfl := List.mem_singleton.mp hrow
    exact ⟨by decide, rfl, ⟨by decide, rfl⟩, trivial⟩

theorem success_flag_of_failed_set : ∃ rets w,
    runCalls calm (postpone calm twoLevelsConf true) [[Buf.memory failedSet.encode]] =
      .ok (rets, w) ∧ (∀ ret ∈ rets, failed ret.rc = false) ∧ w.ctx.state = .done ∧
    delivered w.trace =
      lit "\x7b\"ok\":true,\"uid\":\"1\",\"data\":[\x7b\"a\":\"x\"\x7d]\x7d" ∧
    successFlag (lit "ok") (delivered w.trace) ≠ some (decide (failedSet.header.stdErrcode = 0)) :=
  ⟨_, _, rfl, by simp, rfl, rfl, by decide⟩

theorem success_flag_iff_failed_set : ∃ rets w,
    runCalls calm (postpone calm twoLevelsConf true) [[Buf.memory failedSet.encode]] =
      .ok (rets, w) ∧ w.ctx.state = .done ∧
    successFlag (lit "ok") (delivered w.trace) ≠ some (decide (failedSet.header.stdErrcode = 0)) := by
  have hconf : InEffect literal 4096 twoLevels (postpone calm twoLevelsConf true).r.conf :=
    show InEffect literal 4096 twoLevels (mergeLocConf 4096 _ _) from .merged rfl rfl
  have hin : [[Buf.memory failedSet.encode]].flatten.flatMap Buf.rest = failedSet.encode ++ [] := by
    simp
  obtain ⟨⟨rets, w⟩, hrun, hok, hdone⟩ : ∃ x,
      runCalls calm (postpone calm twoLevelsConf true) [[Buf.memory failedSet.encode]] = .ok x ∧
      (∀ ret ∈ x.1, failed ret.rc = false) ∧ x.2.ctx.state = .done := ⟨_, rfl, by simp, rfl⟩
  have hiff := success_flag_iff takes_calm (postponed_postpone rfl rfl true) rfl hconf rfl
    ⟨failedSet, failedSet_ok⟩ hin hrun hok hdone
  exact ⟨rets, w, hrun, hdone, hiff.not.mpr (by simp [failedSet])⟩

end RdsJson.SuccessFlag
