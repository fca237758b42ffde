import RdsJson.Translator
import RdsJson.Bypass

/-! # The life of a request

A header that announces a result set, the bodies behind it, and the error page that
may break them off: all that nginx asks of the filters for one response. -/
namespace RdsJson.Life
open RdsJson.Lib.LittleEndian RdsJson.Lib.Outcome RdsJson.Lib.Refinement RdsJson.Nginx RdsJson.Rds
open RdsJson.Conf RdsJson.ResultSet
open RdsJson.Context RdsJson.Processor RdsJson.FilterModule RdsJson.Generators RdsJson.Runs
open RdsJson.Translator RdsJson.Bypass

variable {env : Env} {w w₁ w' : World} {ops ops' page : List Op} {rcs rcs' : List Int}
variable {chains : List (List Buf)} {rets : List Return}

/-! ## Operations in a row -/

theorem runOps_append (h : runOps env w ops = .ok (rcs, w₁))
    (h' : runOps env w₁ ops' = .ok (rcs', w')) :
    runOps env w (ops ++ ops') = .ok (rcs ++ rcs', w') := by
  induction ops generalizing w rcs with
  | nil =>
    cases h
    exact h'
  | cons op ops ih =>
    obtain ⟨⟨rc, w₂⟩, hop, h⟩ := bind_eq_ok.mp h
    obtain ⟨⟨rcs₂, w₃⟩, hops, h⟩ := bind_eq_ok.mp h
    cases h
    rw [List.cons_append, runOps, hop, ok_bind]
    dsimp only
    rw [ih hops]
    rfl

theorem runOps_bodies (h : runCalls env w chains = .ok (rets, w')) :
    runOps env w (chains.map .body) = .ok (rets.map Return.rc, w') := by
  induction chains generalizing w rets with
  | nil =>
    cases h
    rfl
  | cons chain chains ih =>
    obtain ⟨ret, hcall, h⟩ := bind_eq_ok.mp h
    obtain ⟨⟨rets', w₁⟩, hcalls, h⟩ := bind_eq_ok.mp h
    cases h
    rw [List.map_cons, runOps, Op.run, hcall, ok_bind, ok_bind]
    dsimp only
    rw [ih hcalls]
    rfl

theorem answers_fine (ht : Takes env) (k : Nat) (ops : List Op) :
    (answers env k ops).map failed = ops.map fun _ => false := by
  induction ops generalizing k with
  | nil => rfl
  | cons op ops ih =>
    have hop : failed (op.answer env k) = false := by
      cases op with
      | header status contentType => exact ht.header k
      | body chain => exact ht.body k
    rw [answers, List.map_cons, List.map_cons, hop, ih]

/-! ## The header -/

/-- A request that no filter saw yet, in surroundings that take what comes. -/
structure Fresh (env : Env) (w : World) : Prop extends Serves env where
  unset : w.ctxSet = false
  trace : w.trace = []
  notHead : w.r.headerOnly = false
  supported : Supported w.r.conf
  room : 0 < w.r.conf.bufBytes

/-- What the translation of a response depends on. -/
def announced (env : Env) (w : World) (status : Nat) : Setting :=
  ⟨w.r.conf, env.complexValue, w.r.main, status⟩

theorem Fresh.postpones (h : Fresh env w) {status : Nat} {contentType : Bytes}
    (htaken : (Op.header status contentType).Taken w.r.conf) :
    ∃ w₁, (Op.header status contentType).run env w = .ok (NGX_OK, w₁) ∧ Served env w₁ ∧
      w₁.trace = [] ∧ settingOf env w₁ = announced env w status := by
  let w₀ : World := { w with r := { w.r with status := status, contentType := contentType } }
  obtain ⟨w', -, -, k, hk⟩ | ⟨w₁, hheader, hin⟩ := @headerFilter_taken env w₀ htaken
  · exact absurd (hk.symm.trans (h.alloc k)) Bool.false_ne_true
  have hconf : w₁.r.conf = w.r.conf := hin.conf
  have hmain : w₁.r.main = w.r.main := hin.main
  have hstatus : w₁.r.status = status := hin.status
  refine ⟨w₁, congrArg Except.ok hheader, ?_, hin.trace.trans h.trace, ?_⟩
  · refine ⟨h.toServes, ⟨w₀, h.unset, h.trace, hheader, hin.installed⟩, ?_, ?_, ?_⟩
    · exact hin.headerOnly.trans h.notHead
    · rw [hconf]
      exact h.supported
    · rw [hconf]
      exact h.room
  · rw [settingOf, hconf, hmain, hstatus]
    rfl

/-! ## All of it -/

/-- The header of another response comes in the place of the rest, or nothing does. -/
def BreaksOff (conf : LocConf) (page : List Op) : Prop :=
  page = [] ∨ (∃ status contentType ops, page = .header status contentType :: ops ∧
    ¬ Successful status) ∧ ∀ op ∈ page, ¬ op.Taken conf

theorem passes_page (ht : Takes env) (hpage : BreaksOff w.r.conf page) :
    ∃ rcs w', runOps env w page = .ok (rcs, w') ∧ rcs.map failed = page.map (fun _ => false) ∧
      w'.trace = w.trace ++ page.map Op.event := by
  obtain rfl | ⟨hclear, hnone⟩ := hpage
  · exact ⟨[], w, rfl, rfl, (List.append_nil _).symm⟩
  · obtain ⟨w', hrun, htrace, -⟩ := @passed_ops env w page (.inr hclear) hnone
    exact ⟨_, w', hrun, answers_fine ht _ page, htrace⟩

/-- For a header that announces a result set, the bodies behind it, and an error page or
nothing behind them: what goes out is what the machine says to the bodies, with the page
behind it as it is, and only calls with bodies fail, where the machine says so. -/
theorem life_of_request (h : Fresh env w) {status : Nat} {contentType : Bytes}
    (htaken : (Op.header status contentType).Taken w.r.conf) (chains : List (List Buf))
    (hpage : BreaksOff w.r.conf page) :
    ∃ rcs w' said,
      said = ((translator (announced env w status)).run (.reading .header) chains).1 ∧
      runOps env w (.header status contentType :: (chains.map .body ++ page)) = .ok (rcs, w') ∧
      rcs.map failed = false :: (said.map Answer.failed ++ page.map fun _ => false) ∧
      outputs w' = said.flatMap Answer.output ++ page.map fun op => output op.event := by
  obtain ⟨w₁, hheader, hserved, htrace, hsetting⟩ := h.postpones htaken
  obtain ⟨rets, w₂, hrun, hshown, hfollows⟩ := Served.translates hserved chains
  rw [hsetting] at hshown hfollows
  have hconf : w₂.r.conf = w.r.conf := hfollows.conf
  obtain ⟨rcs, w₃, hpassed, hfine, hpage⟩ := @passes_page env w₂ page h.toTakes (hconf ▸ hpage)
  refine ⟨NGX_OK :: (rets.map Return.rc ++ rcs), w₃, _, rfl, ?_, ?_, ?_⟩
  · rw [runOps, hheader, ok_bind]
    dsimp only
    rw [runOps_append (runOps_bodies hrun) hpassed]
    rfl
  · have hfails := hshown.map fun _ _ _ hs => hs.failed
    rw [List.map_cons, List.map_append, List.map_map, hfine]
    exact congrArg (false :: · ++ page.map fun _ => false) hfails
  · have hlog := hshown.log fun _ _ _ hs => hs.output
    rw [outputs, hpage, List.map_append, List.map_map]
    rw [outputs, outputs, htrace, List.map_nil, List.nil_append] at hlog
    rw [hlog]
    rfl

theorem fresh_request : Fresh calm (request (plainConf 4) true) where
  toTakes := takes_calm
  alloc _ := rfl
  unset := rfl
  trace := rfl
  notHead := rfl
  supported := .inl rfl
  room := by decide

/-- A response that is broken off behind its first row. -/
theorem life_of_request_brokenOff : ∃ rcs w',
    runOps calm (request (plainConf 4) true) (.header 200 rdsContentType ::
      ([[Buf.memory ((oneColumn [some (lit "b"), none]).encode.take 43)]].map .body ++
        errorPage)) = .ok (rcs, w') ∧
      rcs.map failed = [false, false, false, false] ∧
      outputs w' = [.header 200, .text (lit "[\x7b\"a\":\"b"), .header 500,
        .upstream [Buf.memory (lit "oops")]] := by
  have htaken : (Op.header 200 rdsContentType).Taken (request (plainConf 4) true).r.conf :=
    ⟨by simp [Successful, NGX_HTTP_OK, NGX_HTTP_SPECIAL_RESPONSE, NGX_HTTP_NO_CONTENT,
      NGX_HTTP_RESET_CONTENT], rfl, rfl⟩
  obtain ⟨rcs, w', said, hsaid, hrun, hfailed, hout⟩ := life_of_request fresh_request htaken
    [[Buf.memory ((oneColumn [some (lit "b"), none]).encode.take 43)]]
    (.inr ⟨errorPage_breaksOff, errorPage_not_taken _⟩)
  refine ⟨rcs, w', hrun, ?_, ?_⟩
  · rw [hfailed, hsaid]
    rfl
  · rw [hout, hsaid]
    rfl

end RdsJson.Life
