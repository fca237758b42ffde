import RdsJson.Turns

/-! # Whole calls of the body filter

The turns of one call, put together: how far the stream was read, what was
written for it, and how the call may end. -/
namespace RdsJson.Calls
open RdsJson.Lib.LittleEndian RdsJson.Lib.TailLoop RdsJson.Lib.Outcome RdsJson.Nginx
open RdsJson.Context RdsJson.OutputMem RdsJson.Processor RdsJson.FilterModule RdsJson.ResultSet
open RdsJson.Reader RdsJson.Render RdsJson.WriteLayer RdsJson.Generators RdsJson.Simulation
open RdsJson.Turns

variable {env : Env} {p : Progress} {w : World} {c : Cursor} {chain : List Buf}

/-- Whatever the state, the processor that is entered does one of the things that
`Outcome` lists. -/
theorem process_outcome (c : Cursor) (h : Live env p w) :
    Yields (EndlessIn w.r.conf.bufBytes) (process env ⟨w.ctx.state, w, c⟩)
      (Outcome env p w c) := by
  have hagrees := h.agrees
  have hdone := h.notDone
  unfold process
  cases p with
  | header =>
    rw [show w.ctx.state = _ from hagrees]
    exact processHeader_outcome env c h
  | cols hd cs =>
    rw [hagrees.1]
    exact processCol_outcome env c h
  | rows t =>
    rw [hagrees.1]
    exact processRow_outcome env c h
  | fields t flag fs =>
    rw [hagrees.1]
    exact processField_outcome env c h
  | value t flag fs got missing =>
    rw [hagrees.1]
    exact processMoreFieldData_outcome env c h
  | done t => cases hdone

/-! ## All turns of a call -/

/-- Where the loop may stand: at its first turn, or behind the header. -/
def Within (env : Env) (p : Progress) (w : World) (c : Cursor) (e : Entry) : Prop :=
  e = ⟨w.ctx.state, w, c⟩ ∨
    ∃ q, q ≠ .header ∧ Moved env p w c q e.w e.c ∧ e.state = e.w.ctx.state

theorem Within.turn (h : Live env p w) {e : Entry} (he : Within env p w c e) :
    Yields (EndlessIn w.r.conf.bufBytes) (process env e)
      (Turn.Leads (Within env p w c) (Result env p w c)) := by
  rcases he with rfl | ⟨q, hq, hm, hs⟩
  · refine (process_outcome c h).mono fun t ht => ?_
    cases t with
    | done r => exact ht.result h
    | again e' =>
      cases ht with
      | moves q w' c' hq hm => exact .inr ⟨q, hq, hm, rfl⟩
  · obtain ⟨s, w₁, c₁⟩ := e
    dsimp only at hm hs
    have hturn := process_outcome c₁ hm.live
    rw [hm.request.1, ← hs] at hturn
    refine hturn.mono fun t ht => ?_
    cases t with
    | done r => exact hm.result hq (ht.result hm.live)
    | again e' =>
      cases ht with
      | moves q' w' c' hq' hm' => exact .inr ⟨q', hq', hm.trans hq hm', rfl⟩

theorem processLoop_result (c : Cursor) (h : Live env p w) :
    Yields (EndlessIn w.r.conf.bufBytes) ((processLoop env).run ⟨w.ctx.state, w, c⟩)
      (Result env p w c) :=
  (processLoop env).run_yields (I := Within env p w c) (fun _ he => he.turn h) _ (.inl rfl)

/-! ## The call around them -/

/-- How a call may go that the processors are entered in. -/
inductive Called (env : Env) (p : Progress) (w : World) (chain : List Buf) : Return → Prop
  | pauses (q : Progress) (w₁ : World) (c : Cursor) (rc : Int) (w' : World)
      (h : Moved env p w ⟨[], chain⟩ q w₁ c) (hrest : c.rest = [])
      (hout : outputBufs env w₁ = (rc, w')) : Called env p w chain ⟨rc, w', c⟩
  | ends (t : Table) (behind : List Buf) (w₁ : World) (c : Cursor) (rc : Int) (w' : World)
      (h : Ended env p w ⟨[], chain⟩ t behind w₁ c) (hout : outputBufs env w₁ = (rc, w')) :
      Called env p w chain ⟨rc, w', c⟩
  | rejects (w₁ : World) (c : Cursor) (hp : p = .header) (h : Refused env w w₁)
      (hwhy : Refuses p ⟨[], chain⟩ ∨
        OpensCols p ⟨[], chain⟩ ∧ env.alloc w.out.allocs = false) :
      Called env p w chain ⟨NGX_ERROR, { w₁ with ctx := { w₁.ctx with state := .done } }, c⟩
  | fails (w₁ : World) (c : Cursor) (hinstalled : w₁.ctxSet = true)
      (hsent : w₁.ctx.headerSent = true) (hforwarded : Forwarded env p w w₁)
      (hheader : p = .header → Accepts p ⟨[], chain⟩)
      (hwhy : readBufs p chain = none ∨ Troubled env w.r.conf) :
      Called env p w chain ⟨NGX_ERROR, { w₁ with ctx := { w₁.ctx with state := .done } }, c⟩

/-- Once the header went out, failing only poisons the context. -/
theorem bodyFailed_sent {rc : Int} (hsent : w.ctx.headerSent = true) :
    bodyFailed env rc w c =
      .ok ⟨NGX_ERROR, { w with ctx := { w.ctx with state := .done } }, c⟩ := by
  rw [bodyFailed]
  simp [hsent]

theorem Live.state_ne_done (h : Live env p w) : w.ctx.state ≠ .done := by
  have hagrees := h.agrees
  have hdone := h.notDone
  cases p with
  | header => rw [show w.ctx.state = _ from hagrees]; decide
  | done t => cases hdone
  | cols | rows | fields | value => rw [hagrees.1]; decide

theorem Live.state_header (h : Live env p w) : w.ctx.state = .expectHeader ↔ p = .header := by
  have hagrees := h.agrees
  cases p with
  | header => exact ⟨fun _ => rfl, fun _ => hagrees⟩
  | done t => simp [show w.ctx.state = _ from hagrees]
  | cols | rows | fields | value => simp [hagrees.1]

theorem bodyFilter_called (h : Live env p w) (hchain : chain ≠ [])
    (honly : w.r.headerOnly = false) :
    Yields (EndlessIn w.r.conf.bufBytes) (bodyFilter env w chain) (Called env p w chain) := by
  unfold bodyFilter
  rw [if_neg (by simp [hchain, honly]), if_neg (by simp [h.installed]),
    if_neg (Live.state_ne_done h)]
  refine (processLoop_result ⟨[], chain⟩ h).bind fun ret hret => ?_
  cases hret with
  | pauses q w₁ c hm hrest => exact .pauses q w₁ c _ _ hm hrest rfl
  | ends t behind w₁ c he => exact .ends t behind w₁ c _ _ he rfl
  | rejects w₁ c hp hr hwhy =>
    dsimp only
    rw [failed_error, if_pos rfl, bodyFailed_sent hr.headerSent]
    exact .rejects w₁ c hp hr hwhy
  | fails rc w₁ c hrc hinstalled hsent hforwarded hheader hwhy =>
    dsimp only
    rw [hrc, if_pos rfl, bodyFailed_sent hsent]
    exact .fails w₁ c hinstalled hsent hforwarded hheader hwhy

end RdsJson.Calls
