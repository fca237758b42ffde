import RdsJson.HeaderBuf
import RdsJson.Runs
import RdsJson.Lib.Refinement

/-! # The filter as a translator

What the body filter is for, as a machine: it reads result sets off the chains it
is given and answers with text, in whole bufs until the stream ends. The body
filter refines it where the filters around it do not fail. -/
namespace RdsJson.Translator
open RdsJson.Lib.LittleEndian RdsJson.Lib.Outcome RdsJson.Lib.Refinement RdsJson.Nginx RdsJson.Rds
open RdsJson.Conf RdsJson.Context RdsJson.OutputMem RdsJson.Processor RdsJson.FilterModule
open RdsJson.ResultSet RdsJson.Reader RdsJson.Render RdsJson.WriteLayer RdsJson.Generators
open RdsJson.Simulation RdsJson.Calls RdsJson.HeaderBuf RdsJson.Runs

/-! ## The machine -/

/-- What the next filters see: a header, a chain of the upstream, or text. -/
inductive Output where
  | header (status : Nat)
  | upstream (chain : List Buf)
  | text (bytes : Bytes)

/-- Whether the call fails, and what it passes on. -/
structure Answer where
  failed : Bool
  output : List Output

/-- Within the stream; past its end, or past an error behind `p`, where input is
discarded; or out of the way, where it is passed on. -/
inductive Mode where
  | reading (p : Progress)
  | past (p : Progress)
  | out

/-- What was read before anything went wrong. -/
def Mode.progress : Mode → Progress
  | .reading p => p
  | .past p => p
  | .out => .header

/-- What the translation of a request depends on. -/
structure Setting where
  conf : LocConf
  complexValue : Bytes → Bytes
  main : Bool
  status : Nat

variable (s : Setting)

/-- The text that goes with the beginning of a stream. -/
def Setting.text (p : Progress) : Bytes := jsonSoFar s.conf s.complexValue p

/-- The part of it that is passed on: as much as fills bufs, or all of it. -/
def Setting.due (p : Progress) : Bytes :=
  if p.isDone then s.text p
  else (s.text p).take ((s.text p).length / s.conf.bufBytes * s.conf.bufBytes)

/-- The header goes first. -/
def Setting.opens (p q : Progress) : List Output :=
  if p = .header ∧ q ≠ .header then [.header s.status] else []

def Setting.news (p q : Progress) : List Output :=
  if (s.due q).length ≤ (s.due p).length then [] else [.text ((s.due q).drop (s.due p).length)]

/-- The chain brings an RDS header. -/
def bringsHeader (chain : List Buf) : Bool :=
  ((headerBuf chain).bind fun b => readStep .header b.rest).isSome

/-- A chain that the stream cannot go on with. -/
def Setting.refuse (p : Progress) (chain : List Buf) : Answer × Mode :=
  if p ≠ .header then (⟨true, []⟩, .past p)
  else if bringsHeader chain then (⟨true, [.header s.status]⟩, .past p)
  else (⟨true, [.header NGX_HTTP_INTERNAL_SERVER_ERROR, .upstream [specialBuf s.main]]⟩, .out)

def Setting.read (p : Progress) (chain : List Buf) : Answer × Mode :=
  match readBufs p chain with
  | none => s.refuse p chain
  | some (q, _) =>
    (⟨false, s.opens p q ++ s.news p q⟩, if q.isDone then .past q else .reading q)

def Setting.answer (mode : Mode) (chain : List Buf) : Answer × Mode :=
  if chain = [] then (⟨false, [.upstream []]⟩, mode)
  else
    match mode with
    | .reading p => s.read p chain
    | .past p => (⟨false, []⟩, .past p)
    | .out => (⟨false, [.upstream chain]⟩, .out)

def translator : Machine Mode (List Buf) Answer := ⟨s.answer⟩

theorem Setting.due_header : s.due .header = [] := by simp [due, text, jsonSoFar]

/-! ## The body filter, seen from below -/

def output : Event → Output
  | .header status => .header status
  | .body chain => .upstream chain
  | .json bufs => .text (bufs.flatMap OutBuf.unread)

def outputs (w : World) : List Output := w.trace.map output

/-- A call fails as the answer says, and passes on what it says. -/
structure Shows (w : World) (ret : Return) (a : Answer) : Prop where
  failed : failed ret.rc = a.failed
  output : outputs ret.w = outputs w ++ a.output

def filterProgram (env : Env) : Program World (List Buf) Return Fault := ⟨bodyFilter env, Return.w⟩

theorem runCalls_eq (env : Env) (w : World) (calls : List (List Buf)) :
    runCalls env w calls = (filterProgram env).run w calls := by
  induction calls generalizing w with
  | nil => rfl
  | cons chain calls ih =>
    simp only [runCalls, ih]
    rfl

/-- The setting of a request. -/
def settingOf (env : Env) (w : World) : Setting := ⟨w.r.conf, env.complexValue, w.r.main, w.r.status⟩

/-! ## Where a request stands -/

variable {s} {env : Env} {p q : Progress} {w w' w₀ : World} {chain : List Buf}

/-- The request is in the mode; between two calls no full buf waits. -/
def InMode (env : Env) (s : Setting) (w : World) : Mode → Prop
  | .reading p => Flowing env p w ∧ w.out.out = [] ∧ (p = .header → w.r.status = s.status)
  | .past p => (w.ctxSet = true ∧ w.ctx.state = .done) ∧ sent w.trace = s.due p
  | .out => (w.ctxSet = false ∧ w.ctx.state = .done) ∧ sent w.trace = []

structure Follows (env : Env) (s : Setting) (w : World) (mode : Mode) : Prop where
  inMode : InMode env s w mode
  conf : w.r.conf = s.conf
  main : w.r.main = s.main
  notHead : w.r.headerOnly = false

/-- Where no full buf waits, less than a buf does. -/
theorem sent_eq_due (h : Flowing env p w) (hout : w.out.out = []) (hconf : w.r.conf = s.conf)
    (hvalue : env.complexValue = s.complexValue) (hroom : 0 < s.conf.bufBytes) :
    sent w.trace = s.due p := by
  have hsent := h.sent
  have hlive := h.room
  rw [hconf, hvalue] at hsent hlive
  have hlen := congrArg List.length hsent
  rw [List.length_append] at hlen
  have hbufs : (sent w.trace).length % s.conf.bufBytes = 0 ∧
      (pending w.out).length < s.conf.bufBytes := by
    by_cases ha : w.out.availOut = 0
    · have hnil : pending w.out = [] := by simp [pending_of_avail_zero ha, hout, memory]
      rw [hnil, List.length_nil, Nat.add_zero] at hlen
      rw [hlen, hnil]
      exact ⟨by simpa [ha] using hlive, hroom⟩
    · have hfilled := (h.ready.current ha).filled
      have hlast : pending w.out = (w.out.bufs w.out.outBuf).mem := by
        simp [pending_of_avail ha, hout, memory]
      rw [hconf, ← hlast] at hfilled
      rw [← hlen, Nat.add_assoc, hfilled, Nat.add_mod_right] at hlive
      exact ⟨hlive, by omega⟩
  have hwhole : (sent w.trace).length = (s.text p).length / s.conf.bufBytes * s.conf.bufBytes := by
    have hdiv : (s.text p).length / s.conf.bufBytes = (sent w.trace).length / s.conf.bufBytes := by
      obtain ⟨k, hk⟩ := Nat.dvd_of_mod_eq_zero hbufs.1
      rw [Setting.text, ← hlen, hk, Nat.mul_add_div hroom, Nat.div_eq_of_lt hbufs.2,
        Nat.mul_div_cancel_left _ hroom, Nat.add_zero]
    rw [hdiv, Nat.div_mul_cancel (Nat.dvd_of_mod_eq_zero hbufs.1)]
  rw [Setting.due, h.notDone, if_neg Bool.false_ne_true, ← hwhole, Setting.text, ← hsent,
    List.take_left]

/-- What is passed on between two calls is the news. -/
theorem news_eq {bytes : Bytes} (h : s.due q = s.due p ++ bytes) :
    s.news p q = if bytes = [] then [] else [.text bytes] := by
  unfold Setting.news
  rw [h, List.length_append, List.drop_left]
  by_cases hnil : bytes = []
  · rw [if_pos hnil, if_pos (by simp [hnil])]
  · have := List.length_pos_iff.mpr hnil
    rw [if_neg hnil, if_neg (by omega)]

theorem outputs_of_trace {events : List Event} (h : w'.trace = w.trace ++ events) :
    outputs w' = outputs w ++ events.map output := by
  rw [outputs, h, List.map_append]
  rfl

/-- The header is on the trace once the stream was begun. -/
theorem Moved.outputs {c c' : Cursor} (h : Moved env p w c q w' c')
    (hstatus : p = .header → w.r.status = s.status) :
    Translator.outputs w' = Translator.outputs w ++ s.opens p q := by
  have hf := h.forwarded
  unfold Setting.opens
  split at hf
  · next hq =>
    rw [hf, if_neg fun hc => hc.2 hq, List.append_nil]
  · next hq =>
    unfold Forwarded at hf
    split at hf
    · next hp =>
      rw [if_pos ⟨hp, hq⟩, outputs_of_trace (hf.2.trans rfl), ← hstatus hp]
      rfl
    · next hp =>
      rw [if_neg fun hc => hp hc.1, List.append_nil, Translator.outputs, hf.2]
      rfl

theorem Moved.same {c c' : Cursor} (h : Moved env p w c q w' c') (ht : Takes env)
    (honly : w.r.headerOnly = false) : SameRequest w w' := by
  have hf := h.forwarded
  split at hf
  · rw [hf]
    exact ⟨rfl, rfl, honly⟩
  · exact Forwarded.same hf ht honly

/-! ## One call -/

/-- What the translation asks of the surroundings. -/
structure Suits (env : Env) (s : Setting) : Prop extends Serves env where
  complexValue : env.complexValue = s.complexValue
  room : 0 < s.conf.bufBytes
  supported : Supported s.conf

theorem Follows.same {mode mode' : Mode} (h : Follows env s w mode) (hsame : SameRequest w w')
    (hmode : InMode env s w' mode') : Follows env s w' mode' :=
  ⟨hmode, hsame.conf.trans h.conf, hsame.main.trans h.main, hsame.headerOnly⟩

/-- What was passed on, in any mode. -/
theorem Follows.sent {mode : Mode} (h : Follows env s w mode) (hs : Suits env s) :
    sent w.trace = s.due mode.progress := by
  cases mode with
  | reading p => exact sent_eq_due h.inMode.1 h.inMode.2.1 h.conf hs.complexValue hs.room
  | past p => exact h.inMode.2
  | out => exact h.inMode.2.trans s.due_header.symm

/-- A call that stays within the stream. -/
theorem Follows.pauses {w₁ : World} {c : Cursor} {rc : Int} (hs : Suits env s)
    (h : Follows env s w (.reading p)) (hm : Moved env p w ⟨[], chain⟩ q w₁ c) (hrest : c.rest = [])
    (hout : outputBufs env w₁ = (rc, w')) :
    Shows w ⟨rc, w', c⟩ (s.read p chain).1 ∧ Follows env s w' (s.read p chain).2 := by
  have hread : readBufs p chain = some (q, []) := by rw [hm.reads, hrest, readBufs_nil]
  have hflow₁ := h.inMode.1.moved hm
  obtain ⟨rfl, hflow⟩ := hflow₁.flush hout (hs.body _)
  obtain ⟨-, hr⟩ := Live.flush hm.live hout
  have hsame : SameRequest w w' := by
    have := Moved.same hm hs.toTakes h.notHead
    exact ⟨hr ▸ this.conf, hr ▸ this.main, hr ▸ this.headerOnly⟩
  have hstatus : q = .header → w'.r.status = s.status := by
    rintro rfl
    obtain rfl := hm.begun rfl
    rw [hr, hm.still]
    exact h.inMode.2.2 rfl
  have hopens := Moved.outputs (s := s) hm h.inMode.2.2
  have hbefore : WriteLayer.sent w₁.trace = s.due p := by
    rw [WriteLayer.sent, Moved.sentBufs hm]
    exact h.sent hs
  obtain ⟨rc, w₂, heq, -, -, -, -, hcase⟩ := outputBufs_ready env w₁ hflow₁.ready hflow₁.seen
  rw [heq] at hout
  cases hout
  have hempty : w'.out.out = [] := by
    rcases hcase with ⟨hnil, -, rfl⟩ | ⟨-, -, ⟨hfail, -⟩ | ⟨-, -, hnil, -⟩⟩
    · exact hnil
    · exact absurd ((hs.body _).symm.trans hfail) Bool.false_ne_true
    · exact hnil
  have hafter := sent_eq_due hflow hempty (hsame.conf.trans h.conf) hs.complexValue hs.room
  have hmode : Follows env s w' (.reading q) := h.same hsame ⟨hflow, hempty, hstatus⟩
  simp only [Setting.read, hread, hflow.notDone]
  refine ⟨⟨rfl, ?_⟩, hmode⟩
  rcases hcase with ⟨-, -, rfl⟩ | ⟨hne, htrace, -⟩
  · have hnews : s.due q = s.due p ++ [] := by rw [← hafter, hbefore, List.append_nil]
    rw [news_eq hnews, if_pos rfl, List.append_nil]
    exact hopens
  · have hbytes := unread_of_fresh w₁.out w₁.out.out hflow₁.fresh
    have hnews : s.due q = s.due p ++ memory w₁.out w₁.out.out := by
      rw [← hafter, ← hbefore, htrace, WriteLayer.sent, sentBufs_append, sentBufs_json,
        List.flatMap_append, hbytes]
      rfl
    have hfull : memory w₁.out w₁.out.out ≠ [] := by
      intro hnil
      have hlen := memory_length hflow₁.ready.owned.full
      rw [hnil, (Moved.same hm hs.toTakes h.notHead).conf, h.conf] at hlen
      have := hs.room
      have := List.length_pos_iff.mpr hne
      simp only [List.length_nil] at hlen
      exact absurd hlen.symm (Nat.mul_ne_zero (by omega) (by omega))
    rw [news_eq hnews, if_neg hfull, ← List.append_assoc, ← hopens, outputs_of_trace htrace,
      ← hbytes]
    rfl

/-- A chain is refused for want of a header, or for what stands behind it. -/
theorem refuse_eq (hread : readBufs p chain = none) : s.read p chain = s.refuse p chain := by
  rw [Setting.read, hread]

theorem bringsHeader_iff {b : Buf} (hb : headerBuf chain = some b) :
    bringsHeader chain = true ↔ HoldsHeader b := by
  rw [bringsHeader, hb, holdsHeader_iff, Option.bind_some, Option.isSome_iff_ne_none]

/-- The header that goes out with a result, good or bad. -/
theorem Forwarded.outputs (h : Forwarded env p w w') (hstatus : p = .header → w.r.status = s.status) :
    outputs w' = outputs w ++ if p = .header then [.header s.status] else [] := by
  unfold Forwarded at h
  split at h
  · next hp =>
    rw [outputs_of_trace (h.2.trans rfl), if_pos hp, ← hstatus hp]
    rfl
  · next hp => rw [if_neg hp, List.append_nil, Translator.outputs, h.2, Translator.outputs]

/-- The call that reads the end of the stream. -/
theorem Follows.ends {w₁ : World} {c : Cursor} {rc : Int} {t : Table} {behind : List Buf}
    (hs : Suits env s) (h : Follows env s w (.reading p))
    (he : Ended env p w ⟨[], chain⟩ t behind w₁ c) (hout : outputBufs env w₁ = (rc, w')) :
    Shows w ⟨rc, w', c⟩ (s.read p chain).1 ∧ Follows env s w' (s.read p chain).2 := by
  have hp := Ended.passes he hout
  have hsame : SameRequest w w' := by
    have := Forwarded.same he.forwarded hs.toTakes h.notHead
    exact ⟨hp.r ▸ this.conf, hp.r ▸ this.main, hp.r ▸ this.headerOnly⟩
  obtain ⟨bytes, hjson, hne, hw⟩ := he.wrote
  obtain ⟨rc, w₂, heq, -, hcase⟩ := outputBufs_ended env w₁ hw hne hw.added.seen
  have hfinish := h.inMode.1.finish he hout
  rw [heq] at hout
  cases hout
  have hmemory : ¬ ∃ k, env.alloc k = false := by
    rintro ⟨k, hk⟩
    exact Bool.false_ne_true (hk.symm.trans (hs.alloc k))
  obtain ⟨hfin, hrc, -⟩ := hfinish.resolve_left fun hc => hmemory hc.2.2
  obtain ⟨htrace, -⟩ := hcase.resolve_left fun hc => hmemory hc.2.2
  have hfresh := (Wrote.chain_spec hw hne (hw.added.fresh h.inMode.1.fresh)).1
  have hdone : WriteLayer.sent w'.trace = s.due (.done t) := by
    rw [hfin.sent, hsame.conf, h.conf, hs.complexValue]
    rfl
  have hbytes : s.due (.done t) = s.due p ++ memory w₁.out (WriteLayer.chain w₁.out) := by
    have hbefore : WriteLayer.sent w₁.trace = s.due p := by
      rw [WriteLayer.sent, Forwarded.sentBufs he.forwarded]
      exact h.sent hs
    rw [← hdone, ← hbefore, htrace, WriteLayer.sent, sentBufs_append, sentBufs_json,
      List.flatMap_append, unread_of_fresh _ _ hfresh]
    rfl
  have htext : memory w₁.out (WriteLayer.chain w₁.out) ≠ [] := by
    obtain ⟨⟨ids, hids⟩, hmem⟩ := hw.last hne
    rw [hids, memory_append]
    simp [memory, hmem]
  have hheader := Forwarded.outputs (s := s) he.forwarded h.inMode.2.2
  rw [Setting.read, he.reads]
  refine ⟨⟨hrc.trans (hs.body _), ?_⟩, h.same hsame
    ⟨⟨hp.ctxSet.trans he.installed, hp.ctx ▸ he.state⟩, hdone⟩⟩
  show outputs w' = outputs w ++ (s.opens p (.done t) ++ s.news p (.done t))
  rw [news_eq hbytes, if_neg htext, Setting.opens, outputs_of_trace htrace, hheader,
    List.append_assoc, List.map_singleton, output, unread_of_fresh _ _ hfresh]
  simp

/-- The call that is refused for want of a header. -/
theorem Follows.rejects {w₁ : World} {c : Cursor} (hs : Suits env s)
    (h : Follows env s w (.reading .header)) (hr : Refused env w w₁)
    (hwhy : Refuses .header ⟨[], chain⟩) :
    Shows w ⟨NGX_ERROR, { w₁ with ctx := { w₁.ctx with state := .done } }, c⟩
        (s.read .header chain).1 ∧
      Follows env s { w₁ with ctx := { w₁.ctx with state := .done } } (s.read .header chain).2 := by
  obtain ⟨b, hb, hholds⟩ := Refuses.headerBuf hwhy
  have hbrings : bringsHeader chain = false := by
    rw [← Bool.not_eq_true, bringsHeader_iff hb]
    exact hholds
  rw [refuse_eq (hwhy.readBufs rfl rfl), Setting.refuse, if_neg (not_not_intro rfl), hbrings,
    if_neg Bool.false_ne_true]
  obtain ⟨rest, htrace, hrest⟩ := hr.trace
  obtain rfl := hrest.resolve_left fun hc => by
    obtain ⟨k, hk⟩ := hc.2
    exact Bool.false_ne_true (hk.symm.trans (hs.alloc k))
  refine ⟨⟨rfl, ?_⟩, ⟨⟨⟨hr.uninstalled, rfl⟩, ?_⟩, ?_, ?_, ?_⟩⟩
  · show outputs w₁ = _
    rw [outputs_of_trace htrace, ← h.main]
    rfl
  · show WriteLayer.sent w₁.trace = []
    rw [WriteLayer.sent, Refused.sentBufs hr, ← s.due_header]
    exact h.sent hs
  · rw [hr.r]
    exact h.conf
  · rw [hr.r]
    exact h.main
  · rw [hr.r]
    simp [nextHeaderFilter, h.notHead, hs.headerOnly]

/-- The call that is refused behind its header. -/
theorem Follows.fails {w₁ : World} {c : Cursor} (hs : Suits env s)
    (h : Follows env s w (.reading p)) (hinstalled : w₁.ctxSet = true)
    (hf : Forwarded env p w w₁) (hheader : p = .header → Accepts p ⟨[], chain⟩)
    (hread : readBufs p chain = none) :
    Shows w ⟨NGX_ERROR, { w₁ with ctx := { w₁.ctx with state := .done } }, c⟩ (s.read p chain).1 ∧
      Follows env s { w₁ with ctx := { w₁.ctx with state := .done } } (s.read p chain).2 := by
  have hsame := Forwarded.same hf hs.toTakes h.notHead
  have hout := Forwarded.outputs (s := s) hf h.inMode.2.2
  have hsent : WriteLayer.sent w₁.trace = s.due p := by
    rw [WriteLayer.sent, Forwarded.sentBufs hf]
    exact h.sent hs
  have hfollows : Follows env s { w₁ with ctx := { w₁.ctx with state := .done } } (.past p) :=
    h.same ⟨hsame.conf, hsame.main, hsame.headerOnly⟩ ⟨⟨hinstalled, rfl⟩, hsent⟩
  rw [refuse_eq hread, Setting.refuse]
  by_cases hp : p = .header
  · subst hp
    obtain ⟨b, hb, hholds⟩ := Accepts.headerBuf (hheader rfl)
    rw [if_neg (not_not_intro rfl), if_pos ((bringsHeader_iff hb).mpr hholds)]
    exact ⟨⟨rfl, hout⟩, hfollows⟩
  · rw [if_neg hp] at hout
    rw [if_pos hp]
    exact ⟨⟨rfl, hout⟩, hfollows⟩

/-- A call that is not for the processors. -/
theorem Follows.passesOn {mode : Mode} (hs : Suits env s) (h : Follows env s w mode)
    (hpass : bodyFilter env w chain =
      .ok ⟨(nextBodyFilter env w chain).1, (nextBodyFilter env w chain).2, ⟨[], chain⟩⟩)
    (hmode : InMode env s (nextBodyFilter env w chain).2 mode) :
    ∃ ret, bodyFilter env w chain = .ok ret ∧ Shows w ret ⟨false, [.upstream chain]⟩ ∧
      Follows env s ret.w mode := by
  have hout : outputs (nextBodyFilter env w chain).2 = outputs w ++ [.upstream chain] := by
    rw [outputs_of_trace (show _ = w.trace ++ [.body chain] from rfl)]
    rfl
  exact ⟨_, hpass, ⟨hs.body _, hout⟩, hmode, h.conf, h.main, h.notHead⟩

/-- The body filter answers every call as the machine does. -/
theorem filter_step (hs : Suits env s) :
    Refines (filterProgram env) (translator s) (Follows env s) Shows := by
  intro w mode chain h
  show ∃ ret, bodyFilter env w chain = .ok ret ∧ Shows w ret (s.answer mode chain).1 ∧
    Follows env s ret.w (s.answer mode chain).2
  unfold Setting.answer
  by_cases hchain : chain = []
  · subst hchain
    rw [if_pos rfl]
    refine h.passesOn hs ?_ ?_
    · rw [bodyFilter, if_pos (.inl rfl)]
    · have hsent : WriteLayer.sent (nextBodyFilter env w []).2.trace = WriteLayer.sent w.trace := by
        simp [WriteLayer.sent, nextBodyFilter]
      cases mode with
      | reading p => exact ⟨h.inMode.1.pass, h.inMode.2⟩
      | past p => exact ⟨h.inMode.1, hsent.trans h.inMode.2⟩
      | out => exact ⟨h.inMode.1, hsent.trans h.inMode.2⟩
  have hpass : ¬ (chain = [] ∨ w.r.headerOnly = true) := by simp [hchain, h.notHead]
  rw [if_neg hchain]
  cases mode with
  | past p =>
    obtain ⟨⟨hinstalled, hstate⟩, -⟩ := h.inMode
    refine ⟨⟨NGX_OK, w, ⟨[], Util.discardBufs chain⟩⟩, ?_, ⟨rfl, by simp⟩, h⟩
    rw [bodyFilter, if_neg hpass, if_neg (by simp [hinstalled]), if_pos hstate]
  | out =>
    obtain ⟨⟨hinstalled, hstate⟩, hsent⟩ := h.inMode
    refine h.passesOn hs ?_ ⟨⟨hinstalled, hstate⟩, ?_⟩
    · rw [bodyFilter, if_neg hpass, if_pos (by simp [hinstalled])]
    · rw [← hsent]
      simp [WriteLayer.sent, nextBodyFilter]
  | reading p =>
    have hyields := bodyFilter_called h.inMode.1.toLive hchain h.notHead
    obtain ⟨ret, hcall, hcalled⟩ := hyields.exists_ok fun e he =>
      absurd (h.conf ▸ he.2) hs.room.ne'
    refine ⟨ret, hcall, ?_⟩
    have hcalm : ¬ Troubled env w.r.conf := hs.toServes.not_troubled (h.conf ▸ hs.supported)
    cases hcalled with
    | pauses q w₁ c rc w' hm hrest hout => exact h.pauses hs hm hrest hout
    | ends t behind w₁ c rc w' he hout => exact h.ends hs he hout
    | rejects w₁ c hp hr hwhy =>
      subst hp
      refine h.rejects hs hr (hwhy.resolve_right fun hc => ?_)
      exact Bool.false_ne_true (hc.2.symm.trans (hs.alloc _))
    | fails w₁ c hinstalled hsent hf hheader hwhy =>
      exact h.fails hs hinstalled hf hheader (hwhy.resolve_right hcalm)

/-! ## Runs -/

theorem Served.suits (h : Served env w₀) : Suits env (settingOf env w₀) :=
  ⟨h.toServes, rfl, h.room, h.supported⟩

theorem Served.follows (h : Served env w₀) :
    Follows env (settingOf env w₀) w₀ (.reading .header) :=
  ⟨⟨(started h.postponed).flowing, (started h.postponed).out, fun _ => rfl⟩, rfl, rfl, h.notHead⟩

/-- A run of calls, with the machine's run beside it. -/
theorem Served.translates (h : Served env w₀) (calls : List (List Buf)) :
    ∃ rets w, runCalls env w₀ calls = .ok (rets, w) ∧
      Shown Return.w Shows w₀ rets ((translator (settingOf env w₀)).run (.reading .header) calls).1 w ∧
      Follows env (settingOf env w₀) w
        ((translator (settingOf env w₀)).run (.reading .header) calls).2 := by
  rw [runCalls_eq]
  exact (filter_step (Served.suits h)).run (Served.follows h) calls

/-- Whatever is done with the output, calls fail where the machine says so, and what
is passed on is what it says, in order. -/
theorem filter_refines_translator (h : Served env w₀) (calls : List (List Buf)) :
    ∃ rets w, runCalls env w₀ calls = .ok (rets, w) ∧
      Shown Return.w Shows w₀ rets
        ((translator (settingOf env w₀)).run (.reading .header) calls).1 w := by
  obtain ⟨rets, w, hrun, hshown, -⟩ := Served.translates h calls
  exact ⟨rets, w, hrun, hshown⟩

/-- What is passed on for no header at all, and for the chain behind it. -/
theorem filter_refines_translator_refused : ∃ rets w,
    runCalls calm (postpone calm (plainConf 4096) true)
      [[Buf.memory (lit "a")], [Buf.memory (lit "b")]] = .ok (rets, w) ∧
    rets.map (fun ret => failed ret.rc) = [true, false] ∧
    outputs w = [.header 500, .upstream [specialBuf true], .upstream [Buf.memory (lit "b")]] := by
  obtain ⟨rets, w, hrun, hshown⟩ :=
    filter_refines_translator (served_calm true) [[Buf.memory (lit "a")], [Buf.memory (lit "b")]]
  exact ⟨rets, w, hrun, hshown.map fun _ _ _ hs => hs.failed, hshown.log fun _ _ _ hs => hs.output⟩

end RdsJson.Translator
