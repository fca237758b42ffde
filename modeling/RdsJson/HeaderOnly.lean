import RdsJson.HeaderBuf
import RdsJson.Runs

/-! # Header-only requests

What the filter passes on when forwarding the response header turns
`header_only` on. -/
namespace RdsJson.HeaderOnly
open RdsJson.Lib.LittleEndian RdsJson.Lib.Outcome RdsJson.Nginx RdsJson.Conf RdsJson.Context
open RdsJson.OutputMem RdsJson.Processor RdsJson.FilterModule RdsJson.Format RdsJson.ResultSet
open RdsJson.Reader RdsJson.Render RdsJson.WriteLayer RdsJson.Generators RdsJson.Simulation
open RdsJson.Calls RdsJson.HeaderBuf RdsJson.Runs

variable {env : Env} {w w' w₀ : World} {calls : List (List Buf)} {chain : List Buf}
variable {conf : LocConf}

/-! ## What a call passes on -/

/-- No buf is full if and only if less than a buf waits. -/
theorem Ready.full_iff {B : Nat} {o : OutCtx} (h : Ready B o) :
    memory o o.out = [] ↔ (pending o).length < max B 1 := by
  have hlen := memory_length h.owned.full
  rw [← List.length_eq_zero_iff, hlen]
  have hpending : ∃ k, (k < B ∨ k = 0) ∧ (pending o).length = o.out.length * B + k := by
    by_cases ha : o.availOut = 0
    · exact ⟨0, .inr rfl, by rw [pending_of_avail_zero ha, hlen, Nat.add_zero]⟩
    · refine ⟨(o.bufs o.outBuf).mem.length, .inl ?_, ?_⟩
      · have := (h.current ha).filled
        omega
      · rw [pending_of_avail ha, List.length_append, hlen]
  obtain ⟨k, hk, hpending⟩ := hpending
  rw [hpending]
  constructor
  · intro hzero
    omega
  · intro hlt
    rcases Nat.eq_zero_or_pos o.out.length with hout | hout
    · rw [hout, Nat.zero_mul]
    · have := Nat.le_mul_of_pos_left B hout
      omega

/-- A flush passes the full bufs on. -/
theorem Flowing.sent_of_flush {p : Progress} {rc : Int} (h : Flowing env p w)
    (hflush : outputBufs env w = (rc, w')) :
    sent w'.trace = sent w.trace ++ memory w.out w.out.out := by
  obtain ⟨rc, w₁, heq, -, -, -, -, ⟨hout, -, rfl⟩ | ⟨-, htrace, -⟩⟩ :=
    outputBufs_ready env w h.ready h.seen
  · rw [heq] at hflush
    cases hflush
    simp [hout, memory]
  · rw [heq] at hflush
    cases hflush
    rw [htrace, WriteLayer.sent, sentBufs_append, sentBufs_json, List.flatMap_append,
      unread_of_fresh _ _ h.fresh]
    rfl

/-! ## The call that forwards the header -/

/-- The chain that the header is read from. -/
def headerChain (calls : List (List Buf)) : Option (List Buf) :=
  calls.find? fun chain => (headerBuf chain).isSome

/-- The chain does not end the stream, and what is due for it is less than a
buf. -/
def Withheld (conf : LocConf) (complexValue : Bytes → Bytes) (chain : List Buf) : Prop :=
  ∀ p rest, readBufs .header chain = some (p, rest) →
    p.isDone = false ∧ (jsonSoFar conf complexValue p).length < max conf.bufBytes 1

/-- The same for the chain of a run that brings the RDS header. -/
def KeptBack (conf : LocConf) (complexValue : Bytes → Bytes) (calls : List (List Buf)) : Prop :=
  ∀ chain, headerChain calls = some chain → Withheld conf complexValue chain

/-- Nothing is passed on for a chain, or something is; trouble around the module
may keep it back. -/
structure Passes (env : Env) (conf : LocConf) (chain : List Buf) (out : Bytes) : Prop where
  nothing : Withheld conf env.complexValue chain → out = []
  something : ¬ Troubled env conf → out = [] → Withheld conf env.complexValue chain

theorem Passes.of_unread {out : Bytes} (hread : readBufs .header chain = none) (hout : out = []) :
    Passes env conf chain out :=
  ⟨fun _ => hout, fun _ _ p rest h => by simp [hread] at h⟩

theorem withheld_iff {p : Progress} {rest : List Buf}
    (hread : readBufs .header chain = some (p, rest)) (complexValue : Bytes → Bytes) :
    Withheld conf complexValue chain ↔
      p.isDone = false ∧ (jsonSoFar conf complexValue p).length < max conf.bufBytes 1 := by
  constructor
  · intro h
    exact h p rest hread
  · intro h p' rest' hread'
    obtain ⟨rfl, -⟩ := Prod.mk.inj (Option.some.inj (hread.symm.trans hread'))
    exact h

/-- Before the header was forwarded, or behind it, with `header_only` on. -/
inductive Phase (env : Env) (conf : LocConf) (calls : List (List Buf)) (w : World) : Prop
  | waiting (h : Flowing env .header w) (hout : w.out.out = []) (hconf : w.r.conf = conf)
      (honly : w.r.headerOnly = false) (hnone : headerChain calls = none)
  | past (chain : List Buf) (honly : w.r.headerOnly = true) (hchain : headerChain calls = some chain)
      (hpasses : Passes env conf chain (sent w.trace))

theorem headerChain_snoc_some (h : headerChain calls = some chain) (chain' : List Buf) :
    headerChain (calls ++ [chain']) = some chain := by
  unfold headerChain at h ⊢
  rw [List.find?_append, h]
  rfl

theorem headerChain_snoc_none (h : headerChain calls = none) (chain : List Buf) :
    headerChain (calls ++ [chain]) = if (headerBuf chain).isSome then some chain else none := by
  unfold headerChain at h ⊢
  rw [List.find?_append, h, Option.none_or, List.find?_singleton]

theorem Forwarded.headerOnly {w₁ : World} (hheader : ∀ k, env.headerOnly k = true)
    (h : Forwarded env .header w w₁) : w₁.r.headerOnly = true := by
  rw [Forwarded, if_pos rfl] at h
  rw [h.1]
  simp [nextHeaderFilter, hheader]

theorem Flowing.nothing_sent (h : Flowing env .header w) : sent w.trace = [] :=
  (List.append_eq_nil_iff.mp h.sent).1

/-- The first call with a header in it, and the calls before it. -/
theorem Phase.waits {ret : Return} (hheader : ∀ k, env.headerOnly k = true)
    (h : Flowing env .header w) (hout : w.out.out = []) (hconf : w.r.conf = conf)
    (honly : w.r.headerOnly = false) (hnone : headerChain calls = none)
    (hcalled : Called env .header w chain ret) : Phase env conf (calls ++ [chain]) ret.w := by
  subst hconf
  have hnext {b : Buf} (hb : headerBuf chain = some b) :
      headerChain (calls ++ [chain]) = some chain := by
    rw [headerChain_snoc_none hnone, hb]
    rfl
  have hnothing := Flowing.nothing_sent h
  cases hcalled with
  | pauses q w₁ c rc w' hm hrest hflush =>
    have hread : readBufs .header chain = some (q, []) := by rw [hm.reads, hrest, readBufs_nil]
    have hflow := h.moved hm
    by_cases hq : q = .header
    · subst hq
      obtain rfl := hm.still
      cases (outputBufs_nothing env h.seen hout).symm.trans hflush
      refine .waiting h hout rfl honly ?_
      rw [headerChain_snoc_none hnone, headerBuf_of_waits hread]
      rfl
    · have hf := hm.forwarded_of_ne hq
      obtain ⟨b, hb, -⟩ := Accepts.headerBuf (hm.accepted rfl hq)
      obtain ⟨-, hr⟩ := Live.flush hm.live hflush
      have hsent : sent w'.trace = memory w₁.out w₁.out.out := by
        rw [Flowing.sent_of_flush hflow hflush, WriteLayer.sent, Moved.sentBufs hm]
        exact (congrArg (· ++ _) hnothing).trans (List.nil_append _)
      have hpending : pending w₁.out = jsonSoFar w.r.conf env.complexValue q := by
        have := hflow.sent
        rw [WriteLayer.sent, Moved.sentBufs hm, hm.request.1] at this
        exact (congrArg (· ++ _) hnothing).symm.trans this
      have hiff := Ready.full_iff hm.live.ready
      rw [hm.request.1, hpending, ← hsent] at hiff
      refine .past chain (hr ▸ Forwarded.headerOnly hheader hf) (hnext hb) ⟨?_, ?_⟩
      · rw [withheld_iff hread]
        exact fun hw => hiff.mpr hw.2
      · rw [withheld_iff hread]
        exact fun _ hout => ⟨hm.live.notDone, hiff.mp hout⟩
  | ends t behind w₁ c rc w' he hflush =>
    obtain ⟨b, hb, -⟩ := headerBuf_of_reads he.reads (by simp)
    have hp := Ended.passes he hflush
    refine .past chain ?_ (hnext hb) ⟨?_, ?_⟩
    · rw [hp.r]
      exact Forwarded.headerOnly hheader he.forwarded
    · rw [withheld_iff he.reads]
      rintro ⟨hdone, -⟩
      cases hdone
    · intro hcalm hout
      rcases h.finish he hflush with ⟨-, -, hal⟩ | ⟨hfin, -, -⟩
      · exact absurd (.inl hal) hcalm
      · obtain ⟨bufs, last, hbufs, hlast, -⟩ := hfin.marks
        rw [WriteLayer.sent, hbufs] at hout
        simp [hlast] at hout
  | rejects w₁ c hp hr hwhy =>
    have hsent : sent w₁.trace = [] := by
      rw [WriteLayer.sent, Refused.sentBufs hr]
      exact hnothing
    have honly₁ : w₁.r.headerOnly = true := by
      rw [hr.r]
      simp [nextHeaderFilter, hheader]
    rcases hwhy with hwhy | ⟨hwhy, hal⟩
    · obtain ⟨b, hb, -⟩ := Refuses.headerBuf hwhy
      exact .past chain honly₁ (hnext hb) (.of_unread (hwhy.readBufs rfl rfl) hsent)
    · obtain ⟨b, hb, -⟩ := Accepts.headerBuf hwhy.accepts
      exact .past chain honly₁ (hnext hb)
        ⟨fun _ => hsent, fun hcalm _ => absurd (.inl ⟨_, hal⟩) hcalm⟩
  | fails w₁ c hinstalled hsent hforwarded hheader' hwhy =>
    obtain ⟨b, hb, -⟩ := Accepts.headerBuf (hheader' rfl)
    have hsent : sent w₁.trace = [] := by
      rw [WriteLayer.sent, Forwarded.sentBufs hforwarded]
      exact hnothing
    refine .past chain (Forwarded.headerOnly hheader hforwarded) (hnext hb) ⟨fun _ => hsent, ?_⟩
    intro hcalm _
    have hread := hwhy.resolve_right hcalm
    have hpasses : Passes env w.r.conf chain (sent w₁.trace) := .of_unread hread hsent
    exact hpasses.something hcalm hsent

/-- What a call makes of a phase. -/
theorem Phase.call {ret : Return} (hheader : ∀ k, env.headerOnly k = true)
    (h : Phase env conf calls w) (hcall : bodyFilter env w chain = .ok ret) :
    Phase env conf (calls ++ [chain]) ret.w := by
  cases h with
  | waiting h hout hconf honly hnone =>
    by_cases hchain : chain = []
    · subst hchain
      unfold bodyFilter at hcall
      rw [if_pos (.inl rfl)] at hcall
      cases hcall
      refine .waiting h.pass hout hconf honly ?_
      rw [headerChain_snoc_none hnone]
      rfl
    · exact Phase.waits hheader h hout hconf honly hnone
        ((bodyFilter_called h.toLive hchain honly).of_eq_ok hcall)
  | past chain' honly hchain hpasses =>
    unfold bodyFilter at hcall
    rw [if_pos (.inr honly)] at hcall
    cases hcall
    refine .past chain' honly (headerChain_snoc_some hchain chain) ?_
    have hsent : sent (nextBodyFilter env w chain).2.trace = sent w.trace := by
      simp [WriteLayer.sent, nextBodyFilter]
    show Passes env conf chain' (sent (nextBodyFilter env w chain).2.trace)
    rwa [hsent]

theorem phase_of_run {rets : List Return} (hheader : ∀ k, env.headerOnly k = true)
    (h : Postponed env w₀) (honly : w₀.r.headerOnly = false)
    (hrun : runCalls env w₀ calls = .ok (rets, w)) : Phase env w₀.r.conf calls w :=
  runCalls_induction (I := fun calls _ w => Phase env w₀.r.conf calls w)
    (.waiting (started h).flowing (started h).out rfl honly rfl)
    (fun _ _ _ _ _ _ ih hcall => ih.call hheader hcall) hrun

/-- A header-only request is answered without a byte of the module's text if and
only if the chain that brings the RDS header does not end the stream, and what is
due for it is less than a buf. -/
theorem no_text_iff {rets : List Return} (hheader : ∀ k, env.headerOnly k = true)
    (h : Postponed env w₀) (honly : w₀.r.headerOnly = false)
    (hrun : runCalls env w₀ calls = .ok (rets, w)) :
    (KeptBack w₀.r.conf env.complexValue calls → sent w.trace = []) ∧
      (¬ Troubled env w₀.r.conf →
        (sent w.trace = [] ↔ KeptBack w₀.r.conf env.complexValue calls)) := by
  cases phase_of_run hheader h honly hrun with
  | waiting hflow hout hconf honly hnone =>
    have hkept : KeptBack w₀.r.conf env.complexValue calls :=
      fun chain hchain => absurd (hnone.symm.trans hchain) nofun
    have hsent := Flowing.nothing_sent hflow
    exact ⟨fun _ => hsent, fun _ => ⟨fun _ => hkept, fun _ => hsent⟩⟩
  | past chain honly hchain hpasses =>
    have hkept : KeptBack w₀.r.conf env.complexValue calls ↔
        Withheld w₀.r.conf env.complexValue chain := by
      refine ⟨fun hk => hk chain hchain, fun hw chain' hchain' => ?_⟩
      obtain rfl := Option.some.inj (hchain.symm.trans hchain')
      exact hw
    rw [hkept]
    exact ⟨hpasses.nothing, fun hcalm => ⟨hpasses.something hcalm, hpasses.nothing⟩⟩

/-- Surroundings as `calm`, but for a HEAD request. -/
def head : Env := { calm with headerOnly := fun _ => true }

theorem not_troubled_head : ¬ Troubled head (plainConf 4096) := by
  rintro (⟨k, hk⟩ | ⟨k, hk⟩ | hs)
  · cases hk
  · cases hk
  · exact hs (.inl rfl)

/-- The header comes in a call of its own. -/
theorem no_text_iff_alone : ∃ x, runCalls head (postpone head (plainConf 4096) true)
      [[Buf.memory (encodeHeader ⟨0, 0, [], 0, 0, 1⟩)],
        [Buf.memory (encodeCol ⟨0x8000, 0, lit "a"⟩ ++ [0])]] = .ok x ∧ sent x.2.trace = [] := by
  obtain ⟨⟨rets, w⟩, hrun⟩ : ∃ x, runCalls head (postpone head (plainConf 4096) true)
      [[Buf.memory (encodeHeader ⟨0, 0, [], 0, 0, 1⟩)],
        [Buf.memory (encodeCol ⟨0x8000, 0, lit "a"⟩ ++ [0])]] = .ok x := ⟨_, rfl⟩
  have hiff := (no_text_iff (fun _ => rfl) (postponed_postpone rfl rfl true) rfl hrun).2
    not_troubled_head
  refine ⟨_, hrun, hiff.mpr fun chain hchain => ?_⟩
  obtain rfl : chain = [Buf.memory (encodeHeader ⟨0, 0, [], 0, 0, 1⟩)] :=
    (Option.some.inj hchain).symm
  exact (withheld_iff (p := .cols ⟨0, 0, [], 0, 0, 1⟩ []) rfl _).mpr ⟨rfl, by decide⟩

/-- A whole stream in the call that brings its header: its text goes out. -/
theorem passes_text_on : ∃ x, Postponed head (postpone head (plainConf 4096) true) ∧
    runCalls head (postpone head (plainConf 4096) true)
      [[Buf.memory (oneColumn [some (lit "b")]).encode]] = .ok x ∧
    (∀ ret ∈ x.1, ret.rc = NGX_OK) ∧ x.2.r.headerOnly = true ∧ sent x.2.trace ≠ [] :=
  ⟨_, postponed_postpone rfl rfl true, rfl, by simp, rfl, by decide⟩

end RdsJson.HeaderOnly
