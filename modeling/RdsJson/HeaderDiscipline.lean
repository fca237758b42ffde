import RdsJson.HeaderBuf
import RdsJson.Runs

/-! # The postponed response header

When a header goes down the chain, which one it is, and what must not go before
it. -/
namespace RdsJson.HeaderDiscipline
open RdsJson.Lib.LittleEndian RdsJson.Lib.TailLoop RdsJson.Lib.Outcome RdsJson.Nginx RdsJson.Rds
open RdsJson.Context RdsJson.OutputMem RdsJson.Processor RdsJson.FilterModule RdsJson.Format
open RdsJson.ResultSet RdsJson.Reader RdsJson.WriteLayer RdsJson.Simulation RdsJson.Calls
open RdsJson.HeaderBuf RdsJson.Runs

variable {env : Env} {w w' w₀ : World} {calls : List (List Buf)} {chain : List Buf}

/-! ## What went down the chain -/

/-- The statuses of the headers that were forwarded. -/
def headers (trace : List Event) : List Nat :=
  trace.filterMap fun
    | .header status => some status
    | .body _ => none
    | .json _ => none

/-- Neither a header nor data. -/
structure Silent (trace : List Event) : Prop where
  noHeader : headers trace = []
  bytes : ∀ e ∈ trace, bodyBytes e = []

/-- One header, and no data before it. -/
def Spoken (status : Nat) (trace : List Event) : Prop :=
  ∃ before after, trace = before ++ .header status :: after ∧ Silent before ∧ headers after = []

@[simp] theorem headers_append (t t' : List Event) :
    headers (t ++ t') = headers t ++ headers t' := by
  simp [headers]

@[simp] theorem headers_header (status : Nat) (t : List Event) :
    headers (.header status :: t) = status :: headers t := rfl

@[simp] theorem headers_body (chain : List Buf) (t : List Event) :
    headers (.body chain :: t) = headers t := rfl

@[simp] theorem headers_json (bufs : List OutBuf) (t : List Event) :
    headers (.json bufs :: t) = headers t := rfl

@[simp] theorem headers_nil : headers [] = [] := rfl

theorem Silent.nil : Silent [] := ⟨rfl, by simp⟩

theorem Silent.empty {t : List Event} (h : Silent t) : Silent (t ++ [.body []]) := by
  refine ⟨by simp [h.noHeader], fun e he => ?_⟩
  rcases List.mem_append.mp he with he | he
  · exact h.bytes e he
  · rw [List.mem_singleton.mp he]
    rfl

theorem Silent.spoken {t : List Event} (h : Silent t) (status : Nat) {after : List Event}
    (hafter : headers after = []) :
    Spoken status (t ++ .header status :: after) :=
  ⟨t, after, rfl, h, hafter⟩

theorem Spoken.append {status : Nat} {t t' : List Event} (h : Spoken status t)
    (ht' : headers t' = []) : Spoken status (t ++ t') := by
  obtain ⟨before, after, rfl, hbefore, hafter⟩ := h
  exact ⟨before, after ++ t', by simp, hbefore, by simp [hafter, ht']⟩

theorem Spoken.headers_eq {status : Nat} {t : List Event} (h : Spoken status t) :
    headers t = [status] := by
  obtain ⟨before, after, rfl, hbefore, hafter⟩ := h
  simp [hbefore.noHeader, hafter]

/-- What carries data stands behind the header. -/
theorem Spoken.first {status : Nat} {t before after : List Event} {e : Event}
    (h : Spoken status t) (ht : t = before ++ e :: after) (he : bodyBytes e ≠ []) :
    Event.header status ∈ before := by
  obtain ⟨before', after', rfl, hsilent, -⟩ := h
  rcases List.append_eq_append_iff.mp ht with ⟨between, rfl, hsplit⟩ | ⟨between, rfl, hsplit⟩
  · cases between with
    | nil =>
      obtain ⟨rfl, -⟩ := List.cons.inj hsplit
      exact absurd rfl he
    | cons e' between =>
      obtain ⟨rfl, -⟩ := List.cons.inj hsplit
      simp
  · cases between with
    | nil =>
      obtain ⟨rfl, -⟩ := List.cons.inj hsplit
      exact absurd rfl he
    | cons e' between =>
      obtain ⟨rfl, -⟩ := List.cons.inj hsplit
      exact absurd (hsilent.bytes e (by simp)) he

/-! ## The phases of a response -/

/-- The first buf of a run that the RDS header is read from. -/
def firstHeaderBuf (calls : List (List Buf)) : Option Buf := (calls.filterMap headerBuf).head?

/-- Before the header, behind it, or behind an error header. `status` is what the
response was announced with. -/
inductive Phase (env : Env) (status : Nat) (calls : List (List Buf)) (w : World) : Prop
  | waiting (h : Live env .header w) (hout : w.out.out = []) (hsilent : Silent w.trace)
      (hstatus : w.r.status = status) (hfirst : firstHeaderBuf calls = none)
  | sent (b : Buf) (hstate : (∃ p, p ≠ .header ∧ Live env p w) ∨ w.ctx.state = .done)
      (hinstalled : w.ctxSet = true) (hsent : w.ctx.headerSent = true)
      (hspoken : Spoken status w.trace) (hfirst : firstHeaderBuf calls = some b)
      (hholds : HoldsHeader b)
  | refused (b : Buf) (hstate : w.ctx.state = .done) (huninstalled : w.ctxSet = false)
      (hsent : w.ctx.headerSent = true) (hspoken : Spoken 500 w.trace)
      (hfirst : firstHeaderBuf calls = some b) (hholds : ¬ HoldsHeader b)

theorem firstHeaderBuf_snoc_some {b : Buf} (h : firstHeaderBuf calls = some b)
    (chain : List Buf) : firstHeaderBuf (calls ++ [chain]) = some b := by
  unfold firstHeaderBuf at h ⊢
  rw [List.filterMap_append, List.head?_append, h]
  rfl

theorem firstHeaderBuf_snoc_none (h : firstHeaderBuf calls = none) (chain : List Buf) :
    firstHeaderBuf (calls ++ [chain]) = headerBuf chain := by
  unfold firstHeaderBuf at h ⊢
  rw [List.filterMap_append, List.head?_append, h]
  cases hb : headerBuf chain <;> simp [hb]

/-- The output of a call is no header. -/
theorem Spoken.flush {status : Nat} {rc : Int} (h : Spoken status w.trace)
    (hout : outputBufs env w = (rc, w')) : Spoken status w'.trace := by
  have htrace := (outputBufs_passes env w).2
  rw [hout] at htrace
  rcases htrace with htrace | ⟨bufs, htrace⟩ <;> rw [htrace]
  · exact h
  · exact h.append rfl

theorem Forwarded.spoken (h : Forwarded env .header w w') (hsilent : Silent w.trace) :
    Spoken w.r.status w'.trace := by
  rw [Forwarded, if_pos rfl] at h
  rw [h.2]
  exact hsilent.spoken _ rfl

theorem Forwarded.trace {p : Progress} (h : Forwarded env p w w') (hp : p ≠ .header) :
    w'.trace = w.trace := by
  rw [Forwarded, if_neg hp] at h
  exact h.2

/-- The call in which the header is looked for. -/
theorem Phase.waits {status : Nat} {ret : Return} (halloc : ∀ k, env.alloc k = true)
    (h : Live env .header w) (hout : w.out.out = []) (hsilent : Silent w.trace)
    (hfirst : firstHeaderBuf calls = none) (hcalled : Called env .header w chain ret)
    (hstatus : w.r.status = status) : Phase env status (calls ++ [chain]) ret.w := by
  have hnext (b : Option Buf) (hb : headerBuf chain = b) :
      firstHeaderBuf (calls ++ [chain]) = b := (firstHeaderBuf_snoc_none hfirst chain).trans hb
  subst hstatus
  cases hcalled with
  | pauses q w₁ c rc w' hm hrest hflush =>
    by_cases hq : q = .header
    · subst hq
      obtain rfl := hm.still
      cases (outputBufs_nothing env h.seen hout).symm.trans hflush
      refine .waiting h hout hsilent rfl (hnext none (headerBuf_of_waits ?_))
      rw [hm.reads, hrest, readBufs_nil]
    · have hf := hm.forwarded_of_ne hq
      obtain ⟨b, hb, hholds⟩ := Accepts.headerBuf (hm.accepted rfl hq)
      have hlive := (Live.flush hm.live hflush).1
      exact .sent b (.inl ⟨q, hq, hlive⟩) hlive.installed (hlive.headerSent.mpr hq)
        ((Forwarded.spoken hf hsilent).flush hflush) (hnext _ hb) hholds
  | ends t behind w₁ c rc w' he hflush =>
    obtain ⟨b, hb, hholds⟩ := headerBuf_of_reads he.reads (by simp)
    have hp := Ended.passes he hflush
    exact .sent b (.inr (hp.ctx ▸ he.state)) (hp.ctxSet.trans he.installed)
      (hp.ctx ▸ he.headerSent) ((Forwarded.spoken he.forwarded hsilent).flush hflush)
      (hnext _ hb) hholds
  | rejects w₁ c hp hr hwhy =>
    rcases hwhy with hwhy | ⟨-, hk⟩
    · obtain ⟨b, hb, hholds⟩ := Refuses.headerBuf hwhy
      refine .refused b rfl hr.uninstalled hr.headerSent ?_ (hnext _ hb) hholds
      obtain ⟨rest, htrace, hrest⟩ := hr.trace
      show Spoken 500 w₁.trace
      rw [htrace]
      refine hsilent.spoken 500 ?_
      rcases hrest with ⟨rfl, -⟩ | rfl <;> rfl
    · exact absurd (hk.symm.trans (halloc _)) Bool.false_ne_true
  | fails w₁ c hinstalled hsent hforwarded hheader hwhy =>
    obtain ⟨b, hb, hholds⟩ := Accepts.headerBuf (hheader rfl)
    exact .sent b (.inr rfl) hinstalled hsent (Forwarded.spoken hforwarded hsilent) (hnext _ hb)
      hholds

/-- A call behind the header. -/
theorem Phase.goes_on {status : Nat} {p : Progress} {b : Buf} {ret : Return}
    (hp : p ≠ .header) (hspoken : Spoken status w.trace)
    (hfirst : firstHeaderBuf (calls ++ [chain]) = some b) (hholds : HoldsHeader b)
    (hcalled : Called env p w chain ret) : Phase env status (calls ++ [chain]) ret.w := by
  cases hcalled with
  | pauses q w₁ c rc w' hm hrest hflush =>
    have hq : q ≠ .header := fun hq => hp (hm.begun hq)
    have hlive := (Live.flush hm.live hflush).1
    have hspoken₁ : Spoken status w₁.trace := by
      rwa [Forwarded.trace (hm.forwarded_of_ne hq) hp]
    exact .sent b (.inl ⟨q, hq, hlive⟩) hlive.installed (hlive.headerSent.mpr hq)
      (hspoken₁.flush hflush) hfirst hholds
  | ends t behind w₁ c rc w' he hflush =>
    have hpass := Ended.passes he hflush
    have hspoken₁ : Spoken status w₁.trace := by rwa [Forwarded.trace he.forwarded hp]
    exact .sent b (.inr (hpass.ctx ▸ he.state)) (hpass.ctxSet.trans he.installed)
      (hpass.ctx ▸ he.headerSent) (hspoken₁.flush hflush) hfirst hholds
  | rejects w₁ c hp' hr hwhy => exact absurd hp' hp
  | fails w₁ c hinstalled hsent hforwarded hheader hwhy =>
    refine .sent b (.inr rfl) hinstalled hsent ?_ hfirst hholds
    show Spoken status w₁.trace
    rwa [Forwarded.trace hforwarded hp]

/-- A chain of nothing is passed on as it is. -/
theorem Phase.pass {status : Nat} (h : Phase env status calls w) :
    Phase env status (calls ++ [[]]) (nextBodyFilter env w []).2 := by
  cases h with
  | waiting h hout hsilent hstatus hfirst =>
    exact .waiting (Live.pass h []) hout hsilent.empty hstatus
      (firstHeaderBuf_snoc_none hfirst [])
  | sent b hstate hinstalled hsent hspoken hfirst hholds =>
    refine .sent b ?_ hinstalled hsent (hspoken.append rfl) (firstHeaderBuf_snoc_some hfirst [])
      hholds
    exact hstate.imp_left fun ⟨p, hp, h⟩ => ⟨p, hp, Live.pass h []⟩
  | refused b hstate huninstalled hsent hspoken hfirst hholds =>
    exact .refused b hstate huninstalled hsent (hspoken.append rfl)
      (firstHeaderBuf_snoc_some hfirst []) hholds

/-- What a call makes of a phase. -/
theorem Phase.call {status : Nat} {ret : Return} (halloc : ∀ k, env.alloc k = true)
    (h : Phase env status calls w) (honly : w.r.headerOnly = false)
    (hcall : bodyFilter env w chain = .ok ret) : Phase env status (calls ++ [chain]) ret.w := by
  by_cases hchain : chain = []
  · subst hchain
    unfold bodyFilter at hcall
    rw [if_pos (.inl rfl)] at hcall
    cases hcall
    exact h.pass
  have hpass : ¬ (chain = [] ∨ w.r.headerOnly = true) := by simp [hchain, honly]
  cases h with
  | waiting h hout hsilent hstatus hfirst =>
    exact Phase.waits halloc h hout hsilent hfirst
      ((bodyFilter_called h hchain honly).of_eq_ok hcall) hstatus
  | sent b hstate hinstalled hsent hspoken hfirst hholds =>
    have hfirst := firstHeaderBuf_snoc_some hfirst chain
    rcases hstate with ⟨p, hp, h⟩ | hstate
    · exact Phase.goes_on hp hspoken hfirst hholds
        ((bodyFilter_called h hchain honly).of_eq_ok hcall)
    · unfold bodyFilter at hcall
      rw [if_neg hpass, if_neg (by simp [hinstalled]), if_pos hstate] at hcall
      cases hcall
      exact .sent b (.inr hstate) hinstalled hsent hspoken hfirst hholds
  | refused b hstate huninstalled hsent hspoken hfirst hholds =>
    unfold bodyFilter at hcall
    rw [if_neg hpass, if_pos (by simp [huninstalled])] at hcall
    cases hcall
    exact .refused b hstate huninstalled hsent (hspoken.append rfl)
      (firstHeaderBuf_snoc_some hfirst chain) hholds

theorem phase_of_run {rets : List Return} (halloc : ∀ k, env.alloc k = true)
    (h : Postponed env w₀) (hrun : runCalls env w₀ calls = .ok (rets, w))
    (hentered : Entered env w₀ calls) : Phase env w₀.r.status calls w := by
  have hs := started h
  refine runCalls_induction (I := fun calls _ w => Entered env w₀ calls →
    Phase env w₀.r.status calls w) (fun _ => ?_) ?_ hrun hentered
  · exact .waiting hs.live hs.out (hs.trace ▸ Silent.nil) rfl rfl
  · intro calls rets w chain ret hrun ih hcall hentered
    obtain ⟨hentered', honly⟩ := hentered.snoc hrun
    exact (ih hentered').call halloc honly hcall

/-! ## The discipline -/

/-- What holds after any number of calls. -/
structure Disciplined (calls : List (List Buf)) (w : World) : Prop where
  once : (headers w.trace).length ≤ 1
  first : ∀ before e after, w.trace = before ++ e :: after → bodyBytes e ≠ [] →
    headers before ≠ []
  sent : w.ctx.state ≠ .expectHeader → w.ctx.headerSent = true
  error : 500 ∈ headers w.trace ↔ ∃ b, firstHeaderBuf calls = some b ∧ ¬ HoldsHeader b

theorem Spoken.disciplined {status : Nat} (h : Spoken status w.trace)
    (hsent : w.ctx.headerSent = true)
    (herror : status = 500 ↔ ∃ b, firstHeaderBuf calls = some b ∧ ¬ HoldsHeader b) :
    Disciplined calls w := by
  refine ⟨by rw [h.headers_eq, List.length_singleton], ?_, fun _ => hsent, ?_⟩
  · intro before e after hsplit he hnone
    have hmem := h.first hsplit he
    have : status ∈ headers before := List.mem_filterMap.mpr ⟨_, hmem, rfl⟩
    simp [hnone] at this
  · rw [h.headers_eq, ← herror, List.mem_singleton, eq_comm]

theorem Phase.disciplined {status : Nat} (h : Phase env status calls w) (hstatus : status < 500) :
    Disciplined calls w := by
  cases h with
  | waiting h hout hsilent hst hfirst =>
    refine ⟨by simp [hsilent.noHeader], ?_, fun hne => absurd h.agrees hne, ?_⟩
    · intro before e after hsplit he
      exact absurd (hsilent.bytes e (by simp [hsplit])) he
    · simp [hsilent.noHeader, hfirst]
  | sent b hstate hinstalled hsent hspoken hfirst hholds =>
    refine hspoken.disciplined hsent ⟨fun he => ?_, ?_⟩
    · omega
    · rintro ⟨b', hb', hnot⟩
      obtain rfl := Option.some.inj (hfirst.symm.trans hb')
      exact absurd hholds hnot
  | refused b hstate huninstalled hsent hspoken hfirst hholds =>
    exact hspoken.disciplined hsent ⟨fun _ => ⟨b, hfirst, hholds⟩, fun _ => rfl⟩

/-- Behind the header every processor is entered with the header sent, and so is
the branch for failures left. -/
theorem Live.sent_in_loop {p : Progress} (h : Live env p w) (chain : List Buf) :
    (∀ e, (processLoop env).Visits ⟨w.ctx.state, w, ⟨[], chain⟩⟩ e →
      e.state ≠ .expectHeader → e.w.ctx.headerSent = true) ∧
    ∀ ret, (processLoop env).run ⟨w.ctx.state, w, ⟨[], chain⟩⟩ = .ok ret →
      failed ret.rc = true → ret.w.ctx.headerSent = true := by
  constructor
  · intro e hvisits hstate
    have hwithin : Within env p w ⟨[], chain⟩ e := by
      refine hvisits.invariant (fun e e' he hturn => ?_) (.inl rfl)
      exact (he.turn h).of_eq_ok hturn
    rcases hwithin with rfl | ⟨q, hq, hm, -⟩
    · exact h.headerSent.mpr fun hp => hstate ((Live.state_header h).mpr hp)
    · exact hm.live.headerSent.mpr hq
  · intro ret hret hfail
    have hresult := (processLoop_result ⟨[], chain⟩ h).of_eq_ok hret
    cases hresult with
    | pauses q w₁ c hm hrest => cases hfail
    | ends t behind w₁ c he => cases hfail
    | rejects w₁ c hp hr hwhy => exact hr.headerSent
    | fails rc w₁ c hrc hinstalled hsent hforwarded hheader hwhy => exact hsent

/-- At most one header goes down the chain, before any data; it is an error
header if and only if the RDS header was refused; and a call that fails finds the
header sent, whatever its chain. -/
theorem header_discipline {rets : List Return} (halloc : ∀ k, env.alloc k = true)
    (h : Postponed env w₀) (hrun : runCalls env w₀ calls = .ok (rets, w))
    (hentered : Entered env w₀ calls) (chain : List Buf) :
    Disciplined calls w ∧
      (w.ctxSet = true → w.ctx.state ≠ .done →
        (∀ e, (processLoop env).Visits ⟨w.ctx.state, w, ⟨[], chain⟩⟩ e →
          e.state ≠ .expectHeader → e.w.ctx.headerSent = true) ∧
        ∀ ret, (processLoop env).run ⟨w.ctx.state, w, ⟨[], chain⟩⟩ = .ok ret →
          failed ret.rc = true → ret.w.ctx.headerSent = true) := by
  have hphase := phase_of_run halloc h hrun hentered
  have hstatus := (started h).status
  refine ⟨hphase.disciplined (by omega), fun hset hstate => ?_⟩
  cases hphase with
  | waiting h => exact Live.sent_in_loop h chain
  | sent b hlive =>
    rcases hlive with ⟨p, -, h⟩ | hdone
    · exact Live.sent_in_loop h chain
    · exact absurd hdone hstate
  | refused b hdone => exact absurd hdone hstate

/-- Two calls, with no RDS header in the first buf. -/
theorem header_discipline_refused : ∃ x,
    runCalls calm (postpone calm (plainConf 4096) true)
      [[Buf.memory (lit "\x7b")], [Buf.memory (lit "\x7d")]] = .ok x ∧ 500 ∈ headers x.2.trace := by
  obtain ⟨⟨rets, w⟩, hrun⟩ : ∃ x, runCalls calm (postpone calm (plainConf 4096) true)
      [[Buf.memory (lit "\x7b")], [Buf.memory (lit "\x7d")]] = .ok x := ⟨_, rfl⟩
  have hpostponed := (served_calm true).postponed
  have hd := (header_discipline (fun _ => rfl) hpostponed hrun
    (entered_of_takes takes_calm hpostponed rfl) []).1
  refine ⟨_, hrun, hd.error.mpr ⟨Buf.memory (lit "\x7b"), rfl, fun hholds => ?_⟩⟩
  exact (holdsHeader_iff _).mp hholds rfl

end RdsJson.HeaderDiscipline
