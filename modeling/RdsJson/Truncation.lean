import RdsJson.Language
import RdsJson.HeaderOnly

/-! # Responses that are cut short

Whatever fails, and wherever the input ends: what went out is the beginning of the
text that belongs to the stream the input is the beginning of. -/
namespace RdsJson.Truncation
open RdsJson.Lib.LittleEndian RdsJson.Lib.Labelled RdsJson.Lib.Words RdsJson.Lib.PrefixCode
open RdsJson.Lib.Outcome RdsJson.Nginx RdsJson.Rds RdsJson.Conf RdsJson.Context RdsJson.Processor
open RdsJson.OutputMem RdsJson.FilterModule RdsJson.Format RdsJson.ResultSet RdsJson.Encoding RdsJson.Reader
open RdsJson.Cuts RdsJson.Render RdsJson.WriteLayer RdsJson.Generators RdsJson.Simulation
open RdsJson.Calls RdsJson.Runs RdsJson.Language

variable {env : Env} {p q : Progress} {w w' w₀ : World} {chain : List Buf}
variable {calls : List (List Buf)} {rets : List Return}

/-! ## The text grows with what is read -/

/-- More of a value, more of its text. -/
theorem partText_grows {col : Column} {got : Bytes} {missing : Nat} (c : UInt8) (hgot : got ≠ [])
    (hcol : col.rough ≠ .bool) : partText col got <+: pieceText col (got ++ [c]) missing := by
  rw [pieceText_append [c] missing hgot hcol]
  exact List.prefix_append _ _

/-- One atom more, and the text is no shorter. -/
theorem jsonSoFar_grows (conf : LocConf) (complexValue : Bytes → Bytes) {a : Atom} (hp : p.Ok)
    (h : Reads p a q) : jsonSoFar conf complexValue p <+: jsonSoFar conf complexValue q := by
  cases h with
  | header | col => exact List.nil_prefix
  | flag t f hf =>
    simp only [jsonSoFar, rowPart, if_true, List.append_nil]
    exact List.prefix_rfl
  | stop t =>
    rw [jsonSoFar, jsonSoFar, render, if_neg hp.2]
    exact List.prefix_append _ _
  | null t f fs =>
    rw [jsonSoFar_endField conf complexValue none hp.length (List.getElem?_eq_getElem hp.length)]
    exact List.prefix_append _ _
  | empty t f fs hlt =>
    rw [jsonSoFar_endField conf complexValue (some []) hlt (List.getElem?_eq_getElem hlt)]
    exact List.prefix_append _ _
  | start t f fs col total c hcol hpos hlt hacc =>
    rw [jsonSoFar_behindPiece complexValue f _ _ hp.length hcol]
    exact List.prefix_append _ _
  | byte t f fs col got missing c hcol hpos hacc =>
    obtain ⟨col', hcol', hacc'⟩ := hp.accepted
    obtain rfl := Option.some.inj (hcol.symm.trans hcol')
    have hrough := rough_ne_bool_of_accepts hp.begun hacc' hpos.ne'
    rw [jsonSoFar_behindPiece complexValue f _ _ hp.length hcol]
    obtain ⟨more, hmore⟩ : partText col got <+: pieceText col (got ++ [c]) (missing - 1) :=
      partText_grows c hp.begun hrough
    rw [jsonSoFar, hcol, ← hmore]
    exact ⟨more ++ closing conf t fs (missing - 1), by simp⟩

theorem jsonSoFar_of_steps (conf : LocConf) (complexValue : Bytes → Bytes) {word : List Atom}
    (hp : p.Ok) (h : Steps Reads p word q) :
    jsonSoFar conf complexValue p <+: jsonSoFar conf complexValue q :=
  Steps.grows Progress.Ok (fun _ _ _ hok hread =>
    ⟨(readBuf_spec hok (Reads.readBuf hread)).1, jsonSoFar_grows conf complexValue hok hread⟩) hp h

/-! ## Any bufs -/

/-- `q` is reached from `p` by atoms, or by a header without columns. -/
inductive Behind (p q : Progress) : Prop
  | atoms (word : List Atom) (h : Steps Reads p word q)
  | header (t : Table) (hp : p = .header) (hq : q = .done t) (hcols : t.cols = [])

theorem Behind.refl : Behind p p := .atoms [] (.nil p)

theorem Behind.prepend {r : Progress} {word : List Atom} (hs : Steps Reads p word r)
    (h : Behind r q) : Behind p q := by
  cases h with
  | atoms word' h => exact .atoms (word ++ word') (hs.append h)
  | header t hr hq hcols =>
    have hword : word = [] := by
      by_contra hne
      exact steps_ne_header hs hne hr
    subst hword
    exact .header t ((Steps.eq_of_nil hs).symm.trans hr) hq hcols

/-- A header without columns leaves the bufs behind it alone. -/
theorem behind_of_readBuf {r : Progress} {x : Bytes} {next rest : List Buf} (hp : p.Ok)
    (h : readBuf p x = some r) (hk : readBufs r next = some (q, rest))
    (ih : r.Ok → Behind r q) : Behind p q := by
  rcases grouped_buf hp h with ⟨group, hgroup⟩ | halone
  · exact .prepend hgroup.steps (ih (readBuf_spec hp h).1)
  · rw [readBufs_of_done halone.isDone] at hk
    obtain ⟨hd, -, -, hr, -⟩ := halone.done
    exact .header _ halone.header ((Prod.mk.inj (Option.some.inj hk)).1.symm.trans hr) rfl

theorem behind_of_readBufs {bufs rest : List Buf} (hp : p.Ok)
    (h : readBufs p bufs = some (q, rest)) : Behind p q := by
  fun_induction readBufs p bufs generalizing q rest with
  | case1 p =>
    obtain ⟨rfl, -⟩ := Prod.mk.inj (Option.some.inj h)
    exact .refl
  | case2 p b next hdone =>
    obtain ⟨rfl, -⟩ := Prod.mk.inj (Option.some.inj h)
    exact .refl
  | case3 p b next hdone hmem ih =>
    obtain ⟨r, hr, hk⟩ := Option.bind_eq_some_iff.mp h
    exact behind_of_readBuf hp hr hk fun hok => ih r hok hk
  | case4 p b next hdone hmem href => cases h
  | case5 p b hdone hmem href =>
    obtain ⟨rfl, -⟩ := Prod.mk.inj (Option.some.inj h)
    exact .refl
  | case6 p b hdone hmem href b' next' ih =>
    obtain ⟨r, hr, hk⟩ := Option.bind_eq_some_iff.mp h
    exact behind_of_readBuf hp hr hk fun hok => ih r hok hk

theorem behind_of_readCalls (hp : p.Ok) (h : readCalls p calls = some q) :
    Behind p q := by
  induction calls generalizing p with
  | nil =>
    obtain rfl := Option.some.inj h
    exact .refl
  | cons chain calls ih =>
    obtain ⟨⟨r, rest⟩, hr, hk⟩ := Option.bind_eq_some_iff.mp h
    have hok := (readBufs_spec hp hr).1
    cases behind_of_readBufs hp hr with
    | atoms word hs => exact .prepend hs (ih hok hk)
    | header t hheader hdone hcols =>
      dsimp only at hk
      rw [hdone, readCalls_done] at hk
      exact .header t hheader (Option.some.inj hk).symm hcols

/-- A first atom is not the header of a set without columns. -/
theorem cols_ne_nil_of_steps {word : List Atom} {t : Table} (hok : t.Ok) (hword : word ≠ [])
    (hs : Steps Reads .header word q) {y z : Bytes}
    (hbytes : groupBytes word ++ y = t.encode ++ z) : t.cols ≠ [] := by
  intro hcols
  cases hs with
  | nil => exact hword rfl
  | @cons _ _ _ a word h hs =>
    obtain ⟨hd, hfits, hcount⟩ := h
    rw [Table.encode, if_pos hcols, List.append_nil, groupBytes_cons, List.append_assoc] at hbytes
    obtain ⟨rfl, -⟩ := delimits_header _ _ _ _ hfits hok.headerFits hbytes
    have hlen := hok.colCount
    rw [hcols] at hlen
    exact hcount (UInt16.toNat_inj.mp hlen.symm)

/-- What was read of a stream has the beginning of its text. -/
theorem text_prefix (conf : LocConf) (complexValue : Bytes → Bytes) (s : Stream) (hp : p.Ok)
    (h : Behind .header p) {y z : Bytes} (hbytes : p.bytes ++ y = s.encode ++ z) :
    jsonSoFar conf complexValue p <+: render conf complexValue s.toTable := by
  cases h with
  | header t hheader hdone hcols =>
    subst hdone
    obtain ⟨rfl, -⟩ := delimits_table t s.toTable y z hp s.ok hbytes
    exact List.prefix_rfl
  | atoms word hs =>
    by_cases hword : word = []
    · subst hword
      rw [Steps.eq_of_nil hs]
      exact List.nil_prefix
    · have hgroup : p.bytes = groupBytes word := (steps_spec (p := .header) trivial hs).2.symm
      rw [hgroup] at hbytes
      have hcols := cols_ne_nil_of_steps s.ok hword hs hbytes
      have hatoms := steps_atoms s.ok hcols
      rw [← atoms_bytes hcols] at hbytes
      rcases Steps.comparable reads_decodable hs hatoms hbytes with
        ⟨rest, -, hrest⟩ | ⟨rest, -, hrest⟩
      · exact jsonSoFar_of_steps conf complexValue hp hrest
      · rw [(hrest.stuck (reads_stuck s.toTable)).2]
        exact List.prefix_rfl

/-! ## Runs that may break off -/

/-- The calls read as far as `p`, or some of them in front did and nothing goes out
any more; what went out is the beginning of the text for `p`. -/
inductive Sending (env : Env) (conf : LocConf) (calls : List (List Buf)) (rets : List Return)
    (w : World) : Prop
  | flowing (p : Progress) (h : Flowing env p w) (hconf : w.r.conf = conf)
      (hread : readCalls .header calls = some p)
  | stopped (p : Progress) (before : List (List Buf)) (hbefore : before <+: calls)
      (hread : readCalls .header before = some p)
      (hsent : sent w.trace <+: jsonSoFar conf env.complexValue p)
      (hstop : w.r.headerOnly = true ∨ w.ctx.state = .done ∨ ∃ ret ∈ rets, failed ret.rc = true)

theorem Flowing.sent_front (h : Flowing env p w) :
    sent w.trace <+: jsonSoFar w.r.conf env.complexValue p :=
  ⟨pending w.out, h.sent⟩

/-- The full bufs are the front of what waits. -/
theorem memory_front (o : OutCtx) : memory o o.out <+: pending o := by
  by_cases ha : o.availOut = 0
  · exact ⟨[], by rw [List.append_nil, pending_of_avail_zero ha]⟩
  · rw [pending_of_avail ha]
    exact List.prefix_append _ _

/-- A flush sends something that is due, and fails or leaves the rest to be sent. -/
theorem Flowing.flushes {rc : Int} (h : Flowing env p w) (hout : outputBufs env w = (rc, w')) :
    sent w'.trace <+: jsonSoFar w.r.conf env.complexValue p ∧
      (failed rc = true ∨ Flowing env p w') := by
  constructor
  · rw [HeaderOnly.Flowing.sent_of_flush h hout, ← h.sent]
    exact List.prefix_append_right_inj _ |>.mpr (memory_front w.out)
  · cases hbody : failed (env.bodyRc w.trace.length) with
    | false => exact .inr (h.flush hout hbody).2
    | true =>
      obtain ⟨rc, w₁, heq, -, -, -, -, hcase⟩ := outputBufs_ready env w h.ready h.seen
      rw [heq] at hout
      cases hout
      rcases hcase with ⟨-, rfl, rfl⟩ | ⟨-, -, ⟨hfail, rfl⟩ | ⟨hok, -⟩⟩
      · exact .inr h
      · exact .inl hfail
      · exact absurd (hok.symm.trans hbody) Bool.false_ne_true

/-- One call more within the stream. -/
theorem Sending.called {conf : LocConf} {ret : Return} (h : Flowing env p w) (hconf : w.r.conf = conf)
    (hread : readCalls .header calls = some p) (hcalled : Called env p w chain ret) :
    Sending env conf (calls ++ [chain]) (rets ++ [ret]) ret.w := by
  have hold : sent w.trace <+: jsonSoFar conf env.complexValue p := hconf ▸ Flowing.sent_front h
  have hfront : calls <+: calls ++ [chain] := List.prefix_append _ _
  cases hcalled with
  | pauses q w₁ c rc w' hm hrest hout =>
    have hread' : readCalls .header (calls ++ [chain]) = some q := by
      rw [readCalls_snoc, hread, Option.bind_some, hm.reads, hrest, readBufs_nil]
      rfl
    have hsame : w₁.r.conf = conf := hm.request.1.trans hconf
    obtain ⟨hsent, hfail | hflow⟩ := Flowing.flushes (h.moved hm) hout
    · exact .stopped q _ List.prefix_rfl hread' (hsame ▸ hsent) (.inr (.inr (failed_last rets hfail)))
    · exact .flowing q hflow ((congrArg (·.conf) (Live.flush hm.live hout).2).trans hsame) hread'
  | ends t behind w₁ c rc w' he hout =>
    have hp := Ended.passes he hout
    have hstop : w'.ctx.state = .done := hp.ctx ▸ he.state
    rcases h.finish he hout with ⟨-, htrace, -⟩ | ⟨hfin, -⟩
    · refine .stopped p calls hfront hread ?_ (.inr (.inl hstop))
      rw [htrace, WriteLayer.sent, Forwarded.sentBufs he.forwarded]
      exact hold
    · refine .stopped (.done t) _ List.prefix_rfl ?_ ?_ (.inr (.inl hstop))
      · rw [readCalls_snoc, hread, Option.bind_some, he.reads]
        rfl
      · rw [hfin.sent, hp.r, he.forwarded.request.1, hconf]
        exact List.prefix_rfl
  | rejects w₁ c hp hr hwhy =>
    refine .stopped p calls hfront hread ?_ (.inr (.inl rfl))
    show sent w₁.trace <+: _
    rw [WriteLayer.sent, Refused.sentBufs hr]
    exact hold
  | fails w₁ c hinstalled hsent hforwarded hheader hwhy =>
    refine .stopped p calls hfront hread ?_ (.inr (.inl rfl))
    show sent w₁.trace <+: _
    rw [WriteLayer.sent, Forwarded.sentBufs hforwarded]
    exact hold

/-- The next filter gets the chain as it is. -/
theorem sent_nextBodyFilter (w : World) (chain : List Buf) :
    sent (nextBodyFilter env w chain).2.trace = sent w.trace := by
  simp [WriteLayer.sent, nextBodyFilter]

/-- A request that stopped sends nothing more. -/
theorem bodyFilter_stopped {ret : Return} (hstop : w.r.headerOnly = true ∨ w.ctx.state = .done)
    (hcall : bodyFilter env w chain = .ok ret) :
    sent ret.w.trace = sent w.trace ∧ ret.w.r = w.r ∧ ret.w.ctx = w.ctx := by
  unfold bodyFilter at hcall
  split at hcall
  · cases hcall
    exact ⟨sent_nextBodyFilter w chain, rfl, rfl⟩
  · next hpass =>
    have hstate := hstop.resolve_left fun honly => hpass (.inr honly)
    split at hcall
    · cases hcall
      exact ⟨sent_nextBodyFilter w chain, rfl, rfl⟩
    · cases hcall
      exact ⟨rfl, rfl, rfl⟩

/-- One call more. -/
theorem Sending.call {conf : LocConf} {ret : Return} (h : Sending env conf calls rets w)
    (hok : ∀ ret ∈ rets, failed ret.rc = false) (hcall : bodyFilter env w chain = .ok ret) :
    Sending env conf (calls ++ [chain]) (rets ++ [ret]) ret.w := by
  cases h with
  | stopped p before hbefore hread hsent hstop =>
    have hstop' : w.r.headerOnly = true ∨ w.ctx.state = .done := by
      rcases hstop with honly | hstate | ⟨r, hr, hfail⟩
      · exact .inl honly
      · exact .inr hstate
      · exact absurd ((hok r hr).symm.trans hfail) Bool.false_ne_true
    obtain ⟨hsame, hr, hctx⟩ := bodyFilter_stopped hstop' hcall
    refine .stopped p before (hbefore.trans (List.prefix_append _ _)) hread (hsame ▸ hsent) ?_
    rw [hr, hctx]
    exact hstop'.imp_right .inl
  | flowing p h hconf hread =>
    by_cases honly : w.r.headerOnly = true
    · obtain ⟨hsame, hr, -⟩ := bodyFilter_stopped (.inl honly) hcall
      refine .stopped p calls (List.prefix_append _ _) hread ?_ (.inl (hr ▸ honly))
      rw [hsame, ← hconf]
      exact Flowing.sent_front h
    rw [Bool.not_eq_true] at honly
    by_cases hchain : chain = []
    · subst hchain
      unfold bodyFilter at hcall
      rw [if_pos (.inl rfl)] at hcall
      cases hcall
      refine .flowing p h.pass hconf ?_
      rw [readCalls_snoc, hread, Option.bind_some, readBufs_nil]
      rfl
    · exact Sending.called h hconf hread ((bodyFilter_called h.toLive hchain honly).of_eq_ok hcall)

/-- All calls of a run but the last succeed. -/
theorem sending_of_run (h : Postponed env w₀) (hrun : runCalls env w₀ calls = .ok (rets, w))
    (hok : ∀ ret ∈ rets.dropLast, failed ret.rc = false) :
    Sending env w₀.r.conf calls rets w := by
  refine runCalls_induction (I := fun calls rets w =>
    (∀ ret ∈ rets.dropLast, failed ret.rc = false) → Sending env w₀.r.conf calls rets w)
    (fun _ => .flowing .header (started h).flowing rfl rfl) ?_ hrun hok
  intro calls rets w chain ret _ ih hcall hok
  rw [List.dropLast_concat] at hok
  exact (ih fun r hr => hok r (List.dropLast_subset _ hr)).call hok hcall

/-- The bytes that were read are in front of the input. -/
theorem bytes_of_readCalls (h : readCalls .header calls = some p) :
    ∃ more, p.bytes ++ more = calls.flatten.flatMap Buf.rest := by
  cases hp : p.isDone with
  | false =>
    have hbytes := readCalls_spec (p := .header) trivial h hp
    exact ⟨[], by rw [hbytes]; simp [Progress.bytes]⟩
  | true =>
    obtain ⟨t, rfl⟩ : ∃ t, p = .done t := by
      cases p with
      | done t => exact ⟨t, rfl⟩
      | header | cols | rows | fields | value => cases hp
    obtain ⟨front, b, behind, hsplit, -, hencode⟩ :=
      readCalls_complete (p := .header) trivial rfl h
    refine ⟨behind.flatMap Buf.rest, ?_⟩
    rw [hsplit, List.append_cons, List.flatMap_append, Progress.bytes, hencode]
    rfl

/-- Whatever answers there are around the module, and whatever the input: if all calls
but the last succeed, and the input is the beginning of a stream or has one in front,
what went out is the beginning of the text of that stream. -/
theorem sent_prefix_render (h : Postponed env w₀) (hrun : runCalls env w₀ calls = .ok (rets, w))
    (hok : ∀ ret ∈ rets.dropLast, failed ret.rc = false) (s : Stream)
    (hbytes : ∃ y z, calls.flatten.flatMap Buf.rest ++ y = s.encode ++ z) :
    sent w.trace <+: render w₀.r.conf env.complexValue s.toTable := by
  obtain ⟨y, z, hbytes⟩ := hbytes
  have hread (p : Progress) (before : List (List Buf)) (hbefore : before <+: calls)
      (hread : readCalls .header before = some p) :
      jsonSoFar w₀.r.conf env.complexValue p <+: render w₀.r.conf env.complexValue s.toTable := by
    obtain ⟨after, rfl⟩ := hbefore
    obtain ⟨more, hmore⟩ := bytes_of_readCalls hread
    rw [List.flatten_append, List.flatMap_append, ← hmore, List.append_assoc,
      List.append_assoc] at hbytes
    exact text_prefix w₀.r.conf env.complexValue s (readCalls_ok (p := .header) trivial hread)
      (behind_of_readCalls trivial hread) hbytes
  cases sending_of_run h hrun hok with
  | flowing p hflow hconf hp =>
    exact (hconf ▸ Flowing.sent_front hflow).trans (hread p calls List.prefix_rfl hp)
  | stopped p before hbefore hp hsent hstop => exact hsent.trans (hread p before hbefore hp)

/-- As `calm`, but the next body filter fails. -/
def broken : Env := { calm with bodyRc := fun _ => NGX_ERROR }

/-- Bufs of four bytes, the first of which is the last that is taken. -/
theorem sent_prefix_render_broken : ∃ rets w,
    runCalls broken (postpone broken (plainConf 4) true)
        [[Buf.memory ((oneColumn [some (lit "b")]).encode.take 43)]] = .ok (rets, w) ∧
      (∃ ret ∈ rets, failed ret.rc = true) ∧ sent w.trace ≠ [] ∧ sent w.trace <+:
        render (plainConf 4) broken.complexValue (oneColumn [some (lit "b")]) := by
  obtain ⟨x, hrun, hfail, hok, hsent⟩ : ∃ x, runCalls broken (postpone broken (plainConf 4) true)
      [[Buf.memory ((oneColumn [some (lit "b")]).encode.take 43)]] = .ok x ∧
      (∃ ret ∈ x.1, failed ret.rc = true) ∧ (∀ ret ∈ x.1.dropLast, failed ret.rc = false) ∧
      sent x.2.trace ≠ [] :=
    ⟨_, rfl, ⟨_, .head _, rfl⟩, by simp, by decide⟩
  have htable : (oneColumn [some (lit "b")]).Ok := oneColumn_ok (by simp [lit, nullLength])
  have hprefix := sent_prefix_render (postponed_postpone rfl rfl true) hrun hok ⟨_, htable⟩
    ⟨(oneColumn [some (lit "b")]).encode.drop 43, [], rfl⟩
  exact ⟨_, _, hrun, hfail, hsent, hprefix⟩

end RdsJson.Truncation
