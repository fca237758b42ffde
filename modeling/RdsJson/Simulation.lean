import RdsJson.FilterModule
import RdsJson.Generators

/-! # The processors read as the reader reads

A context that agrees with a `Progress` keeps agreeing with the progress that
`readStep` makes, and what is written is what is due for it. `Outcome` lists
all that one turn of the processors can do, `Result` all that a call can. -/
namespace RdsJson.Simulation
open RdsJson.Lib.LittleEndian RdsJson.Lib.TailLoop RdsJson.Lib.Outcome RdsJson.Nginx RdsJson.Rds
open RdsJson.Util RdsJson.Conf RdsJson.Context RdsJson.OutputMem RdsJson.Output RdsJson.Processor
open RdsJson.Format RdsJson.ResultSet RdsJson.Reader RdsJson.Render RdsJson.WriteLayer
open RdsJson.Generators

/-! ## The invariant -/

/-- The state of the parser is that of a stream read so far. -/
def Agrees (ctx : Ctx) : Progress → Prop
  | .header => ctx.state = .expectHeader
  | .cols h cs => ctx.state = .expectCol ∧ ctx.colCount = h.colCount.toNat ∧
      ctx.curCol = cs.length ∧
      ctx.cols = cs.map some ++ List.replicate (h.colCount.toNat - cs.length) none
  | .rows t => ctx.state = .expectRow ∧ ctx.colCount = t.cols.length ∧
      ctx.cols = t.cols.map some ∧ ctx.row = t.rows.length
  | .fields t _ fs => ctx.state = .expectField ∧ Place t fs ctx
  | .value t _ fs _ missing => ctx.state = .expectMoreFieldData ∧ Place t fs ctx ∧
      ctx.fieldDataRest = missing
  | .done _ => ctx.state = .done

/-- Within the stream. The room in the last buf is what the bytes written so far
left of it. -/
structure Live (env : Env) (p : Progress) (w : World) : Prop where
  installed : w.ctxSet = true
  agrees : Agrees w.ctx p
  ok : p.Ok
  notDone : p.isDone = false
  headerSent : w.ctx.headerSent = true ↔ p ≠ .header
  ready : Ready w.r.conf.bufBytes w.out
  seen : w.out.seenStreamEnd = false
  room : ((jsonSoFar w.r.conf env.complexValue p).length + w.out.availOut) %
    w.r.conf.bufBytes = 0
  supported : p.midValue = true → Supported w.r.conf

/-- What may go wrong around the module: an allocation, the next header filter,
or a format that no directive chooses. -/
def Troubled (env : Env) (conf : LocConf) : Prop :=
  (∃ k, env.alloc k = false) ∨ (∃ k, failed (env.headerRc k) = true) ∨ ¬ Supported conf

/-- The header is forwarded when the RDS header was read, and only then. -/
def Forwarded (env : Env) (p : Progress) (w w' : World) : Prop :=
  if p = .header then
    w'.r = (nextHeaderFilter env w).2.r ∧ w'.trace = (nextHeaderFilter env w).2.trace
  else w'.r = w.r ∧ w'.trace = w.trace

/-- A processor moves along the chain; it drops no buf and adds none. -/
structure Through (c c' : Cursor) : Prop where
  whole : c'.chain.map Buf.whole = c.chain.map Buf.whole
  passed : (∀ b ∈ c.passed, b.rest = []) → ∀ b ∈ c'.passed, b.rest = []

/-- The record that `p` waits for is not in the buf it is looked for in. -/
def Refuses (p : Progress) (c : Cursor) : Prop :=
  match openBuf c with
  | .stop _ => False
  | .notInMemory => True
  | .buf _ b _ => readStep p b.rest = none

/-- The record that `p` waits for is in the buf it is looked for in. -/
def Accepts (p : Progress) (c : Cursor) : Prop :=
  match openBuf c with
  | .stop _ => False
  | .notInMemory => False
  | .buf _ b _ => readStep p b.rest ≠ none

/-- The record that the column specs begin behind is there. -/
def OpensCols (p : Progress) (c : Cursor) : Prop :=
  match openBuf c with
  | .stop _ => False
  | .notInMemory => False
  | .buf _ b _ => ∃ h x, readStep p b.rest = some (.cols h [], x)

theorem OpensCols.accepts {p : Progress} {c : Cursor} (h : OpensCols p c) : Accepts p c := by
  unfold OpensCols at h
  unfold Accepts
  split at h
  · exact h
  · exact h
  · obtain ⟨hd, x, hstep⟩ := h
    simp [hstep]

/-- Turns that go on. -/
structure Moved (env : Env) (p : Progress) (w : World) (c : Cursor) (p' : Progress) (w' : World)
    (c' : Cursor) : Prop where
  live : Live env p' w'
  begun : p' = .header → p = .header
  accepted : p = .header → p' ≠ .header → Accepts p c
  reads : readBufs p c.rest = readBufs p' c'.rest
  through : Through c c'
  forwarded : if p' = .header then w' = w else Forwarded env p w w'
  added : ∃ bytes, jsonSoFar w.r.conf env.complexValue p' =
      jsonSoFar w.r.conf env.complexValue p ++ bytes ∧
    Added w.r.conf.bufBytes w.out w'.out bytes (pending w'.out)

/-- Whether the last piece of the text fits into the room that the text before
it leaves in its last buf, or ends where a buf ends. -/
def closes (conf : LocConf) (complexValue : Bytes → Bytes) (t : Table) : Bool :=
  let n := (lastPiece conf complexValue t).length
  Closes conf.bufBytes ((render conf complexValue t).length - n) n

/-- The turn that reads the end of the stream. -/
structure Ended (env : Env) (p : Progress) (w : World) (c : Cursor) (t : Table)
    (behind : List Buf) (w' : World) (c' : Cursor) : Prop where
  reads : readBufs p c.rest = some (.done t, behind)
  ok : t.Ok
  through : Through c c'
  left : if t.cols = [] then ∀ b ∈ c'.rest, b.rest = []
    else ∃ b, c'.rest = b :: behind ∧ b.rest = []
  forwarded : Forwarded env p w w'
  installed : w'.ctxSet = true
  state : w'.ctx.state = .done
  headerSent : w'.ctx.headerSent = true
  wrote : ∃ bytes, render w.r.conf env.complexValue t =
      jsonSoFar w.r.conf env.complexValue p ++ bytes ∧ bytes ≠ [] ∧
    Wrote w.r.conf.bufBytes (w.r.main && closes w.r.conf env.complexValue t)
      { w.out with seenStreamEnd := true } w'.out bytes

/-- The turn that refuses the RDS header, or the buf it should be in: an error
header goes out instead, and the request goes on without the module. -/
structure Refused (env : Env) (w w' : World) : Prop where
  uninstalled : w'.ctxSet = false
  headerSent : w'.ctx.headerSent = true
  trace : ∃ rest, w'.trace = w.trace ++ .header 500 :: rest ∧
    (rest = [] ∧ (∃ k, env.alloc k = false) ∨ rest = [.body [specialBuf w.r.main]])
  r : w'.r = { (nextHeaderFilter env w).2.r with status := NGX_HTTP_INTERNAL_SERVER_ERROR }

/-- All that a turn can do. -/
inductive Outcome (env : Env) (p : Progress) (w : World) (c : Cursor) :
    Turn Entry Return → Prop
  | waits (c' : Cursor) (hreads : readBufs p c.rest = some (p, [])) (hthrough : Through c c')
      (hrest : c'.rest = []) : Outcome env p w c (.done ⟨NGX_OK, w, c'⟩)
  | moves (p' : Progress) (w' : World) (c' : Cursor) (hp' : p' ≠ .header)
      (h : Moved env p w c p' w' c') : Outcome env p w c (.again ⟨w'.ctx.state, w', c'⟩)
  | ends (t : Table) (behind : List Buf) (w' : World) (c' : Cursor)
      (h : Ended env p w c t behind w' c') : Outcome env p w c (.done ⟨NGX_OK, w', c'⟩)
  | rejects (w' : World) (c' : Cursor) (hp : p = .header) (h : Refused env w w')
      (hwhy : Refuses p c ∨ OpensCols p c ∧ env.alloc w.out.allocs = false) :
      Outcome env p w c (.done ⟨NGX_ERROR, w', c'⟩)
  | fails (rc : Int) (w' : World) (c' : Cursor) (hrc : failed rc = true)
      (hinstalled : w'.ctxSet = true) (hsent : w'.ctx.headerSent = true)
      (hforwarded : Forwarded env p w w') (hheader : p = .header → Accepts p c)
      (hwhy : (p ≠ .header ∧ readBufs p c.rest = none) ∨ Troubled env w.r.conf) :
      Outcome env p w c (.done ⟨rc, w', c'⟩)

theorem Moved.enter {env : Env} {B : Nat} {p q : Progress} {w w' : World} {c c' : Cursor}
    {s : State} (hq : q ≠ .header) (h : Moved env p w c q w' c') (hs : w'.ctx.state = s) :
    Yields (EndlessIn B) (enter s w' c') (Outcome env p w c) := by
  subst hs
  exact Outcome.moves q w' c' hq h

/-! ## Moving along the chain -/

/-- The buf a record is read from, and what stands around it. -/
structure Opened (p : Progress) (c : Cursor) (passed : List Buf) (b : Buf) (next : List Buf) :
    Prop where
  whole : (passed ++ b :: next).map Buf.whole = c.chain.map Buf.whole
  passed : (∀ b ∈ c.passed, b.rest = []) → ∀ b ∈ passed, b.rest = []
  memory : b.rest ≠ [] → b.inMemory = true
  reads : readBufs p c.rest = (readBuf p b.rest).bind fun p' => readBufs p' next

theorem openBuf_spec (c : Cursor) {p : Progress} (hdone : p.isDone = false)
    (hmid : p.midValue = false) :
    match openBuf c with
    | .stop c' => readBufs p c.rest = some (p, []) ∧ Through c c' ∧ c'.rest = []
    | .notInMemory => readBufs p c.rest = none
    | .buf passed b next => Opened p c passed b next := by
  unfold openBuf
  cases hc : c.rest with
  | nil => exact ⟨by simp [readBufs], ⟨rfl, fun h => h⟩, hc⟩
  | cons b next =>
    dsimp only
    by_cases hmem : b.inMemory = true
    · rw [if_pos hmem]
      refine ⟨by simp [Cursor.chain, hc], fun h => h, fun _ => hmem, ?_⟩
      rw [hc]
      exact readBufs_memory hdone hmem
    · rw [if_neg hmem]
      by_cases hsp : b.special = true
      · have hempty : b.rest = [] := b.noData (by simpa using hmem)
        have hpassed : (∀ b ∈ c.passed, b.rest = []) → ∀ b' ∈ c.passed ++ [b], b'.rest = [] := by
          intro h b' hb'
          rcases List.mem_append.mp hb' with hb' | hb'
          · exact h b' hb'
          · exact List.mem_singleton.mp hb' ▸ hempty
        rw [hsp]
        cases next with
        | nil =>
          refine ⟨by simp [readBufs, hdone, hmem, hmid, hsp], ⟨?_, hpassed⟩, rfl⟩
          simp [Cursor.chain, hc]
        | cons b' next' =>
          refine ⟨by simp [Cursor.chain, hc], hpassed, ?_, ?_⟩
          · intro hne
            by_contra hmem'
            exact hne (b'.noData (by simpa using hmem'))
          · rw [hc]
            simp [readBufs, hdone, hmem, hmid, hsp]
      · simp only [hsp, Bool.not_false, if_true]
        cases next <;> simp [readBufs, hdone, hmem, hsp]

theorem Refuses.readBufs {p : Progress} {c : Cursor} (h : Refuses p c) (hdone : p.isDone = false)
    (hmid : p.midValue = false) : Reader.readBufs p c.rest = none := by
  have hopen := openBuf_spec c hdone hmid
  unfold Refuses at h
  cases ho : openBuf c with
  | stop c' =>
    rw [ho] at h
    exact h.elim
  | notInMemory =>
    rw [ho] at hopen
    exact hopen
  | buf passed b next =>
    rw [ho] at h hopen
    rw [hopen.reads, readBuf_eq_none h]
    rfl

/-- Leaving the buf behind a record is going on reading. -/
theorem Opened.leave {p q : Progress} {c : Cursor} {passed next : List Buf} {b : Buf} (n : Nat)
    (h : Opened p c passed b next) (hcont : Continues p b.rest q (b.advance n).rest)
    (hq : q.isDone = false) :
    Through c (Cursor.leave passed (b.advance n) next) ∧
      readBufs p c.rest = readBufs q (Cursor.leave passed (b.advance n) next).rest := by
  have hwhole := h.whole
  simp only [List.map_append, List.map_cons] at hwhole
  unfold Cursor.leave
  by_cases hrest : (b.advance n).rest = []
  · rw [if_pos hrest]
    refine ⟨⟨by simp [Cursor.chain, hwhole], fun hc b' hb' => ?_⟩, ?_⟩
    · rcases List.mem_append.mp hb' with hb' | hb'
      · exact h.passed hc b' hb'
      · exact List.mem_singleton.mp hb' ▸ hrest
    · rw [h.reads, hcont, if_pos hrest]
      rfl
  · rw [if_neg hrest]
    have hmem : (b.advance n).inMemory = true := by
      refine h.memory fun he => hrest ?_
      rw [Buf.advance_rest, he, List.drop_nil]
    refine ⟨⟨by simp [Cursor.chain, hwhole], h.passed⟩, ?_⟩
    rw [h.reads, hcont, if_neg hrest, readBufs_memory hq hmem]

/-- The same when the buf is kept. -/
theorem Opened.keep {p : Progress} {c : Cursor} {passed next : List Buf} {b : Buf} (n : Nat)
    (h : Opened p c passed b next) : Through c ⟨passed, b.advance n :: next⟩ := by
  have hwhole := h.whole
  simp only [List.map_append, List.map_cons] at hwhole
  exact ⟨by simp [Cursor.chain, hwhole], h.passed⟩

/-! ## Turns that follow each other -/

section
variable {env : Env} {p p' p'' : Progress} {w w' w'' : World} {c c' c'' : Cursor}

theorem Through.trans (h₁ : Through c c') (h₂ : Through c' c'') : Through c c'' :=
  ⟨h₂.whole.trans h₁.whole, fun h => h₂.passed (h₁.passed h)⟩

/-- Forwarding the header keeps the request, but for `header_only`. -/
theorem Forwarded.request (h : Forwarded env p w w') :
    w'.r.conf = w.r.conf ∧ w'.r.main = w.r.main := by
  unfold Forwarded at h
  split at h <;> rw [h.1] <;> exact ⟨rfl, rfl⟩

/-- As long as the header is not read, nothing happens. -/
theorem Moved.still (h : Moved env p w c .header w' c') : w' = w := by
  have hf := h.forwarded
  rwa [if_pos rfl] at hf

theorem Moved.forwarded_of_ne (h : Moved env p w c p' w' c') (hp' : p' ≠ .header) :
    Forwarded env p w w' := by
  have hf := h.forwarded
  rwa [if_neg hp'] at hf

theorem Moved.request (h : Moved env p w c p' w' c') :
    w'.r.conf = w.r.conf ∧ w'.r.main = w.r.main := by
  have hf := h.forwarded
  split at hf
  · rw [hf]
    exact ⟨rfl, rfl⟩
  · exact hf.request

theorem Moved.refl (h : Live env p w) (hreads : readBufs p c.rest = some (p, []))
    (hthrough : Through c c') (hrest : c'.rest = []) : Moved env p w c p w c' := by
  refine ⟨h, id, fun he hne => absurd he hne, by rw [hreads, hrest, readBufs_nil], hthrough, ?_, [],
    (List.append_nil _).symm, Added.refl _⟩
  split
  · rfl
  · next hp =>
    rw [Forwarded, if_neg hp]
    exact ⟨rfl, rfl⟩

/-- The header that a later turn forwards is the first that was forwarded. -/
theorem Moved.forwards (h : Moved env p w c p' w' c') (hf : Forwarded env p' w' w'') :
    Forwarded env p w w'' := by
  have hm := h.forwarded
  unfold Forwarded at hf
  split at hm
  · next hp' =>
    rw [if_pos hp'] at hf
    rw [Forwarded, if_pos (h.begun hp'), hf.1, hf.2, hm]
    exact ⟨rfl, rfl⟩
  · next hp' =>
    rw [if_neg hp'] at hf
    unfold Forwarded at hm ⊢
    rwa [hf.1, hf.2]

theorem Moved.trans (h₁ : Moved env p w c p' w' c') (hp' : p' ≠ .header)
    (h₂ : Moved env p' w' c' p'' w'' c'') : Moved env p w c p'' w'' c'' := by
  obtain ⟨bytes₁, hjson₁, hadd₁⟩ := h₁.added
  obtain ⟨bytes₂, hjson₂, hadd₂⟩ := h₂.added
  rw [h₁.request.1] at hjson₂ hadd₂
  refine ⟨h₂.live, fun hp => h₁.begun (h₂.begun hp), fun hp _ => h₁.accepted hp hp',
    h₁.reads.trans h₂.reads, h₁.through.trans h₂.through, ?_, bytes₁ ++ bytes₂, ?_, hadd₁.trans hadd₂⟩
  · split
    · next hp => exact absurd (h₂.begun hp) hp'
    · next hp => exact h₁.forwards (h₂.forwarded_of_ne hp)
  · rw [hjson₂, hjson₁, List.append_assoc]

theorem Moved.ended {t : Table} {behind : List Buf} (h₁ : Moved env p w c p' w' c')
    (h₂ : Ended env p' w' c' t behind w'' c'') : Ended env p w c t behind w'' c'' := by
  obtain ⟨bytes₁, hjson₁, hadd₁⟩ := h₁.added
  obtain ⟨bytes₂, hjson₂, hne, hw⟩ := h₂.wrote
  obtain ⟨hconf, hmain⟩ := h₁.request
  rw [hconf] at hjson₂ hw
  rw [hmain] at hw
  refine ⟨h₁.reads.trans h₂.reads, h₂.ok, h₁.through.trans h₂.through, h₂.left,
    h₁.forwards h₂.forwarded, h₂.installed, h₂.state, h₂.headerSent, bytes₁ ++ bytes₂, ?_, ?_, ?_⟩
  · rw [hjson₂, hjson₁, List.append_assoc]
  · simp [hne]
  · have hadd : Added w.r.conf.bufBytes { w.out with seenStreamEnd := true }
        { w'.out with seenStreamEnd := true } bytes₁ (pending w'.out) :=
      ⟨hadd₁.laid, hadd₁.busy, hadd₁.avail, hadd₁.fresh, rfl⟩
    exact ⟨hw.owned, hw.current, hadd.trans hw.added, fun _ => hw.last hne⟩

/-- How the processors may leave a call. -/
inductive Result (env : Env) (p : Progress) (w : World) (c : Cursor) : Return → Prop
  | pauses (p' : Progress) (w' : World) (c' : Cursor) (h : Moved env p w c p' w' c')
      (hrest : c'.rest = []) : Result env p w c ⟨NGX_OK, w', c'⟩
  | ends (t : Table) (behind : List Buf) (w' : World) (c' : Cursor)
      (h : Ended env p w c t behind w' c') : Result env p w c ⟨NGX_OK, w', c'⟩
  | rejects (w' : World) (c' : Cursor) (hp : p = .header) (h : Refused env w w')
      (hwhy : Refuses p c ∨ OpensCols p c ∧ env.alloc w.out.allocs = false) :
      Result env p w c ⟨NGX_ERROR, w', c'⟩
  | fails (rc : Int) (w' : World) (c' : Cursor) (hrc : failed rc = true)
      (hinstalled : w'.ctxSet = true) (hsent : w'.ctx.headerSent = true)
      (hforwarded : Forwarded env p w w') (hheader : p = .header → Accepts p c)
      (hwhy : readBufs p c.rest = none ∨ Troubled env w.r.conf) : Result env p w c ⟨rc, w', c'⟩

theorem Outcome.result {r : Return} (h : Live env p w) (ho : Outcome env p w c (.done r)) :
    Result env p w c r := by
  cases ho with
  | waits c' hreads hthrough hrest =>
    exact .pauses p w c' (Moved.refl h hreads hthrough hrest) hrest
  | ends t behind w' c' he => exact .ends t behind w' c' he
  | rejects w' c' hp hr hwhy => exact .rejects w' c' hp hr hwhy
  | fails rc w' c' hrc hinstalled hsent hforwarded hheader hwhy =>
    exact .fails rc w' c' hrc hinstalled hsent hforwarded hheader (hwhy.imp_left And.right)

/-- Only the first turn may reject the header. -/
theorem Moved.result {r : Return} (h : Moved env p w c p' w' c') (hp' : p' ≠ .header)
    (hr : Result env p' w' c' r) : Result env p w c r := by
  cases hr with
  | pauses p'' w'' c'' hm hrest => exact .pauses p'' w'' c'' (h.trans hp' hm) hrest
  | ends t behind w'' c'' he => exact .ends t behind w'' c'' (h.ended he)
  | rejects w'' c'' hp hr hwhy => exact absurd hp hp'
  | fails rc w'' c'' hrc hinstalled hsent hforwarded hheader hwhy =>
    refine .fails rc w'' c'' hrc hinstalled hsent (h.forwards hforwarded)
      (fun hp => h.accepted hp hp') ?_
    rwa [h.reads, ← h.request.1]

end

/-! ## What keeps the invariant -/

variable (env : Env)

theorem Live.header_unsent {w : World} (h : Live env .header w) : w.ctx.headerSent = false := by
  have := h.headerSent
  simpa using this

/-- Whether the last write marks its buf can be told from the text alone. -/
theorem Live.marks {p : Progress} {w : World} {t : Table} (h : Live env p w)
    (hjson : render w.r.conf env.complexValue t =
      jsonSoFar w.r.conf env.complexValue p ++ lastPiece w.r.conf env.complexValue t) :
    decide (Marks w.r.conf.bufBytes w.out (lastPiece w.r.conf env.complexValue t).length) =
      closes w.r.conf env.complexValue t := by
  have hbefore : (render w.r.conf env.complexValue t).length -
      (lastPiece w.r.conf env.complexValue t).length =
      (jsonSoFar w.r.conf env.complexValue p).length := by
    rw [hjson, List.length_append, Nat.add_sub_cancel]
  unfold closes
  dsimp only
  rw [hbefore]
  exact decide_eq_decide.mpr (marks_iff (Ready.avail_le h.ready) h.room)

/-- What the last write of a turn comes to. -/
theorem Live.wrote {p : Progress} {w : World} {t : Table} {o : OutCtx} (h : Live env p w)
    (hjson : render w.r.conf env.complexValue t =
      jsonSoFar w.r.conf env.complexValue p ++ lastPiece w.r.conf env.complexValue t)
    (hw : Wrote w.r.conf.bufBytes (w.r.main && decide (Marks w.r.conf.bufBytes w.out
        (lastPiece w.r.conf env.complexValue t).length))
      { w.out with seenStreamEnd := true } o (lastPiece w.r.conf env.complexValue t)) :
    ∃ bytes, render w.r.conf env.complexValue t =
        jsonSoFar w.r.conf env.complexValue p ++ bytes ∧ bytes ≠ [] ∧
      Wrote w.r.conf.bufBytes (w.r.main && closes w.r.conf env.complexValue t)
        { w.out with seenStreamEnd := true } o bytes := by
  rw [h.marks env hjson] at hw
  exact ⟨_, hjson, lastPiece_ne_nil _ _ _, hw⟩

/-- Nothing was said downstream, and the request is as it was. -/
structure Still (w w' : World) : Prop where
  r : w'.r = w.r
  ctxSet : w'.ctxSet = w.ctxSet
  trace : w'.trace = w.trace
  headerSent : w'.ctx.headerSent = w.ctx.headerSent

/-- Past the header a failing turn has said nothing downstream. -/
theorem Live.fails {E : Fault → Prop} {p : Progress} {w w' : World} {c c' : Cursor} {rc : Int}
    (h : Live env p w) (hp : p ≠ .header) (hrc : failed rc = true) (hstill : Still w w')
    (hwhy : readBufs p c.rest = none ∨ Troubled env w.r.conf) :
    Yields E (ret rc w' c') (Outcome env p w c) := by
  refine Outcome.fails rc w' c' hrc (hstill.ctxSet.trans h.installed)
    (hstill.headerSent.trans (h.headerSent.mpr hp)) ?_ (fun he => absurd he hp)
    (hwhy.imp_left fun hnone => ⟨hp, hnone⟩)
  rw [Forwarded, if_neg hp]
  exact ⟨hstill.r, hstill.trace⟩

/-- What a record adds, on top of the room there was. -/
theorem Live.room_next {p p' : Progress} {w : World} {o : OutCtx} {bytes laid : Bytes}
    (h : Live env p w) (hadd : Added w.r.conf.bufBytes w.out o bytes laid)
    (hjson : jsonSoFar w.r.conf env.complexValue p' =
      jsonSoFar w.r.conf env.complexValue p ++ bytes) :
    ((jsonSoFar w.r.conf env.complexValue p').length + o.availOut) % w.r.conf.bufBytes = 0 := by
  rw [hjson, List.length_append]
  exact Added.room hadd h.room

/-- Past the header a turn that goes on has said nothing downstream either. -/
theorem Live.moves {p q : Progress} {w w' : World} {c c' : Cursor} {bytes : Bytes}
    (h : Live env p w) (hp : p ≠ .header) (hq : q ≠ .header) (hdone : q.isDone = false)
    (hstill : Still w w') (hagrees : Agrees w'.ctx q) (hok : q.Ok)
    (hready : Ready w.r.conf.bufBytes w'.out)
    (hadd : Added w.r.conf.bufBytes w.out w'.out bytes (pending w'.out))
    (hjson : jsonSoFar w.r.conf env.complexValue q =
      jsonSoFar w.r.conf env.complexValue p ++ bytes)
    (hsup : q.midValue = true → Supported w.r.conf)
    (hreads : readBufs p c.rest = readBufs q c'.rest) (hthrough : Through c c') :
    Moved env p w c q w' c' := by
  refine ⟨⟨hstill.ctxSet.trans h.installed, hagrees, hok, hdone, ?_, ?_, hadd.seen.trans h.seen,
    ?_, ?_⟩, fun he => absurd he hq, fun he _ => absurd he hp, hreads, hthrough, ?_,
    ⟨bytes, hjson, hadd⟩⟩
  · rw [hstill.headerSent]
    exact ⟨fun _ => hq, fun _ => h.headerSent.mpr hp⟩
  · rw [hstill.r]
    exact hready
  · rw [hstill.r]
    exact h.room_next env hadd hjson
  · rw [hstill.r]
    exact hsup
  · rw [if_neg hq, Forwarded, if_neg hp]
    exact ⟨hstill.r, hstill.trace⟩

end RdsJson.Simulation
