import RdsJson.Simulation

/-! # What each processor does

One theorem for each of the five processors: its turn is one of those that
`Outcome` lists, and takes the step that the reader takes. -/
namespace RdsJson.Turns
open RdsJson.Lib.LittleEndian RdsJson.Lib.TailLoop RdsJson.Lib.Outcome RdsJson.Nginx RdsJson.Rds
open RdsJson.Util RdsJson.Conf RdsJson.Context RdsJson.OutputMem RdsJson.Output RdsJson.Processor
open RdsJson.Format RdsJson.ResultSet RdsJson.Reader RdsJson.Render RdsJson.WriteLayer
open RdsJson.Generators RdsJson.Simulation

variable (env : Env)

/-! ## The header -/

theorem sendHeader_error {w : World} (h : w.r.status = NGX_HTTP_INTERNAL_SERVER_ERROR) :
    sendHeader env w = nextHeaderFilter env { w with ctxSet := false } := by
  have hbad : w.r.status ≥ NGX_HTTP_SPECIAL_RESPONSE := by rw [h]; decide
  rw [sendHeader, headerFilter, if_pos (.inr (.inl hbad))]

/-- Off the request, the special buf passes by the module. -/
theorem sendSpecial_uninstalled {w : World} (h : w.ctxSet = false) :
    ∃ rc w', sendSpecial env w = .ok (rc, w') ∧ w'.ctxSet = false ∧ w'.ctx = w.ctx ∧ w'.r = w.r ∧
      ((w'.trace = w.trace ∧ ∃ k, env.alloc k = false) ∨
        w'.trace = w.trace ++ [.body [specialBuf w.r.main]]) := by
  unfold sendSpecial World.palloc OutCtx.palloc
  dsimp only
  cases hal : env.alloc w.out.allocs with
  | false => exact ⟨_, _, rfl, h, rfl, rfl, .inl ⟨rfl, _, hal⟩⟩
  | true =>
    rw [if_neg (by decide), if_pos (.inr (by rw [h]; rfl))]
    exact ⟨_, _, rfl, h, rfl, rfl, .inr rfl⟩

/-- Sending the error header takes the context off the request. -/
theorem invalid_spec {w : World} (c : Cursor) (hsent : w.ctx.headerSent = false) :
    ∃ w', invalid env w c = ret NGX_ERROR w' c ∧ Refused env w w' := by
  unfold invalid
  rw [hsent, Bool.not_false, if_pos rfl]
  dsimp only
  rw [sendHeader_error env rfl]
  obtain ⟨rc, w', heq, hset, hctx, hr, htrace⟩ := sendSpecial_uninstalled env
    (w := (nextHeaderFilter env { w with
      ctx := { w.ctx with headerSent := true }
      ctxSet := false
      r := { w.r with status := NGX_HTTP_INTERNAL_SERVER_ERROR } }).2) rfl
  rw [heq]
  refine ⟨w', rfl, hset, by rw [hctx]; rfl, ?_, hr⟩
  rcases htrace with ⟨htrace, hal⟩ | htrace
  · exact ⟨[], htrace, .inl ⟨rfl, hal⟩⟩
  · exact ⟨[.body [specialBuf w.r.main]], by rw [htrace]; simp [nextHeaderFilter,
      NGX_HTTP_INTERNAL_SERVER_ERROR], .inr rfl⟩

theorem sendPostponedHeader_unsent {w : World} (h : w.ctx.headerSent = false) :
    sendPostponedHeader env w =
      nextHeaderFilter env { w with ctx := { w.ctx with headerSent := true } } := by
  rw [sendPostponedHeader, h]
  rfl

/-- A header without columns is answered at once. -/
theorem processHeader_empty {w : World} {c : Cursor} {passed next : List Buf} {b : Buf}
    {hd : Header} (h : Live env .header w) (ho : Opened .header c passed b next) (n : Nat)
    (hdec : decodeHeader b.rest = some (hd, (b.advance n).rest)) (hzero : hd.colCount = 0)
    (hend : (b.advance n).rest = []) (hheader : Accepts .header c) :
    let w₁ := { w with ctx := { w.ctx with state := .done } }
    Yields (EndlessIn w.r.conf.bufBytes)
      (let (rc, w) := sendPostponedHeader env w₁
        if failed rc then ret rc w ⟨passed, b.advance n :: next⟩
        else do
          let (rc, out) ← outputHeader env w.r w.out hd
          let w := { w with out := out }
          if failed rc then ret rc w ⟨passed, b.advance n :: next⟩
          else ret rc w ⟨passed, discardBufs (b.advance n :: next)⟩)
      (Outcome env .header w c) := by
  intro w₁
  rw [sendPostponedHeader_unsent env (show w₁.ctx.headerSent = false from h.header_unsent)]
  unfold nextHeaderFilter
  dsimp only
  split
  · next hrc =>
    exact .fails _ _ _ hrc h.installed rfl (by rw [Forwarded, if_pos rfl]; exact ⟨rfl, rfl⟩)
      (fun _ => hheader) (.inr (.inr (.inl ⟨_, hrc⟩)))
  · have hstep : readStep .header b.rest = some (.done ⟨hd, [], []⟩, []) := by
      rw [hend] at hdec
      simp [readStep, hdec, hzero]
    have hok : Table.Ok ⟨hd, [], []⟩ := (readStep_spec (p := .header) trivial hstep).1
    refine (outputHeader_spec env (r := { w.r with headerOnly := _ }) h.ready hd).bind ?_
    rintro ⟨rc, out⟩ (⟨rfl, hw, -⟩ | ⟨rfl, hal⟩)
    · refine .ends ⟨hd, [], []⟩ next _ _ ⟨?_, hok, ?_, ?_, ?_, h.installed, rfl, rfl,
        h.wrote env rfl hw⟩
      · rw [ho.reads, continues_of_readStep hstep, if_pos rfl]
        exact readBufs_done _ next
      · have hkeep := ho.keep n
        refine ⟨?_, hkeep.passed⟩
        rw [← hkeep.whole]
        simp [Cursor.chain, discardBufs, Buf.discard]
      · rw [if_pos rfl]
        intro b' hb'
        obtain ⟨b'', -, rfl⟩ := List.mem_map.mp hb'
        exact Buf.discard_rest b''
      · rw [Forwarded, if_pos rfl]
        exact ⟨rfl, rfl⟩
    · exact .fails _ _ _ rfl h.installed rfl (by rw [Forwarded, if_pos rfl]; exact ⟨rfl, rfl⟩)
        (fun _ => hheader) (.inr (.inl hal))

theorem processHeader_outcome {w : World} (c : Cursor) (h : Live env .header w) :
    Yields (EndlessIn w.r.conf.bufBytes) (processHeader env w c) (Outcome env .header w c) := by
  have hopen := openBuf_spec c (p := .header) rfl rfl
  have hreject (w₁ : World) (c' : Cursor) (hsent : w₁.ctx.headerSent = false)
      (hr : w₁.r = w.r) (htrace : w₁.trace = w.trace)
      (hwhy : Refuses .header c ∨ OpensCols .header c ∧ env.alloc w.out.allocs = false) :
      Yields (EndlessIn w.r.conf.bufBytes) (invalid env w₁ c') (Outcome env .header w c) := by
    obtain ⟨w', heq, href⟩ := invalid_spec env c' hsent
    rw [heq]
    refine .rejects w' c' rfl ⟨href.uninstalled, href.headerSent, ?_, ?_⟩ hwhy
    · rw [← htrace, ← hr]
      exact href.trace
    · rw [href.r]
      simp only [nextHeaderFilter, hr, htrace]
  have hunsent := h.header_unsent
  unfold processHeader
  cases ho : openBuf c with
  | stop c' =>
    rw [ho] at hopen
    exact .waits c' hopen.1 hopen.2.1 hopen.2.2
  | notInMemory =>
    exact hreject w c hunsent rfl rfl (.inl (by rw [Refuses, ho]; trivial))
  | buf passed b next =>
    rw [ho] at hopen
    have hrefuses (hstep : readStep .header b.rest = none) : Refuses .header c := by
      rw [Refuses, ho]
      exact hstep
    have haccepts {s : Progress × Bytes} (hstep : readStep .header b.rest = some s) :
        Accepts .header c := by
      rw [Accepts, ho]
      simp [hstep]
    have hparse := parseHeader_decode b
    dsimp only
    cases hdec : decodeHeader b.rest with
    | none =>
      rw [hdec] at hparse
      obtain ⟨b', hparse⟩ := hparse
      rw [hparse]
      exact hreject w _ hunsent rfl rfl (.inl (hrefuses (by simp [readStep, hdec])))
    | some r =>
      obtain ⟨hd, t⟩ := r
      rw [hdec] at hparse
      obtain ⟨hparse, ht⟩ := hparse
      rw [hparse]
      simp only [ok_bind]
      split
      · next hzero =>
        split
        · next hne =>
          refine hreject w _ hunsent rfl rfl (.inl (hrefuses ?_))
          rw [ht] at hne
          simp [readStep, hdec, hzero, hne]
        · next hend =>
          rw [not_not] at hend
          rw [hend] at ht
          exact processHeader_empty env h hopen _ (by rw [hdec, hend, ht]) hzero hend
            (haccepts (s := (.done ⟨hd, [], []⟩, [])) (by simp [readStep, hdec, hzero, ← ht]))
      · next hzero =>
        unfold World.palloc OutCtx.palloc
        dsimp only
        have hstep : readStep .header b.rest = some (.cols hd [], t) := by
          simp [readStep, hdec, hzero]
        have hopens : OpensCols .header c := by
          rw [OpensCols, ho]
          exact ⟨hd, t, hstep⟩
        cases hal : env.alloc w.out.allocs with
        | false => exact hreject _ _ hunsent rfl rfl (.inr ⟨hopens, hal⟩)
        | true =>
          rw [if_neg (by decide), sendPostponedHeader_unsent env ?unsent]
          case unsent => exact hunsent
          unfold nextHeaderFilter
          dsimp only
          split
          · next hrc =>
            exact .fails _ _ _ hrc h.installed rfl
              (by rw [Forwarded, if_pos rfl]; exact ⟨rfl, rfl⟩) (fun _ => haccepts hstep)
              (.inr (.inr (.inl ⟨_, hrc⟩)))
          · obtain ⟨hthrough, hreads⟩ := hopen.leave _
              (q := .cols hd []) (by rw [ht]; exact continues_of_readStep hstep) rfl
            refine Moved.enter (q := .cols hd []) (by simp) ⟨⟨h.installed, ?_,
              (readStep_spec (p := .header) trivial hstep).1, rfl, ?_, h.ready.alloc _, h.seen,
              h.room, fun hm => by cases hm⟩, fun _ => rfl, fun _ _ => haccepts hstep, hreads,
              hthrough, ?_, ?_⟩ rfl
            · exact ⟨rfl, rfl, rfl, by simp⟩
            · simp
            · rw [if_neg (by simp), Forwarded, if_pos rfl]
              exact ⟨rfl, rfl⟩
            · exact ⟨[], rfl, ⟨by simp [pending, chain, memory], rfl, by simp, fun hf => hf, rfl⟩⟩

/-! ## Column specs -/

/-- What `beginRows` changes besides the output. -/
structure RowsBegun (w w' : World) : Prop extends Still w w' where
  state : w'.ctx.state = .expectRow
  colCount : w'.ctx.colCount = w.ctx.colCount
  cols : w'.ctx.cols = w.ctx.cols
  row : w'.ctx.row = 0

theorem beginRows_spec {w : World} (h : Header) {cs : List Column}
    (hready : Ready w.r.conf.bufBytes w.out) (hcount : w.ctx.colCount = cs.length)
    (hcols : w.ctx.cols = cs.map some) :
    Yields (EndlessIn w.r.conf.bufBytes) (beginRows env w) fun x =>
      RowsBegun w x.2 ∧
      match x.1 with
      | none => Ready w.r.conf.bufBytes x.2.out ∧ Added w.r.conf.bufBytes w.out x.2.out
          (tableText w.r.conf env.complexValue ⟨h, cs, []⟩) (pending x.2.out)
      | some rc => failed rc = true ∧ ∃ k, env.alloc k = false := by
  have hroot : Yields (EndlessIn w.r.conf.bufBytes)
      (if w.r.conf.root.len ≠ 0 then outputProps env w.r w.out else .ok (NGX_OK, w.out)) fun x =>
      (x.1 = NGX_OK ∧ Ready w.r.conf.bufBytes x.2 ∧ Added w.r.conf.bufBytes w.out x.2
        (beginText w.r.conf env.complexValue) (pending x.2)) ∨
      (x.1 = NGX_ERROR ∧ ∃ k, env.alloc k = false) := by
    split
    · next hne => exact (outputProps_spec env hready hne).mono fun x hx => Ends.cases env hx
    · next heq =>
      rw [not_not] at heq
      refine .inl ⟨rfl, hready, ?_⟩
      rw [beginText, if_pos heq]
      exact Added.refl _
  unfold beginRows
  refine hroot.bind ?_
  rintro ⟨rc, o₁⟩ (⟨rfl, hr₁, ha₁⟩ | ⟨rfl, hal⟩)
  case inr => exact ⟨⟨⟨rfl, rfl, rfl, rfl⟩, rfl, rfl, rfl, rfl⟩, rfl, hal⟩
  refine (writeMem_piece env hr₁ (lit "[") false).bind ?_
  rintro ⟨rc, o₂⟩ hx
  rcases Ends.cases env hx with ⟨rfl, hr₂, ha₂⟩ | ⟨rfl, hal⟩
  case inr => exact ⟨⟨⟨rfl, rfl, rfl, rfl⟩, rfl, rfl, rfl, rfl⟩, rfl, hal⟩
  have ha := ha₁.trans ha₂
  by_cases hfmt : w.r.conf.format = some .compact
  · have htext := tableText_nil w.r.conf env.complexValue h cs
    rw [if_pos (compact_of_compact hfmt), ← List.append_assoc] at htext
    show Yields _ (if w.r.conf.format = some .compact then _ else _) _
    rw [if_pos hfmt]
    have hnames := outputCols_spec env (r := w.r) (c := { w.ctx with state := .expectRow, row := 0 })
      hr₂ hcount hcols
    refine hnames.bind ?_
    rintro ⟨rc, ctx, o₃⟩ ⟨hctx, hx⟩
    dsimp only at hctx hx
    subst hctx
    rcases Ends.cases env hx with ⟨rfl, hr₃, ha₃⟩ | ⟨rfl, hal⟩
    · exact ⟨⟨⟨rfl, rfl, rfl, rfl⟩, rfl, rfl, rfl, rfl⟩, hr₃, htext ▸ ha.trans ha₃⟩
    · exact ⟨⟨⟨rfl, rfl, rfl, rfl⟩, rfl, rfl, rfl, rfl⟩, rfl, hal⟩
  · have htext := tableText_nil w.r.conf env.complexValue h cs
    rw [if_neg (by simpa [compact] using hfmt), List.append_nil] at htext
    show Yields _ (if w.r.conf.format = some .compact then _ else _) _
    rw [if_neg hfmt]
    exact ⟨⟨⟨rfl, rfl, rfl, rfl⟩, rfl, rfl, rfl, rfl⟩, hr₂, htext ▸ ha⟩

theorem cols_set (cs : List Column) (c : Column) {n : Nat} (h : cs.length < n) :
    (cs.map some ++ List.replicate (n - cs.length) none).set cs.length (some c) =
      (cs ++ [c]).map some ++ List.replicate (n - (cs ++ [c]).length) none := by
  obtain ⟨k, hk⟩ : ∃ k, n - cs.length = k + 1 := ⟨n - cs.length - 1, by omega⟩
  have hk' : n - (cs ++ [c]).length = k := by
    rw [List.length_append, List.length_singleton]
    omega
  rw [hk, hk', List.set_append_right _ _ (by simp)]
  simp [List.replicate_succ]

theorem processCol_outcome {w : World} (c : Cursor) {hd : Header} {cs : List Column}
    (h : Live env (.cols hd cs) w) :
    Yields (EndlessIn w.r.conf.bufBytes) (processCol env w c) (Outcome env (.cols hd cs) w c) := by
  have hopen := openBuf_spec c (p := .cols hd cs) rfl rfl
  obtain ⟨hstate, hcount, hcur, hcols⟩ := h.agrees
  obtain ⟨-, hlt, -⟩ := id h.ok
  unfold processCol
  cases ho : openBuf c with
  | stop c' =>
    rw [ho] at hopen
    exact .waits c' hopen.1 hopen.2.1 hopen.2.2
  | notInMemory =>
    rw [ho] at hopen
    exact h.fails env (by simp) rfl ⟨rfl, rfl, rfl, rfl⟩ (.inl hopen)
  | buf passed b next =>
    rw [ho] at hopen
    have hidx : ¬ w.ctx.cols.length ≤ w.ctx.curCol := by
      rw [hcols, hcur]
      simp
      omega
    dsimp only
    rw [if_neg hidx]
    unfold World.palloc OutCtx.palloc
    dsimp only
    have hparse := parseCol_decode (env.alloc w.out.allocs) b
    cases hdec : decodeCol b.rest with
    | none =>
      rw [hdec] at hparse
      obtain ⟨b', hparse⟩ := hparse
      rw [hparse]
      refine h.fails env (by simp) rfl ⟨rfl, rfl, rfl, rfl⟩ (.inl ?_)
      rw [hopen.reads, readBuf_eq_none (by simp [readStep, hdec])]
      rfl
    | some r =>
      obtain ⟨col, t⟩ := r
      rw [hdec] at hparse
      rcases hparse with ⟨-, hparse, ht⟩ | ⟨hal, b', hparse⟩
      case inr =>
        rw [hparse]
        exact h.fails env (by simp) rfl ⟨rfl, rfl, rfl, rfl⟩ (.inr (.inl ⟨_, hal⟩))
      rw [hparse]
      simp only [ok_bind]
      have hlen : (cs ++ [col]).length = cs.length + 1 := by simp
      rw [hcur, hcount]
      split
      · next hge =>
        -- that was the last one
        have hstep : readStep (.cols hd cs) b.rest =
            some (.rows ⟨hd, cs ++ [col], []⟩, t) := by
          simp only [readStep, hdec, Option.bind_eq_bind, Option.bind_some]
          rw [if_pos (by omega)]
        obtain ⟨hthrough, hreads⟩ := hopen.leave _ (q := .rows ⟨hd, cs ++ [col], []⟩)
          (by rw [ht]; exact continues_of_readStep hstep) rfl
        have hzero : hd.colCount.toNat - (cs ++ [col]).length = 0 := by omega
        have hall : w.ctx.cols.set cs.length (some col) = (cs ++ [col]).map some := by
          rw [hcols, cols_set _ _ hlt, hzero, List.replicate_zero, List.append_nil]
        have hbegin := beginRows_spec env (w := { w with
          out := { w.out with allocs := w.out.allocs + 1 }
          ctx := { w.ctx with
            cols := w.ctx.cols.set cs.length (some col)
            curCol := cs.length + 1
            colCount := hd.colCount.toNat } }) hd (h.ready.alloc _) (by dsimp only; omega) hall
        refine hbegin.bind ?_
        rintro ⟨rc?, w'⟩ ⟨hb, hx⟩
        have hstill : Still w w' := ⟨hb.r, hb.ctxSet, hb.trace, hb.headerSent⟩
        cases rc? with
        | some rc => exact h.fails env (by simp) hx.1 hstill (.inr (.inl hx.2))
        | none =>
          obtain ⟨hready, hadd⟩ := hx
          have hadd : Added w.r.conf.bufBytes w.out w'.out
              (tableText w.r.conf env.complexValue ⟨hd, cs ++ [col], []⟩) (pending w'.out) :=
            ⟨hadd.laid, hadd.busy, hadd.avail, hadd.fresh, hadd.seen⟩
          exact Moved.enter (by simp) (h.moves env (q := .rows ⟨hd, cs ++ [col], []⟩) (by simp) (by simp) rfl
            hstill ⟨hb.state, hb.colCount.trans (by dsimp only; omega), hb.cols.trans hall, hb.row⟩
            (readStep_spec h.ok hstep).1 hready hadd rfl (fun hm => by cases hm) hreads
            hthrough) hb.state
      · next hge =>
        have hstep : readStep (.cols hd cs) b.rest = some (.cols hd (cs ++ [col]), t) := by
          simp only [readStep, hdec, Option.bind_eq_bind, Option.bind_some]
          rw [if_neg (by omega)]
        obtain ⟨hthrough, hreads⟩ := hopen.leave _ (q := .cols hd (cs ++ [col]))
          (by rw [ht]; exact continues_of_readStep hstep) rfl
        have hcols' := cols_set cs col hlt
        rw [← hcols] at hcols'
        exact Moved.enter (by simp) (h.moves env (q := .cols hd (cs ++ [col])) (by simp) (by simp) rfl
          ⟨rfl, rfl, rfl, rfl⟩ ⟨hstate, rfl, hlen.symm, hcols'⟩ (readStep_spec h.ok hstep).1
          (h.ready.alloc _) (added_alloc _ _ _) rfl (fun hm => by cases hm) hreads
          hthrough) hstate

/-! ## Rows -/

theorem processRow_outcome {w : World} (c : Cursor) {t : Table} (h : Live env (.rows t) w) :
    Yields (EndlessIn w.r.conf.bufBytes) (processRow env w c) (Outcome env (.rows t) w c) := by
  have hopen := openBuf_spec c (p := .rows t) rfl rfl
  obtain ⟨-, hcount, hcols, hrow⟩ := h.agrees
  obtain ⟨hok, hne⟩ := id h.ok
  unfold processRow
  cases ho : openBuf c with
  | stop c' =>
    rw [ho] at hopen
    exact .waits c' hopen.1 hopen.2.1 hopen.2.2
  | notInMemory =>
    rw [ho] at hopen
    exact h.fails env (by simp) rfl ⟨rfl, rfl, rfl, rfl⟩ (.inl hopen)
  | buf passed b next =>
    rw [ho] at hopen
    have hnone (hstep : readStep (.rows t) b.rest = none) : readBufs (.rows t) c.rest = none := by
      rw [hopen.reads, readBuf_eq_none hstep]
      rfl
    dsimp only
    cases hb : b.rest with
    | nil =>
      exact h.fails env (by simp) rfl ⟨rfl, rfl, rfl, rfl⟩ (.inl (hnone (by simp [readStep, hb])))
    | cons f x =>
      obtain ⟨huint, hx⟩ := uint_one hb
      rw [if_neg (by simp), huint]
      simp only [ok_bind, hx]
      have hf0 : f.toNat = 0 ↔ f = 0 := by rw [← UInt8.toNat_inj]; rfl
      split
      · next hzero =>
        rw [hf0] at hzero
        split
        · next hmore =>
          refine h.fails env (by simp) rfl ⟨rfl, rfl, rfl, rfl⟩ (.inl (hnone ?_))
          simp [readStep, hb, hzero, hmore]
        · next hend =>
          have hstep : readStep (.rows t) b.rest = some (.done t, []) := by
            simp [readStep, hb, hzero, not_not.mp hend]
          have htext : (if w.r.conf.root.len ≠ 0 then lit "]\x7d" else lit "]") =
              lastPiece w.r.conf env.complexValue t := by
            rw [lastPiece, if_neg hne, endText, ite_not]
          rw [htext]
          refine (writeMem_spec env h.ready _ false true w.r.main).bind ?_
          rintro ⟨rc, out⟩ (⟨rfl, hw, -⟩ | ⟨rfl, hal⟩)
          · rw [Bool.or_true] at hw
            refine .ends t next _ _ ⟨?_, hok, hopen.keep 1, ?_, ?_, h.installed, rfl,
              h.headerSent.mpr (by simp), h.wrote env ?_ hw⟩
            · rw [hopen.reads, continues_of_readStep hstep, if_pos rfl]
              exact readBufs_done t next
            · rw [if_neg hne]
              exact ⟨b.advance 1, rfl, hx.trans (not_not.mp hend)⟩
            · rw [Forwarded, if_neg (by simp)]
              exact ⟨rfl, rfl⟩
            · rw [render, lastPiece, if_neg hne, if_neg hne]
              rfl
          · exact h.fails env (by simp) rfl ⟨rfl, rfl, rfl, rfl⟩ (.inr (.inl hal))
      · next hflag =>
        rw [hf0] at hflag
        have hstep : readStep (.rows t) b.rest = some (.fields t f [], x) := by
          simp [readStep, hb, hflag]
        obtain ⟨hthrough, hreads⟩ := hopen.leave 1 (q := .fields t f [])
          (by rw [hx]; exact continues_of_readStep hstep) rfl
        refine Moved.enter (by simp) (h.moves env (q := .fields t f []) (by simp) (by simp) rfl
          ⟨rfl, rfl, rfl, rfl⟩
          ⟨rfl, ⟨hcount, hcols, congrArg (· + 1) hrow, rfl, List.length_pos_iff.mpr hne⟩⟩
          (readStep_spec h.ok hstep).1 h.ready (Added.refl _) ?_ (fun hm => by cases hm) hreads
          hthrough) rfl
        simp [jsonSoFar, rowPart]

/-! ## Fields -/

/-- Behind a field: the row goes on, or the next one begins. -/
theorem endField_outcome {B : Nat} {p : Progress} {w w' : World} {c c' : Cursor} {bytes : Bytes}
    {t : Table} {flag : UInt8} {fs : List Field} {f : Field} (h : Live env p w)
    (hp : p ≠ .header) (hstill : Still w w') (hplace : Place t fs w'.ctx)
    (hok : (Reader.endField t flag fs f).Ok) (hready : Ready w.r.conf.bufBytes w'.out)
    (hadd : Added w.r.conf.bufBytes w.out w'.out bytes (pending w'.out))
    (hjson : jsonSoFar w.r.conf env.complexValue (Reader.endField t flag fs f) =
      jsonSoFar w.r.conf env.complexValue p ++ bytes)
    (hreads : readBufs p c.rest = readBufs (Reader.endField t flag fs f) c'.rest)
    (hthrough : Through c c') :
    Yields (EndlessIn B) (Processor.endField w' c') (Outcome env p w c) := by
  have hlen : (fs ++ [f]).length = fs.length + 1 := by simp
  have hcur := hplace.curCol
  have hcount := hplace.colCount
  have hin := hplace.inRow
  unfold Processor.endField
  unfold Reader.endField at hok hjson hreads
  dsimp only
  split
  · next hge =>
    rw [if_pos (by omega)] at hok hjson hreads
    exact Moved.enter (by simp) (h.moves env (q := .rows { t with rows := t.rows ++ [⟨flag, fs ++ [f]⟩] }) hp
      (by simp) rfl ⟨hstill.r, hstill.ctxSet, hstill.trace, hstill.headerSent⟩
      ⟨rfl, hcount, hplace.cols, by dsimp only; rw [hplace.row]; simp⟩ hok hready hadd hjson
      (fun hm => by cases hm) hreads hthrough) rfl
  · next hlt =>
    rw [if_neg (by omega)] at hok hjson hreads
    exact Moved.enter (by simp) (h.moves env (q := .fields t flag (fs ++ [f])) hp (by simp) rfl
      ⟨hstill.r, hstill.ctxSet, hstill.trace, hstill.headerSent⟩
      ⟨rfl, ⟨hcount, hplace.cols, hplace.row, by dsimp only; omega, by omega⟩⟩
      hok hready hadd hjson (fun hm => by cases hm) hreads hthrough) rfl

/-- Behind a piece of a value that more bytes belong to. -/
theorem value_outcome {B : Nat} {p : Progress} {w w' : World} {c c' : Cursor} {bytes got : Bytes}
    {t : Table} {flag : UInt8} {fs : List Field} {missing : Nat} (h : Live env p w)
    (hp : p ≠ .header) (hstill : Still w w') (hsup : Supported w.r.conf)
    (hstate : w'.ctx.state = .expectMoreFieldData) (hplace : Place t fs w'.ctx)
    (hrest : w'.ctx.fieldDataRest = missing) (hok : (Progress.value t flag fs got missing).Ok)
    (hready : Ready w.r.conf.bufBytes w'.out)
    (hadd : Added w.r.conf.bufBytes w.out w'.out bytes (pending w'.out))
    (hjson : jsonSoFar w.r.conf env.complexValue (.value t flag fs got missing) =
      jsonSoFar w.r.conf env.complexValue p ++ bytes)
    (hreads : readBufs p c.rest = readBufs (.value t flag fs got missing) c'.rest)
    (hthrough : Through c c') :
    Yields (EndlessIn B) (enter .expectMoreFieldData w' c') (Outcome env p w c) :=
  Moved.enter (by simp) (h.moves env (q := .value t flag fs got missing) hp (by simp) rfl hstill
    ⟨hstate, hplace, hrest⟩ hok hready hadd hjson (fun _ => hsup) hreads hthrough) hstate

/-- SQL NULL. -/
theorem processField_null {w : World} {c : Cursor} {t : Table} {flag : UInt8} {fs : List Field}
    {passed next : List Buf} {b : Buf} {y : Bytes} (h : Live env (.fields t flag fs) w)
    (ho : openBuf c = .buf passed b next) (hopen : Opened (.fields t flag fs) c passed b next)
    (htake : takeLE 4 b.rest = some (nullLength, y)) :
    Yields (EndlessIn w.r.conf.bufBytes) (processField env w c)
      (Outcome env (.fields t flag fs) w c) := by
  obtain ⟨-, hplace⟩ := h.agrees
  have hrow : RowOpen t flag fs := h.ok
  obtain ⟨col, hcol⟩ : ∃ col, t.cols[fs.length]? = some col :=
    ⟨_, List.getElem?_eq_getElem hrow.length⟩
  obtain ⟨huint, hy⟩ := uint_of_takeLE htake
  have hstep : readStep (.fields t flag fs) b.rest =
      some (Reader.endField t flag fs none, y) := by
    simp [readStep, htake]
  obtain ⟨hthrough, hreads⟩ := hopen.leave 4 (q := Reader.endField t flag fs none)
    (by rw [hy]; exact continues_of_readStep hstep) (by unfold Reader.endField; split <;> rfl)
  have hlen : ¬ b.rest.length < 4 := by
    intro hlt
    simp [takeLE, hlt] at htake
  have hread : (b.advance 4).read 0 = .ok [] := Buf.read_of_le (Nat.zero_le _)
  unfold processField
  rw [ho]
  dsimp only
  rw [if_neg hlen, huint]
  simp only [ok_bind, nullLength, decide_true, if_true, Nat.sub_zero, hread, lt_irrefl, if_false,
    Buf.advance_zero]
  by_cases hsup : Supported w.r.conf
  · refine (outputField_null env h.ready hsup (hplace.frame w.ctx.state 0) hcol rfl).bind ?_
    rintro ⟨rc, o⟩ hx
    rcases Ends.cases env hx with ⟨rfl, hready, hadd⟩ | ⟨rfl, hal⟩
    · refine endField_outcome env h (by simp) ⟨rfl, rfl, rfl, rfl⟩ (hplace.frame w.ctx.state 0)
        (readStep_spec h.ok hstep).1 hready hadd ?_ hreads hthrough
      rw [jsonSoFar_endField _ _ none hrow.length hcol]
      simp [jsonSoFar, closing]
    · exact h.fails env (by simp) rfl ⟨rfl, rfl, rfl, rfl⟩ (.inr (.inl hal))
  · rw [outputField_unsupported env _ _ _ _ _ hsup]
    exact h.fails env (by simp) rfl ⟨rfl, rfl, rfl, rfl⟩ (.inr (.inr (.inr hsup)))

/-- A value, or its first piece. -/
theorem processField_value {w : World} {c : Cursor} {t : Table} {flag : UInt8} {fs : List Field}
    {passed next : List Buf} {b : Buf} {total : Nat} {y : Bytes}
    (h : Live env (.fields t flag fs) w) (ho : openBuf c = .buf passed b next)
    (hopen : Opened (.fields t flag fs) c passed b next)
    (htake : takeLE 4 b.rest = some (total, y)) (hnull : total ≠ nullLength) :
    Yields (EndlessIn w.r.conf.bufBytes) (processField env w c)
      (Outcome env (.fields t flag fs) w c) := by
  obtain ⟨-, hplace⟩ := h.agrees
  have hrow : RowOpen t flag fs := h.ok
  obtain ⟨col, hcol⟩ : ∃ col, t.cols[fs.length]? = some col :=
    ⟨_, List.getElem?_eq_getElem hrow.length⟩
  obtain ⟨huint, hy⟩ := uint_of_takeLE htake
  have htotal : total < nullLength := by
    have := (takeLE_some htake).2
    unfold nullLength at hnull ⊢
    norm_num at this
    omega
  have hlen : ¬ b.rest.length < 4 := by
    intro hlt
    simp [takeLE, hlt] at htake
  obtain ⟨k, hk⟩ : ∃ k, k = min (y.length % 2 ^ 32) total := ⟨_, rfl⟩
  have hky : k ≤ y.length := by
    have := Nat.mod_le y.length (2 ^ 32)
    omega
  have hkt : k ≤ total := by omega
  have hpiece : (y.take k).length + (total - k) = total := by
    rw [List.length_take]
    omega
  have hread : (b.advance 4).read k = .ok (y.take k) := by
    rw [Buf.read_of_le (by rwa [hy]), hy]
  unfold processField
  rw [ho]
  dsimp only
  rw [if_neg hlen, huint]
  unfold nullLength at hnull
  simp only [ok_bind, hnull, decide_false, Bool.false_eq_true, if_false, hy, ← hk, hread,
    Buf.advance_advance]
  by_cases hsup : Supported w.r.conf
  case neg =>
    rw [outputField_unsupported env _ _ _ _ _ hsup]
    exact h.fails env (by simp) rfl ⟨rfl, rfl, rfl, rfl⟩ (.inr (.inr (.inr hsup)))
  have hfields := readStep_fields flag htake hnull hcol hk
  have hout := outputField_value env (y.take k) h.ready hsup
    (hplace.frame w.ctx.state (total - k)) hcol
  dsimp only at hout
  cases hacc : accepts col (y.take k) (total - k) with
  | false =>
    rw [hacc, if_neg Bool.false_ne_true] at hfields hout
    rw [hout]
    refine h.fails env (by simp) rfl ⟨rfl, rfl, rfl, rfl⟩ (.inl ?_)
    rw [hopen.reads, readBuf_eq_none hfields]
    rfl
  | true =>
    rw [hacc, if_pos rfl] at hfields hout
    have hok := behindPiece_ok hrow hcol hacc (by omega)
    have hjson : jsonSoFar w.r.conf env.complexValue
        (behindPiece t flag fs (y.take k) (total - k)) = _ :=
      jsonSoFar_behindPiece env.complexValue flag _ _ hrow.length hcol
    obtain ⟨hthrough, hreads⟩ := hopen.leave (4 + k)
      (q := behindPiece t flag fs (y.take k) (total - k))
      (by rwa [← Buf.advance_advance, Buf.advance_rest, hy])
      (by unfold behindPiece Reader.endField; split_ifs <;> rfl)
    refine hout.bind ?_
    rintro ⟨rc, o⟩ hx
    rcases Ends.cases env hx with ⟨rfl, hready, hadd⟩ | ⟨rfl, hal⟩
    case inr => exact h.fails env (by simp) rfl ⟨rfl, rfl, rfl, rfl⟩ (.inr (.inl hal))
    rw [failed_ok, if_neg Bool.false_ne_true]
    unfold behindPiece at hok hjson hreads
    split
    · next hlt =>
      rw [if_neg (by omega)] at hok hjson hreads
      exact value_outcome env h (by simp) ⟨rfl, rfl, rfl, rfl⟩ hsup rfl (hplace.frame _ _) rfl
        hok hready hadd hjson hreads hthrough
    · next hlt =>
      rw [if_pos (by omega)] at hok hjson hreads
      exact endField_outcome env h (by simp) ⟨rfl, rfl, rfl, rfl⟩ (hplace.frame w.ctx.state _) hok
        hready hadd hjson hreads hthrough

theorem processField_outcome {w : World} (c : Cursor) {t : Table} {flag : UInt8} {fs : List Field}
    (h : Live env (.fields t flag fs) w) :
    Yields (EndlessIn w.r.conf.bufBytes) (processField env w c)
      (Outcome env (.fields t flag fs) w c) := by
  have hopen := openBuf_spec c (p := .fields t flag fs) rfl rfl
  cases ho : openBuf c with
  | stop c' =>
    rw [ho] at hopen
    unfold processField
    rw [ho]
    exact .waits c' hopen.1 hopen.2.1 hopen.2.2
  | notInMemory =>
    rw [ho] at hopen
    unfold processField
    rw [ho]
    exact h.fails env (by simp) rfl ⟨rfl, rfl, rfl, rfl⟩ (.inl hopen)
  | buf passed b next =>
    rw [ho] at hopen
    cases htake : takeLE 4 b.rest with
    | none =>
      have hlt : b.rest.length < 4 := by
        unfold takeLE at htake
        split at htake
        · assumption
        · cases htake
      unfold processField
      rw [ho]
      dsimp only
      rw [if_pos hlt]
      refine h.fails env (by simp) rfl ⟨rfl, rfl, rfl, rfl⟩ (.inl ?_)
      rw [hopen.reads, readBuf_eq_none (by simp [readStep, htake])]
      rfl
    | some r =>
      obtain ⟨total, y⟩ := r
      by_cases hnull : total = nullLength
      · subst hnull
        exact processField_null env h ho hopen htake
      · exact processField_value env h ho hopen htake hnull

/-! ## Later pieces of a value -/

theorem processMoreFieldData_outcome {w : World} (c : Cursor) {t : Table} {flag : UInt8}
    {fs : List Field} {got : Bytes} {missing : Nat} (h : Live env (.value t flag fs got missing) w) :
    Yields (EndlessIn w.r.conf.bufBytes) (processMoreFieldData env w c)
      (Outcome env (.value t flag fs got missing) w c) := by
  obtain ⟨hstate, hplace, hrest⟩ := h.agrees
  have hvalue : ValueOpen t flag fs got missing := h.ok
  obtain ⟨col, hcol, hacc⟩ := hvalue.accepted
  have hunfinished := hvalue.unfinished
  have htotal := hvalue.total
  have hsup := h.supported rfl
  unfold processMoreFieldData
  cases hc : c.rest with
  | nil => exact .waits c (by rw [hc]; rfl) ⟨rfl, fun hp => hp⟩ hc
  | cons b next =>
    dsimp only
    cases hmem : b.inMemory with
    | false =>
      refine h.fails env (by simp) rfl ⟨rfl, rfl, rfl, rfl⟩ (.inl ?_)
      rw [hc]
      cases next <;> simp [readBufs, hmem, Progress.isDone, Progress.midValue]
    | true =>
      have hopen : Opened (.value t flag fs got missing) c c.passed b next :=
        ⟨by simp [Cursor.chain, hc], fun hp => hp, fun _ => hmem, by
          rw [hc]
          exact readBufs_memory rfl hmem⟩
      obtain ⟨k, hk⟩ : ∃ k, k = min b.rest.length missing := ⟨_, rfl⟩
      have hlen : (b.rest.take k).length = k := by rw [List.length_take]; omega
      have hread : b.read k = .ok (b.rest.take k) := Buf.read_of_le (by omega)
      have hstep : readStep (.value t flag fs got missing) b.rest = _ :=
        readStep_value b.rest hcol hk
      have hout := outputMoreFieldData_spec env (b.rest.take k) h.ready hsup
        (hplace.frame .expectMoreFieldData (missing - k)) hcol hvalue.begun
        (rough_ne_bool_of_accepts hvalue.begun hacc (by omega)) hacc
      simp only [Bool.not_true, Bool.false_eq_true, if_false, hrest, ← hk, hread, ok_bind]
      rw [← hstate] at hout
      dsimp only at hout
      cases hacc' : accepts col (got ++ b.rest.take k) (missing - k) with
      | false =>
        rw [hacc', if_neg Bool.false_ne_true] at hstep hout
        rw [hout]
        refine h.fails env (by simp) rfl ⟨rfl, rfl, rfl, rfl⟩ (.inl ?_)
        rw [hopen.reads, readBuf_eq_none hstep]
        rfl
      | true =>
        rw [hacc', if_pos rfl] at hstep hout
        have hok := (readStep_spec h.ok hstep).1
        have hjson : jsonSoFar w.r.conf env.complexValue
            (behindPiece t flag fs (got ++ b.rest.take k) (missing - k)) =
            jsonSoFar w.r.conf env.complexValue (.value t flag fs got missing) ++
              (moreText col (b.rest.take k) (missing - k) ++
                closing w.r.conf t fs (missing - k)) := by
          rw [jsonSoFar_behindPiece env.complexValue flag _ _ hvalue.length hcol,
            pieceText_append _ _ hvalue.begun
              (rough_ne_bool_of_accepts hvalue.begun hacc (by omega))]
          simp only [jsonSoFar, hcol, List.append_assoc]
        obtain ⟨hthrough, hreads⟩ := hopen.leave k
          (q := behindPiece t flag fs (got ++ b.rest.take k) (missing - k))
          (continues_of_readStep hstep) (by unfold behindPiece Reader.endField; split_ifs <;> rfl)
        refine hout.bind ?_
        rintro ⟨rc, o⟩ hx
        rcases Ends.cases env hx with ⟨rfl, hready, hadd⟩ | ⟨rfl, hal⟩
        case inr => exact h.fails env (by simp) rfl ⟨rfl, rfl, rfl, rfl⟩ (.inr (.inl hal))
        rw [failed_ok, if_neg Bool.false_ne_true]
        unfold behindPiece at hok hjson hreads
        split
        · next hne =>
          rw [if_neg hne] at hok hjson hreads
          exact value_outcome env h (by simp) ⟨rfl, rfl, rfl, rfl⟩ hsup hstate
            (hplace.frame w.ctx.state _) rfl hok hready hadd hjson hreads hthrough
        · next hzero =>
          rw [if_pos (not_not.mp hzero)] at hok hjson hreads
          exact endField_outcome env h (by simp) ⟨rfl, rfl, rfl, rfl⟩
            (hplace.frame w.ctx.state _) hok hready hadd hjson hreads hthrough

end RdsJson.Turns
