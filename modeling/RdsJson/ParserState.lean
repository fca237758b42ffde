import RdsJson.Runs

/-! # The state of the parser

What `ctx` may look like between two calls and between two processors. -/
namespace RdsJson.ParserState
open RdsJson.Lib.LittleEndian RdsJson.Lib.TailLoop RdsJson.Lib.Outcome RdsJson.Nginx RdsJson.Rds
open RdsJson.Conf RdsJson.Context RdsJson.Processor RdsJson.FilterModule RdsJson.Format
open RdsJson.ResultSet RdsJson.Reader RdsJson.Generators RdsJson.Simulation RdsJson.Calls RdsJson.Runs

variable {env : Env} {p : Progress} {w : World} {chain : List Buf}

/-- What holds of the parser in each of its states. -/
structure Invariant (ctx : Ctx) : Prop where
  inCols : ctx.state = .expectCol → ctx.curCol < ctx.colCount ∧
    ∀ i < ctx.curCol, ∃ col, ctx.cols[i]? = some (some col)
  named : ctx.state = .expectRow ∨ ctx.state = .expectField ∨ ctx.state = .expectMoreFieldData →
    ∀ i < ctx.colCount, ∃ col, ctx.cols[i]? = some (some col) ∧ col.name ≠ []
  inRow : ctx.state = .expectField ∨ ctx.state = .expectMoreFieldData →
    ctx.curCol < ctx.colCount ∧ 1 ≤ ctx.row
  inValue : ctx.state = .expectMoreFieldData → 0 < ctx.fieldDataRest ∧
    ∃ col, ctx.cols[ctx.curCol]? = some (some col) ∧ col.rough ≠ .bool

/-- The columns of a table are all there, and named. -/
theorem named_of_table {t : Table} {ctx : Ctx} (h : t.Ok) (hcols : ctx.cols = t.cols.map some)
    (hcount : ctx.colCount = t.cols.length) :
    ∀ i < ctx.colCount, ∃ col, ctx.cols[i]? = some (some col) ∧ col.name ≠ [] := by
  intro i hi
  rw [hcount] at hi
  refine ⟨t.cols[i], ?_, (h.colsFit _ (List.getElem_mem hi)).1⟩
  simp [hcols, List.getElem?_eq_getElem hi]

theorem invariant_of_state {ctx : Ctx} (h : ctx.state = .expectHeader ∨ ctx.state = .done) :
    Invariant ctx := by
  rcases h with h | h <;> constructor <;> simp [h]

/-- The invariant is what agreeing with a well-formed progress comes to. -/
theorem Live.invariant (h : Live env p w) : Invariant w.ctx := by
  have hagrees := h.agrees
  have hok := h.ok
  cases p with
  | header => exact invariant_of_state (.inl hagrees)
  | done t => exact invariant_of_state (.inr hagrees)
  | cols hd cs =>
    obtain ⟨hstate, hcount, hcur, hcols⟩ := hagrees
    constructor <;> simp only [hstate, reduceCtorEq, or_self, false_implies, forall_const]
    refine ⟨by rw [hcur, hcount]; exact hok.2.1, fun i hi => ?_⟩
    rw [hcur] at hi
    refine ⟨cs[i], ?_⟩
    rw [hcols, List.getElem?_append_left (by simpa using hi)]
    simp [List.getElem?_eq_getElem hi]
  | rows t =>
    obtain ⟨hstate, hcount, hcols, -⟩ := hagrees
    constructor <;> simp only [hstate, reduceCtorEq, or_self, false_implies, forall_const, true_or]
    exact named_of_table hok.1 hcols hcount
  | fields t flag fs =>
    obtain ⟨hstate, hplace⟩ := hagrees
    have hrow : RowOpen t flag fs := hok
    constructor <;> simp only [hstate, reduceCtorEq, or_false, false_or, false_implies,
      forall_const]
    · exact named_of_table hrow.table hplace.cols hplace.colCount
    · rw [hplace.curCol, hplace.colCount, hplace.row]
      exact ⟨hplace.inRow, Nat.le_add_left _ _⟩
  | value t flag fs got missing =>
    obtain ⟨hstate, hplace, hrest⟩ := hagrees
    have hvalue : ValueOpen t flag fs got missing := hok
    obtain ⟨col, hcol, hacc⟩ := hvalue.accepted
    constructor <;> simp only [hstate, reduceCtorEq, false_implies, or_true, forall_const]
    · exact named_of_table hvalue.table hplace.cols hplace.colCount
    · rw [hplace.curCol, hplace.colCount, hplace.row]
      exact ⟨hplace.inRow, Nat.le_add_left _ _⟩
    · rw [hrest, hplace.cols, hplace.curCol]
      refine ⟨hvalue.unfinished, col, by simp [hcol], ?_⟩
      exact rough_ne_bool_of_accepts hvalue.begun hacc (Nat.pos_iff_ne_zero.mp hvalue.unfinished)

theorem Standing.invariant {calls : List (List Buf)} (h : Standing env calls w) :
    Invariant w.ctx := by
  cases h with
  | live p h hread => exact Live.invariant h
  | past hinstalled hstate hsent => exact invariant_of_state (.inr hstate)
  | off hinstalled hstate hsent => exact invariant_of_state (.inr hstate)

/-- A processor is entered for the state that the context is in. -/
theorem Within.invariant {c : Cursor} {e : Entry} (h : Live env p w) (he : Within env p w c e) :
    e.state = e.w.ctx.state ∧ Invariant e.w.ctx := by
  rcases he with rfl | ⟨q, -, hm, hs⟩
  · exact ⟨rfl, Live.invariant h⟩
  · exact ⟨hs, Live.invariant hm.live⟩

/-- The invariant holds between calls and between processors, and no call reads
or indexes anything out of its bounds: the only fault is the copying loop that
bufs of size zero never end. -/
theorem parser_state_invariant {w₀ : World} {calls : List (List Buf)} {rets : List Return}
    (h : Postponed env w₀) (hrun : runCalls env w₀ calls = .ok (rets, w)) (chain : List Buf) :
    Invariant w.ctx ∧
      (w.ctxSet = true → w.ctx.state ≠ .done → ∀ e,
        (processLoop env).Visits ⟨w.ctx.state, w, ⟨[], chain⟩⟩ e →
          e.state = e.w.ctx.state ∧ Invariant e.w.ctx) ∧
      ∀ f, bodyFilter env w chain = .error f → f = .endless ∧ w.r.conf.bufBytes = 0 := by
  have hs : Standing env calls w := ((standing_of_run h calls).of_eq_ok hrun).1
  refine ⟨Standing.invariant hs, fun hset hstate e hvisits => ?_, fun f hf => ?_⟩
  · cases hs with
    | live p hlive hread =>
      refine Within.invariant hlive (hvisits.invariant (fun e e' he hturn => ?_) (.inl rfl))
      exact (he.turn hlive).of_eq_ok hturn
    | past hinstalled hpast hsent => exact absurd hpast hstate
    | off hinstalled hpast hsent => exact absurd hpast hstate
  · have hcall := hs.call chain
    rw [hf] at hcall
    exact hcall

/-- A call that ends within the first value of a row. -/
theorem parser_state_invariant_midValue : ∃ x,
    runCalls calm (postpone calm (plainConf 4096) true) [[Buf.memory
      (encodeHeader ⟨0, 0, [], 0, 0, 1⟩ ++ encodeCol ⟨0x8000, 0, lit "a"⟩ ++
        (1 :: leBytes 4 5 ++ lit "ab"))]] = .ok x ∧
      x.2.ctx.state = .expectMoreFieldData ∧ Invariant x.2.ctx := by
  refine ⟨_, rfl, rfl, ?_⟩
  exact (parser_state_invariant (postponed_postpone rfl rfl true) (Eq.refl (runCalls calm
    (postpone calm (plainConf 4096) true) [[Buf.memory
      (encodeHeader ⟨0, 0, [], 0, 0, 1⟩ ++ encodeCol ⟨0x8000, 0, lit "a"⟩ ++
        (1 :: leBytes 4 5 ++ lit "ab"))]])) []).1

end RdsJson.ParserState
