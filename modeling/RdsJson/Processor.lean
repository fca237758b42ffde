import RdsJson.Output
import RdsJson.Format

/-! # ngx_http_rds_json_processor.c

The five processors. A processor that calls another one, or itself, does so in
tail position, so one activation is one turn of a loop that says which processor
is entered next; the `for (;;)` rounds of `process_field` and of
`process_more_field_data` are turns of the same loop. -/
namespace RdsJson.Processor
open RdsJson.Lib.LittleEndian RdsJson.Lib.TailLoop RdsJson.Lib.Outcome RdsJson.Nginx RdsJson.Rds
open RdsJson.Format RdsJson.Util RdsJson.Conf RdsJson.Context RdsJson.OutputMem RdsJson.Output

/-- The chain of one call: the bufs `in` has passed, and those from `in` on. -/
structure Cursor where
  passed : List Buf
  rest : List Buf

def Cursor.chain (c : Cursor) : List Buf := c.passed ++ c.rest

/-- `in = b->pos == b->last ? in->next : in`. -/
def Cursor.leave (passed : List Buf) (b : Buf) (next : List Buf) : Cursor :=
  if b.rest = [] then ⟨passed ++ [b], next⟩ else ⟨passed, b :: next⟩

/-- How a processor finds its buf. -/
inductive Opening where
  | stop (c : Cursor)
  | notInMemory
  | buf (passed : List Buf) (b : Buf) (next : List Buf)

/-- The opening of every processor but `process_more_field_data`: one special
buf is skipped, and the buf behind it is taken as it is. -/
def openBuf (c : Cursor) : Opening :=
  match c.rest with
  | [] => .stop c
  | b :: next =>
    if b.inMemory then .buf c.passed b next
    else if !b.special then .notInMemory
    else
      match next with
      | [] => .stop ⟨c.passed ++ [b], []⟩
      | b' :: next' => .buf (c.passed ++ [b]) b' next'

/-- The processor a turn enters, with what it works on. -/
structure Entry where
  state : State
  w : World
  c : Cursor

/-- What a processor returns, and where it left the chain. -/
structure Return where
  rc : Int
  w : World
  c : Cursor

abbrev Step := Except Fault (Turn Entry Return)

def ret (rc : Int) (w : World) (c : Cursor) : Step := .ok (.done ⟨rc, w, c⟩)

/-- A tail call. -/
def enter (state : State) (w : World) (c : Cursor) : Step := .ok (.again ⟨state, w, c⟩)

variable (env : Env)

/-- `ngx_http_rds_json_header_filter`. -/
def headerFilter (w : World) : Int × World :=
  if w.r.status < NGX_HTTP_OK ∨ w.r.status ≥ NGX_HTTP_SPECIAL_RESPONSE ∨
      w.r.status = NGX_HTTP_NO_CONTENT ∨ w.r.status = NGX_HTTP_RESET_CONTENT then
    nextHeaderFilter env { w with ctxSet := false }
  else if w.r.conf.enabled ≠ some true then nextHeaderFilter env w
  else if !testContentType w.r.contentType then nextHeaderFilter env w
  else
    let w := { w with r := { w.r with contentType := w.r.conf.contentType.bytes } }
    let (ok, w) := w.palloc env
    if !ok then (NGX_ERROR, w)
    else (NGX_OK, { w with
      ctx := {
        state := .expectHeader
        colCount := 0
        curCol := 0
        cols := []
        row := 0
        fieldDataRest := 0
        headerSent := false
        generatedColNames := false }
      out := { w.out with
        out := []
        busyBufs := []
        freeBufs := []
        cached := none
        postponed := none
        availOut := 0
        seenStreamEnd := false }
      ctxSet := true
      r := { w.r with contentLength := none, filterNeedInMemory := true } })

/-- `ngx_http_send_header`: the header filter chain from its top. -/
def sendHeader (w : World) : Int × World := headerFilter env w

/-- The buf `ngx_http_send_special` makes for `NGX_HTTP_LAST`. -/
def specialBuf (main : Bool) : Buf where
  inMemory := false
  inFile := false
  flush := false
  lastBuf := main
  sync := !main
  before := []
  rest := []
  noData _ := rfl

/-- `ngx_http_send_special`: the body filter chain from its top, that is, this
module's body filter inside a call of it. With a context still at work there it
would be entered a second time. -/
def sendSpecial (w : World) : Except Fault (Int × World) :=
  let (ok, w) := w.palloc env
  if !ok then .ok (NGX_ERROR, w)
  else
    let chain := [specialBuf w.r.main]
    if w.r.headerOnly ∨ !w.ctxSet then .ok (nextBodyFilter env w chain)
    else if w.ctx.state = .done then .ok (NGX_OK, w)
    else .error .reentered

/-- `invalid:` in `process_header`. -/
def invalid (w : World) (c : Cursor) : Step :=
  if !w.ctx.headerSent then do
    let w := { w with
      ctx := { w.ctx with headerSent := true }
      r := { w.r with status := NGX_HTTP_INTERNAL_SERVER_ERROR } }
    let (_, w) := sendHeader env w
    let (_, w) ← sendSpecial env w
    ret NGX_ERROR w c
  else ret NGX_ERROR w c

/-- "now we send the postponed response header". -/
def sendPostponedHeader (w : World) : Int × World :=
  if !w.ctx.headerSent then
    nextHeaderFilter env { w with ctx := { w.ctx with headerSent := true } }
  else (NGX_OK, w)

def processHeader (w : World) (c : Cursor) : Step :=
  match openBuf c with
  | .stop c => ret NGX_OK w c
  | .notInMemory => invalid env w c
  | .buf passed b next => do
    let (header?, b) ← parseHeader b
    match header? with
    | none => invalid env w ⟨passed, b :: next⟩
    | some header =>
      if header.colCount = 0 then
        if b.rest ≠ [] then invalid env w ⟨passed, b :: next⟩
        else
          let w := { w with ctx := { w.ctx with state := .done } }
          let (rc, w) := sendPostponedHeader env w
          if failed rc then ret rc w ⟨passed, b :: next⟩
          else do
            let (rc, out) ← outputHeader env w.r w.out header
            let w := { w with out := out }
            if failed rc then ret rc w ⟨passed, b :: next⟩
            else ret rc w ⟨passed, discardBufs (b :: next)⟩
      else
        let (ok, w) := w.palloc env
        if !ok then invalid env w ⟨passed, b :: next⟩
        else
          let w := { w with ctx := { w.ctx with
            cols := List.replicate header.colCount.toNat none
            state := .expectCol
            curCol := 0
            colCount := header.colCount.toNat } }
          let (rc, w) := sendPostponedHeader env w
          if failed rc then ret rc w ⟨passed, b :: next⟩
          else enter .expectCol w (Cursor.leave passed b next)

/-- The end of the column list: `some rc` where `process_col` returns `rc`. -/
def beginRows (w : World) : Except Fault (Option Int × World) := do
  let w := { w with ctx := { w.ctx with state := .expectRow, row := 0 } }
  let props := if w.r.conf.root.len ≠ 0 then outputProps env w.r w.out else .ok (NGX_OK, w.out)
  let (rc, out) ← props
  let w := { w with out := out }
  if rc = NGX_ERROR ∨ rc > NGX_OK then .ok (some rc, w)
  else
    let (rc, out) ← outputLiteral env w.r.conf.bufBytes w.r.main w.out (lit "[") false
    let w := { w with out := out }
    if rc = NGX_ERROR ∨ rc > NGX_OK then .ok (some rc, w)
    else if w.r.conf.format = some .compact then
      let (rc, ctx, out) ← outputCols env w.r w.ctx w.out
      .ok (if failed rc then some rc else none, { w with ctx := ctx, out := out })
    else .ok (if failed rc then some rc else none, w)

def processCol (w : World) (c : Cursor) : Step :=
  match openBuf c with
  | .stop c => ret NGX_OK w c
  | .notInMemory => ret NGX_ERROR w c
  | .buf passed b next =>
    -- the spec is read straight into `ctx->cols[ctx->cur_col]`
    if w.ctx.cols.length ≤ w.ctx.curCol then .error .colIndex
    else do
      let (palloc, w) := w.palloc env
      let (col?, b) ← parseCol palloc b
      match col? with
      | none => ret NGX_ERROR w ⟨passed, b :: next⟩
      | some col =>
        let c := Cursor.leave passed b next
        let w := { w with ctx := { w.ctx with
          cols := w.ctx.cols.set w.ctx.curCol (some col)
          curCol := w.ctx.curCol + 1 } }
        if w.ctx.curCol ≥ w.ctx.colCount then do
          let (rc?, w) ← beginRows env w
          match rc? with
          | some rc => ret rc w c
          | none => enter .expectRow w c
        else enter .expectCol w c

def processRow (w : World) (c : Cursor) : Step :=
  match openBuf c with
  | .stop c => ret NGX_OK w c
  | .notInMemory => ret NGX_ERROR w c
  | .buf passed b next =>
    if b.rest.length < 1 then ret NGX_ERROR w ⟨passed, b :: next⟩
    else do
      let (flag, b) ← b.uint 1
      if flag = 0 then
        let w := { w with ctx := { w.ctx with state := .done } }
        if b.rest ≠ [] then ret NGX_ERROR w ⟨passed, b :: next⟩
        else
          let (rc, out) ← outputLiteral env w.r.conf.bufBytes w.r.main w.out
            (if w.r.conf.root.len ≠ 0 then lit "]\x7d" else lit "]") true
          ret rc { w with out := out } ⟨passed, b :: next⟩
      else
        let w := { w with ctx := { w.ctx with
          row := w.ctx.row + 1
          curCol := 0
          state := .expectField } }
        enter .expectField w (Cursor.leave passed b next)

/-- What both field processors do once a value is complete. -/
def endField (w : World) (c : Cursor) : Step :=
  let w := { w with ctx := { w.ctx with curCol := w.ctx.curCol + 1 } }
  if w.ctx.curCol ≥ w.ctx.colCount then
    enter .expectRow { w with ctx := { w.ctx with state := .expectRow } } c
  else enter .expectField { w with ctx := { w.ctx with state := .expectField } } c

def processField (w : World) (c : Cursor) : Step :=
  match openBuf c with
  | .stop c => ret NGX_OK w c
  | .notInMemory => ret NGX_ERROR w c
  | .buf passed b next =>
    if b.rest.length < 4 then ret NGX_ERROR w ⟨passed, b :: next⟩
    else do
      let (total, b) ← b.uint 4
      let isNull := decide (total = 2 ^ 32 - 1)
      let total := if isNull then 0 else total
      -- `len = (uint32_t) (b->last - b->pos)`, cut to `total`
      let len := if isNull then 0 else min (b.rest.length % 2 ^ 32) total
      let w := { w with ctx := { w.ctx with fieldDataRest := total - len } }
      let data ← b.read len
      let (rc, out) ← outputField env w.r w.ctx w.out data isNull
      let w := { w with out := out }
      if failed rc then ret rc w ⟨passed, b :: next⟩
      else
        let c := Cursor.leave passed (b.advance len) next
        if len < total then
          enter .expectMoreFieldData
            { w with ctx := { w.ctx with state := .expectMoreFieldData } } c
        else endField w c

/-- Unlike the others this one skips no special buf. -/
def processMoreFieldData (w : World) (c : Cursor) : Step :=
  match c.rest with
  | [] => ret NGX_OK w c
  | b :: next =>
    if !b.inMemory then ret NGX_ERROR w c
    else do
      let len := min b.rest.length w.ctx.fieldDataRest
      let w := { w with ctx := { w.ctx with fieldDataRest := w.ctx.fieldDataRest - len } }
      let data ← b.read len
      let (rc, out) ← outputMoreFieldData env w.r w.ctx w.out data
      let w := { w with out := out }
      if failed rc then ret rc w c
      else
        let c := Cursor.leave c.passed (b.advance len) next
        if w.ctx.fieldDataRest ≠ 0 then enter .expectMoreFieldData w c
        else endField w c

/-- The `switch` of the body filter; `state_done` does not come here. -/
def process (e : Entry) : Step :=
  match e.state with
  | .expectHeader => processHeader env e.w e.c
  | .expectCol => processCol env e.w e.c
  | .expectRow => processRow env e.w e.c
  | .expectField => processField env e.w e.c
  | .expectMoreFieldData => processMoreFieldData env e.w e.c
  | .done => ret NGX_ERROR e.w e.c

/-! ## The loop of the processors -/

/-- What is left of a chain: its bufs and their bytes. -/
def left (chain : List Buf) : Nat := (chain.map fun b => b.rest.length + 1).sum

/-- `process_more_field_data` entered with nothing left of its value returns no
byte and hands the same chain on; it never is, but the measure allows for it. -/
def processMeasure (e : Entry) : Nat :=
  2 * left e.c.rest + (if e.state = .expectMoreFieldData then 1 else 0)

/-- The same as a pair, how many bufs are left and how many bytes in them. Less
is left where neither number is greater and one is smaller. -/
def remaining (chain : List Buf) : Nat × Nat :=
  (chain.length, (chain.map fun b => b.rest.length).sum)

@[simp] theorem remaining_cons (b : Buf) (next : List Buf) :
    remaining (b :: next) = ((remaining next).1 + 1, b.rest.length + (remaining next).2) := rfl

theorem left_eq (chain : List Buf) : left chain = (remaining chain).1 + (remaining chain).2 := by
  induction chain with
  | nil => rfl
  | cons b next ih =>
    rw [left, List.map_cons, List.sum_cons, ← left, ih, remaining_cons]
    omega

theorem left_lt {chain chain' : List Buf} (h : remaining chain' < remaining chain) :
    left chain' < left chain := by
  rw [left_eq, left_eq]
  obtain ⟨hbufs, hbytes⟩ | ⟨hbufs, hbytes⟩ := Prod.lt_iff.mp h <;> omega

theorem left_le {chain chain' : List Buf} (h : remaining chain' ≤ remaining chain) :
    left chain' ≤ left chain := by
  rw [left_eq, left_eq]
  obtain ⟨hbufs, hbytes⟩ := Prod.le_def.mp h
  omega

/-- A buf that is left empty is left behind, whatever it held before. -/
theorem remaining_leave_lt (passed : List Buf) {b b' : Buf} (next : List Buf)
    (h : b'.rest = [] ∨ b'.rest.length < b.rest.length) :
    remaining (Cursor.leave passed b' next).rest < remaining (b :: next) := by
  unfold Cursor.leave
  split
  · exact Prod.lt_iff.mpr (.inl ⟨Nat.lt_succ_self _, Nat.le_add_left _ _⟩)
  · next hne =>
    exact Prod.lt_iff.mpr (.inr ⟨le_rfl, Nat.add_lt_add_right (h.resolve_left hne) _⟩)

theorem remaining_leave_le (passed : List Buf) {b b' : Buf} (next : List Buf)
    (h : b'.rest.length ≤ b.rest.length) :
    remaining (Cursor.leave passed b' next).rest ≤ remaining (b :: next) := by
  unfold Cursor.leave
  split
  · exact Prod.le_def.mpr ⟨Nat.le_succ _, Nat.le_add_left _ _⟩
  · exact Prod.le_def.mpr ⟨le_rfl, Nat.add_le_add_right h _⟩

theorem remaining_openBuf {c : Cursor} {passed : List Buf} {b : Buf} {next : List Buf}
    (h : openBuf c = .buf passed b next) : remaining (b :: next) ≤ remaining c.rest := by
  unfold openBuf at h
  split at h
  · cases h
  · next b' next' hc =>
    split at h
    · cases h
      rw [hc]
    · split at h
      · cases h
      · split at h
        · cases h
        · cases h
          rw [hc]
          exact Prod.le_def.mpr ⟨Nat.le_succ _, Nat.le_add_left _ _⟩

/-- The buf that was opened lost a byte. -/
theorem remaining_opened {c : Cursor} {passed : List Buf} {b b' : Buf} {next : List Buf}
    (ho : openBuf c = .buf passed b next) (h : b'.rest.length < b.rest.length) :
    remaining (Cursor.leave passed b' next).rest < remaining c.rest :=
  (remaining_leave_lt passed next (.inr h)).trans_le (remaining_openBuf ho)

theorem enter_ok {s : State} {w : World} {c : Cursor} {e : Entry}
    (h : enter s w c = .ok (.again e)) : e = ⟨s, w, c⟩ := by
  cases h
  rfl

theorem ret_ne_again {rc : Int} {w : World} {c : Cursor} {e : Entry} :
    ret rc w c ≠ .ok (.again e) := fun h => by cases h

theorem endField_ok {w : World} {c : Cursor} {e : Entry} (h : endField w c = .ok (.again e)) :
    e.c = c ∧ e.state ≠ .expectMoreFieldData := by
  unfold endField at h
  dsimp only at h
  split at h <;> rw [enter_ok h] <;> exact ⟨rfl, by simp⟩

theorem nextField_again {P : Prop} [Decidable P] {s : State} {w w' : World} {c : Cursor}
    {e : Entry} (h : (if P then enter s w c else endField w' c) = .ok (.again e)) : e.c = c := by
  split at h
  · rw [enter_ok h]
  · exact (endField_ok h).1

theorem invalid_ne_again {w : World} {c : Cursor} {e : Entry} :
    invalid env w c ≠ .ok (.again e) := by
  intro h
  unfold invalid at h
  split at h
  · obtain ⟨_, -, h⟩ := bind_eq_ok.mp h
    exact ret_ne_again h
  · exact ret_ne_again h

theorem processHeader_again {w : World} {c : Cursor} {e : Entry}
    (h : processHeader env w c = .ok (.again e)) : remaining e.c.rest < remaining c.rest := by
  unfold processHeader at h
  split at h
  · exact absurd h ret_ne_again
  · exact absurd h (invalid_ne_again env)
  · next passed b next ho =>
    obtain ⟨header?, b', hparse, hspec⟩ := parseHeader_spec b
    rw [hparse] at h
    simp only [ok_bind] at h
    split at h
    · exact absurd h (invalid_ne_again env)
    · next header =>
      have hlen := congrArg List.length (hspec header rfl).2.1
      rw [List.length_append, encodeHeader_length] at hlen
      split at h
      · split at h
        · exact absurd h (invalid_ne_again env)
        · split at h
          · exact absurd h ret_ne_again
          · obtain ⟨x, -, h⟩ := bind_eq_ok.mp h
            split at h <;> exact absurd h ret_ne_again
      · split at h
        · exact absurd h (invalid_ne_again env)
        · split at h
          · exact absurd h ret_ne_again
          · rw [enter_ok h]
            exact remaining_opened ho (by omega)

theorem processCol_again {w : World} {c : Cursor} {e : Entry}
    (h : processCol env w c = .ok (.again e)) : remaining e.c.rest < remaining c.rest := by
  unfold processCol at h
  split at h
  · exact absurd h ret_ne_again
  · exact absurd h ret_ne_again
  · next passed b next ho =>
    split at h
    · cases h
    · obtain ⟨col?, b', hparse, hspec⟩ := parseCol_spec (w.palloc env).1 b
      dsimp only at h
      rw [hparse] at h
      simp only [ok_bind] at h
      split at h
      · exact absurd h ret_ne_again
      · next col =>
        have hlen := congrArg List.length (hspec col rfl).2.2.1
        rw [List.length_append, encodeCol_length] at hlen
        have hless : b'.rest.length < b.rest.length := by omega
        split at h
        · obtain ⟨x, -, h⟩ := bind_eq_ok.mp h
          split at h
          · exact absurd h ret_ne_again
          · rw [enter_ok h]
            exact remaining_opened ho hless
        · rw [enter_ok h]
          exact remaining_opened ho hless

theorem processRow_again {w : World} {c : Cursor} {e : Entry}
    (h : processRow env w c = .ok (.again e)) : remaining e.c.rest < remaining c.rest := by
  unfold processRow at h
  split at h
  · exact absurd h ret_ne_again
  · exact absurd h ret_ne_again
  · next passed b next ho =>
    split at h
    · exact absurd h ret_ne_again
    · next hlen =>
      rw [Buf.uint_of_le (Nat.not_lt.mp hlen)] at h
      simp only [ok_bind] at h
      split at h
      · split at h
        · exact absurd h ret_ne_again
        · obtain ⟨x, -, h⟩ := bind_eq_ok.mp h
          exact absurd h ret_ne_again
      · rw [enter_ok h]
        refine remaining_opened ho ?_
        rw [Buf.advance_rest, List.length_drop]
        omega

/-- Every field takes the four bytes of its length, even where it has no data. -/
theorem processField_again {w : World} {c : Cursor} {e : Entry}
    (h : processField env w c = .ok (.again e)) : remaining e.c.rest < remaining c.rest := by
  unfold processField at h
  split at h
  · exact absurd h ret_ne_again
  · exact absurd h ret_ne_again
  · next passed b next ho =>
    split at h
    · exact absurd h ret_ne_again
    · next hlen =>
      rw [Buf.uint_of_le (Nat.not_lt.mp hlen)] at h
      simp only [ok_bind] at h
      obtain ⟨data, -, h⟩ := bind_eq_ok.mp h
      obtain ⟨x, -, h⟩ := bind_eq_ok.mp h
      split at h
      · exact absurd h ret_ne_again
      · rw [nextField_again h]
        refine remaining_opened ho ?_
        rw [Buf.advance_advance, Buf.advance_rest, List.length_drop]
        omega

/-- More data leaves a buf behind, or takes bytes of it, as long as any are
missing; entered with none missing it would hand the chain on as it is. -/
theorem processMoreFieldData_again {w : World} {c : Cursor} {e : Entry}
    (h : processMoreFieldData env w c = .ok (.again e)) :
    remaining e.c.rest < remaining c.rest ∨
      (w.ctx.fieldDataRest = 0 ∧ e.state ≠ .expectMoreFieldData ∧
        remaining e.c.rest ≤ remaining c.rest) := by
  unfold processMoreFieldData at h
  split at h
  · exact absurd h ret_ne_again
  · next b next hc =>
    rw [hc]
    split at h
    · exact absurd h ret_ne_again
    · simp only [bind_eq_ok] at h
      obtain ⟨data, -, x, -, h⟩ := h
      split at h
      · exact absurd h ret_ne_again
      · split at h
        · next hrest =>
          -- more is to come, so this buf is done
          have hall : min b.rest.length w.ctx.fieldDataRest = b.rest.length := by omega
          rw [enter_ok h, hall]
          exact .inl (remaining_leave_lt c.passed next (.inl (List.drop_length)))
        · obtain ⟨hc', hs⟩ := endField_ok h
          rw [hc']
          rcases Nat.eq_zero_or_pos w.ctx.fieldDataRest with hzero | hpos
          · refine .inr ⟨hzero, hs, remaining_leave_le c.passed next ?_⟩
            rw [Buf.advance_rest, List.length_drop]
            exact Nat.sub_le _ _
          · refine .inl (remaining_leave_lt c.passed next ?_)
            cases hb : b.rest with
            | nil => exact .inl (by rw [Buf.advance_rest, hb, List.drop_nil])
            | cons x xs =>
              refine .inr ?_
              rw [Buf.advance_rest, List.length_drop, hb, List.length_cons]
              omega

/-- Less is left, so the measure is smaller, whichever processor is next. -/
theorem processMeasure_lt {e : Entry} {chain : List Buf}
    (h : remaining e.c.rest < remaining chain) : processMeasure e < 2 * left chain := by
  have hless := left_lt h
  unfold processMeasure
  split <;> omega

def processLoop : Loop Fault Entry Return where
  body := process env
  measure := processMeasure
  decreases {e e'} h := by
    unfold process at h
    show processMeasure e' < 2 * left e.c.rest + if e.state = .expectMoreFieldData then 1 else 0
    cases hs : e.state <;> rw [hs] at h <;> dsimp only at h
    case expectHeader => exact processMeasure_lt (processHeader_again env h)
    case expectCol => exact processMeasure_lt (processCol_again env h)
    case expectRow => exact processMeasure_lt (processRow_again env h)
    case expectField => exact processMeasure_lt (processField_again env h)
    case expectMoreFieldData =>
      obtain hless | ⟨-, hs, hle⟩ := processMoreFieldData_again env h
      · exact (processMeasure_lt hless).trans (Nat.lt_succ_self _)
      · have hleft := left_le hle
        rw [processMeasure, if_neg hs, if_pos rfl]
        omega
    case done => exact absurd h ret_ne_again

end RdsJson.Processor
