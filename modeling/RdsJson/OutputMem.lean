import RdsJson.Context
import RdsJson.Lib.TailLoop

/-! # The write layer of ngx_http_rds_json_output.c

`request_mem` hands out room for the next write, in the current output buf or in
a scratch area kept for writes that do not fit; `submit_mem` takes the write
over, splitting it where it came through the scratch area. -/
namespace RdsJson.OutputMem
open RdsJson.Lib.LittleEndian RdsJson.Lib.TailLoop RdsJson.Nginx RdsJson.Context

/-- Where `request_mem` points: behind `ctx->out_buf->last`, or to the scratch
area. -/
inductive Area where
  | inPlace
  | scratch
  deriving DecidableEq, Repr

variable (env : Env) (bufSize : Nat)

def getBuf (o : OutCtx) : Int × OutCtx :=
  if o.availOut ≠ 0 then (NGX_OK, o)
  else
    match o.freeBufs with
    | id :: rest => (NGX_OK, { o with outBuf := id, freeBufs := rest, availOut := bufSize })
    | [] =>
      let (ok, o) := o.palloc env
      if !ok then (NGX_ERROR, o)
      else (NGX_OK, { o with
        outBuf := o.nbufs
        nbufs := o.nbufs + 1
        bufs := Function.update o.bufs o.nbufs ⟨bufSize, [], 0, false⟩
        availOut := bufSize })

/-- `false` when there is no memory for the area. -/
def getPostponed (o : OutCtx) (len : Nat) : Bool × OutCtx :=
  let alloc :=
    let (ok, o) := o.palloc env
    if !ok then (false, o) else (true, { o with cached := some len })
  match o.cached with
  | none => alloc
  | some size => if size < len then alloc else (true, o)

/-- The scratch area holds `len` bytes nobody has written yet. -/
def requestMem (o : OutCtx) (len : Nat) : Option Area × OutCtx :=
  let (rc, o) := getBuf env bufSize o
  if rc ≠ NGX_OK then (none, o)
  else if o.availOut < len then
    let (ok, o) := getPostponed env o len
    if !ok then (none, o)
    else (some .scratch, { o with postponed := some (List.replicate len 0) })
  else (some .inPlace, o)

/-- `bytes` land at `last` of the current buf and `last` moves behind them. -/
def appendOut (o : OutCtx) (bytes : Bytes) : Except Fault OutCtx :=
  let b := o.bufs o.outBuf
  if b.size < b.mem.length + bytes.length then .error .overrun
  else .ok { o with
    bufs := Function.update o.bufs o.outBuf { b with mem := b.mem ++ bytes }
    availOut := o.availOut - bytes.length }

/-- `cl->buf = ctx->out_buf; *ctx->last_out = cl`. -/
def linkOutBuf (o : OutCtx) : Bool × OutCtx :=
  let (ok, o) := o.palloc env
  if !ok then (false, o) else (true, { o with out := o.out ++ [o.outBuf] })

/-- `ctx->out_buf->last_buf = last_buf`. -/
def setLastBuf (o : OutCtx) (lastBuf : Bool) : OutCtx :=
  { o with bufs := Function.update o.bufs o.outBuf { o.bufs o.outBuf with lastBuf := lastBuf } }

/-- One round of the loop that copies the scratch area over. -/
def copyTurn (lastBuf : Bool) (o : OutCtx) : Except Fault (Turn OutCtx (Int × OutCtx)) := do
  let postponed := o.postponed.getD []
  let len := min postponed.length o.availOut
  let o ← appendOut o (postponed.take len)
  let o := { o with
    postponed := if len = postponed.length then none else some (postponed.drop len) }
  if o.availOut > 0 then .ok (.done (NGX_OK, o))
  else
    let (ok, o) := linkOutBuf env o
    if !ok then .ok (.done (NGX_ERROR, o))
    else if o.postponed = none then .ok (.done (NGX_OK, setLastBuf o lastBuf))
    else
      let (rc, o) := getBuf env bufSize o
      if rc ≠ NGX_OK then .ok (.done (NGX_ERROR, o)) else .ok (.again o)

/-- `write` is what the caller put into the area it was given. A copying loop
that is not over after one round for every byte never is: nothing is copied in
a round only when `bufSize` is 0. -/
def submitMem (o : OutCtx) (write : Bytes) (lastBuf : Bool) : Except Fault (Int × OutCtx) :=
  match o.postponed with
  | some postponed =>
    (turns (copyTurn env bufSize lastBuf) (postponed.length + 1) o).getD (.error .endless)
  | none => do
    let o ← appendOut o write
    let o := setLastBuf o lastBuf
    if o.availOut = 0 then
      let (ok, o) := linkOutBuf env o
      if !ok then .ok (NGX_ERROR, o) else .ok (NGX_OK, o)
    else .ok (NGX_OK, o)

/-- What the output functions have in common: ask for `size` bytes, fill them,
and submit them. `checked` is whether the function compares what it wrote with
`size`, `final` whether it ends the stream, and `lastBuf` what it passes on. A
short write leaves bytes in the area that nobody wrote. -/
def writeMem (o : OutCtx) (size : Nat) (bytes : Bytes) (checked final lastBuf : Bool) :
    Except Fault (Int × OutCtx) :=
  match requestMem env bufSize o size with
  | (none, o) => .ok (NGX_ERROR, o)
  | (some area, o) =>
    if size < bytes.length then .error .overrun
    else
      let write := bytes ++ List.replicate (size - bytes.length) 0
      let o := match area with
        | .inPlace => o
        | .scratch => { o with postponed := some write }
      if checked ∧ bytes.length ≠ size then .ok (NGX_ERROR, o)
      else submitMem env bufSize { o with seenStreamEnd := o.seenStreamEnd || final } write lastBuf

/-- `ngx_http_rds_json_output_literal`. The flag is raised before the copy here
and after the check elsewhere; a literal is always copied whole. -/
def outputLiteral (main : Bool) (o : OutCtx) (data : Bytes) (lastBuf : Bool) :
    Except Fault (Int × OutCtx) :=
  writeMem env bufSize o data.length data false lastBuf (lastBuf && main)

/-- The bufs of `ids` after `ngx_chain_update_chains` emptied them. -/
def emptyBufs (bufs : Nat → OutBuf) (ids : List Nat) (id : Nat) : OutBuf :=
  if id ∈ ids then { bufs id with mem := [], pos := 0 } else bufs id

/-- `ngx_chain_update_chains`: `out` moves behind `busy`, and the bufs at its
front that are consumed move to `free`, the last one first. -/
def updateChains (o : OutCtx) : OutCtx :=
  let busy := o.busyBufs ++ o.out
  let consumed := busy.takeWhile fun id => (o.bufs id).unread = []
  { o with
    out := []
    busyBufs := busy.dropWhile fun id => (o.bufs id).unread = []
    freeBufs := consumed.reverse ++ o.freeBufs
    bufs := emptyBufs o.bufs consumed }

/-- The opening of `output_bufs`: the last, partly filled buf is linked. -/
def flushOutBuf (o : OutCtx) : Int × OutCtx :=
  if o.seenStreamEnd then
    let o := { o with seenStreamEnd := false }
    if o.availOut ≠ 0 then
      let (ok, o) := linkOutBuf env o
      if !ok then (NGX_ERROR, o) else (NGX_OK, { o with availOut := 0 })
    else (NGX_OK, o)
  else (NGX_OK, o)

/-- The loop goes round at most once: `ngx_chain_update_chains` leaves `out`
empty. -/
def outputBufs (w : World) : Int × World :=
  let (rc, out) := flushOutBuf env w.out
  let w := { w with out := out }
  if rc ≠ NGX_OK then (NGX_ERROR, w)
  else if w.out.out = [] then (NGX_OK, w)
  else
    let (rc, w) := nextBodyFilterOut env w
    if failed rc then (rc, w) else (NGX_OK, { w with out := updateChains w.out })

/-! ## What the functions can do -/

/-- A buf is in hand already, or the first free one is taken, or a new one. -/
theorem getBuf_cases (o : OutCtx) :
    (o.availOut ≠ 0 ∧ getBuf env bufSize o = (NGX_OK, o)) ∨
      (o.availOut = 0 ∧
        ((∃ id rest, o.freeBufs = id :: rest ∧ getBuf env bufSize o =
            (NGX_OK, { o with outBuf := id, freeBufs := rest, availOut := bufSize })) ∨
          (o.freeBufs = [] ∧ ∃ allocs,
            getBuf env bufSize o = (NGX_OK, { o with
              allocs := allocs
              outBuf := o.nbufs
              nbufs := o.nbufs + 1
              bufs := Function.update o.bufs o.nbufs ⟨bufSize, [], 0, false⟩
              availOut := bufSize }) ∨
            (getBuf env bufSize o = (NGX_ERROR, { o with allocs := allocs }) ∧
              ∃ k, env.alloc k = false)))) := by
  unfold getBuf
  by_cases ha : o.availOut = 0
  · rw [if_neg (not_not_intro ha)]
    split
    · next id rest hfree => exact .inr ⟨ha, .inl ⟨id, rest, hfree, rfl⟩⟩
    · next hfree =>
      unfold OutCtx.palloc
      refine .inr ⟨ha, .inr ⟨hfree, o.allocs + 1, ?_⟩⟩
      cases hal : env.alloc o.allocs with
      | false => exact .inr ⟨rfl, _, hal⟩
      | true => exact .inl rfl
  · exact .inl ⟨ha, if_pos ha⟩

theorem linkOutBuf_cases (o : OutCtx) :
    ∃ allocs, linkOutBuf env o = (true, { o with allocs := allocs, out := o.out ++ [o.outBuf] }) ∨
      (linkOutBuf env o = (false, { o with allocs := allocs }) ∧ ∃ k, env.alloc k = false) := by
  unfold linkOutBuf OutCtx.palloc
  refine ⟨o.allocs + 1, ?_⟩
  cases hal : env.alloc o.allocs with
  | false => exact .inr ⟨rfl, _, hal⟩
  | true => exact .inl rfl

/-- Only at the end of the stream, and only what is not full, is there anything
to flush. -/
theorem flushOutBuf_cases (o : OutCtx) :
    (o.seenStreamEnd = false ∨ o.availOut = 0) ∧
        flushOutBuf env o = (NGX_OK, { o with seenStreamEnd := false }) ∨
      (o.availOut ≠ 0 ∧ ∃ allocs,
        flushOutBuf env o = (NGX_OK, { o with
          seenStreamEnd := false
          allocs := allocs
          out := o.out ++ [o.outBuf]
          availOut := 0 }) ∨
        (flushOutBuf env o = (NGX_ERROR, { o with seenStreamEnd := false, allocs := allocs }) ∧
          ∃ k, env.alloc k = false)) := by
  unfold flushOutBuf
  cases hseen : o.seenStreamEnd with
  | false => exact .inl ⟨.inl rfl, by rw [if_neg Bool.false_ne_true, ← hseen]⟩
  | true =>
    rw [if_pos rfl]
    by_cases ha : o.availOut = 0
    · exact .inl ⟨.inr ha, if_neg (not_not_intro ha)⟩
    refine .inr ⟨ha, ?_⟩
    dsimp only
    rw [if_pos ha]
    obtain ⟨allocs, hlink | ⟨hlink, hal⟩⟩ :=
      linkOutBuf_cases env { o with seenStreamEnd := false }
    · rw [hlink]
      exact ⟨allocs, .inl rfl⟩
    · rw [hlink]
      exact ⟨allocs, .inr ⟨rfl, hal⟩⟩

end RdsJson.OutputMem
