import RdsJson.Conf

/-! # The request, the module context and the filters below

The state that the functions of the filter read and write, and the surroundings
as a parameter: what the next filters return, how much of the output they
consume, and which allocations succeed. -/
namespace RdsJson.Context
open RdsJson.Lib.LittleEndian RdsJson.Nginx RdsJson.Rds RdsJson.Conf

/-- `ngx_http_rds_json_state_t`. -/
inductive State where
  | expectHeader
  | expectCol
  | expectRow
  | expectField
  | expectMoreFieldData
  | done
  deriving DecidableEq, Repr

/-- An output buf of `size` bytes: `mem` is what lies between `start` and
`last`, of which `pos` bytes are consumed. -/
structure OutBuf where
  size : Nat
  mem : Bytes
  pos : Nat
  lastBuf : Bool
  deriving DecidableEq, Inhabited

def OutBuf.unread (b : OutBuf) : Bytes := b.mem.drop b.pos

/-- The output side of `ngx_http_rds_json_ctx_t`, and the pool its bufs come
from. Chains are lists of buf numbers, so a buf on two chains is one buf;
`last_out` is the end of `out`. `outBuf` means nothing before the first buf. -/
structure OutCtx where
  out : List Nat
  busyBufs : List Nat
  freeBufs : List Nat
  outBuf : Nat
  cached : Option Nat
  postponed : Option Bytes
  availOut : Nat
  seenStreamEnd : Bool
  bufs : Nat → OutBuf
  nbufs : Nat
  allocs : Nat

/-- The parsing side of `ngx_http_rds_json_ctx_t`. A column that no spec was
read for yet is `none`. `row` counts the rows of the stream; there are never as
many as a `size_t` can count. -/
structure Ctx where
  state : State
  colCount : Nat
  curCol : Nat
  cols : List (Option Column)
  row : Nat
  fieldDataRest : Nat
  headerSent : Bool
  generatedColNames : Bool

/-- `main` is `r == r->main`. -/
structure Request where
  main : Bool
  headerOnly : Bool
  status : Nat
  contentType : Bytes
  contentLength : Option Nat
  filterNeedInMemory : Bool
  conf : LocConf

/-- What goes down the filter chain. Bufs of the module are shown as they are
when they are passed. -/
inductive Event where
  | header (status : Nat)
  | body (chain : List Buf)
  | json (bufs : List OutBuf)

/-- The surroundings of one run. The answers to the calls are numbered by the
events before them, those to allocations by the allocations before them. -/
structure Env where
  headerRc : Nat → Int
  headerOnly : Nat → Bool
  bodyRc : Nat → Int
  consume : Nat → Nat
  alloc : Nat → Bool
  complexValue : Bytes → Bytes

/-- `ctxSet` is whether the module's slot of the request holds `ctx`; the
functions below `body_filter` keep a pointer to it either way. -/
structure World where
  r : Request
  ctx : Ctx
  ctxSet : Bool
  out : OutCtx
  trace : List Event

variable (env : Env)

/-- `ngx_palloc` and its relatives: whether this one succeeds. -/
def OutCtx.palloc (o : OutCtx) : Bool × OutCtx :=
  (env.alloc o.allocs, { o with allocs := o.allocs + 1 })

def World.palloc (w : World) : Bool × World :=
  let (ok, out) := w.out.palloc env
  (ok, { w with out := out })

/-- `ngx_http_rds_json_next_header_filter`. -/
def nextHeaderFilter (w : World) : Int × World :=
  let k := w.trace.length
  (env.headerRc k, { w with
    r := { w.r with headerOnly := w.r.headerOnly || env.headerOnly k }
    trace := w.trace ++ [.header w.r.status] })

/-- The bufs `ids`, front first, when `n` more bytes of them are consumed. -/
def consumeFront : Nat → List Nat → (Nat → OutBuf) → Nat → OutBuf
  | _, [], bufs => bufs
  | n, id :: ids, bufs =>
    let k := min n (bufs id).unread.length
    consumeFront (n - k) ids (Function.update bufs id { bufs id with pos := (bufs id).pos + k })

/-- `ngx_http_rds_json_next_body_filter` on a chain that is not the module's. It
may go on consuming the bufs it was given before. -/
def nextBodyFilter (w : World) (chain : List Buf) : Int × World :=
  let k := w.trace.length
  (env.bodyRc k, { w with
    out := { w.out with bufs := consumeFront (env.consume k) w.out.busyBufs w.out.bufs }
    trace := w.trace ++ [.body chain] })

/-- `ngx_http_rds_json_next_body_filter` on `ctx->out`. -/
def nextBodyFilterOut (w : World) : Int × World :=
  let k := w.trace.length
  (env.bodyRc k, { w with
    out := { w.out with
      bufs := consumeFront (env.consume k) (w.out.busyBufs ++ w.out.out) w.out.bufs }
    trace := w.trace ++ [.json (w.out.out.map w.out.bufs)] })

end RdsJson.Context
