import RdsJson.Processor

/-! # ngx_http_rds_json_filter_module.c: the body filter, and runs of it -/
namespace RdsJson.FilterModule
open RdsJson.Lib.LittleEndian RdsJson.Lib.TailLoop RdsJson.Nginx RdsJson.Util RdsJson.Context
open RdsJson.OutputMem RdsJson.Processor

variable (env : Env)

/-- What the body filter does when processing failed with `rc`. -/
def bodyFailed (rc : Int) (w : World) (c : Cursor) : Except Fault Return :=
  let w := { w with ctx := { w.ctx with state := .done } }
  if !w.ctx.headerSent then do
    let rc := if rc = NGX_ERROR then NGX_HTTP_INTERNAL_SERVER_ERROR else rc.toNat
    let w := { w with
      ctx := { w.ctx with headerSent := true }
      r := { w.r with status := rc } }
    let (_, w) := nextHeaderFilter env w
    let (_, w) ← sendSpecial env w
    .ok ⟨NGX_ERROR, w, c⟩
  else .ok ⟨NGX_ERROR, w, c⟩

/-- `ngx_http_rds_json_body_filter`; an empty chain is a null `in`. -/
def bodyFilter (w : World) (chain : List Buf) : Except Fault Return :=
  if chain = [] ∨ w.r.headerOnly then
    let (rc, w) := nextBodyFilter env w chain
    .ok ⟨rc, w, ⟨[], chain⟩⟩
  else if !w.ctxSet then
    let (rc, w) := nextBodyFilter env w chain
    .ok ⟨rc, w, ⟨[], chain⟩⟩
  else if w.ctx.state = .done then .ok ⟨NGX_OK, w, ⟨[], discardBufs chain⟩⟩
  else do
    let ret ← (processLoop env).run ⟨w.ctx.state, w, ⟨[], chain⟩⟩
    if failed ret.rc then bodyFailed env ret.rc ret.w ret.c
    else
      let (rc, w) := outputBufs env ret.w
      .ok ⟨rc, w, ret.c⟩

/-! ## Runs -/

/-- The calls of one request, one after the other, and what they return. -/
def runCalls (w : World) : List (List Buf) → Except Fault (List Return × World)
  | [] => .ok ([], w)
  | chain :: calls => do
    let ret ← bodyFilter env w chain
    let (rets, w) ← runCalls ret.w calls
    .ok (ret :: rets, w)

/-- The header filter has just installed the context and postponed the header. -/
def Postponed (w : World) : Prop :=
  ∃ w₀, w₀.ctxSet = false ∧ w₀.trace = [] ∧ headerFilter env w₀ = (NGX_OK, w) ∧ w.ctxSet = true

/-- A state between two calls of a request whose header was postponed. -/
def Reachable (w : World) : Prop :=
  ∃ w₀ calls rets, Postponed env w₀ ∧ runCalls env w₀ calls = .ok (rets, w)

end RdsJson.FilterModule
