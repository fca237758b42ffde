import RdsJson.Output

/-! # ngx_http_rds_json_handler.c

The content handler of a location with `rds_json_ret`. It runs instead of an
upstream, builds one buf, and sends it through the whole filter chain. -/
namespace RdsJson.Handler
open RdsJson.Lib.LittleEndian RdsJson.Nginx RdsJson.Util RdsJson.Conf RdsJson.Context
open RdsJson.Output

/-- Where C gives the handler no meaning: no description to evaluate, and a
write behind the end of the buf. -/
inductive RetFault where
  | noErrstr
  | overrun
  deriving DecidableEq, Repr

/-- The largest number that `ngx_atoi` returns. -/
def NGX_MAX_INT_T_VALUE : Nat := 2 ^ 63 - 1

-- `ngx_atoi` is nginx's, and takes the place of a parameter
variable (env : Env) (ngxAtoi : Bytes → Int)

def retSize (conf : LocConf) (errstr : Bytes) (values : List Evaluated) : Nat :=
  (1 + conf.errcodeKey.len + 1 + conf.errcode.len + 1) +
  (if errstr.length ≠ 0 then
    1 + conf.errstrKey.len + 1 + 1 + errstr.length + escapeJsonStrExtra errstr + 1 else 0) +
  (if conf.success.len ≠ 0 then
    conf.success.len + 2 + (if ngxAtoi conf.errcode.bytes = 0 then 4 else 5) else 0) +
  propsSize values

/-- Here the comma comes before the property. -/
def retPropsBytes : List Evaluated → Bytes
  | [] => []
  | p :: props =>
    lit "," ++ p.key ++ lit ":" ++ lit "\"" ++
      copyEscaped (escapeJsonStrExtra p.value) p.value ++ lit "\"" ++ retPropsBytes props

def retBytes (conf : LocConf) (errstr : Bytes) (values : List Evaluated) : Bytes :=
  lit "\x7b" ++ conf.errcodeKey.bytes ++ lit ":" ++ conf.errcode.bytes ++
  (if errstr.length ≠ 0 then
    lit "," ++ conf.errstrKey.bytes ++ lit ":" ++ lit "\"" ++
      copyEscaped (escapeJsonStrExtra errstr) errstr ++ lit "\"" else []) ++
  (if conf.success.len ≠ 0 then
    lit "," ++ conf.success.bytes ++
      (if ngxAtoi conf.errcode.bytes = 0 then lit ":true" else lit ":false") else []) ++
  retPropsBytes values ++
  lit "\x7d"

/-- `ngx_http_output_filter`: the whole chain, of which the handler sees the
return code. -/
def outputFilter (w : World) (chain : List Buf) : Int × World :=
  (env.bodyRc w.trace.length, { w with trace := w.trace ++ [.body chain] })

/-- The buf and its chain link. -/
def retBuf (main : Bool) (bytes : Bytes) : Buf := { Buf.memory bytes with lastBuf := main }

/-- The headers, and the body behind them; `ngx_http_send_header` asks the chain
for both the return code and whether a body is wanted. -/
def sendRet (w : World) (bytes : Bytes) : Int × World :=
  let w := { w with r := { w.r with
    status := NGX_HTTP_OK
    contentType := w.r.conf.contentType.bytes } }
  let (rc, w) := nextHeaderFilter env w
  if failed rc then (rc, w) else outputFilter env w [retBuf w.r.main bytes]

/-- `ngx_http_rds_json_ret_handler`. -/
def retHandler (w : World) : Except RetFault (Int × World) :=
  match w.r.conf.errstr with
  | none => .error .noErrstr
  | some text =>
    let (ok, w) := w.palloc env
    if !ok then .ok (NGX_ERROR, w)
    else
      let errstr := env.complexValue text
      match evalUserProps env w.out w.r.conf with
      | (none, out) => .ok (NGX_ERROR, { w with out := out })
      | (some values, out) =>
        let len := retSize ngxAtoi w.r.conf errstr values
        let (ok, w) := World.palloc env { w with out := out }
        if !ok then .ok (NGX_ERROR, w)
        else
          let (ok, w) := w.palloc env
          if !ok then .ok (NGX_ERROR, w)
          else
            let bytes := retBytes ngxAtoi w.r.conf errstr values
            if len < bytes.length then .error .overrun
            else if bytes.length ≠ len then .ok (NGX_ERROR, w)
            else .ok (sendRet env w bytes)

end RdsJson.Handler
