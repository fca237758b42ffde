import RdsJson.Util
import RdsJson.Lib.Outcome

/-! # Location configuration: directives and merging

The configuration half of `ngx_http_rds_json_filter_module.c`. Running out of
memory while the configuration is read stops nginx and is left out. -/
namespace RdsJson.Conf
open RdsJson.Lib.LittleEndian RdsJson.Nginx RdsJson.Util

/-- `ngx_http_rds_json_format_t`. -/
inductive Format where
  | normal
  | compact
  | pretty
  deriving DecidableEq, Repr

/-- `ngx_http_rds_json_property_t`: the quoted key and the text of the complex
value. -/
structure Property where
  key : Bytes
  value : Bytes
  deriving DecidableEq

/-- `ngx_http_rds_json_loc_conf_t`; `none` is an unset value. -/
structure LocConf where
  enabled : Option Bool
  format : Option Format
  contentType : Str
  root : Str
  success : Str
  userProps : Option (List Property)
  errcodeKey : Str
  errstrKey : Str
  bufSize : Option Nat
  errcode : Str
  errstr : Option Bytes
  deriving DecidableEq

def createLocConf : LocConf where
  enabled := none
  format := none
  contentType := none
  root := none
  success := none
  userProps := none
  errcodeKey := none
  errstrKey := none
  bufSize := none
  errcode := none
  errstr := none

/-- `conf->buf_size` as the code reads it: unset is the largest `size_t`. -/
def LocConf.bufBytes (conf : LocConf) : Nat := conf.bufSize.getD (2 ^ 64 - 1)

/-- The user properties as the loops over them see them. -/
def LocConf.props (conf : LocConf) : List Property := conf.userProps.getD []

/-! ## Directives -/

/-- What comes of a line that nginx does not take: it reports a text behind the name
of the directive, or the directive gives `NGX_CONF_ERROR`, after it has logged a line of
its own or none. -/
inductive ConfError where
  | directive (text : Bytes)
  | confError (logged : Option Bytes)
  deriving DecidableEq

/-- The quoted key that the five key directives store. -/
def quoteKey (value : Bytes) : Except ConfError Bytes :=
  let escape := escapeJsonStrExtra value
  let len := value.length + escape + 2
  let key := lit "\"" ++ copyEscaped escape value ++ lit "\""
  if key.length ≠ len then .error (.directive (lit "sees buffer error")) else .ok key

/-- The common body of the directives that set one key. -/
def setKey (key : Str) (value : Bytes) : Except ConfError Str :=
  if key.len ≠ 0 then .error (.directive (lit "is duplicate"))
  else if value.length = 0 then .error (.directive (lit "takes an empty value"))
  else do
    let quoted ← quoteKey value
    .ok (some quoted)

def rdsJsonRoot (conf : LocConf) (value : Bytes) : Except ConfError LocConf := do
  let key ← setKey conf.root value
  .ok { conf with root := key }

def rdsJsonSuccessProperty (conf : LocConf) (value : Bytes) : Except ConfError LocConf := do
  let key ← setKey conf.success value
  .ok { conf with success := key }

def rdsJsonErrcodeKey (conf : LocConf) (value : Bytes) : Except ConfError LocConf := do
  let key ← setKey conf.errcodeKey value
  .ok { conf with errcodeKey := key }

def rdsJsonErrstrKey (conf : LocConf) (value : Bytes) : Except ConfError LocConf := do
  let key ← setKey conf.errstrKey value
  .ok { conf with errstrKey := key }

-- the success of `ngx_http_compile_complex_value`, which is nginx's and logs by itself
variable (compiles : Bytes → Bool)

/-- Unlike the key directives this one may be repeated, and checks its value. -/
def rdsJsonUserProperty (conf : LocConf) (key value : Bytes) : Except ConfError LocConf :=
  if key.length = 0 then .error (.directive (lit "takes an empty key"))
  else if value.length = 0 then .error (.directive (lit "takes an empty value"))
  else do
    let quoted ← quoteKey key
    if compiles value then .ok { conf with userProps := some (conf.props ++ [⟨quoted, value⟩]) }
    else .error (.confError none)

/-- An empty description is not compiled. -/
def rdsJsonRet (conf : LocConf) (errcode errstr : Bytes) : Except ConfError LocConf :=
  if errcode.length = 0 then
    .error (.confError (some (lit "rds_json: rds_json_ret: the errcode argument is empty")))
  else if errcode.any fun c => c < 48 || c > 57 then
    .error (.confError (some (lit "rds_json: rds_json_ret: invalid errcode argument: \"" ++
      errcode ++ lit "\"")))
  else if errstr.length ≠ 0 ∧ !compiles errstr then .error (.confError none)
  else .ok { conf with errcode := some errcode, errstr := some errstr }

/-- `ngx_conf_set_flag_slot`, `ngx_conf_set_enum_slot` and
`ngx_conf_set_size_slot` refuse a second value; `ngx_conf_set_str_slot` too. -/
def setSlot {α : Type} (slot : Option α) (value : α) : Except ConfError (Option α) :=
  match slot with
  | some _ => .error (.directive (lit "is duplicate"))
  | none => .ok (some value)

/-- One line of configuration; `rds_json_format` knows two words, and what else is given
to `rds_json_ret` is not looked at. -/
inductive Directive where
  | rdsJson (on : Bool)
  | root (value : Bytes)
  | successProperty (value : Bytes)
  | userProperty (key value : Bytes)
  | errcodeKey (value : Bytes)
  | errstrKey (value : Bytes)
  | formatNormal
  | formatCompact
  | contentType (value : Bytes)
  | ret (errcode errstr : Bytes) (more : List Bytes)
  | bufferSize (size : Nat)

def Directive.apply (conf : LocConf) : Directive → Except ConfError LocConf
  | .rdsJson on => do .ok { conf with enabled := ← setSlot conf.enabled on }
  | .root value => rdsJsonRoot conf value
  | .successProperty value => rdsJsonSuccessProperty conf value
  | .userProperty key value => rdsJsonUserProperty compiles conf key value
  | .errcodeKey value => rdsJsonErrcodeKey conf value
  | .errstrKey value => rdsJsonErrstrKey conf value
  | .formatNormal => do .ok { conf with format := ← setSlot conf.format .normal }
  | .formatCompact => do .ok { conf with format := ← setSlot conf.format .compact }
  | .contentType value => do .ok { conf with contentType := ← setSlot conf.contentType value }
  | .ret errcode errstr _ => rdsJsonRet compiles conf errcode errstr
  | .bufferSize size => do .ok { conf with bufSize := ← setSlot conf.bufSize size }

/-- `cf->cmd_type`, the kind of block that is read: `http`, `server`, `location` or an `if`
in a location, which is what `NGX_HTTP_LIF_CONF` stands for. -/
inductive CmdType where
  | main
  | srv
  | loc
  | lif
  deriving DecidableEq

/-- The blocks that `ngx_http_rds_json_commands` lets a directive stand in. -/
def Directive.type : Directive → List CmdType
  | .ret _ _ _ => [.loc, .lif]
  | _ => [.main, .srv, .loc, .lif]

/-- `ngx_conf_handler`: only what may stand in the block gets to its function. -/
def Directive.read (cmdType : CmdType) (conf : LocConf) (d : Directive) : Except ConfError LocConf :=
  if cmdType ∈ d.type then d.apply compiles conf
  else .error (.directive (lit "is not allowed here"))

/-- The configuration one block spells, its directives read in order. -/
def readBlock (cmdType : CmdType) (block : List Directive) : Except ConfError LocConf :=
  block.foldlM (Directive.read compiles cmdType) createLocConf

/-! ## Merging -/

/-- `ngx_conf_merge_str_value`. -/
def mergeStr (conf prev : Str) (default : Bytes) : Str :=
  match conf with
  | some s => some s
  | none =>
    match prev with
    | some s => some s
    | none => some default

/-- `ngx_conf_merge_value` and its variants for numbers. -/
def mergeValue {α : Type} (conf prev : Option α) (default : α) : Option α :=
  match conf with
  | some v => some v
  | none => some (prev.getD default)

variable (pagesize : Nat)

def mergeLocConf (prev conf : LocConf) : LocConf :=
  let root := mergeStr conf.root prev.root []
  let success := mergeStr conf.success prev.success []
  let userProps := match conf.userProps with
    | none => prev.userProps
    | some props => some props
  { enabled := mergeValue conf.enabled prev.enabled false
    format := mergeValue conf.format prev.format .normal
    root :=
      if root.len = 0 ∧ (success.len ≠ 0 ∨ userProps.isSome) then some (lit "\"data\"") else root
    success := success
    userProps := userProps
    errcodeKey := mergeStr conf.errcodeKey prev.errcodeKey (lit "\"errcode\"")
    errstrKey := mergeStr conf.errstrKey prev.errstrKey (lit "\"errstr\"")
    contentType := mergeStr conf.contentType prev.contentType (lit "application/json")
    bufSize := mergeValue conf.bufSize prev.bufSize pagesize
    errcode := conf.errcode
    errstr := conf.errstr }

end RdsJson.Conf
