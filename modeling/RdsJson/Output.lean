import RdsJson.OutputMem

/-! # The JSON generators of ngx_http_rds_json_output.c

Each function counts the bytes it is going to write, asks for them and writes
them. The two passes are two definitions here, `...Size` and `...Bytes`, that
follow the two halves of the source function. -/
namespace RdsJson.Output
open RdsJson.Lib.LittleEndian RdsJson.Nginx RdsJson.Rds RdsJson.Util RdsJson.Conf
open RdsJson.Context RdsJson.OutputMem

/-- The `do` loop of `ngx_get_num_size`; `i` is smaller than the fuel. -/
def numSizeLoop : Nat → Nat → Nat
  | 0, _ => 0
  | fuel + 1, i => if i / 10 > 0 then 1 + numSizeLoop fuel (i / 10) else 1

def getNumSize (i : Nat) : Nat := numSizeLoop (i + 1) i

/-- `ngx_snprintf(last, max, "%uD")` and `"%uL"`. -/
def snprintfNum (max i : Nat) : Bytes :=
  ((Nat.toDigits 10 i).map fun c => UInt8.ofNat c.toNat).take max

def NGX_UINT16_LEN : Nat := 5
def NGX_UINT64_LEN : Nat := 20

variable (env : Env)

/-! ## User properties -/

/-- A user property with the value it has in this request. -/
structure Evaluated where
  key : Bytes
  value : Bytes

/-- `ngx_http_complex_value` on each property; evaluating takes memory. -/
def evalProps (o : OutCtx) : List Property → Option (List Evaluated) × OutCtx
  | [] => (some [], o)
  | prop :: props =>
    let (ok, o) := o.palloc env
    if !ok then (none, o)
    else
      match evalProps o props with
      | (none, o) => (none, o)
      | (some values, o) => (some (⟨prop.key, env.complexValue prop.value⟩ :: values), o)

/-- `values` and `escapes` are allocated once there are properties. -/
def evalUserProps (o : OutCtx) (conf : LocConf) : Option (List Evaluated) × OutCtx :=
  match conf.userProps with
  | none => (some [], o)
  | some props =>
    let (ok, o) := o.palloc env
    if !ok then (none, o) else evalProps env o props

def propsSize : List Evaluated → Nat
  | [] => 0
  | p :: props =>
    4 + p.key.length + p.value.length + escapeJsonStrExtra p.value + propsSize props

def propsBytes : List Evaluated → Bytes
  | [] => []
  | p :: props =>
    p.key ++ lit ":\"" ++ copyEscaped (escapeJsonStrExtra p.value) p.value ++ lit "\"," ++
      propsBytes props

/-! ## The header of an empty set -/

def headerSize (conf : LocConf) (values : List Evaluated) (header : Header) : Nat :=
  (1 + conf.errcodeKey.len + 1 + getNumSize header.stdErrcode.toNat + 1) +
  (if conf.success.len ≠ 0 then
    conf.success.len + 2 + (if header.stdErrcode = 0 then 4 else 5) else 0) +
  propsSize values +
  (if header.errstr.length ≠ 0 then
    1 + conf.errstrKey.len + 1 + 1 + header.errstr.length +
      escapeJsonStrExtra header.errstr + 1 else 0) +
  (if header.insertId ≠ 0 then
    (lit ",\"insert_id\":").length + getNumSize header.insertId.toNat else 0) +
  (if header.affectedRows ≠ 0 then
    (lit ",\"affected_rows\":").length + getNumSize header.affectedRows.toNat else 0)

def headerBytes (conf : LocConf) (values : List Evaluated) (header : Header) : Bytes :=
  lit "\x7b" ++
  (if conf.success.len ≠ 0 then
    conf.success.bytes ++ (if header.stdErrcode = 0 then lit ":true," else lit ":false,")
    else []) ++
  propsBytes values ++
  conf.errcodeKey.bytes ++ lit ":" ++ snprintfNum NGX_UINT16_LEN header.stdErrcode.toNat ++
  (if header.errstr.length ≠ 0 then
    lit "," ++ conf.errstrKey.bytes ++ lit ":\"" ++
      copyEscaped (escapeJsonStrExtra header.errstr) header.errstr ++ lit "\"" else []) ++
  (if header.insertId ≠ 0 then
    lit ",\"insert_id\":" ++ snprintfNum NGX_UINT64_LEN header.insertId.toNat else []) ++
  (if header.affectedRows ≠ 0 then
    lit ",\"affected_rows\":" ++ snprintfNum NGX_UINT64_LEN header.affectedRows.toNat else []) ++
  lit "\x7d"

def outputHeader (r : Request) (o : OutCtx) (header : Header) : Except Fault (Int × OutCtx) :=
  match evalUserProps env o r.conf with
  | (none, o) => .ok (NGX_ERROR, o)
  | (some values, o) =>
    writeMem env r.conf.bufBytes o (headerSize r.conf values header)
      (headerBytes r.conf values header) true true r.main

/-! ## What comes before the rows -/

def propsBeginSize (conf : LocConf) (values : List Evaluated) : Nat :=
  2 + conf.root.len +
  (if conf.success.len ≠ 0 then 6 + conf.success.len else 0) +
  propsSize values

def propsBeginBytes (conf : LocConf) (values : List Evaluated) : Bytes :=
  lit "\x7b" ++
  (if conf.success.len ≠ 0 then conf.success.bytes ++ lit ":true," else []) ++
  propsBytes values ++ conf.root.bytes ++ lit ":"

def outputProps (r : Request) (o : OutCtx) : Except Fault (Int × OutCtx) :=
  match evalUserProps env o r.conf with
  | (none, o) => .ok (NGX_ERROR, o)
  | (some values, o) =>
    writeMem env r.conf.bufBytes o (propsBeginSize r.conf values)
      (propsBeginBytes r.conf values) true false false

/-- `&ctx->cols[i]`, for use. -/
def getCol (cols : List (Option Column)) (i : Nat) : Except Fault Column :=
  match cols[i]? with
  | none => .error .colIndex
  | some none => .error .colUninitialised
  | some (some col) => .ok col

/-- The columns the loops over `i < ctx->col_count` look at. -/
def getCols (cols : List (Option Column)) : Nat → Except Fault (List Column)
  | 0 => .ok []
  | n + 1 => do
    let rest ← getCols cols n
    let col ← getCol cols n
    .ok (rest ++ [col])

def colsListSize : List Column → Nat
  | [] => 0
  | [col] => col.name.length + escapeJsonStrExtra col.name + 2
  | col :: cols => col.name.length + escapeJsonStrExtra col.name + 2 + 1 + colsListSize cols

def colsListBytes : List Column → Bytes
  | [] => []
  | [col] => lit "\"" ++ escapeJsonStr col.name ++ lit "\""
  | col :: cols => lit "\"" ++ escapeJsonStr col.name ++ lit "\"" ++ lit "," ++ colsListBytes cols

/-- The one function that does not compare what it wrote with what it asked
for. -/
def outputCols (r : Request) (ctx : Ctx) (o : OutCtx) : Except Fault (Int × Ctx × OutCtx) := do
  let cols ← getCols ctx.cols ctx.colCount
  let (rc, o) ← writeMem env r.conf.bufBytes o (2 + colsListSize cols)
    (lit "[" ++ colsListBytes cols ++ lit "]") false false false
  .ok (rc, { ctx with generatedColNames := true }, o)

/-! ## Fields -/

/-- The loop over an integral value: a sign at `i == 0`, else digits. -/
def intDigits (c : UInt8) : Bool := !(c < 48 || c > 57)

def intChars : Bytes → Bool
  | [] => true
  | c :: data => (c = 45 || intDigits c) && data.all intDigits

def boolFalse (c : UInt8) : Bool := c = 48 || c = 102 || c = 70
def boolTrue (c : UInt8) : Bool := c = 49 || c = 116 || c = 84

/-- The size of what goes before the value: brackets, commas and, in the normal
format, the key. -/
def fieldOpenSize (format : Option Format) (ctx : Ctx) (col : Column) : Option Nat :=
  match format with
  | some .normal =>
    some ((if ctx.curCol = 0 then (if ctx.row = 1 then 2 else 3) else 2) +
      (col.name.length + escapeJsonStrExtra col.name + 2))
  | some .compact => some (if ctx.curCol = 0 then 2 else 1)
  | _ => none

def fieldOpenBytes (format : Option Format) (ctx : Ctx) (col : Column) : Option Bytes :=
  match format with
  | some .normal =>
    some ((if ctx.curCol = 0 then (if ctx.row = 1 then lit "\x7b" else lit ",\x7b") else lit ",") ++
      lit "\"" ++ copyEscaped (escapeJsonStrExtra col.name) col.name ++ lit "\":")
  | some .compact => some (if ctx.curCol = 0 then lit ",[" else lit ",")
  | _ => none

/-- The value is complete and in the last column. -/
def lastInRow (ctx : Ctx) : Bool := ctx.fieldDataRest = 0 && ctx.curCol = ctx.colCount - 1

def fieldCloseSize (format : Option Format) (ctx : Ctx) : Option Nat :=
  if lastInRow ctx then
    match format with
    | some .normal => some 1
    | some .compact => some 1
    | _ => none
  else some 0

def fieldCloseBytes (format : Option Format) (ctx : Ctx) : Option Bytes :=
  if lastInRow ctx then
    match format with
    | some .normal => some (lit "\x7d")
    | some .compact => some (lit "]")
    | _ => none
  else some []

/-- The size of the value, or `none` for a value that is refused: the sizing
pass makes the checks. -/
def fieldValueSize (ctx : Ctx) (col : Column) (data : Bytes) (isNull : Bool) : Option Nat :=
  if data.length = 0 ∧ ctx.fieldDataRest > 0 then none
  else if isNull then some 4
  else
    match data with
    | [] => some 2
    | c :: _ =>
      match col.rough with
      | .float => some data.length
      | .int => if intChars data then some data.length else none
      | .bool =>
        if boolFalse c || boolTrue c then
          if data.length ≠ 1 ∨ ctx.fieldDataRest ≠ 0 then none
          else some (if boolFalse c then 5 else 4)
        else none
      | .str =>
        some (1 + data.length + escapeJsonStrExtra data + (if ctx.fieldDataRest = 0 then 1 else 0))

def fieldValueBytes (ctx : Ctx) (col : Column) (data : Bytes) (isNull : Bool) : Bytes :=
  if isNull then lit "null"
  else
    match data with
    | [] => lit "\"\""
    | c :: _ =>
      match col.rough with
      | .float => data
      | .int => data
      | .bool => if boolFalse c then lit "false" else lit "true"
      | .str =>
        lit "\"" ++ copyEscaped (escapeJsonStrExtra data) data ++
          (if ctx.fieldDataRest = 0 then lit "\"" else [])

def fieldSize (format : Option Format) (ctx : Ctx) (col : Column) (data : Bytes)
    (isNull : Bool) : Option Nat := do
  let opening ← fieldOpenSize format ctx col
  let value ← fieldValueSize ctx col data isNull
  let closing ← fieldCloseSize format ctx
  some (opening + value + closing)

def fieldBytes (format : Option Format) (ctx : Ctx) (col : Column) (data : Bytes)
    (isNull : Bool) : Option Bytes := do
  let opening ← fieldOpenBytes format ctx col
  let closing ← fieldCloseBytes format ctx
  some (opening ++ fieldValueBytes ctx col data isNull ++ closing)

/-- The format is tested before the column is looked at. -/
def outputField (r : Request) (ctx : Ctx) (o : OutCtx) (data : Bytes) (isNull : Bool) :
    Except Fault (Int × OutCtx) :=
  if r.conf.format ≠ some .normal ∧ r.conf.format ≠ some .compact then .ok (NGX_ERROR, o)
  else do
    let col ← getCol ctx.cols ctx.curCol
    match fieldSize r.conf.format ctx col data isNull,
        fieldBytes r.conf.format ctx col data isNull with
    | some size, some bytes => writeMem env r.conf.bufBytes o size bytes true false false
    | _, _ => .ok (NGX_ERROR, o)

/-- A later piece of a value. -/
def moreDataSize (ctx : Ctx) (col : Column) (data : Bytes) : Option Nat :=
  match col.rough with
  | .int => if data.all intDigits then some data.length else none
  | .float => some data.length
  | .bool => some 0
  | .str =>
    some (data.length + escapeJsonStrExtra data + (if ctx.fieldDataRest = 0 then 1 else 0))

def moreDataBytes (ctx : Ctx) (col : Column) (data : Bytes) : Bytes :=
  match col.rough with
  | .int => data
  | .float => data
  | .bool => []
  | .str =>
    copyEscaped (escapeJsonStrExtra data) data ++ (if ctx.fieldDataRest = 0 then lit "\"" else [])

def moreSize (format : Option Format) (ctx : Ctx) (col : Column) (data : Bytes) : Option Nat := do
  let value ← moreDataSize ctx col data
  let closing ← fieldCloseSize format ctx
  some (value + closing)

def moreBytes (format : Option Format) (ctx : Ctx) (col : Column) (data : Bytes) :
    Option Bytes := do
  let closing ← fieldCloseBytes format ctx
  some (moreDataBytes ctx col data ++ closing)

def outputMoreFieldData (r : Request) (ctx : Ctx) (o : OutCtx) (data : Bytes) :
    Except Fault (Int × OutCtx) := do
  let col ← getCol ctx.cols ctx.curCol
  match moreSize r.conf.format ctx col data, moreBytes r.conf.format ctx col data with
  | some size, some bytes => writeMem env r.conf.bufBytes o size bytes true false false
  | _, _ => .ok (NGX_ERROR, o)

end RdsJson.Output
