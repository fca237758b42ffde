import RdsJson.Nginx

/-! # Reading RDS headers and column specs

`ngx_http_rds.h`, `resty_dbd_stream.h` and `ngx_http_rds_utils.h`, on a
little-endian host. A parser returns `none` where the source returns
`NGX_ERROR`, and the buf as far as it was advanced. -/
namespace RdsJson.Rds
open RdsJson.Lib.LittleEndian RdsJson.Nginx

def restyDbdStreamVersion : Nat := 3

def rdsContentType : Bytes := lit "application/x-resty-dbd-stream"

/-- `rds_rough_col_type_t`. -/
inductive RoughColType where
  | int
  | float
  | str
  | bool
  deriving DecidableEq, Repr

/-- `ngx_http_rds_header_t`. -/
structure Header where
  stdErrcode : UInt16
  drvErrcode : UInt16
  errstr : Bytes
  affectedRows : UInt64
  insertId : UInt64
  colCount : UInt16
  deriving DecidableEq

/-- `ngx_http_rds_column_t`. -/
structure Column where
  stdType : UInt16
  drvType : UInt16
  name : Bytes
  deriving DecidableEq

/-- `switch (col->std_type & 0xc000)`; the default case is the string case. -/
def Column.rough (col : Column) : RoughColType :=
  let t := col.stdType &&& 0xc000
  if t = 0x4000 then .float else if t = 0 then .int else if t = 0xc000 then .bool else .str

def parseHeader (b : Buf) : Except Fault (Option Header × Buf) :=
  if b.rest.length < 1 + 4 + 1 + 2 + 2 + 2 + 0 + 8 + 8 + 2 then .ok (none, b) else do
  let (endian, b1) ← b.uint 1
  if endian ≠ 0 then .ok (none, b) else do
  let (version, b2) ← b1.uint 4
  if version ≠ restyDbdStreamVersion then .ok (none, b1) else do
  let (resultType, b3) ← b2.uint 1
  if resultType ≠ 0 then .ok (none, b2) else do
  let (stdErrcode, b4) ← b3.uint 2
  let (drvErrcode, b5) ← b4.uint 2
  let (errstrLen, b6) ← b5.uint 2
  -- the fixed part was there; now the string's length is known
  if b6.rest.length < errstrLen + 8 + 8 + 2 then .ok (none, b6) else do
  let errstr ← b6.read errstrLen
  let (affectedRows, b8) ← (b6.advance errstrLen).uint 8
  let (insertId, b9) ← b8.uint 8
  let (colCount, b10) ← b9.uint 2
  .ok (some {
    stdErrcode := UInt16.ofNat stdErrcode
    drvErrcode := UInt16.ofNat drvErrcode
    errstr := errstr
    affectedRows := UInt64.ofNat affectedRows
    insertId := UInt64.ofNat insertId
    colCount := UInt16.ofNat colCount }, b10)

/-- `palloc`: whether the pool has room for the name. -/
def parseCol (palloc : Bool) (b : Buf) : Except Fault (Option Column × Buf) :=
  if b.rest.length < 2 + 2 + 2 then .ok (none, b) else do
  let (stdType, b1) ← b.uint 2
  let (drvType, b2) ← b1.uint 2
  let (nameLen, b3) ← b2.uint 2
  if nameLen = 0 then .ok (none, b3)
  else if b3.rest.length < nameLen then .ok (none, b3)
  else if !palloc then .ok (none, b3)
  else do
  let name ← b3.read nameLen
  .ok (some {
    stdType := UInt16.ofNat stdType
    drvType := UInt16.ofNat drvType
    name := name }, b3.advance nameLen)

end RdsJson.Rds
