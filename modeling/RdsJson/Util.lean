import RdsJson.Rds

/-! # ngx_http_rds_json_util.c -/
namespace RdsJson.Util
open RdsJson.Lib.LittleEndian RdsJson.Nginx RdsJson.Rds

def hex : Bytes := lit "0123456789abcdef"

/-- The bytes that get a two-byte escape, with the letter behind the backslash. -/
def shortEscapes : List (UInt8 × UInt8) :=
  [(13, 114), (10, 110), (92, 92), (34, 34), (12, 102), (8, 98), (9, 116)]

/-- How many bytes the escape of `c` adds. -/
def escapeExtra (c : UInt8) : Nat :=
  if c &&& 0x80 = 0 then
    match shortEscapes.lookup c with
    | some _ => 1
    | none => if c < 32 then 5 else 0
  else 0

/-- `escape_json_str` with no destination: the number of bytes to be added. -/
def escapeJsonStrExtra : Bytes → Nat
  | [] => 0
  | c :: src => escapeExtra c + escapeJsonStrExtra src

/-- What the writing loop puts out for one byte. -/
def escapeByte (c : UInt8) : Bytes :=
  if c &&& 0x80 = 0 then
    match shortEscapes.lookup c with
    | some e => [92, e]
    | none =>
      if c < 32 then lit "\\u00" ++ [hex.getD (c >>> 4).toNat 0, hex.getD (c &&& 0x0f).toNat 0]
      else [c]
  else [c]

/-- `escape_json_str` with a destination: the bytes written there. -/
def escapeJsonStr : Bytes → Bytes
  | [] => []
  | c :: src => escapeByte c ++ escapeJsonStr src

/-- How every caller writes a string whose escapes it counted before. -/
def copyEscaped (escape : Nat) (s : Bytes) : Bytes :=
  if escape = 0 then s else escapeJsonStr s

def testContentType (contentType : Bytes) : Bool :=
  contentType.length == rdsContentType.length && contentType == rdsContentType

def discardBufs (chain : List Buf) : List Buf := chain.map Buf.discard

end RdsJson.Util
