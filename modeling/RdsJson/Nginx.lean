import RdsJson.Lib.LittleEndian

/-! # The parts of nginx the filter is written against

Return codes, strings, input bufs and chains, as far as the module's code looks
at them. Memory is read through `Buf.read`, which faults instead of reading a
byte at or past `last`. -/
namespace RdsJson.Nginx
open RdsJson.Lib.LittleEndian

def NGX_OK : Int := 0
def NGX_ERROR : Int := -1
def NGX_HTTP_OK : Nat := 200
def NGX_HTTP_NO_CONTENT : Nat := 204
def NGX_HTTP_RESET_CONTENT : Nat := 205
def NGX_HTTP_SPECIAL_RESPONSE : Nat := 300
def NGX_HTTP_INTERNAL_SERVER_ERROR : Nat := 500

/-- `rc == NGX_ERROR || rc >= NGX_HTTP_SPECIAL_RESPONSE`, the test behind every
early return of the filter. -/
def failed (rc : Int) : Bool := rc == NGX_ERROR || rc ≥ NGX_HTTP_SPECIAL_RESPONSE

@[simp] theorem failed_ok : failed NGX_OK = false := rfl
@[simp] theorem failed_error : failed NGX_ERROR = true := rfl

/-- What the C code may do that C gives no meaning to, and a loop that never
ends. Every definition of the model stops at the first one. -/
inductive Fault where
  | readPastLast
  | colIndex
  | colUninitialised
  | overrun
  | reentered
  | endless
  deriving DecidableEq, Repr

/-- `ngx_str_t`; `none` is a null `data`. -/
abbrev Str := Option Bytes

def Str.bytes (s : Str) : Bytes := s.getD []
def Str.len (s : Str) : Nat := s.bytes.length

/-- The bytes of an ASCII literal of the source. -/
def lit (s : String) : Bytes := s.toList.map fun c => UInt8.ofNat c.toNat

/-- `ngx_buf_t` of the incoming chain: the bytes from `start` to `pos` and from
`pos` to `last`. A buf that is not in memory has none to read. -/
structure Buf where
  inMemory : Bool
  inFile : Bool
  flush : Bool
  lastBuf : Bool
  sync : Bool
  before : Bytes
  rest : Bytes
  noData : inMemory = false → rest = []
  deriving DecidableEq

theorem Buf.nothing_noData {inMemory : Bool} (_ : inMemory = false) : ([] : Bytes) = [] := rfl

/-- `ngx_buf_special`. -/
def Buf.special (b : Buf) : Bool :=
  (b.flush || b.lastBuf || b.sync) && !b.inMemory && !b.inFile

/-- A buf in memory that holds `bytes`. -/
def Buf.memory (bytes : Bytes) : Buf where
  inMemory := true
  inFile := false
  flush := false
  lastBuf := false
  sync := false
  before := []
  rest := bytes
  noData h := nomatch h

/-- `n` bytes at `pos`. -/
def Buf.read (b : Buf) (n : Nat) : Except Fault Bytes :=
  if b.rest.length < n then .error .readPastLast else .ok (b.rest.take n)

/-- `b->pos += n`. -/
def Buf.advance (b : Buf) (n : Nat) : Buf :=
  { b with
    before := b.before ++ b.rest.take n
    rest := b.rest.drop n
    noData := fun h => by simp [b.noData h] }

/-- An unsigned number of `n` bytes at `pos`, and the buf behind it. -/
def Buf.uint (b : Buf) (n : Nat) : Except Fault (Nat × Buf) := do
  let bytes ← b.read n
  .ok (leVal bytes, b.advance n)

/-- `b->pos = b->last`. -/
def Buf.discard (b : Buf) : Buf := b.advance b.rest.length

/-- The bytes of a buf, read or not. -/
def Buf.whole (b : Buf) : Bytes := b.before ++ b.rest

@[simp] theorem Buf.advance_whole (b : Buf) (n : Nat) : (b.advance n).whole = b.whole := by
  simp [Buf.whole, Buf.advance]

@[simp] theorem Buf.memory_rest (bytes : Bytes) : (Buf.memory bytes).rest = bytes := rfl
@[simp] theorem Buf.memory_inMemory (bytes : Bytes) : (Buf.memory bytes).inMemory = true := rfl
@[simp] theorem Buf.advance_rest (b : Buf) (n : Nat) : (b.advance n).rest = b.rest.drop n := rfl
@[simp] theorem Buf.discard_rest (b : Buf) : b.discard.rest = [] := by simp [Buf.discard]

theorem Buf.read_of_le {b : Buf} {n : Nat} (h : n ≤ b.rest.length) :
    b.read n = .ok (b.rest.take n) := by
  simp [Buf.read, Nat.not_lt.mpr h]

theorem Buf.uint_of_le {b : Buf} {n : Nat} (h : n ≤ b.rest.length) :
    b.uint n = .ok (leVal (b.rest.take n), b.advance n) := by
  simp only [Buf.uint, Buf.read_of_le h]
  rfl

@[simp] theorem Buf.advance_zero (b : Buf) : b.advance 0 = b := by
  simp [Buf.advance]

theorem Buf.advance_advance (b : Buf) (n m : Nat) :
    (b.advance n).advance m = b.advance (n + m) := by
  simp [Buf.advance, List.take_add, List.append_assoc]

/-- What is read `k` bytes on is what lies there, written down again. -/
theorem Buf.uint_spec (b : Buf) (k n : Nat) (h : k + n ≤ b.rest.length) :
    ∃ v, (b.advance k).uint n = .ok (v, b.advance (k + n)) ∧ v < 256 ^ n ∧
      (b.advance k).rest = leBytes n v ++ (b.advance (k + n)).rest := by
  have hle : n ≤ (b.advance k).rest.length := by
    rw [Buf.advance_rest, List.length_drop]
    omega
  have hl : ((b.advance k).rest.take n).length = n := by rw [List.length_take]; omega
  refine ⟨_, by rw [Buf.uint_of_le hle, Buf.advance_advance], ?_, ?_⟩
  · have := leVal_lt ((b.advance k).rest.take n)
    rwa [hl] at this
  · have := leBytes_leVal ((b.advance k).rest.take n)
    rw [hl] at this
    rw [this, ← Buf.advance_advance, Buf.advance_rest (b.advance k), List.take_append_drop]

/-- A number that was written down `k` bytes on is read back. -/
theorem Buf.uint_encoded {b : Buf} {k n v : Nat} {t : Bytes}
    (hb : (b.advance k).rest = leBytes n v ++ t) (hv : v < 256 ^ n) :
    (b.advance k).uint n = .ok (v, b.advance (k + n)) ∧ (b.advance (k + n)).rest = t := by
  have hl := leBytes_length n v
  have hle : n ≤ (b.advance k).rest.length := by rw [hb, List.length_append, hl]; omega
  rw [Buf.uint_of_le hle, ← Buf.advance_advance, Buf.advance_rest (b.advance k), hb,
    List.take_left' hl, List.drop_left' hl, leVal_leBytes n v hv]
  exact ⟨rfl, rfl⟩

theorem Buf.special_not_inMemory {b : Buf} (h : b.special = true) : b.inMemory = false := by
  simp only [Buf.special, Bool.and_eq_true, Bool.not_eq_true'] at h
  exact h.1.2

end RdsJson.Nginx
