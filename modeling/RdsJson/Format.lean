import RdsJson.Rds
import RdsJson.Lib.Outcome
import Mathlib.Tactic.SplitIfs

/-! # The RDS format

What an RDS stream is, independent of the code that reads it: records and their
encoding, and the decoders that undo it. `parseHeader` and `parseCol` compute
what the decoders say. -/
namespace RdsJson.Format
open RdsJson.Lib.LittleEndian RdsJson.Lib.Outcome RdsJson.Nginx RdsJson.Rds

/-! ## Headers and column specs -/

def encodeHeader (h : Header) : Bytes :=
  leBytes 1 0 ++ (leBytes 4 restyDbdStreamVersion ++ (leBytes 1 0 ++
    (leBytes 2 h.stdErrcode.toNat ++ (leBytes 2 h.drvErrcode.toNat ++
      (leBytes 2 h.errstr.length ++ (h.errstr ++ (leBytes 8 h.affectedRows.toNat ++
        (leBytes 8 h.insertId.toNat ++ leBytes 2 h.colCount.toNat))))))))

def encodeCol (c : Column) : Bytes :=
  leBytes 2 c.stdType.toNat ++ (leBytes 2 c.drvType.toNat ++ (leBytes 2 c.name.length ++ c.name))

/-- The length field of the error string has 16 bits. -/
def Header.Fits (h : Header) : Prop := h.errstr.length < 2 ^ 16

/-- A name is not empty, and its length field has 16 bits. -/
def Column.Fits (c : Column) : Prop := c.name ≠ [] ∧ c.name.length < 2 ^ 16

theorem encodeHeader_length (h : Header) : (encodeHeader h).length = 30 + h.errstr.length := by
  simp [encodeHeader]
  omega

theorem encodeCol_length (c : Column) : (encodeCol c).length = 6 + c.name.length := by
  simp [encodeCol]
  omega

def decodeHeader (bs : Bytes) : Option (Header × Bytes) := do
  let (endian, bs) ← takeLE 1 bs
  if endian ≠ 0 then none else do
  let (version, bs) ← takeLE 4 bs
  if version ≠ restyDbdStreamVersion then none else do
  let (resultType, bs) ← takeLE 1 bs
  if resultType ≠ 0 then none else do
  let (stdErrcode, bs) ← takeLE 2 bs
  let (drvErrcode, bs) ← takeLE 2 bs
  let (errstrLen, bs) ← takeLE 2 bs
  if bs.length < errstrLen then none else do
  let errstr := bs.take errstrLen
  let (affectedRows, bs) ← takeLE 8 (bs.drop errstrLen)
  let (insertId, bs) ← takeLE 8 bs
  let (colCount, bs) ← takeLE 2 bs
  some (⟨UInt16.ofNat stdErrcode, UInt16.ofNat drvErrcode, errstr, UInt64.ofNat affectedRows,
    UInt64.ofNat insertId, UInt16.ofNat colCount⟩, bs)

def decodeCol (bs : Bytes) : Option (Column × Bytes) := do
  let (stdType, bs) ← takeLE 2 bs
  let (drvType, bs) ← takeLE 2 bs
  let (nameLen, bs) ← takeLE 2 bs
  if nameLen = 0 ∨ bs.length < nameLen then none else
  some (⟨UInt16.ofNat stdType, UInt16.ofNat drvType, bs.take nameLen⟩, bs.drop nameLen)

theorem decodeHeader_encode (h : Header) (hf : Header.Fits h) (t : Bytes) :
    decodeHeader (encodeHeader h ++ t) = some (h, t) := by
  have h1 (rest : Bytes) := takeLE_append 1 0 rest (by decide)
  have h3 (rest : Bytes) := takeLE_append 4 restyDbdStreamVersion rest (by decide)
  have hlen (rest : Bytes) := takeLE_append 2 h.errstr.length rest hf
  simp [decodeHeader, encodeHeader, h1, h3, hlen]

theorem decodeCol_encode (c : Column) (hf : Column.Fits c) (t : Bytes) :
    decodeCol (encodeCol c ++ t) = some (c, t) := by
  have hlen (rest : Bytes) := takeLE_append 2 c.name.length rest hf.2
  simp [decodeCol, encodeCol, hlen, hf.1]

theorem decodeHeader_some {bs t : Bytes} {h : Header} (hd : decodeHeader bs = some (h, t)) :
    Header.Fits h ∧ bs = encodeHeader h ++ t := by
  unfold decodeHeader at hd
  obtain ⟨endian, b1, rfl, -, hd⟩ := takeLE_bind hd
  dsimp only at hd
  split_ifs at hd with he
  obtain ⟨version, b2, rfl, -, hd⟩ := takeLE_bind hd
  dsimp only at hd
  split_ifs at hd with hv
  obtain ⟨resultType, b3, rfl, -, hd⟩ := takeLE_bind hd
  dsimp only at hd
  split_ifs at hd with ht
  obtain ⟨stdErrcode, b4, rfl, l4, hd⟩ := takeLE_bind hd
  obtain ⟨drvErrcode, b5, rfl, l5, hd⟩ := takeLE_bind hd
  obtain ⟨errstrLen, b6, rfl, l6, hd⟩ := takeLE_bind hd
  dsimp only at hd
  split_ifs at hd with hl
  obtain ⟨affectedRows, b7, e7, l7, hd⟩ := takeLE_bind hd
  obtain ⟨insertId, b8, rfl, l8, hd⟩ := takeLE_bind hd
  obtain ⟨colCount, b9, rfl, l9, hd⟩ := takeLE_bind hd
  simp only [Option.some.injEq, Prod.mk.injEq] at hd
  obtain ⟨rfl, rfl⟩ := hd
  simp only [ne_eq, not_not] at he hv ht
  subst he hv ht
  have hlen : (b6.take errstrLen).length = errstrLen := by rw [List.length_take]; omega
  refine ⟨by simpa [Header.Fits, hlen] using l6, ?_⟩
  simp only [encodeHeader, hlen, leBytes_uint16 l4, leBytes_uint16 l5, leBytes_uint16 l9,
    leBytes_uint64 l7, leBytes_uint64 l8, List.append_assoc]
  -- the string is what lies between its length and the counters
  rw [← e7, List.take_append_drop]

theorem decodeCol_some {bs t : Bytes} {c : Column} (hd : decodeCol bs = some (c, t)) :
    Column.Fits c ∧ bs = encodeCol c ++ t := by
  unfold decodeCol at hd
  obtain ⟨stdType, b1, rfl, l1, hd⟩ := takeLE_bind hd
  obtain ⟨drvType, b2, rfl, l2, hd⟩ := takeLE_bind hd
  obtain ⟨nameLen, b3, rfl, l3, hd⟩ := takeLE_bind hd
  dsimp only at hd
  split_ifs at hd with hn
  simp only [Option.some.injEq, Prod.mk.injEq] at hd
  obtain ⟨rfl, rfl⟩ := hd
  simp only [not_or, Nat.not_lt] at hn
  have hlen : (b3.take nameLen).length = nameLen := by rw [List.length_take]; omega
  refine ⟨⟨?_, by simpa [hlen] using l3⟩, ?_⟩
  · intro he
    dsimp only at he
    rw [he] at hlen
    exact hn.1 hlen.symm
  · simp only [encodeCol, hlen, leBytes_uint16 l1, leBytes_uint16 l2, List.append_assoc,
      List.take_append_drop]

theorem uint_of_takeLE {b : Buf} {n v : Nat} {y : Bytes} (h : takeLE n b.rest = some (v, y)) :
    b.uint n = .ok (v, b.advance n) ∧ (b.advance n).rest = y := by
  obtain ⟨hb, hv⟩ := takeLE_some h
  rw [← Buf.advance_zero b] at hb
  obtain ⟨hu, hr⟩ := Buf.uint_encoded hb hv
  rw [Buf.advance_zero, Nat.zero_add] at hu
  rw [Nat.zero_add] at hr
  exact ⟨hu, hr⟩

theorem uint_one {b : Buf} {f : UInt8} {x : Bytes} (h : b.rest = f :: x) :
    b.uint 1 = .ok (f.toNat, b.advance 1) ∧ (b.advance 1).rest = x := by
  rw [Buf.uint_of_le (by rw [h]; simp), h]
  exact ⟨by simp [leVal], by rw [Buf.advance_rest, h]; rfl⟩

/-! ## The parsers compute the decoders -/

/-- The header parser never reads past the end, and a header it returns is what
it advanced over. -/
theorem parseHeader_spec (b : Buf) :
    ∃ header? b', parseHeader b = .ok (header?, b') ∧
      ∀ h, header? = some h → Header.Fits h ∧ b.rest = encodeHeader h ++ b'.rest ∧
        b' = b.advance (encodeHeader h).length := by
  unfold parseHeader
  split_ifs with hlen
  · exact ⟨none, b, rfl, by simp⟩
  obtain ⟨endian, r1, -, e1⟩ := b.uint_spec 0 1 (by omega)
  rw [Buf.advance_zero] at r1 e1
  simp only [r1, ok_bind]
  split_ifs with he
  · exact ⟨none, _, rfl, by simp⟩
  obtain ⟨version, r2, -, e2⟩ := b.uint_spec 1 4 (by omega)
  simp only [r2, ok_bind]
  split_ifs with hv
  · exact ⟨none, _, rfl, by simp⟩
  obtain ⟨resultType, r3, -, e3⟩ := b.uint_spec 5 1 (by omega)
  simp only [r3, ok_bind]
  split_ifs with ht
  · exact ⟨none, _, rfl, by simp⟩
  obtain ⟨stdErrcode, r4, l4, e4⟩ := b.uint_spec 6 2 (by omega)
  obtain ⟨drvErrcode, r5, l5, e5⟩ := b.uint_spec 8 2 (by omega)
  obtain ⟨errstrLen, r6, l6, e6⟩ := b.uint_spec 10 2 (by omega)
  simp only [r4, r5, r6, ok_bind]
  split_ifs with hrest
  · exact ⟨none, _, rfl, by simp⟩
  rw [Buf.advance_rest, List.length_drop] at hrest
  have hread : (b.advance 12).read errstrLen = .ok ((b.advance 12).rest.take errstrLen) :=
    Buf.read_of_le (by rw [Buf.advance_rest, List.length_drop]; omega)
  obtain ⟨affectedRows, r8, l8, e8⟩ := b.uint_spec (12 + errstrLen) 8 (by omega)
  obtain ⟨insertId, r9, l9, e9⟩ := b.uint_spec (12 + errstrLen + 8) 8 (by omega)
  obtain ⟨colCount, r10, l10, e10⟩ := b.uint_spec (12 + errstrLen + 8 + 8) 2 (by omega)
  simp only [Nat.reduceAdd, Buf.advance_advance, hread, r8, r9, r10, ok_bind]
  refine ⟨_, _, rfl, fun h hh => ?_⟩
  obtain rfl := Option.some.inj hh
  have hlen' : ((b.advance 12).rest.take errstrLen).length = errstrLen := by
    rw [Buf.advance_rest, List.length_take, List.length_drop]
    omega
  refine ⟨by unfold Header.Fits; rw [hlen']; exact l6, ?_, ?_⟩
  · simp only [ne_eq, not_not] at he hv ht
    subst he hv ht
    have e7 : (b.advance 12).rest = (b.advance 12).rest.take errstrLen ++
        (b.advance (12 + errstrLen)).rest := by
      rw [← Buf.advance_advance, Buf.advance_rest (b.advance 12), List.take_append_drop]
    simp only [encodeHeader, hlen', leBytes_uint16 l4, leBytes_uint16 l5, leBytes_uint16 l10,
      leBytes_uint64 l8, leBytes_uint64 l9, List.append_assoc]
    rw [← e10, ← e9, ← e8, ← e7, ← e6, ← e5, ← e4, ← e3, ← e2, ← e1]
  · rw [encodeHeader_length, hlen']
    congr 1
    omega

/-- A header that is there is returned. -/
theorem parseHeader_encode {b : Buf} {h : Header} {t : Bytes} (hf : Header.Fits h)
    (hb : b.rest = encodeHeader h ++ t) :
    parseHeader b = .ok (some h, b.advance (encodeHeader h).length) := by
  have hlen : b.rest.length = 30 + h.errstr.length + t.length := by
    rw [hb, List.length_append, encodeHeader_length]
  rw [← Buf.advance_zero b] at hb
  simp only [encodeHeader, List.append_assoc] at hb
  obtain ⟨r1, e1⟩ := Buf.uint_encoded hb (by decide)
  obtain ⟨r2, e2⟩ := Buf.uint_encoded e1 (by decide)
  obtain ⟨r3, e3⟩ := Buf.uint_encoded e2 (by decide)
  obtain ⟨r4, e4⟩ := Buf.uint_encoded e3 h.stdErrcode.toNat_lt
  obtain ⟨r5, e5⟩ := Buf.uint_encoded e4 h.drvErrcode.toNat_lt
  obtain ⟨r6, e6⟩ := Buf.uint_encoded e5 hf
  have e7 : (b.advance (12 + h.errstr.length)).rest = leBytes 8 h.affectedRows.toNat ++
      (leBytes 8 h.insertId.toNat ++ (leBytes 2 h.colCount.toNat ++ t)) := by
    rw [← Buf.advance_advance, Buf.advance_rest (b.advance 12)]
    simp only [Nat.reduceAdd] at e6
    rw [e6, List.drop_left]
  obtain ⟨r8, e8⟩ := Buf.uint_encoded e7 h.affectedRows.toNat_lt
  obtain ⟨r9, e9⟩ := Buf.uint_encoded e8 h.insertId.toNat_lt
  obtain ⟨r10, e10⟩ := Buf.uint_encoded e9 h.colCount.toNat_lt
  have hread : (b.advance 12).read h.errstr.length = .ok h.errstr := by
    simp only [Nat.reduceAdd] at e6
    rw [Buf.read_of_le (by rw [e6, List.length_append]; omega), e6, List.take_left]
  rw [Buf.advance_zero] at r1
  simp only [Nat.reduceAdd] at r1 r2 r3 r4 r5 r6
  have h1 : ¬ b.rest.length < 1 + 4 + 1 + 2 + 2 + 2 + 0 + 8 + 8 + 2 := by omega
  have h2 : h.errstr.length + 8 + 8 + 2 ≤ b.rest.length - 12 := by omega
  have hn : 12 + h.errstr.length + 8 + 8 + 2 = 30 + h.errstr.length := by omega
  simp [parseHeader, h1, r1, r2, r3, r4, r5, r6, h2, hread, Buf.advance_advance, r8, r9, r10,
    encodeHeader_length, hn]

/-- The same two laws for column specs. -/
theorem parseCol_spec (palloc : Bool) (b : Buf) :
    ∃ col? b', parseCol palloc b = .ok (col?, b') ∧
      ∀ c, col? = some c → Column.Fits c ∧ palloc = true ∧ b.rest = encodeCol c ++ b'.rest ∧
        b' = b.advance (encodeCol c).length := by
  unfold parseCol
  by_cases hlen : b.rest.length < 2 + 2 + 2
  · exact ⟨none, b, if_pos hlen, by simp⟩
  rw [if_neg hlen]
  obtain ⟨stdType, r1, l1, e1⟩ := b.uint_spec 0 2 (by omega)
  rw [Buf.advance_zero] at r1 e1
  obtain ⟨drvType, r2, l2, e2⟩ := b.uint_spec 2 2 (by omega)
  obtain ⟨nameLen, r3, l3, e3⟩ := b.uint_spec 4 2 (by omega)
  simp only [r1, r2, r3, ok_bind]
  split
  · exact ⟨none, _, rfl, by simp⟩
  next hname =>
  split
  · exact ⟨none, _, rfl, by simp⟩
  next hrest =>
  split
  · exact ⟨none, _, rfl, by simp⟩
  next hpalloc =>
  rw [Buf.advance_rest, List.length_drop] at hrest
  have hread : (b.advance 6).read nameLen = .ok ((b.advance 6).rest.take nameLen) :=
    Buf.read_of_le (by rw [Buf.advance_rest, List.length_drop]; omega)
  simp only [Nat.reduceAdd, Buf.advance_advance, hread, ok_bind]
  refine ⟨_, _, rfl, fun c hc => ?_⟩
  obtain rfl := Option.some.inj hc
  have hlen' : ((b.advance 6).rest.take nameLen).length = nameLen := by
    rw [Buf.advance_rest, List.length_take, List.length_drop]
    omega
  refine ⟨⟨?_, by rw [hlen']; exact l3⟩, by simpa using hpalloc, ?_, ?_⟩
  · intro he
    dsimp only at he
    rw [he] at hlen'
    exact hname hlen'.symm
  · have e4 : (b.advance 6).rest = (b.advance 6).rest.take nameLen ++
        (b.advance (6 + nameLen)).rest := by
      rw [← Buf.advance_advance, Buf.advance_rest (b.advance 6), List.take_append_drop]
    simp only [encodeCol, hlen', leBytes_uint16 l1, leBytes_uint16 l2, List.append_assoc]
    rw [← e4, ← e3, ← e2, ← e1]
  · rw [encodeCol_length, hlen']

theorem parseCol_encode {b : Buf} {c : Column} {t : Bytes} (hf : Column.Fits c)
    (hb : b.rest = encodeCol c ++ t) :
    parseCol true b = .ok (some c, b.advance (encodeCol c).length) := by
  have hlen : b.rest.length = 6 + c.name.length + t.length := by
    rw [hb, List.length_append, encodeCol_length]
  rw [← Buf.advance_zero b] at hb
  simp only [encodeCol, List.append_assoc] at hb
  obtain ⟨r1, e1⟩ := Buf.uint_encoded hb c.stdType.toNat_lt
  obtain ⟨r2, e2⟩ := Buf.uint_encoded e1 c.drvType.toNat_lt
  obtain ⟨r3, e3⟩ := Buf.uint_encoded e2 hf.2
  rw [Buf.advance_zero] at r1
  simp only [Nat.reduceAdd] at r1 r2 r3 e3
  have hread : (b.advance 6).read c.name.length = .ok c.name := by
    rw [Buf.read_of_le (by rw [e3, List.length_append]; omega), e3, List.take_left]
  have h1 : ¬ b.rest.length < 2 + 2 + 2 := by omega
  have h2 : c.name.length ≤ b.rest.length - 6 := by omega
  simp [parseCol, h1, r1, r2, r3, hf.1, h2, hread, Buf.advance_advance, encodeCol_length]

/-- The header parser finds what the decoder finds. -/
theorem parseHeader_decode (b : Buf) :
    match decodeHeader b.rest with
    | none => ∃ b', parseHeader b = .ok (none, b')
    | some (h, t) => parseHeader b = .ok (some h, b.advance (encodeHeader h).length) ∧
        (b.advance (encodeHeader h).length).rest = t := by
  cases hd : decodeHeader b.rest with
  | none =>
    obtain ⟨header?, b', hparse, hspec⟩ := parseHeader_spec b
    cases header? with
    | none => exact ⟨b', hparse⟩
    | some h =>
      obtain ⟨hfits, hrest, -⟩ := hspec h rfl
      rw [hrest, decodeHeader_encode h hfits] at hd
      cases hd
  | some r =>
    obtain ⟨hfits, hrest⟩ := decodeHeader_some hd
    exact ⟨parseHeader_encode hfits hrest, by rw [Buf.advance_rest, hrest, List.drop_left]⟩

theorem parseCol_decode (palloc : Bool) (b : Buf) :
    match decodeCol b.rest with
    | none => ∃ b', parseCol palloc b = .ok (none, b')
    | some (c, t) =>
      (palloc = true ∧ parseCol palloc b = .ok (some c, b.advance (encodeCol c).length) ∧
        (b.advance (encodeCol c).length).rest = t) ∨
      (palloc = false ∧ ∃ b', parseCol palloc b = .ok (none, b')) := by
  obtain ⟨col?, b', hparse, hspec⟩ := parseCol_spec palloc b
  cases hd : decodeCol b.rest with
  | none =>
    cases col? with
    | none => exact ⟨b', hparse⟩
    | some c =>
      obtain ⟨hfits, -, hrest, -⟩ := hspec c rfl
      rw [hrest, decodeCol_encode c hfits] at hd
      cases hd
  | some r =>
    obtain ⟨hfits, hrest⟩ := decodeCol_some hd
    cases palloc with
    | true =>
      exact .inl ⟨rfl, parseCol_encode hfits hrest, by rw [Buf.advance_rest, hrest, List.drop_left]⟩
    | false =>
      cases col? with
      | none => exact .inr ⟨rfl, b', hparse⟩
      | some c => cases (hspec c rfl).2.1

end RdsJson.Format
