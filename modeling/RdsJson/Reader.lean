import RdsJson.ResultSet
import RdsJson.Lib.TailLoop

/-! # Reading a result set piece by piece

How far a stream was read is a `Progress`; a step reads the next record of a
buf. This is the abstract side of the five processors: it knows nothing of
requests, contexts and output. -/
namespace RdsJson.Reader
open RdsJson.Lib.LittleEndian RdsJson.Lib.TailLoop RdsJson.Nginx RdsJson.Rds RdsJson.Format
open RdsJson.ResultSet

/-- How far a stream was read: before its header, within the column specs,
between two rows, between two fields of a row, within a value that `missing`
bytes are to be added to, or to its end. -/
inductive Progress where
  | header
  | cols (h : Header) (cs : List Column)
  | rows (t : Table)
  | fields (t : Table) (flag : UInt8) (fs : List Field)
  | value (t : Table) (flag : UInt8) (fs : List Field) (got : Bytes) (missing : Nat)
  | done (t : Table)
  deriving DecidableEq

def Progress.midValue : Progress → Bool
  | .value .. => true
  | _ => false

def Progress.isDone : Progress → Bool
  | .done _ => true
  | _ => false

/-- The progress behind a field: in the row, or behind its last field. -/
def endField (t : Table) (flag : UInt8) (fs : List Field) (f : Field) : Progress :=
  if (fs ++ [f]).length ≥ t.cols.length then
    .rows { t with rows := t.rows ++ [⟨flag, fs ++ [f]⟩] }
  else .fields t flag (fs ++ [f])

/-- The progress behind a piece of a value: within it while bytes are missing. -/
def behindPiece (t : Table) (flag : UInt8) (fs : List Field) (got : Bytes) (missing : Nat) :
    Progress :=
  if missing = 0 then endField t flag fs (some got) else .value t flag fs got missing

/-- As much of a value as there is. -/
def readValue (t : Table) (flag : UInt8) (fs : List Field) (got : Bytes) (missing : Nat)
    (x : Bytes) : Option (Progress × Bytes) := do
  let col ← t.cols[fs.length]?
  let data := x.take missing
  if accepts col (got ++ data) (missing - data.length) then
    some (behindPiece t flag fs (got ++ data) (missing - data.length), x.drop missing)
  else none

/-- One record off the front of `x`; `none` where it is refused. A value is
refused when no byte of it comes with its length, and bytes are counted modulo
`2 ^ 32` there. -/
def readStep (p : Progress) (x : Bytes) : Option (Progress × Bytes) :=
  match p with
  | .header => do
    let (h, x) ← decodeHeader x
    if h.colCount = 0 then if x = [] then some (.done ⟨h, [], []⟩, []) else none
    else some (.cols h [], x)
  | .cols h cs => do
    let (c, x) ← decodeCol x
    some (if (cs ++ [c]).length ≥ h.colCount.toNat then .rows ⟨h, cs ++ [c], []⟩
      else .cols h (cs ++ [c]), x)
  | .rows t =>
    match x with
    | [] => none
    | flag :: x =>
      if flag = 0 then if x = [] then some (.done t, []) else none
      else some (.fields t flag [], x)
  | .fields t flag fs => do
    let (total, x) ← takeLE 4 x
    if total = nullLength then some (endField t flag fs none, x)
    else if x.length % 2 ^ 32 = 0 ∧ total ≠ 0 then none
    else readValue t flag fs [] total x
  | .value t flag fs got missing => readValue t flag fs got missing x
  | .done _ => none

/-! ## Whole bufs -/

def readTurn (s : Progress × Bytes) : Except Unit (Turn (Progress × Bytes) Progress) :=
  match readStep s.1 s.2 with
  | none => .error ()
  | some (p, x) => if x = [] then .ok (.done p) else .ok (.again (p, x))

def readMeasure (s : Progress × Bytes) : Nat := 2 * s.2.length + if s.1.midValue then 1 else 0

theorem endField_midValue (t : Table) (flag : UInt8) (fs : List Field) (f : Field) :
    (endField t flag fs f).midValue = false := by
  unfold endField
  split <;> rfl

theorem readValue_length {t : Table} {flag : UInt8} {fs : List Field} {got x x' : Bytes}
    {missing : Nat} {p : Progress} (h : readValue t flag fs got missing x = some (p, x')) :
    x'.length ≤ x.length ∧ (x' ≠ [] → p.midValue = false) := by
  unfold readValue at h
  obtain ⟨col, -, h⟩ := Option.bind_eq_some_iff.mp h
  dsimp only at h
  split at h
  · simp only [Option.some.injEq, Prod.mk.injEq] at h
    obtain ⟨rfl, rfl⟩ := h
    refine ⟨by simp, fun hne => ?_⟩
    have hlt : missing < x.length := by simpa using hne
    rw [behindPiece, if_pos (by rw [List.length_take]; omega)]
    exact endField_midValue _ _ _ _
  · cases h

/-- A step that leaves something took something, or ended a value. -/
theorem readStep_measure {p p' : Progress} {x x' : Bytes} (h : readStep p x = some (p', x'))
    (hne : x' ≠ []) : readMeasure (p', x') < readMeasure (p, x) := by
  have hp' : (if p'.midValue then 1 else 0) ≤ 1 := by split <;> omega
  cases p with
  | header =>
    obtain ⟨⟨hd, t⟩, hdec, h⟩ := Option.bind_eq_some_iff.mp h
    have hlen := congrArg List.length (decodeHeader_some hdec).2
    rw [List.length_append, encodeHeader_length] at hlen
    dsimp only at h
    split at h
    · split at h
      · simp only [Option.some.injEq, Prod.mk.injEq] at h
        exact absurd h.2.symm hne
      · cases h
    · simp only [Option.some.injEq, Prod.mk.injEq] at h
      obtain ⟨rfl, rfl⟩ := h
      simp only [readMeasure]
      omega
  | cols hd cs =>
    obtain ⟨⟨c, t⟩, hdec, h⟩ := Option.bind_eq_some_iff.mp h
    have hlen := congrArg List.length (decodeCol_some hdec).2
    rw [List.length_append, encodeCol_length] at hlen
    simp only [Option.some.injEq, Prod.mk.injEq] at h
    obtain ⟨rfl, rfl⟩ := h
    simp only [readMeasure]
    omega
  | rows t =>
    unfold readStep at h
    dsimp only at h
    split at h
    · cases h
    · split at h
      · split at h
        · simp only [Option.some.injEq, Prod.mk.injEq] at h
          exact absurd h.2.symm hne
        · cases h
      · simp only [Option.some.injEq, Prod.mk.injEq] at h
        obtain ⟨rfl, rfl⟩ := h
        simp only [readMeasure, List.length_cons]
        simp [Progress.midValue]
  | fields t flag fs =>
    obtain ⟨total, y, rfl, -, h⟩ := takeLE_bind h
    have hlen := leBytes_length 4 total
    dsimp only at h
    simp only [readMeasure, List.length_append, hlen]
    split at h
    · simp only [Option.some.injEq, Prod.mk.injEq] at h
      obtain ⟨rfl, rfl⟩ := h
      omega
    · split at h
      · cases h
      · have := (readValue_length h).1
        omega
  | value t flag fs got missing =>
    obtain ⟨hle, hmid⟩ := readValue_length h
    simp only [readMeasure, hmid hne]
    simp only [Progress.midValue]
    simp
    omega
  | done t => cases h

def readLoop : Loop Unit (Progress × Bytes) Progress where
  body := readTurn
  measure := readMeasure
  decreases {s s'} h := by
    unfold readTurn at h
    split at h
    · cases h
    · next p x hstep =>
      split at h
      · cases h
      · next hne =>
        cases h
        exact readStep_measure hstep hne

/-- A whole buf, of at least one record. -/
def readBuf (p : Progress) (x : Bytes) : Option Progress := (readLoop.run (p, x)).toOption

theorem readBuf_eq (p : Progress) (x : Bytes) :
    readBuf p x = (readStep p x).bind fun s => if s.2 = [] then some s.1 else readBuf s.1 s.2 := by
  have hbody : readLoop.body (p, x) = readTurn (p, x) := rfl
  unfold readBuf
  rw [readLoop.run_eq, hbody, readTurn]
  cases readStep p x with
  | none => rfl
  | some s =>
    by_cases hx : s.2 = []
    · simp [hx, Except.toOption]
    · simp [hx]

/-- The bufs of one call. One special buf is passed over, but not within a
value; what stands behind the end of the stream is not looked at. -/
def readBufs : Progress → List Buf → Option (Progress × List Buf)
  | p, [] => some (p, [])
  | p, b :: next =>
    if p.isDone then some (p, b :: next)
    else if b.inMemory then (readBuf p b.rest).bind fun p' => readBufs p' next
    else if p.midValue || !b.special then none
    else
      match next with
      | [] => some (p, [])
      | b' :: next' => (readBuf p b'.rest).bind fun p' => readBufs p' next'

@[simp] theorem readBufs_nil (p : Progress) : readBufs p [] = some (p, []) := by
  simp [readBufs]

theorem readBufs_done (t : Table) (bufs : List Buf) :
    readBufs (.done t) bufs = some (.done t, bufs) := by
  cases bufs with
  | nil => simp [readBufs]
  | cons b next => cases next <;> simp [readBufs, Progress.isDone]

/-! ## What was read -/

/-- The records of a table, without the end of the stream. -/
def records (t : Table) : Bytes :=
  encodeHeader t.header ++ t.cols.flatMap encodeCol ++ t.rows.flatMap encodeRow

/-- The beginning of a row. -/
def rowBytes (flag : UInt8) (fs : List Field) : Bytes := flag :: fs.flatMap encodeField

/-- The bytes that a stream begins with when it was read so far. -/
def Progress.bytes : Progress → Bytes
  | .header => []
  | .cols h cs => encodeHeader h ++ cs.flatMap encodeCol
  | .rows t => records t
  | .fields t flag fs => records t ++ rowBytes flag fs
  | .value t flag fs got missing =>
    records t ++ rowBytes flag fs ++ (leBytes 4 (got.length + missing) ++ got)
  | .done t => t.encode

/-- A row that is being read. -/
structure RowOpen (t : Table) (flag : UInt8) (fs : List Field) : Prop where
  table : t.Ok
  flag : flag ≠ 0
  length : fs.length < t.cols.length
  fields : FieldsOk t.cols fs

/-- A value that is being read. -/
structure ValueOpen (t : Table) (flag : UInt8) (fs : List Field) (got : Bytes) (missing : Nat) :
    Prop extends RowOpen t flag fs where
  begun : got ≠ []
  unfinished : 0 < missing
  total : got.length + missing < nullLength
  accepted : ∃ col, t.cols[fs.length]? = some col ∧ accepts col got missing = true

/-- What was read is the beginning of a well-formed stream. -/
def Progress.Ok : Progress → Prop
  | .header => True
  | .cols h cs => Header.Fits h ∧ cs.length < h.colCount.toNat ∧ ∀ c ∈ cs, Column.Fits c
  | .rows t => t.Ok ∧ t.cols ≠ []
  | .fields t flag fs => RowOpen t flag fs
  | .value t flag fs got missing => ValueOpen t flag fs got missing
  | .done t => t.Ok

theorem rowBytes_snoc (flag : UInt8) (fs : List Field) (f : Field) :
    rowBytes flag (fs ++ [f]) = rowBytes flag fs ++ encodeField f := by
  simp [rowBytes]

theorem endField_bytes (t : Table) (flag : UInt8) (fs : List Field) (f : Field) :
    (endField t flag fs f).bytes = records t ++ rowBytes flag fs ++ encodeField f := by
  unfold endField
  split
  · simp [Progress.bytes, records, rowBytes, encodeRow]
  · simp only [Progress.bytes, rowBytes_snoc, List.append_assoc]

theorem endField_ok {t : Table} {flag : UInt8} {fs : List Field} {f : Field} {col : Column}
    (h : RowOpen t flag fs) (hcol : t.cols[fs.length]? = some col) (hf : Field.Ok col f) :
    (endField t flag fs f).Ok := by
  have hlen := h.length
  have hfields := h.fields.snoc hcol hf
  unfold endField
  split
  · next hge =>
    have hne : t.cols ≠ [] := List.ne_nil_of_length_pos (by omega)
    refine ⟨⟨h.table.headerFits, h.table.colCount, h.table.colsFit, ?_, fun he => absurd he hne⟩,
      hne⟩
    intro r hr
    rcases List.mem_append.mp hr with hr | hr
    · exact h.table.rowsOk r hr
    · obtain rfl := List.mem_singleton.mp hr
      refine ⟨h.flag, ?_, hfields⟩
      show (fs ++ [f]).length = t.cols.length
      rw [List.length_append, List.length_singleton] at hge ⊢
      omega
  · next hlt => exact ⟨h.table, h.flag, Nat.not_le.mp hlt, hfields⟩

theorem behindPiece_ok {t : Table} {flag : UInt8} {fs : List Field} {got : Bytes} {missing : Nat}
    {col : Column} (h : RowOpen t flag fs) (hcol : t.cols[fs.length]? = some col)
    (hacc : accepts col got missing = true) (htotal : got.length + missing < nullLength) :
    (behindPiece t flag fs got missing).Ok := by
  unfold behindPiece
  split
  · next hzero =>
    subst hzero
    exact endField_ok h hcol ⟨htotal, hacc⟩
  · next hne =>
    refine ⟨h, ?_, Nat.pos_of_ne_zero hne, htotal, col, hcol, hacc⟩
    rintro rfl
    exact hne ((accepts_nil _ _).mp hacc)

theorem behindPiece_bytes (t : Table) (flag : UInt8) (fs : List Field) (got : Bytes)
    (missing : Nat) :
    (behindPiece t flag fs got missing).bytes =
      records t ++ rowBytes flag fs ++ (leBytes 4 (got.length + missing) ++ got) := by
  unfold behindPiece
  split
  · next hzero => rw [endField_bytes, hzero, Nat.add_zero, encodeField]
  · rfl

/-- What was read of a value is what its length and its bytes say. -/
theorem readValue_spec {t : Table} {flag : UInt8} {fs : List Field} {got x x' : Bytes}
    {missing : Nat} {p : Progress} (hrow : RowOpen t flag fs)
    (htotal : got.length + missing < nullLength)
    (h : readValue t flag fs got missing x = some (p, x')) :
    p.Ok ∧ records t ++ rowBytes flag fs ++ (leBytes 4 (got.length + missing) ++ got) ++ x =
      p.bytes ++ x' := by
  obtain ⟨col, hcol, h⟩ := Option.bind_eq_some_iff.mp h
  dsimp only at h
  split at h
  case isFalse => cases h
  next hacc =>
  simp only [Option.some.injEq, Prod.mk.injEq] at h
  obtain ⟨rfl, rfl⟩ := h
  have hlen : (x.take missing).length ≤ missing := by simp
  have hsum : (got ++ x.take missing).length + (missing - (x.take missing).length) =
      got.length + missing := by
    rw [List.length_append]
    omega
  refine ⟨behindPiece_ok hrow hcol hacc (by omega), ?_⟩
  rw [behindPiece_bytes, hsum]
  simp only [List.append_assoc, List.take_append_drop]

/-- A step keeps the books: what is read is gone from what is left. -/
theorem readStep_spec {p p' : Progress} {x x' : Bytes} (hp : p.Ok)
    (h : readStep p x = some (p', x')) : p'.Ok ∧ p.bytes ++ x = p'.bytes ++ x' := by
  cases p with
  | header =>
    obtain ⟨⟨hd, t⟩, hdec, hk⟩ := Option.bind_eq_some_iff.mp h
    obtain ⟨hfits, rfl⟩ := decodeHeader_some hdec
    dsimp only at hk
    split at hk
    · next hzero =>
      split at hk
      · next ht =>
        simp only [Option.some.injEq, Prod.mk.injEq] at hk
        obtain ⟨rfl, rfl⟩ := hk
        refine ⟨⟨hfits, by simp [hzero], by simp, by simp, fun _ => rfl⟩, ?_⟩
        simp [Progress.bytes, Table.encode, ht]
      · cases hk
    · next hzero =>
      simp only [Option.some.injEq, Prod.mk.injEq] at hk
      obtain ⟨rfl, rfl⟩ := hk
      refine ⟨⟨hfits, ?_, by simp⟩, by simp [Progress.bytes]⟩
      refine Nat.pos_of_ne_zero fun he => hzero ?_
      rw [← UInt16.toNat_inj]
      exact he
  | cols hd cs =>
    obtain ⟨⟨c, t⟩, hdec, hk⟩ := Option.bind_eq_some_iff.mp h
    obtain ⟨hfits, rfl⟩ := decodeCol_some hdec
    obtain ⟨hhd, hlt, hcs⟩ := hp
    have hall : ∀ c' ∈ cs ++ [c], Column.Fits c' := by
      intro c' hc'
      rcases List.mem_append.mp hc' with hc' | hc'
      · exact hcs c' hc'
      · exact List.mem_singleton.mp hc' ▸ hfits
    simp only [Option.some.injEq, Prod.mk.injEq] at hk
    obtain ⟨rfl, rfl⟩ := hk
    split
    · next hge =>
      have hlen : (cs ++ [c]).length = hd.colCount.toNat := by
        rw [List.length_append, List.length_singleton] at hge ⊢
        omega
      refine ⟨⟨⟨hhd, hlen, hall, by simp, fun _ => rfl⟩, by simp⟩, ?_⟩
      simp [Progress.bytes, records]
    · next hge => exact ⟨⟨hhd, Nat.not_le.mp hge, hall⟩, by simp [Progress.bytes]⟩
  | rows t =>
    obtain ⟨hok, hne⟩ := hp
    unfold readStep at h
    dsimp only at h
    split at h
    · cases h
    · next flag x =>
      split at h
      · next hflag =>
        split at h
        · next hx =>
          simp only [Option.some.injEq, Prod.mk.injEq] at h
          obtain ⟨rfl, rfl⟩ := h
          refine ⟨hok, ?_⟩
          simp [Progress.bytes, records, Table.encode, hne, hx, hflag]
        · cases h
      · next hflag =>
        simp only [Option.some.injEq, Prod.mk.injEq] at h
        obtain ⟨rfl, rfl⟩ := h
        refine ⟨⟨hok, hflag, List.length_pos_iff.mpr hne, by simp⟩, ?_⟩
        simp [Progress.bytes, rowBytes]
  | fields t flag fs =>
    obtain ⟨total, y, rfl, htotal, h⟩ := takeLE_bind h
    obtain ⟨col, hcol⟩ : ∃ col, t.cols[fs.length]? = some col :=
      ⟨_, List.getElem?_eq_getElem hp.length⟩
    dsimp only at h
    split at h
    · next hnull =>
      simp only [Option.some.injEq, Prod.mk.injEq] at h
      obtain ⟨rfl, rfl⟩ := h
      refine ⟨endField_ok hp hcol trivial, ?_⟩
      rw [endField_bytes]
      simp only [Progress.bytes, encodeField, hnull, List.append_assoc]
    · next hnull =>
      split at h
      · cases h
      · have hlt : ([] : Bytes).length + total < nullLength := by
          unfold nullLength at hnull ⊢
          norm_num at htotal
          simp only [List.length_nil]
          omega
        obtain ⟨hok, hbytes⟩ := readValue_spec hp hlt h
        refine ⟨hok, ?_⟩
        rw [← hbytes]
        simp [Progress.bytes]
  | value t flag fs got missing => exact readValue_spec hp.toRowOpen hp.total h
  | done t => cases h

/-- A buf that is read is what it adds to the bytes of the progress. -/
theorem readBuf_spec {p p' : Progress} {x : Bytes} (hp : p.Ok) (h : readBuf p x = some p') :
    p'.Ok ∧ p.bytes ++ x = p'.bytes := by
  have hrun (s : Progress × Bytes) (hs : s.1.Ok) : readBuf s.1 s.2 = some p' →
      p'.Ok ∧ s.1.bytes ++ s.2 = p'.bytes := by
    induction s using readLoop.induct with
    | h s ih =>
      intro h
      rw [readBuf_eq] at h
      obtain ⟨s', hstep, hk⟩ := Option.bind_eq_some_iff.mp h
      obtain ⟨hok, hbytes⟩ := readStep_spec hs hstep
      split at hk
      · next hend =>
        obtain rfl := Option.some.inj hk
        exact ⟨hok, by rw [hbytes, hend, List.append_nil]⟩
      · next hmore =>
        have hturn : readLoop.body s = .ok (.again s') := by
          show readTurn s = _
          rw [readTurn, hstep]
          exact if_neg hmore
        have := ih s' hturn hok hk
        exact ⟨this.1, hbytes.trans this.2⟩
  exact hrun (p, x) hp h

/-- No stream ends with nothing. -/
theorem readBuf_done {p p' : Progress} {x : Bytes} (h : readBuf p x = some p')
    (hdone : p'.isDone = true) : x ≠ [] := by
  rintro rfl
  rw [readBuf_eq] at h
  obtain ⟨⟨q, y⟩, hstep, hk⟩ := Option.bind_eq_some_iff.mp h
  cases p with
  | value t flag fs got missing =>
    obtain ⟨col, -, hv⟩ := Option.bind_eq_some_iff.mp hstep
    dsimp only at hv
    split at hv
    · simp only [Option.some.injEq, Prod.mk.injEq, List.drop_nil] at hv
      obtain ⟨rfl, rfl⟩ := hv
      obtain rfl := Option.some.inj hk
      unfold behindPiece endField at hdone
      split_ifs at hdone <;> cases hdone
    · cases hv
  | _ => simp [readStep, decodeHeader, decodeCol, takeLE] at hstep

/-- What is read of a chain is a whole number of its bufs, all of them unless the
stream ends. -/
theorem readBufs_spec {p p' : Progress} {bufs rest : List Buf} (hp : p.Ok)
    (h : readBufs p bufs = some (p', rest)) :
    p'.Ok ∧ (p'.isDone = false → rest = []) ∧
      ∃ front, bufs = front ++ rest ∧ p'.bytes = p.bytes ++ front.flatMap Buf.rest := by
  fun_induction readBufs p bufs generalizing p' rest with
  | case1 p =>
    obtain ⟨rfl, rfl⟩ := Prod.mk.inj (Option.some.inj h)
    exact ⟨hp, fun _ => rfl, [], by simp, by simp⟩
  | case2 p b next hdone =>
    obtain ⟨rfl, rfl⟩ := Prod.mk.inj (Option.some.inj h)
    exact ⟨hp, fun hn => by simp [hdone] at hn, [], by simp, by simp⟩
  | case3 p b next hdone hmem ih =>
    obtain ⟨q, hq, hk⟩ := Option.bind_eq_some_iff.mp h
    obtain ⟨hok, hbytes⟩ := readBuf_spec hp hq
    obtain ⟨hok', hrest, front, rfl, hfront⟩ := ih q hok hk
    exact ⟨hok', hrest, b :: front, rfl, by simp [hfront, ← hbytes]⟩
  | case4 p b next hdone hmem href => cases h
  | case5 p b hdone hmem href =>
    obtain ⟨rfl, rfl⟩ := Prod.mk.inj (Option.some.inj h)
    have hempty : b.rest = [] := b.noData (by simpa using hmem)
    exact ⟨hp, fun _ => rfl, [b], rfl, by simp [hempty]⟩
  | case6 p b hdone hmem href b' next' ih =>
    obtain ⟨q, hq, hk⟩ := Option.bind_eq_some_iff.mp h
    have hempty : b.rest = [] := b.noData (by simpa using hmem)
    obtain ⟨hok, hbytes⟩ := readBuf_spec hp hq
    obtain ⟨hok', hrest, front, rfl, hfront⟩ := ih q hok hk
    exact ⟨hok', hrest, b :: b' :: front, rfl, by simp [hfront, ← hbytes, hempty]⟩

theorem readBufs_of_done {p : Progress} (h : p.isDone = true) (bufs : List Buf) :
    readBufs p bufs = some (p, bufs) := by
  cases p with
  | done t => exact readBufs_done t bufs
  | _ => cases h

/-- The stream ends with this buf, or behind it. -/
theorem readBuf_last {p q p' : Progress} {b : Buf} {next rest : List Buf}
    (hq : readBuf p b.rest = some q) (hk : readBufs q next = some (p', rest))
    (hdone : p'.isDone = true)
    (hnext : q.isDone = false → ∃ front b, next = front ++ b :: rest ∧ b.rest ≠ []) :
    ∃ front b', b :: next = front ++ b' :: rest ∧ b'.rest ≠ [] := by
  cases hqd : q.isDone with
  | true =>
    rw [readBufs_of_done hqd] at hk
    obtain ⟨rfl, rfl⟩ := Prod.mk.inj (Option.some.inj hk)
    exact ⟨[], b, rfl, readBuf_done hq hqd⟩
  | false =>
    obtain ⟨front, b', rfl, hb'⟩ := hnext hqd
    exact ⟨b :: front, b', rfl, hb'⟩

/-- The last byte of the stream stands at the end of a buf. -/
theorem readBufs_last {p p' : Progress} {bufs rest : List Buf}
    (h : readBufs p bufs = some (p', rest)) (hp : p.isDone = false) (hdone : p'.isDone = true) :
    ∃ front b, bufs = front ++ b :: rest ∧ b.rest ≠ [] := by
  fun_induction readBufs p bufs generalizing p' rest with
  | case1 p =>
    obtain ⟨rfl, rfl⟩ := Prod.mk.inj (Option.some.inj h)
    simp [hp] at hdone
  | case2 p b next hd => simp [hp] at hd
  | case3 p b next hd hmem ih =>
    obtain ⟨q, hq, hk⟩ := Option.bind_eq_some_iff.mp h
    exact readBuf_last hq hk hdone fun hqd => ih q hk hqd hdone
  | case4 p b next hd hmem href => cases h
  | case5 p b hd hmem href =>
    obtain ⟨rfl, rfl⟩ := Prod.mk.inj (Option.some.inj h)
    simp [hp] at hdone
  | case6 p b hd hmem href b' next' ih =>
    obtain ⟨q, hq, hk⟩ := Option.bind_eq_some_iff.mp h
    obtain ⟨front, b₁, hsplit, hb₁⟩ := readBuf_last hq hk hdone fun hqd => ih q hk hqd hdone
    exact ⟨b :: front, b₁, by rw [hsplit]; rfl, hb₁⟩

/-! ## Calls -/

/-- The chains of successive calls. What stands behind the end of the stream is
left where it is. -/
def readCalls : Progress → List (List Buf) → Option Progress
  | p, [] => some p
  | p, chain :: calls => (readBufs p chain).bind fun s => readCalls s.1 calls

theorem readCalls_append (p : Progress) (calls calls' : List (List Buf)) :
    readCalls p (calls ++ calls') = (readCalls p calls).bind fun q => readCalls q calls' := by
  induction calls generalizing p with
  | nil => rfl
  | cons chain calls ih =>
    simp only [List.cons_append, readCalls]
    cases readBufs p chain with
    | none => rfl
    | some s => exact ih s.1

theorem readCalls_snoc (p : Progress) (calls : List (List Buf)) (chain : List Buf) :
    readCalls p (calls ++ [chain]) =
      (readCalls p calls).bind fun q => (readBufs q chain).map Prod.fst := by
  rw [readCalls_append]
  congr 1
  funext q
  simp only [readCalls]
  cases readBufs q chain <;> rfl

theorem readCalls_done (t : Table) (calls : List (List Buf)) :
    readCalls (.done t) calls = some (.done t) := by
  induction calls with
  | nil => rfl
  | cons chain calls ih => rw [readCalls, readBufs_done, Option.bind_some, ih]

theorem readCalls_ok {p p' : Progress} {calls : List (List Buf)} (hp : p.Ok)
    (h : readCalls p calls = some p') : p'.Ok := by
  induction calls generalizing p with
  | nil => exact Option.some.inj h ▸ hp
  | cons chain calls ih =>
    obtain ⟨s, hs, hk⟩ := Option.bind_eq_some_iff.mp h
    exact ih (readBufs_spec hp hs).1 hk

/-- Until the stream ends all bufs are read. -/
theorem readCalls_spec {p p' : Progress} {calls : List (List Buf)} (hp : p.Ok)
    (h : readCalls p calls = some p') (hdone : p'.isDone = false) :
    p'.bytes = p.bytes ++ calls.flatten.flatMap Buf.rest := by
  induction calls generalizing p with
  | nil =>
    obtain rfl := Option.some.inj h
    simp
  | cons chain calls ih =>
    obtain ⟨⟨q, rest⟩, hq, hk⟩ := Option.bind_eq_some_iff.mp h
    obtain ⟨hok, hrest, front, rfl, hfront⟩ := readBufs_spec hp hq
    have hqdone : q.isDone = false := by
      cases q with
      | done t =>
        dsimp only at hk
        rw [readCalls_done] at hk
        obtain rfl := Option.some.inj hk
        cases hdone
      | _ => rfl
    rw [hrest hqdone, ih hok hk, hfront]
    simp

/-- A stream that was read to its end is a whole number of bufs. -/
theorem readCalls_complete {p : Progress} {calls : List (List Buf)} {t : Table} (hp : p.Ok)
    (hpd : p.isDone = false) (h : readCalls p calls = some (.done t)) :
    ∃ front b behind, calls.flatten = front ++ b :: behind ∧ b.rest ≠ [] ∧
      t.encode = p.bytes ++ (front ++ [b]).flatMap Buf.rest := by
  induction calls generalizing p with
  | nil =>
    obtain rfl := Option.some.inj h
    cases hpd
  | cons chain calls ih =>
    obtain ⟨⟨q, rest⟩, hq, hk⟩ := Option.bind_eq_some_iff.mp h
    obtain ⟨hok, hrest, front, hfront, hbytes⟩ := readBufs_spec hp hq
    cases hqd : q.isDone with
    | true =>
      obtain ⟨front', b, hsplit, hb⟩ := readBufs_last hq hpd hqd
      have hfront' : front = front' ++ [b] := by
        rw [hfront, List.append_cons] at hsplit
        exact List.append_cancel_right hsplit
      cases q with
      | done t' =>
        dsimp only at hk
        rw [readCalls_done] at hk
        obtain rfl := Progress.done.inj (Option.some.inj hk)
        refine ⟨front', b, rest ++ calls.flatten, by simp [hsplit], hb, ?_⟩
        rw [← hfront']
        exact hbytes
      | _ => cases hqd
    | false =>
      obtain ⟨front', b, behind, hsplit, hb, hencode⟩ := ih hok hqd hk
      rw [hrest hqd, List.append_nil] at hfront
      refine ⟨chain ++ front', b, behind, by simp [hsplit], hb, ?_⟩
      rw [hencode, hbytes, hfront]
      simp

/-! ## A value in two pieces -/

/-- The rest of a value is read as if its first `k` bytes had come alone. -/
theorem readValue_drop {t : Table} {flag : UInt8} {fs : List Field} {got x : Bytes}
    {missing k : Nat} (hkm : k < missing) (hkx : k < x.length) :
    readValue t flag fs (got ++ x.take k) (missing - k) (x.drop k) =
      readValue t flag fs got missing x := by
  have hdata : x.take k ++ (x.drop k).take (missing - k) = x.take missing := by
    rw [← List.take_add, Nat.add_sub_cancel' hkm.le]
  have hlen : ((x.drop k).take (missing - k)).length = (x.take missing).length - k := by
    simp only [List.length_take, List.length_drop]
    omega
  have hle : k ≤ (x.take missing).length := by
    rw [List.length_take]
    omega
  have hmiss : missing - k - ((x.take missing).length - k) = missing - (x.take missing).length := by
    omega
  unfold readValue
  simp only [List.append_assoc, hdata, hlen, hmiss, List.drop_drop, Nat.add_sub_cancel' hkm.le]

/-- A value is refused with any piece of it. -/
theorem readValue_refused {t : Table} {flag : UInt8} {fs : List Field} {got x : Bytes}
    {missing k : Nat} {col : Column} (hcol : t.cols[fs.length]? = some col) (hk : 0 < k)
    (hkm : k < missing) (hkx : k ≤ x.length)
    (hacc : accepts col (got ++ x.take k) (missing - k) = false) :
    readValue t flag fs got missing x = none := by
  have hne : got ++ x.take k ≠ [] := by
    intro he
    have := congrArg List.length he
    rw [List.length_append, List.length_take, List.length_nil] at this
    omega
  unfold readValue
  rw [hcol]
  simp only [Option.bind_eq_bind, Option.bind_some, ite_eq_right_iff, reduceCtorEq, imp_false]
  intro hwhole
  rcases Nat.lt_or_ge k x.length with hlt | hge
  · have hsplit : x.take missing = x.take k ++ (x.drop k).take (missing - k) := by
      rw [← List.take_add, Nat.add_sub_cancel' hkm.le]
    by_cases hbool : col.rough = .bool
    · have := length_of_accepts_bool hwhole hbool
      rw [List.length_append, List.length_take] at this
      omega
    · rw [hsplit, ← List.append_assoc, accepts_append hne hbool, hacc] at hwhole
      exact Bool.false_ne_true hwhole.1
  · have hx : x.take missing = x.take k := by
      rw [List.take_of_length_le (by omega), List.take_of_length_le hge]
    have hlen : (x.take k).length = k := by rw [List.length_take]; omega
    rw [hx, hlen, hacc] at hwhole
    exact Bool.false_ne_true hwhole

/-- A value that is all there. -/
theorem readValue_all {t : Table} {flag : UInt8} {fs : List Field} {got x : Bytes} {missing : Nat}
    {col : Column} (hcol : t.cols[fs.length]? = some col) (hle : missing ≤ x.length) :
    readValue t flag fs got missing x = if accepts col (got ++ x.take missing) 0 then
      some (endField t flag fs (some (got ++ x.take missing)), x.drop missing) else none := by
  have hlen : (x.take missing).length = missing := by rw [List.length_take]; omega
  simp [readValue, hcol, hlen, behindPiece]

/-- A value that uses the bytes up. -/
theorem readValue_short {t : Table} {flag : UInt8} {fs : List Field} {got x : Bytes}
    {missing : Nat} {col : Column} (hcol : t.cols[fs.length]? = some col)
    (hlt : x.length < missing) :
    readValue t flag fs got missing x = if accepts col (got ++ x) (missing - x.length) then
      some (.value t flag fs (got ++ x) (missing - x.length), []) else none := by
  have hne : missing - x.length ≠ 0 := by omega
  simp [readValue, hcol, List.take_of_length_le hlt.le, List.drop_of_length_le hlt.le, behindPiece,
    hne]

/-! ## Going on -/

theorem readBufs_memory {p : Progress} {b : Buf} {next : List Buf} (hp : p.isDone = false)
    (hb : b.inMemory = true) :
    readBufs p (b :: next) = (readBuf p b.rest).bind fun p' => readBufs p' next := by
  cases next <;> simp [readBufs, hp, hb]

/-- Where all bufs are in memory, a chain may be cut anywhere. -/
theorem readBufs_append {p : Progress} {bufs : List Buf} (more : List Buf)
    (hmem : ∀ b ∈ bufs, b.inMemory = true) :
    readBufs p (bufs ++ more) = (readBufs p bufs).bind fun s =>
      if s.1.isDone then some (s.1, s.2 ++ more) else readBufs s.1 more := by
  induction bufs generalizing p with
  | nil =>
    cases hp : p.isDone with
    | true => simp [readBufs_of_done hp, hp]
    | false => simp [hp]
  | cons b bufs ih =>
    cases hp : p.isDone with
    | true => simp [readBufs_of_done hp, hp]
    | false =>
      have hb := hmem b (by simp)
      rw [List.cons_append, readBufs_memory hp hb, readBufs_memory hp hb]
      cases readBuf p b.rest with
      | none => rfl
      | some q => exact ih fun b' hb' => hmem b' (by simp [hb'])

/-- And so may a run. -/
theorem readCalls_memory {p : Progress} {calls : List (List Buf)}
    (hmem : ∀ b ∈ calls.flatten, b.inMemory = true) :
    readCalls p calls = (readBufs p calls.flatten).map Prod.fst := by
  induction calls generalizing p with
  | nil => simp [readCalls]
  | cons chain calls ih =>
    rw [List.flatten_cons, readBufs_append _ fun b hb => hmem b (by simp [hb]), readCalls]
    cases readBufs p chain with
    | none => rfl
    | some s =>
      rw [Option.bind_some, Option.bind_some, ih fun b hb => hmem b (by simp [hb])]
      cases hs : s.1.isDone with
      | true => simp [readBufs_of_done hs]
      | false => simp

/-- `x` is read from `p` on as `x'` is from `p'` on. -/
def Continues (p : Progress) (x : Bytes) (p' : Progress) (x' : Bytes) : Prop :=
  readBuf p x = if x' = [] then some p' else readBuf p' x'

theorem continues_of_readStep {p p' : Progress} {x x' : Bytes}
    (h : readStep p x = some (p', x')) : Continues p x p' x' := by
  rw [Continues, readBuf_eq, h]
  rfl

theorem readBuf_eq_none {p : Progress} {x : Bytes} (h : readStep p x = none) :
    readBuf p x = none := by
  rw [readBuf_eq, h]
  rfl

/-- The first piece of a value, cut short where the count of the bytes in the buf
wraps, is a piece that the reader goes on from. -/
theorem readStep_fields {t : Table} (flag : UInt8) {fs : List Field} {col : Column} {total : Nat}
    {x y : Bytes} (hx : takeLE 4 x = some (total, y)) (hnull : total ≠ nullLength)
    (hcol : t.cols[fs.length]? = some col) {k : Nat} (hk : k = min (y.length % 2 ^ 32) total) :
    if accepts col (y.take k) (total - k) then
      Continues (.fields t flag fs) x
        (behindPiece t flag fs (y.take k) (total - k)) (y.drop k)
    else readStep (.fields t flag fs) x = none := by
  have hky : k ≤ y.length := by
    have := Nat.mod_le y.length (2 ^ 32)
    omega
  have hstep : readStep (.fields t flag fs) x =
      if y.length % 2 ^ 32 = 0 ∧ total ≠ 0 then none else readValue t flag fs [] total y := by
    simp only [readStep, hx, Option.bind_eq_bind, Option.bind_some, if_neg hnull]
  by_cases hnone : y.length % 2 ^ 32 = 0 ∧ total ≠ 0
  · have hk0 : k = 0 := by omega
    rw [hk0, List.take_zero, if_neg (by rw [accepts_nil]; omega), hstep, if_pos hnone]
  rw [if_neg hnone] at hstep
  split
  · next hacc =>
    by_cases hlt : k < total
    · rw [behindPiece, if_neg (by omega)]
      have hk0 : 0 < k := by omega
      rcases Nat.lt_or_ge k y.length with hmore | hend
      · have hdrop : readValue t flag fs ([] ++ y.take k) (total - k) (y.drop k) =
            readValue t flag fs [] total y := readValue_drop hlt hmore
        rw [List.nil_append] at hdrop
        have hvalue : readStep (.value t flag fs (y.take k) (total - k)) (y.drop k) =
            readStep (.fields t flag fs) x := by
          rw [hstep, ← hdrop]
          rfl
        rw [Continues, if_neg (by simpa using hmore), readBuf_eq, readBuf_eq (.value ..), hvalue]
      · have hshort : readValue t flag fs [] total y = _ := readValue_short hcol (by omega)
        have hlen : y.length = k := by omega
        rw [List.take_of_length_le hend] at hacc ⊢
        rw [List.nil_append, hlen, if_pos hacc] at hshort
        rw [List.drop_of_length_le hend]
        exact continues_of_readStep (hstep.trans hshort)
    · obtain rfl : k = total := by omega
      have hall : readValue t flag fs [] k y = _ := readValue_all hcol hky
      rw [Nat.sub_self] at hacc
      rw [List.nil_append, if_pos hacc] at hall
      rw [behindPiece, if_pos (Nat.sub_self _)]
      exact continues_of_readStep (hstep.trans hall)
  · next hacc =>
    rw [Bool.not_eq_true] at hacc
    rw [hstep]
    by_cases hlt : k < total
    · exact readValue_refused hcol (by omega) hlt hky (by rwa [List.nil_append])
    · obtain rfl : k = total := by omega
      rw [Nat.sub_self] at hacc
      rw [readValue_all hcol hky, List.nil_append, hacc]
      rfl

/-- What a buf in the middle of a value does. -/
theorem readStep_value {t : Table} {flag : UInt8} {fs : List Field} {col : Column}
    {got : Bytes} {missing : Nat} (x : Bytes) (hcol : t.cols[fs.length]? = some col) {k : Nat}
    (hk : k = min x.length missing) :
    readStep (.value t flag fs got missing) x =
      if accepts col (got ++ x.take k) (missing - k) then
        some (behindPiece t flag fs (got ++ x.take k) (missing - k), x.drop k)
      else none := by
  subst hk
  show readValue t flag fs got missing x = _
  rcases Nat.lt_or_ge x.length missing with hlt | hge
  · have hne : missing - x.length ≠ 0 := by omega
    rw [readValue_short hcol hlt, Nat.min_eq_left hlt.le, List.take_length, List.drop_length,
      behindPiece, if_neg hne]
  · rw [readValue_all hcol hge, Nat.min_eq_right hge, Nat.sub_self, behindPiece, if_pos rfl]

end RdsJson.Reader
