import RdsJson.Truncation
import RdsJson.Recycling

/-! # How much longer the text is than the stream

A byte becomes six at most, and the key of a column is repeated with each of its
fields, which have four bytes or more. Whatever else the text has is paid by bytes
of the stream that do not show in it. -/
namespace RdsJson.Amplification
open RdsJson.Lib.LittleEndian RdsJson.Lib.Labelled RdsJson.Lib.Words RdsJson.Nginx RdsJson.Rds
open RdsJson.Util RdsJson.Conf RdsJson.Context RdsJson.Processor RdsJson.FilterModule
open RdsJson.Format RdsJson.ResultSet RdsJson.Reader RdsJson.Cuts RdsJson.Render
open RdsJson.WriteLayer RdsJson.Generators RdsJson.Language RdsJson.Truncation RdsJson.Runs
open RdsJson.OwnedBufs RdsJson.Recycling

variable {env : Env} {conf : LocConf} {complexValue : Bytes → Bytes} {p q : Progress} {t : Table}
variable {flag : UInt8} {fs : List Field} {col : Column}

/-! ## Pieces of text -/

theorem escapeExtra_le (c : UInt8) : escapeExtra c ≤ 5 := by
  unfold escapeExtra
  split
  · split
    · omega
    · split <;> omega
  · omega

theorem escapeJsonStr_length_le (s : Bytes) : (escapeJsonStr s).length ≤ 6 * s.length := by
  rw [escapeJsonStr_length]
  induction s with
  | nil => rfl
  | cons c s ih =>
    have hc := escapeExtra_le c
    rw [escapeJsonStrExtra, List.length_cons]
    omega

theorem quote_length_le (s : Bytes) : (quote s).length ≤ 6 * s.length + 2 := by
  have hs := escapeJsonStr_length_le s
  simp only [quote, lit, List.length_append]
  simp
  omega

theorem decimal_length_le {n k : Nat} (hk : 0 < k) (hn : n < 10 ^ k) : (decimal n).length ≤ k := by
  rw [decimal, List.length_map]
  exact (Nat.length_toDigits_le_iff (by decide) hk).mpr hn

/-- A piece that a value begins with. -/
theorem pieceText_length_le {got : Bytes} (hgot : got ≠ []) (missing : Nat) :
    (pieceText col got missing).length ≤ 6 * got.length + 2 := by
  obtain ⟨c, v, rfl⟩ := List.exists_cons_of_ne_nil hgot
  have hquote := quote_length_le (c :: v)
  have hescape := escapeJsonStr_length_le (c :: v)
  rw [List.length_cons] at *
  unfold pieceText partText
  split
  · unfold valueText
    cases col.rough with
    | int | float =>
      dsimp only
      rw [List.length_cons]
      omega
    | bool =>
      dsimp only
      split
      · simp [lit]
        omega
      · simp [lit]
        omega
    | str => exact hquote
  · split
    · simp only [lit, List.length_append]
      simp
      omega
    · rw [List.length_cons]
      omega

/-- A piece that a value goes on with. -/
theorem moreText_length_le (data : Bytes) (missing : Nat) :
    (moreText col data missing).length ≤
      6 * data.length + (if missing = 0 then 1 else 0) := by
  have hescape := escapeJsonStr_length_le data
  unfold moreText
  split
  · split <;> simp [lit] <;> omega
  · omega

theorem fieldLead_length_le (t : Table) (fs : List Field) : (fieldLead conf t fs).length ≤ 2 := by
  unfold fieldLead rowOpen
  split_ifs <;> simp [lit]

theorem closing_length_le (t : Table) (fs : List Field) (missing : Nat) :
    (closing conf t fs missing).length ≤ if missing = 0 then 1 else 0 := by
  unfold closing rowClose
  split_ifs <;> simp_all [lit]

theorem endText_length_le (conf : LocConf) : (endText conf).length ≤ 2 := by
  unfold endText
  split <;> simp [lit]

/-! ## What comes before the rows -/

/-- What the configuration adds to a text, whatever the set. -/
def overhead (conf : LocConf) (complexValue : Bytes → Bytes) : Nat :=
  (successText conf false).length + (propsText conf complexValue).length + conf.root.len +
    conf.errcodeKey.len + conf.errstrKey.len

theorem successText_length_le (conf : LocConf) (ok : Bool) :
    (successText conf ok).length ≤ (successText conf false).length := by
  unfold successText
  cases ok with
  | false => exact le_rfl
  | true => split <;> simp [lit]

theorem beginText_length_le (conf : LocConf) (complexValue : Bytes → Bytes) :
    (beginText conf complexValue).length ≤ overhead conf complexValue + 2 := by
  have hsuccess := successText_length_le conf true
  unfold beginText overhead Str.len
  split
  · exact Nat.zero_le _
  · simp [lit]
    omega

theorem names_length_le (cols : List Column) :
    (commaSep (cols.map fun c => quote c.name)).length ≤
      6 * (cols.flatMap encodeCol).length := by
  induction cols with
  | nil => exact Nat.zero_le _
  | cons c cols ih =>
    have hquote := quote_length_le c.name
    have hcol := encodeCol_length c
    cases cols with
    | nil =>
      simp only [List.map_cons, List.map_nil, commaSep, List.flatMap_cons, List.flatMap_nil,
        List.append_nil]
      omega
    | cons c' cols =>
      show (quote c.name ++ lit "," ++
        commaSep ((c' :: cols).map fun c => quote c.name)).length ≤ _
      have hcomma : (lit ",").length = 1 := rfl
      rw [List.flatMap_cons, List.length_append, List.length_append, List.length_append]
      omega

/-- Names and brackets are paid by the header and the columns. -/
theorem tableText_length_le (h : Header) (cs : List Column) :
    (tableText conf complexValue ⟨h, cs, []⟩).length ≤
      overhead conf complexValue + 6 * (encodeHeader h ++ cs.flatMap encodeCol).length := by
  have hbegin := beginText_length_le conf complexValue
  have hnames := names_length_le cs
  have hopen : (lit "[").length = 1 := rfl
  have hclose : (lit "]").length = 1 := rfl
  rw [tableText_nil, List.length_append, List.length_append, List.length_append,
    encodeHeader_length]
  split
  · rw [List.length_append, List.length_append]
    omega
  · rw [List.length_nil]
    omega

theorem numberText_length_le (key : Bytes) (n : UInt64) :
    (if n = 0 then [] else key ++ decimal n.toNat).length ≤ key.length + 20 := by
  have hn : (decimal n.toNat).length ≤ 20 :=
    decimal_length_le (by decide) (n.toNat_lt.trans (by decide))
  split
  · exact Nat.zero_le _
  · rw [List.length_append]
    omega

/-- A result without columns is paid by its header. -/
theorem headerText_length_le (h : Header) :
    (headerText conf complexValue h).length ≤
      overhead conf complexValue + 6 * (encodeHeader h).length := by
  have hsuccess := successText_length_le conf (h.stdErrcode = 0)
  have hcode : (decimal h.stdErrcode.toNat).length ≤ 5 :=
    decimal_length_le (by decide) (h.stdErrcode.toNat_lt.trans (by decide))
  have herrstr : (if h.errstr = [] then [] else
      lit "," ++ conf.errstrKey.bytes ++ lit ":" ++ quote h.errstr).length ≤
        conf.errstrKey.len + 6 * h.errstr.length + 4 := by
    have hquote := quote_length_le h.errstr
    have hcomma : (lit ",").length = 1 := rfl
    have hcolon : (lit ":").length = 1 := rfl
    split
    · exact Nat.zero_le _
    · rw [List.length_append, List.length_append, List.length_append, Str.len]
      omega
  have hinsert := numberText_length_le (lit ",\"insert_id\":") h.insertId
  have haffected := numberText_length_le (lit ",\"affected_rows\":") h.affectedRows
  have hinsertKey : (lit ",\"insert_id\":").length = 13 := rfl
  have haffectedKey : (lit ",\"affected_rows\":").length = 17 := rfl
  have hopen : (lit "\x7b").length = 1 := rfl
  have hcolon : (lit ":").length = 1 := rfl
  have hclose : (lit "\x7d").length = 1 := rfl
  rw [encodeHeader_length]
  unfold headerText overhead
  simp only [List.length_append]
  rw [← Str.len]
  omega

/-! ## Paying for the text -/

/-- The columns that were read. -/
def columns : Progress → List Column
  | .header => []
  | .cols _ cs => cs
  | .rows t => t.cols
  | .fields t _ _ => t.cols
  | .value t _ _ _ _ => t.cols
  | .done t => t.cols

/-- What is put by for text that is still to come, in quarters of a byte: for all that
stands before the rows, and for the end of a value. -/
def reserve (conf : LocConf) (complexValue : Bytes → Bytes) : Progress → Nat
  | .header => 4 * overhead conf complexValue
  | .cols h cs =>
    4 * overhead conf complexValue + 24 * (encodeHeader h ++ cs.flatMap encodeCol).length
  | .value _ _ _ _ _ => 8
  | _ => 0

/-- What was paid for so far. -/
def paid (conf : LocConf) (complexValue : Bytes → Bytes) (p : Progress) : Nat :=
  4 * (jsonSoFar conf complexValue p).length + reserve conf complexValue p

theorem columns_endField (t : Table) (flag : UInt8) (fs : List Field) (f : Field) :
    columns (endField t flag fs f) = t.cols := by
  unfold Reader.endField
  split <;> rfl

theorem columns_behindPiece (t : Table) (flag : UInt8) (fs : List Field) (got : Bytes)
    (missing : Nat) : columns (behindPiece t flag fs got missing) = t.cols := by
  unfold behindPiece
  split
  · exact columns_endField t flag fs (some got)
  · rfl

theorem columns_of_reads {a : Atom} (h : Reads p a q) : columns p <+: columns q := by
  cases h with
  | header => exact List.nil_prefix
  | col hd cs c hfits => split <;> exact List.prefix_append cs [c]
  | flag | stop => exact List.prefix_rfl
  | null | empty =>
    rw [columns_endField]
    exact List.prefix_rfl
  | start | byte =>
    rw [columns_behindPiece]
    exact List.prefix_rfl

theorem reserve_endField (t : Table) (flag : UInt8) (fs : List Field) (f : Field) :
    reserve conf complexValue (endField t flag fs f) = 0 := by
  unfold Reader.endField
  split <;> rfl

theorem reserve_behindPiece (t : Table) (flag : UInt8) (fs : List Field) (got : Bytes)
    (missing : Nat) :
    reserve conf complexValue (behindPiece t flag fs got missing) =
      if missing = 0 then 0 else 8 := by
  unfold behindPiece
  split
  · exact reserve_endField t flag fs (some got)
  · rfl

/-- A field of one piece, by the length of its value. -/
theorem paid_endField (t : Table) (flag : UInt8) {fs : List Field} {col : Column} (f : Field)
    (hlen : fs.length < t.cols.length) (hcol : t.cols[fs.length]? = some col) {K : Nat}
    (hkey : (fieldKey conf col).length ≤ K) :
    paid conf complexValue (endField t flag fs f) ≤
      paid conf complexValue (.fields t flag fs) + 4 * (K + (valueText col f).length + 3) := by
  have hlead := @fieldLead_length_le conf t fs
  have hclose : (if fs.length + 1 = t.cols.length then rowClose conf else []).length ≤ 1 := by
    unfold rowClose
    split_ifs <;> simp [lit]
  rw [paid, paid, jsonSoFar_endField conf complexValue f hlen hcol, reserve_endField]
  simp only [jsonSoFar, fieldText, List.length_append, reserve]
  omega

/-- The first byte of a value. -/
theorem paid_start {c : UInt8} {missing K : Nat} (hlen : fs.length < t.cols.length)
    (hcol : t.cols[fs.length]? = some col) (hkey : (fieldKey conf col).length ≤ K) :
    paid conf complexValue (behindPiece t flag fs [c] missing) ≤
      paid conf complexValue (.fields t flag fs) + 4 * (K + 12) := by
  have hlead := @fieldLead_length_le conf t fs
  have hpiece := @pieceText_length_le col [c] (by simp) missing
  have hclose := @closing_length_le conf t fs missing
  rw [paid, paid, jsonSoFar_behindPiece complexValue flag _ _ hlen hcol, reserve_behindPiece]
  simp only [jsonSoFar, reserve, List.length_append, List.length_singleton] at hpiece ⊢
  by_cases hm : missing = 0
  · rw [if_pos hm] at hclose ⊢
    omega
  · rw [if_neg hm] at hclose ⊢
    omega

/-- One byte more. The end of the value was paid for by the first. -/
theorem paid_byte {got : Bytes} {missing : Nat} {c : UInt8} (hp : ValueOpen t flag fs got missing)
    (hcol : t.cols[fs.length]? = some col) :
    paid conf complexValue (behindPiece t flag fs (got ++ [c]) (missing - 1)) ≤
      paid conf complexValue (.value t flag fs got missing) + 24 := by
  obtain ⟨col', hcol', hacc⟩ := hp.accepted
  obtain rfl := Option.some.inj (hcol.symm.trans hcol')
  have hrough := rough_ne_bool_of_accepts hp.begun hacc hp.unfinished.ne'
  have hmore := @moreText_length_le col [c] (missing - 1)
  have hclose := @closing_length_le conf t fs (missing - 1)
  rw [paid, paid, jsonSoFar_behindPiece complexValue flag _ _ hp.length hcol, reserve_behindPiece,
    pieceText_append [c] _ hp.begun hrough]
  simp only [jsonSoFar, hcol, reserve, List.length_append, List.length_singleton] at hmore ⊢
  by_cases hm : missing - 1 = 0
  · rw [if_pos hm] at hmore hclose ⊢
    omega
  · rw [if_neg hm] at hmore hclose ⊢
    omega

/-- An atom pays for what it adds. -/
theorem paid_of_reads {a : Atom} {K : Nat} (hp : p.Ok) (h : Reads p a q)
    (hkeys : ∀ col ∈ columns q, (fieldKey conf col).length ≤ K) :
    paid conf complexValue q ≤ paid conf complexValue p + (24 + K) * a.bytes.length := by
  have hleast : 24 * a.bytes.length ≤ (24 + K) * a.bytes.length :=
    Nat.mul_le_mul_right _ (Nat.le_add_right 24 K)
  cases h with
  | header hd hfits hcols =>
    simp only [paid, jsonSoFar, reserve, Atom.bytes, List.flatMap_nil, List.append_nil,
      List.length_nil] at hleast ⊢
    omega
  | col hd cs c hfits =>
    have htable := @tableText_length_le conf complexValue hd (cs ++ [c])
    simp only [List.flatMap_append, List.flatMap_singleton, List.length_append,
      Atom.bytes] at htable hleast ⊢
    split
    · simp only [paid, jsonSoFar, reserve, List.length_nil, List.length_append]
      omega
    · simp only [paid, jsonSoFar, reserve, List.length_nil, List.length_append,
        List.flatMap_append, List.flatMap_singleton]
      omega
  | flag t f hf =>
    simp only [paid, jsonSoFar, reserve, rowPart, if_true, List.append_nil]
    omega
  | stop t =>
    have hend := endText_length_le conf
    simp only [paid, jsonSoFar, reserve, render, if_neg hp.2, List.length_append]
    simp only [Atom.bytes, List.length_singleton] at hleast ⊢
    omega
  | null t f fs =>
    have hcol := List.getElem?_eq_getElem hp.length
    rw [columns_endField] at hkeys
    have hkey := hkeys _ (List.getElem_mem hp.length)
    have hpaid := @paid_endField conf complexValue t f fs _ none hp.length hcol K hkey
    have hnull : (lit "null").length = 4 := rfl
    simp only [Atom.bytes, leBytes_length, valueText] at hleast hpaid ⊢
    omega
  | empty t f fs hlt =>
    have hcol := List.getElem?_eq_getElem hlt
    rw [columns_endField] at hkeys
    have hkey := hkeys _ (List.getElem_mem hlt)
    have hpaid := @paid_endField conf complexValue t f fs _ (some []) hlt hcol K hkey
    have hquote := quote_length_le []
    rw [List.length_nil] at hquote
    simp only [Atom.bytes, leBytes_length, valueText] at hleast hpaid ⊢
    omega
  | start t f fs col total c hcol hpos hlt hacc =>
    rw [columns_behindPiece] at hkeys
    have hkey := hkeys col (List.mem_of_getElem? hcol)
    have hpaid := @paid_start conf complexValue t f fs col c (total - 1) K hp.length hcol hkey
    simp only [Atom.bytes, leBytes_length, List.length_append, List.length_singleton] at hleast ⊢
    omega
  | byte t f fs col got missing c hcol hpos hacc =>
    have hpaid := @paid_byte conf complexValue t f fs col got missing c hp hcol
    simp only [Atom.bytes, List.length_singleton] at hleast ⊢
    omega

theorem cost_eq (K : Nat) (word : List Atom) :
    cost (fun a : Atom => (24 + K) * a.bytes.length) word = (24 + K) * (groupBytes word).length := by
  induction word with
  | nil => rfl
  | cons a word ih => rw [cost, ih, groupBytes_cons, List.length_append, Nat.mul_add]

theorem paid_of_steps {word : List Atom} {K : Nat} (hp : p.Ok) (h : Steps Reads p word q)
    (hkeys : ∀ col ∈ columns q, (fieldKey conf col).length ≤ K) :
    paid conf complexValue q ≤ paid conf complexValue p + (24 + K) * (groupBytes word).length := by
  rw [← cost_eq]
  refine (Steps.pays Progress.Ok (fun r => ∀ col ∈ columns r, (fieldKey conf col).length ≤ K)
    ?_ ?_ ?_ hp h hkeys).2
  · intro p a q hp h
    exact (readBuf_spec hp (Reads.readBuf h)).1
  · intro p a q h hkeys col hcol
    exact hkeys col ((columns_of_reads h).subset hcol)
  · intro p a q hp hkeys h
    exact paid_of_reads hp h hkeys

/-- So do atoms, and a header without columns. -/
theorem paid_of_behind {K : Nat} {front : Bytes} (hp : p.Ok) (h : Behind p q)
    (hbytes : q.bytes = p.bytes ++ front)
    (hkeys : ∀ col ∈ columns q, (fieldKey conf col).length ≤ K) :
    paid conf complexValue q ≤ paid conf complexValue p + (24 + K) * front.length := by
  cases h with
  | atoms word h =>
    have hword : front = groupBytes word :=
      List.append_cancel_left (hbytes.symm.trans (steps_spec hp h).2.symm)
    rw [hword]
    exact paid_of_steps hp h hkeys
  | header t hheader hdone hcols =>
    subst hheader hdone
    have htext := @headerText_length_le conf complexValue t.header
    have hfront : front = encodeHeader t.header := by
      simpa [Progress.bytes, Table.encode, hcols] using hbytes.symm
    have hleast : 24 * front.length ≤ (24 + K) * front.length :=
      Nat.mul_le_mul_right _ (Nat.le_add_right 24 K)
    simp only [paid, jsonSoFar, reserve, render, if_pos hcols, List.length_nil]
    rw [← hfront] at htext
    omega

theorem paid_of_readBufs {K : Nat} {bufs rest : List Buf} (hp : p.Ok)
    (h : readBufs p bufs = some (q, rest))
    (hkeys : ∀ col ∈ columns q, (fieldKey conf col).length ≤ K) :
    paid conf complexValue q ≤
      paid conf complexValue p + (24 + K) * (bufs.flatMap Buf.rest).length := by
  obtain ⟨-, -, front, rfl, hbytes⟩ := readBufs_spec hp h
  have hpaid := @paid_of_behind conf complexValue _ _ K _ hp (behind_of_readBufs hp h) hbytes hkeys
  rw [List.flatMap_append, List.length_append, Nat.mul_add]
  omega

theorem paid_of_readCalls {K : Nat} {calls : List (List Buf)}
    (h : readCalls .header calls = some p)
    (hkeys : ∀ col ∈ columns p, (fieldKey conf col).length ≤ K) :
    paid conf complexValue p ≤
      4 * overhead conf complexValue + (24 + K) * (calls.flatten.flatMap Buf.rest).length := by
  obtain ⟨more, hmore⟩ := bytes_of_readCalls h
  have hpaid := @paid_of_behind conf complexValue .header p K p.bytes trivial
    (behind_of_readCalls trivial h) rfl hkeys
  rw [← hmore, List.length_append, Nat.mul_add]
  simp only [paid, jsonSoFar, reserve, List.length_nil] at hpaid ⊢
  omega

/-! ## Over a run -/

variable {w w₀ : World} {calls : List (List Buf)} {rets : List Return}

/-- No key of a column that is read has more than `K` bytes. -/
def KeysWithin (conf : LocConf) (K : Nat) (calls : List (List Buf)) : Prop :=
  ∀ before p, before <+: calls → readCalls .header before = some p →
    ∀ col ∈ columns p, (fieldKey conf col).length ≤ K

/-- In the compact format there are none. -/
theorem keysWithin_compact (hcompact : compact conf = true) : KeysWithin conf 0 calls := by
  intro before p hbefore hread col hcol
  rw [fieldKey, if_pos hcompact]
  exact le_rfl

/-- Whatever answers there are around the module, and whatever the input: what goes out
is no longer than what the configuration adds, six bytes for each that came in, and a
key for every four of them. -/
theorem sent_length_le {K : Nat} (h : Postponed env w₀) (hrun : runCalls env w₀ calls = .ok (rets, w))
    (hok : ∀ ret ∈ rets.dropLast, failed ret.rc = false) (hkeys : KeysWithin w₀.r.conf K calls) :
    (sent w.trace).length ≤ overhead w₀.r.conf env.complexValue +
      6 * (calls.flatten.flatMap Buf.rest).length +
        K * (calls.flatten.flatMap Buf.rest).length / 4 := by
  have hread (p : Progress) (before : List (List Buf)) (hbefore : before <+: calls)
      (hread : readCalls .header before = some p) :
      4 * (jsonSoFar w₀.r.conf env.complexValue p).length ≤
        4 * overhead w₀.r.conf env.complexValue +
          (24 + K) * (calls.flatten.flatMap Buf.rest).length := by
    have hpaid := @paid_of_readCalls w₀.r.conf env.complexValue p K before hread
      (hkeys before p hbefore hread)
    obtain ⟨after, rfl⟩ := hbefore
    rw [List.flatten_append, List.flatMap_append, List.length_append, Nat.mul_add]
    rw [paid] at hpaid
    omega
  have htext : 4 * (sent w.trace).length ≤ 4 * overhead w₀.r.conf env.complexValue +
      (24 + K) * (calls.flatten.flatMap Buf.rest).length := by
    cases sending_of_run h hrun hok with
    | flowing p hflow hconf hp =>
      have hle := (Flowing.sent_front hflow).length_le
      rw [hconf] at hle
      have := hread p calls List.prefix_rfl hp
      omega
    | stopped p before hbefore hp hsent hstop =>
      have hle := hsent.length_le
      have := hread p before hbefore hp
      omega
  rw [Nat.add_mul] at htext
  omega

/-- A value of two bytes that are escaped. -/
def escapes : List (List Buf) := [[Buf.memory (oneColumn [some [0, 1]]).encode]]

/-- The key is `"a":`. -/
theorem keysWithin_escapes (pagesize : Nat) : KeysWithin (plainConf pagesize) 4 escapes := by
  intro before p hbefore hread col hcol
  have hcols : (readCalls .header escapes).map columns = some [⟨0x8000, 0, lit "a"⟩] := by
    decide +kernel
  obtain ⟨after, hafter⟩ := hbefore
  cases before with
  | nil =>
    cases hread
    cases hcol
  | cons chain before =>
    obtain ⟨rfl, hnil⟩ := List.cons.inj hafter
    obtain ⟨rfl, rfl⟩ := List.append_eq_nil_iff.mp hnil
    rw [escapes, hread, Option.map_some, Option.some.injEq] at hcols
    rw [hcols, List.mem_singleton] at hcol
    rw [hcol]
    exact le_rfl

theorem sent_length_le_escapes : ∃ rets w,
    runCalls calm (postpone calm (plainConf 4096) true) escapes = .ok (rets, w) ∧
      (sent w.trace).length = 22 ∧
      (sent w.trace).length ≤
        overhead (plainConf 4096) calm.complexValue + 6 * 45 + 4 * 45 / 4 := by
  obtain ⟨x, hrun, hok, hlen⟩ : ∃ x,
      runCalls calm (postpone calm (plainConf 4096) true) escapes = .ok x ∧
      (∀ ret ∈ x.1.dropLast, failed ret.rc = false) ∧ (sent x.2.trace).length = 22 :=
    ⟨_, rfl, by simp, by decide⟩
  have hle := sent_length_le (postponed_postpone rfl rfl true) hrun hok (keysWithin_escapes 4096)
  have hin : (escapes.flatten.flatMap Buf.rest).length = 45 := by decide
  rw [hin] at hle
  exact ⟨_, _, hrun, hlen, hle⟩

/-! ## What a call may need -/

/-- The header and the columns, counted together, have no more than `C` bytes as long as a
column is still missing. -/
def ColumnsWithin (C : Nat) (calls : List (List Buf)) : Prop :=
  ∀ before h cs, before <+: calls → readCalls .header before = some (.cols h cs) →
    (encodeHeader h ++ cs.flatMap encodeCol).length ≤ C

/-- What the next filter has not consumed, and what comes in with a call. -/
structure Brings (L N : Nat) (before : List (List Buf)) (w : World) (chain : List Buf) : Prop where
  busy : w.out.busyBufs.length ≤ L
  bytes : (chain.flatMap Buf.rest).length ≤ N

/-- The text that a call may bring. -/
def callText (conf : LocConf) (complexValue : Bytes → Bytes) (K C N : Nat) : Nat :=
  overhead conf complexValue + 6 * C + 2 + (24 + K) * N / 4

theorem reserve_le {C : Nat}
    (hcols : ∀ h cs, p = .cols h cs → (encodeHeader h ++ cs.flatMap encodeCol).length ≤ C) :
    reserve conf complexValue p ≤ 4 * (overhead conf complexValue + 6 * C + 2) := by
  cases p with
  | cols h cs =>
    have hle := hcols h cs rfl
    rw [reserve]
    omega
  | header | value =>
    rw [reserve]
    omega
  | rows | fields | done => exact Nat.zero_le _

/-- The text of a call, by the bytes that come with it. -/
theorem Brings.loaded {K C L N : Nat} {before : List (List Buf)} {chain : List Buf}
    (h : Brings L N before w chain) (hfront : before ++ [chain] <+: calls)
    (hkeys : KeysWithin w₀.r.conf K calls) (hcols : ColumnsWithin C calls) :
    Loaded env w₀ L (callText w₀.r.conf env.complexValue K C N) before w chain := by
  refine ⟨h.busy, ?_⟩
  cases hread : readCalls .header (before ++ [chain]) with
  | none =>
    rw [textSoFar, hread]
    exact Nat.zero_le _
  | some q =>
    have hsplit := hread
    rw [readCalls_snoc] at hsplit
    obtain ⟨p, hp, hq⟩ := Option.bind_eq_some_iff.mp hsplit
    obtain ⟨⟨q', rest⟩, hbufs, rfl⟩ := Option.map_eq_some_iff.mp hq
    have hpaid := @paid_of_readBufs w₀.r.conf env.complexValue p q' K chain rest
      (readCalls_ok (p := .header) trivial hp) hbufs (hkeys _ _ hfront hread)
    have hreserve := @reserve_le w₀.r.conf env.complexValue p C fun h cs hpc =>
      hcols before h cs ((List.prefix_append _ _).trans hfront) (hpc ▸ hp)
    have hbytes := Nat.mul_le_mul_left (24 + K) h.bytes
    rw [textSoFar, textSoFar, hread, hp, Option.map_some, Option.map_some, Option.getD_some,
      Option.getD_some, callText]
    dsimp only
    rw [paid, paid] at hpaid
    omega

/-- The bufs that are made depend on what comes in with one call, and on what the
next filter keeps waiting, and not on the length of the response. -/
theorem output_bufs_le {K C L N : Nat} (h : Served env w₀) (hstart : Untouched w₀)
    (hrun : runCalls env w₀ calls = .ok (rets, w)) (hok : ∀ ret ∈ rets, failed ret.rc = false)
    (hkeys : KeysWithin w₀.r.conf K calls) (hcols : ColumnsWithin C calls)
    (hbrings : AtEach env w₀ (Brings L N) calls) :
    w.out.nbufs ≤
      L + callText w₀.r.conf env.complexValue K C N ⌈/⌉ w₀.r.conf.bufBytes + 1 := by
  refine (tidy_of_run h hstart hrun hok).2 ?_
  intro before chain after rets' w' hsplit hbefore
  refine (hbrings before chain after rets' w' hsplit hbefore).loaded ?_ hkeys hcols
  exact ⟨after, by rw [hsplit, List.append_assoc, List.singleton_append]⟩

def compactConf (pagesize : Nat) : LocConf :=
  { plainConf pagesize with format := some .compact }

theorem served_compact : Served calm (postpone calm (compactConf 4) true) where
  toTakes := takes_calm
  alloc _ := rfl
  postponed := postponed_postpone rfl rfl true
  notHead := rfl
  supported := .inr rfl
  room := by decide

theorem columnsWithin_escapes : ColumnsWithin 0 escapes := by
  intro before h cs hbefore hread
  have hdone : (readCalls .header escapes).map Progress.isDone = some true := by decide +kernel
  obtain ⟨after, hafter⟩ := hbefore
  cases before with
  | nil => cases hread
  | cons chain before =>
    obtain ⟨rfl, hnil⟩ := List.cons.inj hafter
    obtain ⟨rfl, rfl⟩ := List.append_eq_nil_iff.mp hnil
    rw [escapes, hread] at hdone
    cases hdone

theorem brings_escapes :
    AtEach calm (postpone calm (compactConf 4) true) (Brings 0 45) escapes := by
  intro before chain after rets w hsplit hrun
  unfold escapes at hsplit
  cases before with
  | nil =>
    cases hrun
    cases hsplit
    exact ⟨le_rfl, by decide +kernel⟩
  | cons first before => simp at hsplit

/-- All in one call, and bufs of four bytes: six are made. -/
theorem output_bufs_le_escapes : ∃ rets w,
    runCalls calm (postpone calm (compactConf 4) true) escapes = .ok (rets, w) ∧
      w.out.nbufs ≤ (overhead (compactConf 4) calm.complexValue + 272) ⌈/⌉ (4 : Nat) + 1 := by
  obtain ⟨rets, w, hrun, -⟩ := served_compact.course escapes
  have hok : (runCalls calm (postpone calm (compactConf 4) true) escapes).toOption.map
      (fun x => x.1.all fun ret => !failed ret.rc) = some true := by decide +kernel
  rw [hrun] at hok
  have hstart : Untouched (postpone calm (compactConf 4) true) := ⟨rfl, rfl, rfl, rfl, rfl, rfl⟩
  have hle := output_bufs_le served_compact hstart hrun (by simpa using Option.some.inj hok)
    (keysWithin_compact rfl) columnsWithin_escapes brings_escapes
  rw [Nat.zero_add] at hle
  exact ⟨rets, w, hrun, hle⟩

end RdsJson.Amplification
