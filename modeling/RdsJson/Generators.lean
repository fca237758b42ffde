import RdsJson.Render
import RdsJson.WriteLayer

/-! # The generators write what is due

Every generator of `Output` asks for as many bytes as it writes, and writes the
text of `Render`. -/
namespace RdsJson.Generators
open RdsJson.Lib.LittleEndian RdsJson.Lib.Outcome RdsJson.Nginx RdsJson.Rds RdsJson.Util
open RdsJson.Conf RdsJson.Context RdsJson.OutputMem RdsJson.Output RdsJson.WriteLayer
open RdsJson.ResultSet RdsJson.Reader RdsJson.Render

/-! ## Escaping and numbers -/

theorem escapeByte_length (c : UInt8) : (escapeByte c).length = 1 + escapeExtra c := by
  unfold escapeByte escapeExtra
  split
  · split
    · rfl
    · split <;> rfl
  · rfl

theorem escapeJsonStr_length (s : Bytes) :
    (escapeJsonStr s).length = s.length + escapeJsonStrExtra s := by
  induction s with
  | nil => rfl
  | cons c s ih =>
    simp only [escapeJsonStr, escapeJsonStrExtra, List.length_append, escapeByte_length, ih,
      List.length_cons]
    omega

theorem escapeJsonStr_append (s t : Bytes) :
    escapeJsonStr (s ++ t) = escapeJsonStr s ++ escapeJsonStr t := by
  induction s with
  | nil => rfl
  | cons c s ih => simp [escapeJsonStr, ih]

/-- A string that needs no escapes is its own escaped form. -/
theorem copyEscaped_eq (s : Bytes) : copyEscaped (escapeJsonStrExtra s) s = escapeJsonStr s := by
  unfold copyEscaped
  split
  · next h =>
    symm
    induction s with
    | nil => rfl
    | cons c s ih =>
      simp only [escapeJsonStrExtra, Nat.add_eq_zero_iff] at h
      have hc : escapeByte c = [c] := by
        have h0 := h.1
        unfold escapeExtra at h0
        unfold escapeByte
        split at h0
        · next hlow =>
          rw [if_pos hlow]
          split at h0
          · cases h0
          · split at h0
            · cases h0
            · next hge => rw [if_neg hge]
        · next hhigh => rw [if_neg hhigh]
      rw [escapeJsonStr, hc, ih h.2]
      rfl
  · rfl

theorem numSizeLoop_eq (fuel i : Nat) (h : i < fuel) :
    numSizeLoop fuel i = (Nat.toDigits 10 i).length := by
  induction fuel generalizing i with
  | zero => omega
  | succ fuel ih =>
    unfold numSizeLoop
    by_cases hi : i / 10 > 0
    · have hstep := Nat.toDigits_of_base_le (by decide : 1 < 10) (by omega : 10 ≤ i)
      rw [if_pos hi, ih (i / 10) (by omega), hstep]
      simp [Nat.add_comm]
    · rw [if_neg hi, Nat.toDigits_of_lt_base (by omega)]
      rfl

theorem getNumSize_eq (i : Nat) : getNumSize i = (decimal i).length := by
  rw [getNumSize, numSizeLoop_eq _ _ (Nat.lt_succ_self i), decimal, List.length_map]

theorem snprintfNum_eq {max i : Nat} (hmax : 0 < max) (h : i < 10 ^ max) :
    snprintfNum max i = decimal i := by
  refine List.take_of_length_le ?_
  rw [List.length_map]
  exact (Nat.length_toDigits_le_iff (by decide) hmax).mpr h

/-- The sizes the format strings are given are those of the numbers. -/
theorem snprintfNum_uint16 (n : UInt16) : snprintfNum NGX_UINT16_LEN n.toNat = decimal n.toNat :=
  snprintfNum_eq (by decide) (lt_trans n.toNat_lt (by decide))

theorem snprintfNum_uint64 (n : UInt64) : snprintfNum NGX_UINT64_LEN n.toNat = decimal n.toNat :=
  snprintfNum_eq (by decide) (lt_trans n.toNat_lt (by decide))

/-! ## User properties -/

/-- The user properties with their values. -/
def evaluated (complexValue : Bytes → Bytes) (conf : LocConf) : List Evaluated :=
  conf.props.map fun p => ⟨p.key, complexValue p.value⟩

variable (env : Env)

theorem evalProps_spec (o : OutCtx) (props : List Property) :
    ∃ values n, evalProps env o props = (values, { o with allocs := n }) ∧
      match values with
      | some values => values = props.map fun p => ⟨p.key, env.complexValue p.value⟩
      | none => ∃ k, env.alloc k = false := by
  induction props generalizing o with
  | nil => exact ⟨some [], o.allocs, rfl, rfl⟩
  | cons p props ih =>
    unfold evalProps OutCtx.palloc
    dsimp only
    cases hal : env.alloc o.allocs with
    | false => exact ⟨none, _, rfl, _, hal⟩
    | true =>
      obtain ⟨values, n, heq, hv⟩ := ih { o with allocs := o.allocs + 1 }
      simp only [Bool.not_true, Bool.false_eq_true, if_false, heq]
      cases values with
      | none => exact ⟨none, n, rfl, hv⟩
      | some values => exact ⟨_, n, rfl, by simp [hv]⟩

/-- Evaluating the properties fails only for want of memory. -/
theorem evalUserProps_spec (o : OutCtx) (conf : LocConf) :
    ∃ values n, evalUserProps env o conf = (values, { o with allocs := n }) ∧
      match values with
      | some values => values = evaluated env.complexValue conf
      | none => ∃ k, env.alloc k = false := by
  unfold evalUserProps
  cases hp : conf.userProps with
  | none => exact ⟨some [], o.allocs, rfl, by simp [evaluated, LocConf.props, hp]⟩
  | some props =>
    unfold OutCtx.palloc
    dsimp only
    cases hal : env.alloc o.allocs with
    | false => exact ⟨none, _, rfl, _, hal⟩
    | true =>
      obtain ⟨values, n, heq, hv⟩ := evalProps_spec env { o with allocs := o.allocs + 1 } props
      simp only [Bool.not_true, Bool.false_eq_true, if_false, heq]
      refine ⟨values, n, rfl, ?_⟩
      simpa [evaluated, LocConf.props, hp] using hv

theorem propsSize_eq (values : List Evaluated) : propsSize values = (propsBytes values).length := by
  have h2 : (lit ":\"").length = 2 := rfl
  have h3 : (lit "\",").length = 2 := rfl
  induction values with
  | nil => rfl
  | cons p values ih =>
    simp only [propsSize, propsBytes, List.length_append, copyEscaped_eq, escapeJsonStr_length, ih,
      h2, h3]
    omega

theorem propsBytes_eq (conf : LocConf) (complexValue : Bytes → Bytes) :
    propsBytes (evaluated complexValue conf) = propsText conf complexValue := by
  unfold evaluated propsText
  induction conf.props with
  | nil => rfl
  | cons p props ih =>
    simp only [List.map_cons, propsBytes, ih, copyEscaped_eq, List.flatMap_cons, quote,
      List.append_assoc]
    rfl

/-! ## The three pieces around the rows -/

theorem headerBytes_eq (conf : LocConf) (complexValue : Bytes → Bytes) (h : Header) :
    headerBytes conf (evaluated complexValue conf) h = headerText conf complexValue h := by
  have hquote : lit ":\"" = lit ":" ++ lit "\"" := rfl
  unfold headerBytes headerText successText
  simp only [propsBytes_eq, snprintfNum_uint16, snprintfNum_uint64, copyEscaped_eq, hquote, quote,
    ne_eq, ite_not, List.length_eq_zero_iff, decide_eq_true_eq, List.append_assoc]

theorem headerSize_eq (conf : LocConf) (values : List Evaluated) (h : Header) :
    headerSize conf values h = (headerBytes conf values h).length := by
  -- each optional member is counted as it is written
  have hsuccess : (if conf.success.len ≠ 0 then
      conf.success.len + 2 + (if h.stdErrcode = 0 then 4 else 5) else 0) =
      (if conf.success.len ≠ 0 then conf.success.bytes ++
        (if h.stdErrcode = 0 then lit ":true," else lit ":false,") else []).length := by
    split_ifs <;> simp [Str.len, lit]
  have herrstr : (if h.errstr.length ≠ 0 then
      1 + conf.errstrKey.len + 1 + 1 + h.errstr.length + escapeJsonStrExtra h.errstr + 1 else 0) =
      (if h.errstr.length ≠ 0 then lit "," ++ conf.errstrKey.bytes ++ lit ":\"" ++
        escapeJsonStr h.errstr ++ lit "\"" else []).length := by
    split_ifs
    · simp [Str.len, lit, escapeJsonStr_length]
      omega
    · rfl
  have hid : (if h.insertId ≠ 0 then
      (lit ",\"insert_id\":").length + getNumSize h.insertId.toNat else 0) =
      (if h.insertId ≠ 0 then lit ",\"insert_id\":" ++ decimal h.insertId.toNat else []).length := by
    split_ifs <;> simp [getNumSize_eq]
  have hrows : (if h.affectedRows ≠ 0 then
      (lit ",\"affected_rows\":").length + getNumSize h.affectedRows.toNat else 0) =
      (if h.affectedRows ≠ 0 then
        lit ",\"affected_rows\":" ++ decimal h.affectedRows.toNat else []).length := by
    split_ifs <;> simp [getNumSize_eq]
  have hopen : (lit "\x7b").length = 1 := rfl
  have hcolon : (lit ":").length = 1 := rfl
  have hclose : (lit "\x7d").length = 1 := rfl
  unfold headerSize headerBytes
  simp only [snprintfNum_uint16, snprintfNum_uint64, copyEscaped_eq, propsSize_eq,
    List.length_append, hsuccess, herrstr, hid, hrows, hopen, hcolon, hclose]
  rw [getNumSize_eq, Str.len]
  omega

theorem propsBeginBytes_eq {conf : LocConf} (complexValue : Bytes → Bytes)
    (h : conf.root.len ≠ 0) :
    propsBeginBytes conf (evaluated complexValue conf) = beginText conf complexValue := by
  unfold propsBeginBytes beginText successText
  rw [if_neg h, propsBytes_eq]
  simp only [ne_eq, ite_not, if_true, List.append_assoc]

theorem propsBeginSize_eq (conf : LocConf) (values : List Evaluated) :
    propsBeginSize conf values = (propsBeginBytes conf values).length := by
  have hsuccess : (if conf.success.len ≠ 0 then 6 + conf.success.len else 0) =
      (if conf.success.len ≠ 0 then conf.success.bytes ++ lit ":true," else []).length := by
    split_ifs <;> simp [Str.len, lit, Nat.add_comm]
  have hopen : (lit "\x7b").length = 1 := rfl
  have hcolon : (lit ":").length = 1 := rfl
  unfold propsBeginSize propsBeginBytes
  simp only [propsSize_eq, hsuccess, List.length_append, hopen, hcolon]
  rw [Str.len]
  omega

theorem colsListBytes_eq (cols : List Column) :
    colsListBytes cols = commaSep (cols.map fun c => quote c.name) := by
  induction cols with
  | nil => rfl
  | cons c cols ih =>
    cases cols with
    | nil => rfl
    | cons d cols =>
      rw [colsListBytes, ih]
      · simp only [List.map_cons, commaSep, quote, List.append_assoc]
      · exact fun h => List.cons_ne_nil _ _ h

theorem colsListSize_eq (cols : List Column) :
    colsListSize cols = (colsListBytes cols).length := by
  have hq : (lit "\"").length = 1 := rfl
  have hc : (lit ",").length = 1 := rfl
  induction cols with
  | nil => rfl
  | cons c cols ih =>
    cases cols with
    | nil =>
      simp only [colsListSize, colsListBytes, List.length_append, escapeJsonStr_length, hq]
      omega
    | cons d cols =>
      simp only [colsListSize, colsListBytes, List.length_append, escapeJsonStr_length, hq, hc, ih]
      omega

/-- The columns that the loops over `cols` see, when all of them are there. -/
theorem getCols_eq (cols : List Column) (n : Nat) (h : n ≤ cols.length) :
    getCols (cols.map some) n = .ok (cols.take n) := by
  induction n with
  | zero => rfl
  | succ n ih =>
    have hlt : n < cols.length := h
    unfold getCols getCol
    simp only [ih hlt.le, ok_bind, List.getElem?_map, List.getElem?_eq_getElem hlt, Option.map_some]
    rw [List.take_succ_eq_append_getElem hlt]

/-! ## Fields -/

/-- A format that `rds_json_format` can choose. -/
def Supported (conf : LocConf) : Prop :=
  conf.format = some .normal ∨ conf.format = some .compact

/-- Where the context stands in the table: at the field behind `fs`. -/
structure Place (t : Table) (fs : List Field) (ctx : Ctx) : Prop where
  colCount : ctx.colCount = t.cols.length
  cols : ctx.cols = t.cols.map some
  row : ctx.row = t.rows.length + 1
  curCol : ctx.curCol = fs.length
  inRow : fs.length < t.cols.length

/-- How much of a value is missing is no part of the place. -/
theorem Place.frame {t : Table} {fs : List Field} {ctx : Ctx} (h : Place t fs ctx) (state : State)
    (rest : Nat) : Place t fs { ctx with state := state, fieldDataRest := rest } :=
  ⟨h.colCount, h.cols, h.row, h.curCol, h.inRow⟩

theorem Place.getCol {t : Table} {fs : List Field} {ctx : Ctx} {col : Column}
    (h : Place t fs ctx) (hcol : t.cols[fs.length]? = some col) :
    getCol ctx.cols ctx.curCol = .ok col := by
  simp [Output.getCol, h.cols, h.curCol, hcol]

variable {conf : LocConf}

theorem not_compact_of_normal (h : conf.format = some .normal) : compact conf = false := by
  simp [compact, h]

theorem compact_of_compact (h : conf.format = some .compact) : compact conf = true := by
  simp [compact, h]

theorem fieldOpen_eq {t : Table} {fs : List Field} {ctx : Ctx} (hf : Supported conf)
    (h : Place t fs ctx) (col : Column) :
    fieldOpenBytes conf.format ctx col = some (fieldLead conf t fs ++ fieldKey conf col) ∧
      fieldOpenSize conf.format ctx col =
        some (fieldLead conf t fs ++ fieldKey conf col).length := by
  have hrow : ctx.row = 1 ↔ t.rows = [] := by
    rw [h.row, Nat.add_eq_right, List.length_eq_zero_iff]
  rcases hf with hf | hf
  · have hc := not_compact_of_normal hf
    have hitems : items conf t = [] ↔ t.rows = [] := by simp [items, hc]
    simp only [fieldOpenBytes, fieldOpenSize, hf, h.curCol, hrow, List.length_eq_zero_iff,
      fieldLead, fieldKey, hc, rowOpen, hitems, copyEscaped_eq, quote]
    by_cases hfs : fs = [] <;> by_cases hr : t.rows = [] <;>
      simp [hfs, hr, escapeJsonStr_length, lit] <;> omega
  · have hc := compact_of_compact hf
    have hitems : items conf t ≠ [] := by simp [items, hc]
    simp only [fieldOpenBytes, fieldOpenSize, hf, h.curCol, List.length_eq_zero_iff, fieldLead,
      fieldKey, hc, rowOpen, hitems]
    by_cases hfs : fs = [] <;> simp [hfs, lit]

/-- What closes the row behind a value that is complete. -/
def closing (conf : LocConf) (t : Table) (fs : List Field) (rest : Nat) : Bytes :=
  if rest = 0 ∧ fs.length + 1 = t.cols.length then rowClose conf else []

theorem lastInRow_eq {t : Table} {fs : List Field} {ctx : Ctx} (h : Place t fs ctx) :
    lastInRow ctx = decide (ctx.fieldDataRest = 0 ∧ fs.length + 1 = t.cols.length) := by
  have hlt := h.inRow
  have hlast : fs.length = t.cols.length - 1 ↔ fs.length + 1 = t.cols.length := by omega
  simp only [lastInRow, h.curCol, h.colCount, hlast, Bool.decide_and]

theorem fieldClose_eq {t : Table} {fs : List Field} {ctx : Ctx} (hf : Supported conf)
    (h : Place t fs ctx) :
    fieldCloseBytes conf.format ctx = some (closing conf t fs ctx.fieldDataRest) ∧
      fieldCloseSize conf.format ctx = some (closing conf t fs ctx.fieldDataRest).length := by
  unfold fieldCloseBytes fieldCloseSize closing
  rw [lastInRow_eq h]
  by_cases hlast : ctx.fieldDataRest = 0 ∧ fs.length + 1 = t.cols.length
  · rw [decide_eq_true hlast]
    rcases hf with hf | hf
    · simp [hf, rowClose, not_compact_of_normal hf, hlast, lit]
    · simp [hf, rowClose, compact_of_compact hf, hlast, lit]
  · simp [hlast]

/-- The text of a value of which `rest` bytes are missing. -/
def pieceText (col : Column) (data : Bytes) (rest : Nat) : Bytes :=
  if rest = 0 then valueText col (some data) else partText col data

/-- The generator takes the values that the column accepts, and no others. -/
theorem fieldValue_eq (ctx : Ctx) (col : Column) (data : Bytes) :
    fieldValueSize ctx col data false =
      if accepts col data ctx.fieldDataRest then
        some (pieceText col data ctx.fieldDataRest).length
      else none := by
  unfold fieldValueSize accepts pieceText
  cases data with
  | nil =>
    by_cases hr : ctx.fieldDataRest = 0
    · simp [hr, valueText, quote, escapeJsonStr, lit]
    · simp [hr, Nat.pos_of_ne_zero hr]
  | cons c v =>
    simp only [List.length_cons, Nat.add_eq_zero_iff, one_ne_zero, and_false, false_and, if_false,
      Bool.false_eq_true, valueText, partText]
    cases hrough : col.rough with
    | int => by_cases hr : ctx.fieldDataRest = 0 <;> simp [hr]
    | float => by_cases hr : ctx.fieldDataRest = 0 <;> simp [hr]
    | str =>
      have hlen := escapeJsonStr_length (c :: v)
      rw [List.length_cons] at hlen
      by_cases hr : ctx.fieldDataRest = 0
      · simp [hr, quote, hlen, lit]
        omega
      · simp [hr, hlen, lit]
        omega
    | bool =>
      by_cases hb : boolFalse c || boolTrue c
      · simp only [hb, if_true]
        by_cases hone : v.length = 0 <;> by_cases hr : ctx.fieldDataRest = 0 <;>
          simp [hone, hr]
        cases boolFalse c <;> rfl
      · simp [hb]

theorem fieldValueBytes_eq (ctx : Ctx) (col : Column) (data : Bytes)
    (h : accepts col data ctx.fieldDataRest = true) :
    fieldValueBytes ctx col data false = pieceText col data ctx.fieldDataRest := by
  unfold fieldValueBytes pieceText
  cases data with
  | nil =>
    have hr := (accepts_nil _ _).mp h
    simp [hr, valueText, quote, escapeJsonStr, lit]
  | cons c v =>
    cases hrough : col.rough with
    | int => by_cases hr : ctx.fieldDataRest = 0 <;> simp [hr, valueText, partText, hrough]
    | float => by_cases hr : ctx.fieldDataRest = 0 <;> simp [hr, valueText, partText, hrough]
    | str =>
      by_cases hr : ctx.fieldDataRest = 0 <;>
        simp [hr, valueText, partText, hrough, copyEscaped_eq, quote]
    | bool =>
      have hr : ctx.fieldDataRest = 0 := by
        by_contra hr
        exact rough_ne_bool_of_accepts (List.cons_ne_nil c v) h hr hrough
      simp [hr, valueText, hrough]

/-- What a later piece adds to the text of its value. -/
def moreText (col : Column) (data : Bytes) (rest : Nat) : Bytes :=
  if col.rough = .str then escapeJsonStr data ++ (if rest = 0 then lit "\"" else []) else data

theorem pieceText_append {col : Column} {got : Bytes} (data : Bytes) (rest : Nat)
    (hgot : got ≠ []) (hcol : col.rough ≠ .bool) :
    pieceText col (got ++ data) rest = partText col got ++ moreText col data rest := by
  obtain ⟨c, v, rfl⟩ := List.exists_cons_of_ne_nil hgot
  have happ := escapeJsonStr_append (c :: v) data
  rw [List.cons_append] at happ
  unfold pieceText partText moreText
  cases hrough : col.rough with
  | int => simp [valueText, hrough]
  | float => simp [valueText, hrough]
  | str => by_cases hr : rest = 0 <;> simp [hr, valueText, hrough, quote, happ]
  | bool => exact absurd hrough hcol

/-- What is due behind a piece of a value. -/
theorem jsonSoFar_behindPiece (complexValue : Bytes → Bytes) {t : Table} (flag : UInt8)
    {fs : List Field} {col : Column} (got : Bytes) (missing : Nat)
    (hlen : fs.length < t.cols.length) (hcol : t.cols[fs.length]? = some col) :
    jsonSoFar conf complexValue (behindPiece t flag fs got missing) =
      tableText conf complexValue t ++ rowPart conf t fs ++
        (fieldLead conf t fs ++ (fieldKey conf col ++ pieceText col got missing) ++
          closing conf t fs missing) := by
  unfold behindPiece pieceText closing
  by_cases hm : missing = 0
  · simp only [hm, if_true, true_and]
    rw [jsonSoFar_endField conf complexValue (some got) hlen hcol, fieldText]
  · simp only [hm, if_false, false_and, List.append_nil]
    simp only [jsonSoFar, hcol, List.append_assoc]

/-- The checks on a later piece are those on the value so far. -/
theorem moreData_eq (ctx : Ctx) {col : Column} {got : Bytes} (data : Bytes) {missing : Nat}
    (hgot : got ≠ []) (hcol : col.rough ≠ .bool) (hacc : accepts col got missing = true) :
    moreDataSize ctx col data =
        (if accepts col (got ++ data) ctx.fieldDataRest then
          some (moreText col data ctx.fieldDataRest).length else none) ∧
      moreDataBytes ctx col data = moreText col data ctx.fieldDataRest := by
  have hiff : accepts col (got ++ data) ctx.fieldDataRest = true ↔ accepts col got missing = true ∧
      (col.rough = .int → data.all intDigits = true) := accepts_append hgot hcol
  rw [hacc] at hiff
  unfold moreDataSize moreDataBytes moreText
  cases hrough : col.rough with
  | int =>
    simp only [hrough, true_and, forall_const] at hiff
    simp [hiff]
  | float =>
    simp only [hrough, reduceCtorEq, false_implies, and_true] at hiff
    simp [hiff]
  | str =>
    simp only [hrough, reduceCtorEq, false_implies, and_true] at hiff
    rw [if_pos (hiff.mpr trivial)]
    by_cases hr : ctx.fieldDataRest = 0 <;> simp [hr, copyEscaped_eq, escapeJsonStr_length, lit]
  | bool => exact absurd hrough hcol

/-! ## What the generators do -/

theorem outputField_unsupported (r : Request) (ctx : Ctx) (o : OutCtx) (data : Bytes)
    (isNull : Bool) (h : ¬ Supported r.conf) :
    outputField env r ctx o data isNull = .ok (NGX_ERROR, o) := by
  rw [Supported, not_or] at h
  rw [outputField, if_pos h]

/-- NULL, whatever the column. -/
theorem outputField_null {r : Request} {ctx : Ctx} {o : OutCtx} {t : Table} {fs : List Field}
    {col : Column} (ho : Ready r.conf.bufBytes o) (hf : Supported r.conf) (hp : Place t fs ctx)
    (hcol : t.cols[fs.length]? = some col) (hrest : ctx.fieldDataRest = 0) :
    Yields (EndlessIn r.conf.bufBytes) (outputField env r ctx o [] true)
      (Ends env r.conf.bufBytes false o (fieldLead r.conf t fs ++ fieldText r.conf col none ++
        closing r.conf t fs 0)) := by
  obtain ⟨hob, hos⟩ := fieldOpen_eq hf hp col
  obtain ⟨hcb, hcs⟩ := fieldClose_eq hf hp
  have hv : fieldValueSize ctx col [] true = some (valueText col none).length := by
    simp [fieldValueSize, hrest, valueText, lit]
  have hvb : fieldValueBytes ctx col [] true = valueText col none := rfl
  rw [hrest] at hcb hcs
  have hsup : ¬ (r.conf.format ≠ some .normal ∧ r.conf.format ≠ some .compact) := by
    rcases hf with hf | hf <;> simp [hf]
  rw [outputField, if_neg hsup, hp.getCol hcol]
  simp only [ok_bind, fieldSize, fieldBytes, hob, hos, hcb, hcs, hv, hvb, Option.bind_eq_bind,
    Option.bind_some, ← List.length_append]
  simpa only [fieldText, List.append_assoc] using writeMem_piece env ho _ true

/-- A value, or the beginning of one. -/
theorem outputField_value {r : Request} {ctx : Ctx} {o : OutCtx} {t : Table} {fs : List Field}
    {col : Column} (data : Bytes) (ho : Ready r.conf.bufBytes o) (hf : Supported r.conf)
    (hp : Place t fs ctx) (hcol : t.cols[fs.length]? = some col) :
    if accepts col data ctx.fieldDataRest then
      Yields (EndlessIn r.conf.bufBytes) (outputField env r ctx o data false)
        (Ends env r.conf.bufBytes false o (fieldLead r.conf t fs ++ (fieldKey r.conf col ++
          pieceText col data ctx.fieldDataRest) ++ closing r.conf t fs ctx.fieldDataRest))
    else outputField env r ctx o data false = .ok (NGX_ERROR, o) := by
  obtain ⟨hob, hos⟩ := fieldOpen_eq hf hp col
  obtain ⟨hcb, hcs⟩ := fieldClose_eq hf hp
  have hv := fieldValue_eq ctx col data
  have hsup : ¬ (r.conf.format ≠ some .normal ∧ r.conf.format ≠ some .compact) := by
    rcases hf with hf | hf <;> simp [hf]
  rw [outputField, if_neg hsup, hp.getCol hcol]
  split
  · next hacc =>
    rw [if_pos hacc] at hv
    simp only [ok_bind, fieldSize, fieldBytes, hob, hos, hcb, hcs, hv, fieldValueBytes_eq _ _ _ hacc,
      Option.bind_eq_bind, Option.bind_some, ← List.length_append]
    simpa only [List.append_assoc] using writeMem_piece env ho _ true
  · next hacc =>
    rw [if_neg hacc] at hv
    simp [fieldSize, hos, hv]

/-- A later piece of a value. -/
theorem outputMoreFieldData_spec {r : Request} {ctx : Ctx} {o : OutCtx} {t : Table}
    {fs : List Field} {col : Column} {got : Bytes} {missing : Nat} (data : Bytes)
    (ho : Ready r.conf.bufBytes o) (hf : Supported r.conf) (hp : Place t fs ctx)
    (hcol : t.cols[fs.length]? = some col) (hgot : got ≠ []) (hbool : col.rough ≠ .bool)
    (hacc : accepts col got missing = true) :
    if accepts col (got ++ data) ctx.fieldDataRest then
      Yields (EndlessIn r.conf.bufBytes) (outputMoreFieldData env r ctx o data)
        (Ends env r.conf.bufBytes false o (moreText col data ctx.fieldDataRest ++
          closing r.conf t fs ctx.fieldDataRest))
    else outputMoreFieldData env r ctx o data = .ok (NGX_ERROR, o) := by
  obtain ⟨hcb, hcs⟩ := fieldClose_eq hf hp
  obtain ⟨hs, hb⟩ := moreData_eq ctx data hgot hbool hacc
  rw [outputMoreFieldData, hp.getCol hcol]
  split
  · next h =>
    rw [if_pos h] at hs
    simp only [ok_bind, moreSize, moreBytes, hcb, hcs, hs, hb, Option.bind_eq_bind,
      Option.bind_some, ← List.length_append]
    exact writeMem_piece env ho _ true
  · next h =>
    rw [if_neg h] at hs
    simp [moreSize, hs]

/-- The object for an empty set is the whole text, and ends it. -/
theorem outputHeader_spec {r : Request} {o : OutCtx} (ho : Ready r.conf.bufBytes o) (h : Header) :
    Yields (EndlessIn r.conf.bufBytes) (outputHeader env r o h)
      (Ends env r.conf.bufBytes
        (r.main && decide (Marks r.conf.bufBytes o (headerText r.conf env.complexValue h).length))
        { o with seenStreamEnd := true } (headerText r.conf env.complexValue h)) := by
  obtain ⟨values, n, heq, hv⟩ := evalUserProps_spec env o r.conf
  unfold outputHeader
  rw [heq]
  cases values with
  | none => exact .inr ⟨rfl, hv⟩
  | some values =>
    dsimp only at hv ⊢
    rw [headerSize_eq, hv, headerBytes_eq]
    have := writeMem_spec env (ho.alloc n) (headerText r.conf env.complexValue h) true true r.main
    rw [Bool.or_true] at this
    exact this.mono fun _ => Ends.alloc env o

/-- What comes before the array. -/
theorem outputProps_spec {r : Request} {o : OutCtx} (ho : Ready r.conf.bufBytes o)
    (hroot : r.conf.root.len ≠ 0) :
    Yields (EndlessIn r.conf.bufBytes) (outputProps env r o)
      (Ends env r.conf.bufBytes false o (beginText r.conf env.complexValue)) := by
  obtain ⟨values, n, heq, hv⟩ := evalUserProps_spec env o r.conf
  unfold outputProps
  rw [heq]
  cases values with
  | none => exact .inr ⟨rfl, hv⟩
  | some values =>
    dsimp only at hv ⊢
    rw [propsBeginSize_eq, hv, propsBeginBytes_eq _ hroot]
    have := writeMem_piece env (ho.alloc n) (beginText r.conf env.complexValue) true
    exact this.mono fun _ => Ends.alloc env o

/-- The list of names. -/
theorem outputCols_spec {r : Request} {c : Ctx} {o : OutCtx} {cols : List Column}
    (ho : Ready r.conf.bufBytes o) (hcount : c.colCount = cols.length)
    (hcols : c.cols = cols.map some) :
    Yields (EndlessIn r.conf.bufBytes) (outputCols env r c o) fun x =>
      x.2.1 = { c with generatedColNames := true } ∧
      Ends env r.conf.bufBytes false o
        (lit "[" ++ commaSep (cols.map fun col => quote col.name) ++ lit "]") (x.1, x.2.2) := by
  have hlen : 2 + colsListSize cols = (lit "[" ++ colsListBytes cols ++ lit "]").length := by
    rw [List.length_append, List.length_append, colsListSize_eq]
    show 2 + _ = 1 + _ + 1
    omega
  rw [outputCols, hcols, hcount, getCols_eq _ _ le_rfl, List.take_length]
  simp only [ok_bind]
  rw [hlen, colsListBytes_eq]
  exact (writeMem_piece env ho _ false).bind fun x hx => ⟨rfl, hx⟩

end RdsJson.Generators
