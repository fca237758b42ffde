import RdsJson.Reader

/-! # The JSON text of a result set

What the module is for: the text that a result set turns into under a
configuration, written down as a whole, and the part of it that is due when the
set was read so far. -/
namespace RdsJson.Render
open RdsJson.Lib.LittleEndian RdsJson.Nginx RdsJson.Rds RdsJson.Util RdsJson.Conf RdsJson.Output
open RdsJson.ResultSet RdsJson.Reader

def quote (s : Bytes) : Bytes := lit "\"" ++ escapeJsonStr s ++ lit "\""

/-- A number in decimal. -/
def decimal (n : Nat) : Bytes := (Nat.toDigits 10 n).map fun c => UInt8.ofNat c.toNat

def commaSep : List Bytes → Bytes
  | [] => []
  | [x] => x
  | x :: y :: xs => x ++ lit "," ++ commaSep (y :: xs)

variable (conf : LocConf) (complexValue : Bytes → Bytes)

/-! ## Around the rows -/

def successText (ok : Bool) : Bytes :=
  if conf.success.len = 0 then []
  else conf.success.bytes ++ (if ok then lit ":true," else lit ":false,")

def propsText : Bytes :=
  conf.props.flatMap fun p => p.key ++ lit ":" ++ quote (complexValue p.value) ++ lit ","

def beginText : Bytes :=
  if conf.root.len = 0 then []
  else lit "\x7b" ++ successText conf true ++ propsText conf complexValue ++ conf.root.bytes ++ lit ":"

def endText : Bytes := if conf.root.len = 0 then lit "]" else lit "]\x7d"

/-- The object that stands for a result set without columns. -/
def headerText (h : Header) : Bytes :=
  lit "\x7b" ++ successText conf (h.stdErrcode = 0) ++ propsText conf complexValue ++
  conf.errcodeKey.bytes ++ lit ":" ++ decimal h.stdErrcode.toNat ++
  (if h.errstr = [] then [] else lit "," ++ conf.errstrKey.bytes ++ lit ":" ++ quote h.errstr) ++
  (if h.insertId = 0 then [] else lit ",\"insert_id\":" ++ decimal h.insertId.toNat) ++
  (if h.affectedRows = 0 then [] else lit ",\"affected_rows\":" ++ decimal h.affectedRows.toNat) ++
  lit "\x7d"

/-! ## Rows -/

/-- A value: numbers as they are, truth values by their first byte. -/
def valueText (col : Column) : Field → Bytes
  | none => lit "null"
  | some [] => quote []
  | some (c :: v) =>
    match col.rough with
    | .int => c :: v
    | .float => c :: v
    | .bool => if boolFalse c then lit "false" else lit "true"
    | .str => quote (c :: v)

def compact : Bool := conf.format = some .compact

def fieldKey (col : Column) : Bytes := if compact conf then [] else quote col.name ++ lit ":"

def fieldText (col : Column) (f : Field) : Bytes := fieldKey conf col ++ valueText col f

def rowOpen : Bytes := if compact conf then lit "[" else lit "\x7b"

def rowClose : Bytes := if compact conf then lit "]" else lit "\x7d"

/-- The fields of a row that may be unfinished. -/
def fieldTexts (cols : List Column) (fs : List Field) : List Bytes :=
  List.zipWith (fieldText conf) cols fs

def rowText (cols : List Column) (row : Row) : Bytes :=
  rowOpen conf ++ commaSep (fieldTexts conf cols row.fields) ++ rowClose conf

/-- The elements of the array; in the compact format the names come first. -/
def items (t : Table) : List Bytes :=
  (if compact conf then [lit "[" ++ commaSep (t.cols.map fun c => quote c.name) ++ lit "]"] else []) ++
    t.rows.map (rowText conf t.cols)

/-- The text up to the last finished row. -/
def tableText (t : Table) : Bytes :=
  beginText conf complexValue ++ lit "[" ++ commaSep (items conf t)

/-- The text of a whole result set. -/
def render (t : Table) : Bytes :=
  if t.cols = [] then headerText conf complexValue t.header
  else tableText conf complexValue t ++ endText conf

/-! ## What is due so far -/

/-- What comes before a field: the beginning of its row, or a comma. -/
def fieldLead (t : Table) (fs : List Field) : Bytes :=
  if fs = [] then (if items conf t = [] then [] else lit ",") ++ rowOpen conf else lit ","

/-- The finished fields of an unfinished row. -/
def rowPart (t : Table) (fs : List Field) : Bytes :=
  if fs = [] then [] else fieldLead conf t [] ++ commaSep (fieldTexts conf t.cols fs)

/-- The beginning of a value. -/
def partText (col : Column) (got : Bytes) : Bytes :=
  if col.rough = .str then lit "\"" ++ escapeJsonStr got else got

/-- The beginning of the text that goes with the beginning of a stream. -/
def jsonSoFar : Progress → Bytes
  | .header => []
  | .cols _ _ => []
  | .rows t => tableText conf complexValue t
  | .fields t _ fs => tableText conf complexValue t ++ rowPart conf t fs
  | .value t _ fs got _ =>
    tableText conf complexValue t ++ rowPart conf t fs ++
      match t.cols[fs.length]? with
      | none => []
      | some col => fieldLead conf t fs ++ fieldKey conf col ++ partText col got
  | .done t => render conf complexValue t

/-- The text that ends a result set, in one write. -/
def lastPiece (conf : LocConf) (complexValue : Bytes → Bytes) (t : Table) : Bytes :=
  if t.cols = [] then headerText conf complexValue t.header else endText conf

theorem lastPiece_ne_nil (conf : LocConf) (complexValue : Bytes → Bytes) (t : Table) :
    lastPiece conf complexValue t ≠ [] := by
  unfold lastPiece headerText endText
  split
  · simp [lit]
  · split <;> simp [lit]

theorem render_ne_nil (conf : LocConf) (complexValue : Bytes → Bytes) (t : Table) :
    render conf complexValue t ≠ [] := by
  have hlast := lastPiece_ne_nil conf complexValue t
  unfold lastPiece at hlast
  unfold render
  split at hlast
  · next hcols => rwa [if_pos hcols]
  · next hcols =>
    rw [if_neg hcols]
    exact fun h => hlast (List.append_eq_nil_iff.mp h).2

/-- The bytes before the first row. -/
theorem tableText_nil (conf : LocConf) (complexValue : Bytes → Bytes) (h : Header)
    (cs : List Column) :
    tableText conf complexValue ⟨h, cs, []⟩ = beginText conf complexValue ++ (lit "[" ++
      if compact conf then lit "[" ++ commaSep (cs.map fun c => quote c.name) ++ lit "]"
      else []) := by
  unfold tableText items
  split <;> simp [commaSep]

theorem commaSep_snoc (xs : List Bytes) (x : Bytes) :
    commaSep (xs ++ [x]) = commaSep xs ++ (if xs = [] then [] else lit ",") ++ x := by
  induction xs with
  | nil => rfl
  | cons y ys ih =>
    cases ys with
    | nil => simp [commaSep]
    | cons z zs =>
      simp only [List.cons_append, commaSep] at ih ⊢
      rw [ih]
      simp

theorem fieldTexts_snoc {cols : List Column} {fs : List Field} {col : Column} (f : Field)
    (hcol : cols[fs.length]? = some col) :
    fieldTexts conf cols (fs ++ [f]) = fieldTexts conf cols fs ++ [fieldText conf col f] := by
  induction fs generalizing cols with
  | nil =>
    cases cols with
    | nil => cases hcol
    | cons c cols =>
      obtain rfl := Option.some.inj hcol
      simp [fieldTexts]
  | cons g fs ih =>
    cases cols with
    | nil => cases hcol
    | cons c cols => simpa [fieldTexts] using ih hcol

theorem fieldTexts_eq_nil {cols : List Column} {fs : List Field} (h : fs.length < cols.length) :
    fieldTexts conf cols fs = [] ↔ fs = [] := by
  have hne : cols ≠ [] := List.ne_nil_of_length_pos (by omega)
  simp [fieldTexts, hne]

/-- A finished field adds its text, and closes the row if it was the last. -/
theorem jsonSoFar_endField {t : Table} {flag : UInt8} {fs : List Field} {col : Column} (f : Field)
    (hlen : fs.length < t.cols.length) (hcol : t.cols[fs.length]? = some col) :
    jsonSoFar conf complexValue (endField t flag fs f) =
      tableText conf complexValue t ++ rowPart conf t fs ++
        (fieldLead conf t fs ++ fieldText conf col f ++
          if fs.length + 1 = t.cols.length then rowClose conf else []) := by
  have hpart : fieldLead conf t [] ++ commaSep (fieldTexts conf t.cols (fs ++ [f])) =
      rowPart conf t fs ++ fieldLead conf t fs ++ fieldText conf col f := by
    rw [fieldTexts_snoc conf f hcol, commaSep_snoc]
    by_cases hfs : fs = []
    · subst hfs
      simp [rowPart, fieldTexts, commaSep]
    · rw [if_neg (fun h => hfs ((fieldTexts_eq_nil conf hlen).mp h))]
      simp [rowPart, fieldLead, hfs]
  unfold endField
  split
  · next hge =>
    rw [List.length_append, List.length_singleton] at hge
    rw [if_pos (by omega)]
    have hitems : items conf { t with rows := t.rows ++ [⟨flag, fs ++ [f]⟩] } =
        items conf t ++ [rowText conf t.cols ⟨flag, fs ++ [f]⟩] := by
      simp [items]
    have hrow : (if items conf t = [] then [] else lit ",") ++
        rowText conf t.cols ⟨flag, fs ++ [f]⟩ =
        rowPart conf t fs ++ fieldLead conf t fs ++ fieldText conf col f ++ rowClose conf := by
      rw [← hpart]
      simp [rowText, fieldLead]
    simp only [jsonSoFar, tableText, hitems, commaSep_snoc, List.append_assoc] at hrow ⊢
    rw [hrow]
  · next hlt =>
    rw [List.length_append, List.length_singleton] at hlt
    rw [if_neg (by omega)]
    have hne : fs ++ [f] ≠ [] := by simp
    simp only [jsonSoFar, List.append_nil]
    rw [rowPart, if_neg hne, hpart]
    simp

end RdsJson.Render
