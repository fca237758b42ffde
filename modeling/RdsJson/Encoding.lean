import RdsJson.ResultSet
import RdsJson.Lib.PrefixCode

/-! # A stream encodes one result set

The parts of an encoding say where they end, so that no byte string is the
encoding of two result sets. -/
namespace RdsJson.Encoding
open RdsJson.Lib.LittleEndian RdsJson.Lib.PrefixCode RdsJson.Rds RdsJson.Format
open RdsJson.ResultSet

/-- A length that is not the one of NULL. -/
def FieldFits (f : Field) : Prop := ∀ v, f = some v → v.length < nullLength

def decodeField (bs : Bytes) : Option (Field × Bytes) := do
  let (len, bs) ← takeLE 4 bs
  if len = nullLength then some (none, bs)
  else if bs.length < len then none
  else some (some (bs.take len), bs.drop len)

theorem decodeField_encode (f : Field) (x : Bytes) (hf : FieldFits f) :
    decodeField (encodeField f ++ x) = some (f, x) := by
  cases f with
  | none =>
    have hlen := takeLE_append 4 nullLength x (by decide)
    simp [decodeField, encodeField, hlen]
  | some v =>
    have hv := hf v rfl
    have hlen := takeLE_append 4 v.length (v ++ x) (by unfold nullLength at hv; omega)
    simp [decodeField, encodeField, hlen, hv.ne]

theorem delimits_header : Delimits Header.Fits encodeHeader :=
  delimits_of_decoder decodeHeader fun h x hf => decodeHeader_encode h hf x

theorem delimits_col : Delimits Column.Fits encodeCol :=
  delimits_of_decoder decodeCol fun c x hf => decodeCol_encode c hf x

theorem delimits_field : Delimits FieldFits encodeField :=
  delimits_of_decoder decodeField decodeField_encode

theorem fieldFits_of_fieldsOk {cols : List Column} {fs : List Field} (h : FieldsOk cols fs) :
    ∀ f ∈ fs, FieldFits f := by
  induction fs generalizing cols with
  | nil => simp
  | cons g fs ih =>
    cases cols with
    | nil => exact h.elim
    | cons col cols =>
      intro f hf v hv
      rcases List.mem_cons.mp hf with rfl | hf
      · subst hv
        exact h.1.1
      · exact ih h.2 f hf v hv

/-- A row of a table with these columns ends with its last field. -/
theorem delimits_row (cols : List Column) : Delimits (Row.Ok cols) encodeRow := by
  rintro ⟨flag, fields⟩ ⟨flag', fields'⟩ x y ⟨-, hlen, hok⟩ ⟨-, hlen', hok'⟩ heq
  simp only [encodeRow, List.cons_append, List.cons.injEq] at heq
  obtain ⟨rfl, heq⟩ := heq
  obtain ⟨rfl, rfl⟩ := delimits_field.list (fieldFits_of_fieldsOk hok) (fieldFits_of_fieldsOk hok')
    (hlen.trans hlen'.symm) heq
  exact ⟨rfl, rfl⟩

/-- No encoding is the beginning of another. -/
theorem delimits_table : Delimits Table.Ok Table.encode := by
  rintro ⟨header, cols, rows⟩ ⟨header', cols', rows'⟩ x y h h' heq
  simp only [Table.encode, List.append_assoc] at heq
  obtain ⟨rfl, hrest⟩ := delimits_header header header' _ _ h.headerFits h'.headerFits heq
  have hcount : cols.length = cols'.length := h.colCount.trans h'.colCount.symm
  by_cases hcols : cols = []
  · subst hcols
    obtain rfl := List.eq_nil_of_length_eq_zero hcount.symm
    obtain rfl : rows = [] := h.noRows rfl
    obtain rfl : rows' = [] := h'.noRows rfl
    exact ⟨rfl, by simpa using hrest⟩
  · have hcols' : cols' ≠ [] := by
      rintro rfl
      exact hcols (List.eq_nil_of_length_eq_zero hcount)
    rw [if_neg hcols, if_neg hcols'] at hrest
    simp only [List.append_assoc] at hrest
    obtain ⟨rfl, hrows⟩ := delimits_col.list h.colsFit h'.colsFit hcount hrest
    have hstop (row : Row) (x y : Bytes) (hrow : Row.Ok cols row) : encodeRow row ++ x ≠ [0] ++ y := by
      intro he
      exact hrow.1 (List.cons.inj he).1
    obtain ⟨rfl, rfl⟩ := (delimits_row cols).terminated hstop h.rowsOk h'.rowsOk hrows
    exact ⟨rfl, rfl⟩

end RdsJson.Encoding
