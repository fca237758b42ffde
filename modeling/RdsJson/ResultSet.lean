import RdsJson.Format
import RdsJson.Output

/-! # RDS result sets

A result set as a value: a header, its columns and its rows. A stream is a
result set that is well formed; `Table.encode` is what goes over the wire for
it. -/
namespace RdsJson.ResultSet
open RdsJson.Lib.LittleEndian RdsJson.Rds RdsJson.Format RdsJson.Output

/-- SQL NULL, or a value. -/
abbrev Field := Option Bytes

/-- The flag that introduces a row is any byte but zero. -/
structure Row where
  flag : UInt8
  fields : List Field
  deriving DecidableEq

/-- A header with the columns and rows that go with it so far. -/
structure Table where
  header : Header
  cols : List Column
  rows : List Row
  deriving DecidableEq

/-- The length that stands for NULL. -/
def nullLength : Nat := 2 ^ 32 - 1

def encodeField : Field → Bytes
  | none => leBytes 4 nullLength
  | some v => leBytes 4 v.length ++ v

def encodeRow (row : Row) : Bytes := row.flag :: row.fields.flatMap encodeField

/-- A result set without columns is its header. -/
def Table.encode (t : Table) : Bytes :=
  encodeHeader t.header ++
    if t.cols = [] then [] else t.cols.flatMap encodeCol ++ t.rows.flatMap encodeRow ++ [0]

/-! ## Values -/

/-- Whether `v` may stand in the column, with `missing` more bytes to come. An
empty value may stand in any column; more bytes must not follow it. -/
def accepts (col : Column) (v : Bytes) (missing : Nat) : Bool :=
  match v with
  | [] => missing = 0
  | c :: _ =>
    match col.rough with
    | .int => intChars v
    | .bool => v.length = 1 && missing = 0 && (boolFalse c || boolTrue c)
    | .float => true
    | .str => true

def Field.Ok (col : Column) : Field → Prop
  | none => True
  | some v => v.length < nullLength ∧ accepts col v 0 = true

/-- The fields go into the columns, one by one; columns may be left. -/
def FieldsOk : List Column → List Field → Prop
  | _, [] => True
  | [], _ :: _ => False
  | col :: cols, f :: fs => Field.Ok col f ∧ FieldsOk cols fs

def Row.Ok (cols : List Column) (row : Row) : Prop :=
  row.flag ≠ 0 ∧ row.fields.length = cols.length ∧ FieldsOk cols row.fields

structure Table.Ok (t : Table) : Prop where
  headerFits : Header.Fits t.header
  colCount : t.cols.length = t.header.colCount.toNat
  colsFit : ∀ c ∈ t.cols, Column.Fits c
  rowsOk : ∀ r ∈ t.rows, r.Ok t.cols
  noRows : t.cols = [] → t.rows = []

/-- A well-formed result set. -/
structure Stream extends Table where
  ok : toTable.Ok

@[simp] theorem fieldsOk_nil (cols : List Column) : FieldsOk cols [] := by
  cases cols <;> trivial

theorem FieldsOk.snoc {cols : List Column} {fs : List Field} {f : Field} {col : Column}
    (h : FieldsOk cols fs) (hcol : cols[fs.length]? = some col) (hf : Field.Ok col f) :
    FieldsOk cols (fs ++ [f]) := by
  induction fs generalizing cols with
  | nil =>
    cases cols with
    | nil => cases hcol
    | cons c cols =>
      obtain rfl := Option.some.inj hcol
      exact ⟨hf, fieldsOk_nil cols⟩
  | cons g fs ih =>
    cases cols with
    | nil => exact h.elim
    | cons c cols => exact ⟨h.1, ih h.2 hcol⟩

theorem FieldsOk.get {cols : List Column} {fs : List Field} (h : FieldsOk cols fs)
    {i : Nat} {col : Column} {f : Field} (hcol : cols[i]? = some col) (hf : fs[i]? = some f) :
    Field.Ok col f := by
  induction fs generalizing cols i with
  | nil => cases hf
  | cons g fs ih =>
    cases cols with
    | nil => exact h.elim
    | cons c cols =>
      cases i with
      | zero =>
        obtain rfl := Option.some.inj hcol
        obtain rfl := Option.some.inj hf
        exact h.1
      | succ i => exact ih h.2 hcol hf

/-! ## How acceptance grows with a value -/

theorem accepts_nil (col : Column) (missing : Nat) :
    accepts col [] missing = true ↔ missing = 0 := by
  simp [accepts]

theorem intChars_append {v w : Bytes} (hv : v ≠ []) :
    intChars (v ++ w) = (intChars v && w.all intDigits) := by
  cases v with
  | nil => exact absurd rfl hv
  | cons c v => simp [intChars, Bool.and_assoc]

/-- A piece of an accepted value is accepted, unless the column is boolean and
the piece is not all of it. -/
theorem accepts_append {col : Column} {v w : Bytes} {missing missing' : Nat} (hv : v ≠ [])
    (hcol : col.rough ≠ .bool) :
    accepts col (v ++ w) missing' = true ↔ accepts col v missing = true ∧
      (col.rough = .int → w.all intDigits = true) := by
  obtain ⟨c, v, rfl⟩ := List.exists_cons_of_ne_nil hv
  have happ := intChars_append (w := w) (List.cons_ne_nil c v)
  simp only [accepts, List.cons_append] at happ ⊢
  cases hr : col.rough with
  | int => simp [happ]
  | float => simp
  | str => simp
  | bool => exact absurd hr hcol

/-- No value of a boolean column is cut. -/
theorem rough_ne_bool_of_accepts {col : Column} {v : Bytes} {missing : Nat} (hv : v ≠ [])
    (h : accepts col v missing = true) (hm : missing ≠ 0) : col.rough ≠ .bool := by
  intro hr
  obtain ⟨c, v, rfl⟩ := List.exists_cons_of_ne_nil hv
  simp [accepts, hr, hm] at h

theorem length_of_accepts_bool {col : Column} {v : Bytes} {missing : Nat}
    (h : accepts col v missing = true) (hr : col.rough = .bool) : v.length ≤ 1 := by
  cases v with
  | nil => simp
  | cons c v =>
    simp only [accepts, hr, Bool.and_eq_true, decide_eq_true_eq] at h
    exact h.1.1.le

end RdsJson.ResultSet
