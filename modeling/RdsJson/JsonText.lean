import RdsJson.Levels
import RdsJson.Encoding
import RdsJson.Escaping
import RdsJson.Runs

/-! # The output is JSON

The document that a result set stands for, as a JSON value, and that the output
for it is one text of that value. -/
namespace RdsJson.JsonText
open RdsJson.Lib.LittleEndian RdsJson.Lib.Outcome RdsJson.Lib.Json RdsJson.Nginx RdsJson.Rds
open RdsJson.Util RdsJson.Conf RdsJson.Context RdsJson.Escaping RdsJson.Output RdsJson.Processor
open RdsJson.FilterModule RdsJson.ResultSet RdsJson.Encoding RdsJson.Reader RdsJson.Render
open RdsJson.Blocks RdsJson.Levels RdsJson.WriteLayer RdsJson.Simulation RdsJson.Calls RdsJson.Runs

/-! ## Documents -/

/-- NULL is null, an empty value the empty string in any column. -/
def fieldValue (col : Column) : Field → Value
  | none => .null
  | some [] => .string []
  | some (c :: v) =>
    match col.rough with
    | .int => .number (c :: v)
    | .float => .number (c :: v)
    | .bool => .bool (boolTrue c)
    | .str => .string (c :: v)

/-- A row is an object, or in the compact format a list of values. -/
def rowValue (format : Format) (cols : List Column) (row : Row) : Value :=
  if format = .compact then .array (List.zipWith fieldValue cols row.fields)
  else .object (List.zipWith (fun col f => (col.name, fieldValue col f)) cols row.fields)

/-- In the compact format the names come first. -/
def rowsValue (format : Format) (t : Table) : Value :=
  .array ((if format = .compact then [.array (t.cols.map fun col => .string col.name)] else []) ++
    t.rows.map (rowValue format t.cols))

/-- The array, alone or as the last member of an object. -/
def document (levels : List Block) (complexValue : Bytes → Bytes) (t : Table) : Value :=
  match rootKey levels with
  | none => rowsValue (Levels.format levels) t
  | some root =>
    .object ((successKey levels).toList.map (fun key => (key, .bool true)) ++
      ((userProps levels).getD []).map (fun p => (p.1, .string (complexValue p.2))) ++
      [(root, rowsValue (Levels.format levels) t)])

/-- What is in the columns of numbers is a number, unless it is empty. -/
def Numeric (t : Table) : Prop :=
  ∀ row ∈ t.rows, ∀ x ∈ t.cols.zip row.fields, ∀ v ∈ x.2, v ≠ [] →
    x.1.rough = .int ∨ x.1.rough = .float → isNumber v = true

/-! ## Rows -/

theorem forall₂_zipWith {α β γ δ : Type} {R : γ → δ → Prop} {f : α → β → γ} {g : α → β → δ}
    {as : List α} {bs : List β} (h : ∀ x ∈ as.zip bs, R (f x.1 x.2) (g x.1 x.2)) :
    List.Forall₂ R (List.zipWith f as bs) (List.zipWith g as bs) := by
  rw [← List.map_uncurry_zip_eq_zipWith, ← List.map_uncurry_zip_eq_zipWith,
    List.forall₂_map_left_iff, List.forall₂_map_right_iff, List.forall₂_same]
  exact h

/-- The byte of a truth value is one of six. -/
theorem boolTrue_eq {c : UInt8} (h : (boolFalse c || boolTrue c) = true) :
    boolTrue c = !boolFalse c := by
  cases hf : boolFalse c with
  | false => simpa [hf] using h
  | true =>
    simp only [boolFalse, Bool.or_eq_true, decide_eq_true_eq] at hf
    rcases hf with (rfl | rfl) | rfl <;> rfl

theorem spells_valueText {col : Column} {f : Field} (hok : Field.Ok col f)
    (hnum : ∀ v ∈ f, v ≠ [] → col.rough = .int ∨ col.rough = .float → isNumber v = true) :
    Spells (valueText col f) (fieldValue col f) := by
  match f with
  | none => exact spells_null
  | some [] => exact spells_quote []
  | some (c :: v) =>
    have hnum := hnum _ rfl (List.cons_ne_nil c v)
    have haccepts := hok.2
    cases hr : col.rough with
    | int =>
      simp only [valueText, fieldValue, hr]
      exact spells_number (hnum (.inl hr))
    | float =>
      simp only [valueText, fieldValue, hr]
      exact spells_number (hnum (.inr hr))
    | str =>
      simp only [valueText, fieldValue, hr]
      exact spells_quote (c :: v)
    | bool =>
      simp only [accepts, hr, Bool.and_eq_true] at haccepts
      have hbool := spells_bool (boolTrue c)
      simp only [valueText, fieldValue, hr]
      rw [boolTrue_eq haccepts.2] at hbool ⊢
      cases hf : boolFalse c <;> rw [hf] at hbool <;> exact hbool

theorem fieldOk_of_zip {cols : List Column} {fs : List Field} (h : FieldsOk cols fs) :
    ∀ x ∈ cols.zip fs, Field.Ok x.1 x.2 := by
  induction fs generalizing cols with
  | nil => simp
  | cons f fs ih =>
    cases cols with
    | nil => exact h.elim
    | cons col cols =>
      intro x hx
      rcases List.mem_cons.mp hx with rfl | hx
      · exact h.1
      · exact ih h.2 x hx

variable {conf : LocConf} {f : Format}

theorem compact_eq (hf : conf.format = some f) : compact conf = decide (f = .compact) := by
  simp [compact, hf]

theorem spells_rowText {t : Table} {row : Row} (hf : conf.format = some f) (hok : t.Ok)
    (hnum : Numeric t) (hrow : row ∈ t.rows) :
    Spells (rowText conf t.cols row) (rowValue f t.cols row) := by
  have hvalue (x : Column × Field) (hx : x ∈ t.cols.zip row.fields) :
      Spells (valueText x.1 x.2) (fieldValue x.1 x.2) :=
    spells_valueText (fieldOk_of_zip (hok.rowsOk row hrow).2.2 x hx) (hnum row hrow x hx)
  unfold rowText rowOpen rowClose fieldTexts fieldText fieldKey rowValue
  rw [compact_eq hf]
  by_cases hc : f = .compact
  · simp only [hc, decide_true, if_true, List.nil_append]
    exact spells_list (forall₂_zipWith hvalue)
  · simp only [hc, decide_false, Bool.false_eq_true, if_false]
    rw [commaSep_eq]
    exact Spells.object (forall₂_zipWith fun x hx => spellsMember_quote x.1.name (hvalue x hx))

/-- The array of the rows. -/
theorem spells_items {t : Table} (hf : conf.format = some f) (hok : t.Ok) (hnum : Numeric t) :
    Spells (lit "[" ++ commaSep (items conf t) ++ lit "]") (rowsValue f t) := by
  refine spells_list ?_
  have hrows : List.Forall₂ Spells (t.rows.map (rowText conf t.cols))
      (t.rows.map (rowValue f t.cols)) := by
    rw [List.forall₂_map_left_iff, List.forall₂_map_right_iff, List.forall₂_same]
    exact fun row hrow => spells_rowText hf hok hnum hrow
  unfold items
  rw [compact_eq hf]
  by_cases hc : f = .compact
  · simp only [hc, decide_true, if_true, List.singleton_append] at hrows ⊢
    refine .cons (spells_list ?_) hrows
    rw [List.forall₂_map_left_iff, List.forall₂_map_right_iff, List.forall₂_same]
    exact fun col _ => spells_quote col.name
  · simpa [hc] using hrows

/-! ## The whole text -/

theorem intercalate_snoc (xs : List Bytes) (x : Bytes) :
    List.intercalate [44] (xs ++ [x]) = xs.flatMap (fun y => y ++ lit ",") ++ x := by
  induction xs with
  | nil => simp
  | cons y ys ih =>
    rw [List.cons_append, List.intercalate_cons_of_ne_nil (by simp), ih]
    simp [lit]

/-- The members in front of the array. -/
def leadTexts (levels : List Block) (complexValue : Bytes → Bytes) : List Bytes :=
  (successKey levels).toList.map (fun key => quote key ++ lit ":" ++ lit "true") ++
    ((userProps levels).getD []).map fun p => quote p.1 ++ lit ":" ++ quote (complexValue p.2)

theorem spells_leadTexts (levels : List Block) (complexValue : Bytes → Bytes) :
    List.Forall₂ SpellsMember (leadTexts levels complexValue)
      ((successKey levels).toList.map (fun key => (key, .bool true)) ++
        ((userProps levels).getD []).map fun p => (p.1, .string (complexValue p.2))) := by
  refine List.rel_append ?_ ?_
  · rw [List.forall₂_map_left_iff, List.forall₂_map_right_iff, List.forall₂_same]
    exact fun key _ => spellsMember_quote key (spells_bool true)
  · rw [List.forall₂_map_left_iff, List.forall₂_map_right_iff, List.forall₂_same]
    exact fun p _ => spellsMember_quote p.1 (spells_quote _)

theorem leadTexts_eq {levels : List Block} (h : Effective levels conf)
    (complexValue : Bytes → Bytes) :
    (leadTexts levels complexValue).flatMap (fun y => y ++ lit ",") =
      successText conf true ++ propsText conf complexValue := by
  unfold leadTexts
  rw [List.flatMap_append]
  congr 1
  · rw [successText, Str.len, h.success]
    cases successKey levels with
    | none => rfl
    | some key =>
      rw [if_neg (keyText_length.mpr rfl)]
      simp [keyText, lit]
  · rw [propsText, LocConf.props, h.userProps]
    cases Levels.userProps levels with
    | none => rfl
    | some props => simp [List.flatMap_map, property]

/-- The text of a result set spells its document. -/
theorem spells_render {levels : List Block} (h : Effective levels conf)
    (complexValue : Bytes → Bytes) {t : Table} (hok : t.Ok) (hcols : t.cols ≠ [])
    (hnum : Numeric t) :
    Spells (render conf complexValue t) (document levels complexValue t) := by
  have hitems := spells_items h.format hok hnum
  unfold render tableText beginText endText document
  rw [if_neg hcols, Str.len, h.root]
  cases hroot : rootKey levels with
  | none => simpa [keyText] using hitems
  | some root =>
    have hmembers := List.rel_append (spells_leadTexts levels complexValue)
      (.cons (spellsMember_quote root hitems) .nil)
    have htext := Spells.object hmembers
    rw [intercalate_snoc, leadTexts_eq h] at htext
    rw [if_neg (keyText_length.mpr rfl), if_neg (keyText_length.mpr rfl)]
    simpa [keyText, lit] using htext

/-! ## The output -/

/-- A run that accepts a stream has read its result set and nothing else. -/
theorem table_of_input {calls : List (List Buf)} {t : Table} {s : Stream} {extra : Bytes}
    (hread : readCalls .header calls = some (.done t))
    (hin : calls.flatten.flatMap Buf.rest = s.encode ++ extra) : t = s.toTable := by
  obtain ⟨front, b, behind, hsplit, -, hencode⟩ := readCalls_complete (p := .header) trivial rfl hread
  have hok : t.Ok := readCalls_ok (p := .header) trivial hread
  have hbytes : t.encode ++ behind.flatMap Buf.rest = s.encode ++ extra := by
    rw [← hin, hencode, hsplit]
    simp [Progress.bytes]
  exact (delimits_table t s.toTable _ _ hok s.ok hbytes).1

/-- A stream that is accepted is answered with its text. -/
theorem delivered_of_accepted {env : Env} {w₀ w : World} {calls : List (List Buf)}
    {rets : List Return} (ht : Takes env) (h : Postponed env w₀) (honly : w₀.r.headerOnly = false)
    (s : Stream) {extra : Bytes} (hin : calls.flatten.flatMap Buf.rest = s.encode ++ extra)
    (hrun : runCalls env w₀ calls = .ok (rets, w)) (hok : ∀ ret ∈ rets, failed ret.rc = false)
    (hdone : w.ctx.state = .done) :
    delivered w.trace = render w₀.r.conf env.complexValue s.toTable := by
  obtain ⟨hcourse, hsame⟩ := (course_of_run ht h honly calls).of_eq_ok hrun
  cases hcourse with
  | flowing p hflow hread hok => exact absurd hdone (Live.state_ne_done hflow.toLive)
  | finished t hfin hread hok =>
    obtain rfl := table_of_input hread hin
    rw [delivered_eq_sent hfin.bodies, hfin.sent, hsame.conf]
  | broken hstate hmarks hbad hwhy =>
    obtain ⟨ret, hret, hfail⟩ := hbad
    exact absurd ((hok ret hret).symm.trans hfail) Bool.false_ne_true

/-- The output for a stream that is accepted is one JSON text, and what it says is
the data of the stream. -/
theorem output_is_json {env : Env} {w₀ w : World} {calls : List (List Buf)} {rets : List Return}
    {compiles : Bytes → Bool} {pagesize : Nat} {levels : List Block} (ht : Takes env)
    (h : Postponed env w₀) (honly : w₀.r.headerOnly = false)
    (hconf : InEffect compiles pagesize levels w₀.r.conf) (s : Stream) (hcols : s.cols ≠ [])
    (hnum : Numeric s.toTable) {extra : Bytes}
    (hin : calls.flatten.flatMap Buf.rest = s.encode ++ extra)
    (hrun : runCalls env w₀ calls = .ok (rets, w)) (hok : ∀ ret ∈ rets, failed ret.rc = false)
    (hdone : w.ctx.state = .done) :
    parse (delivered w.trace) = some (document levels env.complexValue s.toTable) := by
  rw [delivered_of_accepted ht h honly s hin hrun hok hdone]
  exact (spells_render hconf.effective env.complexValue s.ok hcols hnum).parse

/-- Numbers and strings, with an escape, an empty value and a NULL among them. -/
def mixed : Table where
  header := ⟨0, 0, [], 0, 0, 2⟩
  cols := [⟨0, 0, lit "n"⟩, ⟨0x8000, 0, lit "s"⟩]
  rows := [⟨1, [some (lit "-7"), some (lit "\n")]⟩, ⟨1, [some [], none]⟩]

theorem mixed_ok : mixed.Ok := by
  refine ⟨by simp [mixed, Format.Header.Fits], rfl, ?_, ?_, by simp [mixed]⟩
  · simp [mixed, Format.Column.Fits, lit]
  · intro row hrow
    rcases List.mem_pair.mp hrow with rfl | rfl
    · exact ⟨by decide, rfl, ⟨by decide, rfl⟩, ⟨by decide, rfl⟩, trivial⟩
    · exact ⟨by decide, rfl, ⟨by decide, rfl⟩, trivial, trivial⟩

/-- A success key and a user property around the location. -/
def twoLevels : List Block :=
  [[.successProperty (lit "ok"), .userProperty (lit "uid") (lit "1")], [.rdsJson true]]

def twoLevelsConf : LocConf :=
  mergeLocConf 4096
    { createLocConf with
      success := some (quote (lit "ok"))
      userProps := some [⟨quote (lit "uid"), lit "1"⟩] }
    { createLocConf with enabled := some true }

theorem output_is_json_two_levels : ∃ rets w,
    runCalls calm (postpone calm twoLevelsConf true) [[Buf.memory mixed.encode]] = .ok (rets, w) ∧
    w.ctx.state = .done ∧
    parse (delivered w.trace) = some (document twoLevels calm.complexValue mixed) := by
  have hconf : InEffect literal 4096 twoLevels (postpone calm twoLevelsConf true).r.conf :=
    show InEffect literal 4096 twoLevels (mergeLocConf 4096 _ _) from .merged rfl rfl
  have hnum : Numeric mixed := by
    unfold Numeric
    decide
  have hin : [[Buf.memory mixed.encode]].flatten.flatMap Buf.rest = mixed.encode ++ [] := by simp
  obtain ⟨⟨rets, w⟩, hrun, hok, hdone⟩ : ∃ x,
      runCalls calm (postpone calm twoLevelsConf true) [[Buf.memory mixed.encode]] = .ok x ∧
      (∀ ret ∈ x.1, failed ret.rc = false) ∧ x.2.ctx.state = .done := ⟨_, rfl, by simp, rfl⟩
  exact ⟨rets, w, hrun, hdone, output_is_json takes_calm (postponed_postpone rfl rfl true) rfl hconf
    ⟨mixed, mixed_ok⟩ (by decide) hnum hin hrun hok hdone⟩

end RdsJson.JsonText
