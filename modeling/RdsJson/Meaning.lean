import RdsJson.ErrorObjects
import RdsJson.JsonText
import RdsJson.Language

/-! # What a client can tell

The value that a response stands for, whether the stream has columns or not, and
when two streams have the same. -/
namespace RdsJson.Meaning
open RdsJson.Lib.LittleEndian RdsJson.Lib.Json RdsJson.Lib.Decimal RdsJson.Nginx RdsJson.Rds
open RdsJson.Conf RdsJson.Output RdsJson.Context RdsJson.Processor RdsJson.FilterModule
open RdsJson.ResultSet RdsJson.Reader RdsJson.Render RdsJson.Blocks RdsJson.Levels
open RdsJson.WriteLayer RdsJson.Runs RdsJson.ErrorKeys RdsJson.ErrorObjects RdsJson.JsonText RdsJson.Language

variable {conf : LocConf} {levels : List Block} {f : Format} {t t' : Table}
variable {complexValue : Bytes → Bytes}

/-! ## The value of a response -/

def meaning (levels : List Block) (complexValue : Bytes → Bytes) (t : Table) : Value :=
  if t.cols = [] then headerObject levels complexValue t.header
  else document levels complexValue t

theorem spells_meaning (complexValue : Bytes → Bytes) (h : Effective levels conf)
    (herr : EffectiveErrors levels conf) (hok : t.Ok) (hnum : Numeric t) :
    Spells (render conf complexValue t) (meaning levels complexValue t) := by
  unfold meaning
  split
  · next hcols =>
    rw [render, if_pos hcols]
    exact spells_headerText complexValue h herr t.header
  · next hcols => exact spells_render h complexValue hok hcols hnum

/-! ## The text from the values -/

def cellText : Value → Bytes
  | .null => lit "null"
  | v => scalarText v

/-- A row is printed from its value. -/
def rowValueText : Value → Bytes
  | .array vs => lit "[" ++ commaSep (vs.map cellText) ++ lit "]"
  | .object members =>
    lit "\x7b" ++ commaSep (members.map fun m => quote m.1 ++ lit ":" ++ cellText m.2) ++ lit "\x7d"
  | _ => []

theorem valueText_eq {col : Column} {x : Field} (hok : Field.Ok col x) :
    valueText col x = cellText (fieldValue col x) := by
  match x with
  | none => rfl
  | some [] => rfl
  | some (c :: v) =>
    have haccepts := hok.2
    cases hr : col.rough with
    | int | float | str => simp only [valueText, fieldValue, hr, cellText, scalarText]
    | bool =>
      simp only [accepts, hr, Bool.and_eq_true] at haccepts
      simp only [valueText, fieldValue, hr, cellText, scalarText, boolTrue_eq haccepts.2]
      cases boolFalse c <;> rfl

/-- What holds of every cell holds of a row. -/
theorem zipWith_cells {α : Type} {cols : List Column} {fs : List Field} {g g' : Column → Field → α}
    (hok : FieldsOk cols fs) (h : ∀ col x, Field.Ok col x → g col x = g' col x) :
    List.zipWith g cols fs = List.zipWith g' cols fs := by
  rw [← List.map_uncurry_zip_eq_zipWith, ← List.map_uncurry_zip_eq_zipWith]
  exact List.map_congr_left fun x hx => h x.1 x.2 (fieldOk_of_zip hok x hx)

theorem rowText_eq {cols : List Column} {row : Row} (hf : conf.format = some f)
    (hok : row.Ok cols) : rowText conf cols row = rowValueText (rowValue f cols row) := by
  obtain ⟨-, -, hfields⟩ := hok
  unfold rowText rowOpen rowClose fieldTexts fieldText fieldKey rowValue
  rw [compact_eq hf]
  by_cases hc : f = .compact
  · simp only [hc, decide_true, if_true, List.nil_append, rowValueText, List.map_zipWith]
    rw [zipWith_cells hfields fun col x => valueText_eq]
  · simp only [hc, decide_false, Bool.false_eq_true, if_false, rowValueText, List.map_zipWith]
    rw [zipWith_cells hfields fun col x hx => by rw [valueText_eq hx]]

/-- Two sets with the same rows have the same text around equal names. -/
theorem items_eq (hf : conf.format = some f) (hok : t.Ok) (hok' : t'.Ok)
    (hnames : f = .compact → t.cols.map (·.name) = t'.cols.map (·.name))
    (hrows : t.rows.map (rowValue f t.cols) = t'.rows.map (rowValue f t'.cols)) :
    items conf t = items conf t' := by
  have htexts {t : Table} (hok : t.Ok) : t.rows.map (rowText conf t.cols) =
      (t.rows.map (rowValue f t.cols)).map rowValueText := by
    rw [List.map_map]
    exact List.map_congr_left fun row hrow => rowText_eq hf (hok.rowsOk row hrow)
  have hquoted (cols : List Column) :
      cols.map (fun c => quote c.name) = (cols.map (·.name)).map quote := by
    rw [List.map_map]
    rfl
  unfold items
  rw [htexts hok, htexts hok', hrows, compact_eq hf, hquoted, hquoted]
  by_cases hc : f = .compact
  · rw [hnames hc]
  · simp [hc]

/-! ## Alike -/

/-- The same to a client: the same result, or the same rows of the same values, under
the same names where there are any. -/
inductive Alike (f : Format) (t t' : Table) : Prop
  | results (hcols : t.cols = []) (hcols' : t'.cols = [])
      (hcode : t.header.stdErrcode = t'.header.stdErrcode)
      (herrstr : t.header.errstr = t'.header.errstr)
      (hinsert : t.header.insertId = t'.header.insertId)
      (haffected : t.header.affectedRows = t'.header.affectedRows)
  | rows (hcols : t.cols ≠ []) (hcols' : t'.cols ≠ [])
      (hnames : f = .compact → t.cols.map (·.name) = t'.cols.map (·.name))
      (hrows : t.rows.map (rowValue f t.cols) = t'.rows.map (rowValue f t'.cols))

theorem Alike.render_eq (h : Alike f t t') (hf : conf.format = some f) (hok : t.Ok) (hok' : t'.Ok) :
    render conf complexValue t = render conf complexValue t' := by
  unfold render
  cases h with
  | results hcols hcols' hcode herrstr hinsert haffected =>
    rw [if_pos hcols, if_pos hcols']
    unfold headerText
    rw [hcode, herrstr, hinsert, haffected]
  | rows hcols hcols' hnames hrows =>
    rw [if_neg hcols, if_neg hcols', tableText, tableText, items_eq hf hok hok' hnames hrows]

/-! ## The data from the value -/

theorem map_string_inj {as bs : List Bytes} (h : as.map Value.string = bs.map Value.string) :
    as = bs :=
  List.map_injective_iff.mpr (fun _ _ => Value.string.inj) h

theorem digits_inj {m n : Nat} (h : digits m = digits n) : m = n := by
  rw [← value_digits m, h, value_digits]

theorem rowsValue_inj (h : rowsValue f t = rowsValue f t') :
    (f = .compact → t.cols.map (·.name) = t'.cols.map (·.name)) ∧
      t.rows.map (rowValue f t.cols) = t'.rows.map (rowValue f t'.cols) := by
  have hitems := Value.array.inj h
  by_cases hc : f = .compact
  · rw [if_pos hc, if_pos hc, List.singleton_append, List.singleton_append] at hitems
    obtain ⟨hnames, hrows⟩ := List.cons.inj hitems
    refine ⟨fun _ => map_string_inj ?_, hrows⟩
    rw [List.map_map, List.map_map]
    exact Value.array.inj hnames
  · rw [if_neg hc, if_neg hc] at hitems
    exact ⟨fun h => absurd h hc, hitems⟩

/-- Where the front of a list is told from the rest, both can be read off. -/
theorem append_told {α : Type} (told : α → Bool) {xs xs' rest rest' : List α}
    (hxs : ∀ x ∈ xs, told x = true) (hxs' : ∀ x ∈ xs', told x = true)
    (hrest : ∀ x ∈ rest, told x = false) (hrest' : ∀ x ∈ rest', told x = false)
    (h : xs ++ rest = xs' ++ rest') : xs = xs' ∧ rest = rest' := by
  have hfilter {ys zs : List α} (hys : ∀ x ∈ ys, told x = true) (hzs : ∀ x ∈ zs, told x = false) :
      (ys ++ zs).filter told = ys := by
    rw [List.filter_append, List.filter_eq_self.mpr hys,
      List.filter_eq_nil_iff.mpr fun x hx => by simp [hzs x hx], List.append_nil]
  have hfront : xs = xs' := by rw [← hfilter hxs hrest, h, hfilter hxs' hrest']
  subst hfront
  exact ⟨rfl, List.append_cancel_left h⟩

theorem countMembers_named {name : Bytes} {n : UInt64} :
    ∀ m ∈ countMembers name n, m.1 = name ∧ ∃ text, m.2 = .number text := by
  unfold countMembers
  split <;> simp

theorem countMembers_inj {name : Bytes} {m n : UInt64}
    (h : countMembers name m = countMembers name n) : m = n := by
  unfold countMembers at h
  split_ifs at h with hm hn hn
  · rw [hm, hn]
  · simp only [List.cons.injEq, Prod.mk.injEq, Value.number.injEq] at h
    exact UInt64.toNat_inj.mp (digits_inj h.1.2)

theorem errstrMembers_inj {errstr errstr' : Bytes}
    (h : errstrMembers levels errstr = errstrMembers levels errstr') : errstr = errstr' := by
  unfold errstrMembers at h
  split_ifs at h with he he' he'
  · rw [he, he']
  · simpa using h

def isString : Value → Bool
  | .string _ => true
  | _ => false

/-- Only the error string is a string, and the counters are told by their names. -/
theorem headerTail_inj {errstr errstr' : Bytes} {m n m' n' : UInt64}
    (h : errstrMembers levels errstr ++ countMembers (lit "insert_id") m ++
        countMembers (lit "affected_rows") n =
      errstrMembers levels errstr' ++ countMembers (lit "insert_id") m' ++
        countMembers (lit "affected_rows") n') :
    errstr = errstr' ∧ m = m' ∧ n = n' := by
  have hstring (s : Bytes) : ∀ x ∈ errstrMembers levels s, isString x.2 = true := by
    unfold errstrMembers
    split <;> simp [isString]
  have hcount (name : Bytes) (k : UInt64) : ∀ x ∈ countMembers name k, isString x.2 = false := by
    intro x hx
    obtain ⟨-, text, htext⟩ := countMembers_named x hx
    rw [htext]
    rfl
  have hcounts (k l : UInt64) : ∀ x ∈ countMembers (lit "insert_id") k ++
      countMembers (lit "affected_rows") l, isString x.2 = false := fun x hx =>
    (List.mem_append.mp hx).elim (hcount _ k x) (hcount _ l x)
  rw [List.append_assoc, List.append_assoc] at h
  obtain ⟨herrstr, h⟩ := append_told (fun x => isString x.2) (hstring errstr)
    (hstring errstr') (hcounts m n) (hcounts m' n') h
  have hnamed (k : UInt64) : ∀ x ∈ countMembers (lit "insert_id") k,
      decide (x.1 = lit "insert_id") = true := fun x hx => by simp [(countMembers_named x hx).1]
  have hother (k : UInt64) : ∀ x ∈ countMembers (lit "affected_rows") k,
      decide (x.1 = lit "insert_id") = false := fun x hx => by
    rw [(countMembers_named x hx).1]
    decide
  obtain ⟨hinsert, haffected⟩ := append_told (fun x => decide (x.1 = lit "insert_id"))
    (hnamed m) (hnamed m') (hother n) (hother n') h
  exact ⟨errstrMembers_inj herrstr, countMembers_inj hinsert, countMembers_inj haffected⟩

theorem headerObject_inj {h h' : Header}
    (heq : headerObject levels complexValue h = headerObject levels complexValue h') :
    h.stdErrcode = h'.stdErrcode ∧ h.errstr = h'.errstr ∧ h.insertId = h'.insertId ∧
      h.affectedRows = h'.affectedRows := by
  have hmembers := Value.object.inj heq
  have hlen (ok ok' : Bool) : (successMembers levels ok ++ propMembers levels complexValue).length =
      (successMembers levels ok' ++ propMembers levels complexValue).length := by
    simp [successMembers]
  obtain ⟨-, hrest⟩ := List.append_inj hmembers (hlen _ _)
  obtain ⟨hcode, htail⟩ := List.cons.inj hrest
  obtain ⟨herrstr, hinsert, haffected⟩ := headerTail_inj htail
  refine ⟨?_, herrstr, hinsert, haffected⟩
  exact UInt16.toNat_inj.mp (digits_inj (Value.number.inj (Prod.mk.inj hcode).2))

/-- A result is an object, and no list of rows is a number. -/
theorem headerObject_ne_document (h : Header) :
    headerObject levels complexValue h ≠ document levels complexValue t := by
  unfold headerObject document
  cases rootKey levels with
  | none => exact Value.noConfusion
  | some root =>
    intro heq
    have hmembers := Value.object.inj heq
    have hlen : (successMembers levels (h.stdErrcode = 0) ++ propMembers levels complexValue).length =
        ((successKey levels).toList.map (fun key => (key, Value.bool true)) ++
          ((userProps levels).getD []).map fun p : Bytes × Bytes =>
            (p.1, Value.string (complexValue p.2))).length := by
      simp [successMembers, propMembers]
    obtain ⟨-, hrest⟩ := List.append_inj hmembers hlen
    exact Value.noConfusion (Prod.mk.inj (List.cons.inj hrest).1).2

theorem document_inj (h : document levels complexValue t = document levels complexValue t') :
    rowsValue (Levels.format levels) t = rowsValue (Levels.format levels) t' := by
  unfold document at h
  cases hroot : rootKey levels with
  | none =>
    rw [hroot] at h
    exact h
  | some root =>
    rw [hroot] at h
    have hlast := List.append_cancel_left (Value.object.inj h)
    exact (Prod.mk.inj (List.cons.inj hlast).1).2

theorem alike_of_meaning (h : meaning levels complexValue t = meaning levels complexValue t') :
    Alike (Levels.format levels) t t' := by
  unfold meaning at h
  split_ifs at h with hcols hcols' hcols'
  · obtain ⟨hcode, herrstr, hinsert, haffected⟩ := headerObject_inj h
    exact .results hcols hcols' hcode herrstr hinsert haffected
  · exact absurd h (headerObject_ne_document _)
  · exact absurd h.symm (headerObject_ne_document _)
  · obtain ⟨hnames, hrows⟩ := rowsValue_inj (document_inj h)
    exact .rows hcols hcols' hnames hrows

/-- Two sets have the same text if and only if a client could not tell them apart. -/
theorem render_eq_iff (h : Effective levels conf) (herr : EffectiveErrors levels conf)
    (hok : t.Ok) (hok' : t'.Ok) (hnum : Numeric t) (hnum' : Numeric t') :
    render conf complexValue t = render conf complexValue t' ↔
      Alike (Levels.format levels) t t' := by
  constructor
  · intro heq
    have hparse := (spells_meaning complexValue h herr hok hnum).parse
    have hparse' := (spells_meaning complexValue h herr hok' hnum').parse
    rw [heq] at hparse
    exact alike_of_meaning (Option.some.inj (hparse.symm.trans hparse'))
  · intro halike
    exact halike.render_eq h.format hok hok'

/-! ## Responses -/

/-- `w` stands behind the response to the stream, with something behind it or not,
however it came in. -/
def Responds (env : Env) (w₀ : World) (s : Stream) (w : World) : Prop :=
  ∃ calls rets extra, calls.flatten.flatMap Buf.rest = s.encode ++ extra ∧
    runCalls env w₀ calls = .ok (rets, w) ∧ Completed rets w

theorem Responds.delivered {env : Env} {w₀ w : World} {s : Stream} (h : Responds env w₀ s w)
    (ht : Takes env) (hpostponed : Postponed env w₀) (honly : w₀.r.headerOnly = false) :
    delivered w.trace = render w₀.r.conf env.complexValue s.toTable := by
  obtain ⟨calls, rets, extra, hin, hrun, hok, hdone⟩ := h
  exact delivered_of_accepted ht hpostponed honly s hin hrun hok hdone

/-- Two streams get the same response if and only if they are alike: nothing that a
client could tell is lost, and nothing else shows. -/
theorem same_response_iff {env : Env} {w₀ w w' : World} {compiles : Bytes → Bool} {pagesize : Nat}
    {levels : List Block} (ht : Takes env) (h : Postponed env w₀) (honly : w₀.r.headerOnly = false)
    (hconf : InEffect compiles pagesize levels w₀.r.conf) (s s' : Stream) (hnum : Numeric s.toTable)
    (hnum' : Numeric s'.toTable) (hw : Responds env w₀ s w) (hw' : Responds env w₀ s' w') :
    delivered w.trace = delivered w'.trace ↔
      Alike (Levels.format levels) s.toTable s'.toTable := by
  rw [hw.delivered ht h honly, hw'.delivered ht h honly]
  exact render_eq_iff hconf.effective (effectiveErrors_of_inEffect hconf) s.ok s'.ok hnum hnum'

/-- One column of truth values, and one row. -/
def truth (c : UInt8) : Table where
  header := ⟨0, 0, [], 0, 0, 1⟩
  cols := [⟨0xc000, 0, lit "b"⟩]
  rows := [⟨1, [some [c]]⟩]

theorem truth_rough : (⟨0xc000, 0, lit "b"⟩ : Column).rough = .bool := by decide

theorem truth_ok {c : UInt8} (hc : (boolFalse c || boolTrue c) = true) : (truth c).Ok := by
  refine ⟨by simp [Format.Header.Fits, truth], rfl, by simp [truth, Format.Column.Fits, lit], ?_,
    by simp [truth]⟩
  intro row hrow
  obtain rfl := List.mem_singleton.mp hrow
  exact ⟨by simp, rfl, ⟨by simp [nullLength], by simp [accepts, truth_rough, hc]⟩, trivial⟩

theorem truth_numeric (c : UInt8) : Numeric (truth c) := by
  intro row hrow x hx v _ _ htype
  obtain rfl := List.mem_singleton.mp hrow
  obtain rfl := List.mem_singleton.mp hx
  rcases htype with h | h <;> exact absurd (h.symm.trans truth_rough) (by simp)

/-- A truth value in two spellings. -/
theorem same_response_iff_truth : ∃ w w' : World,
    (truth 116).encode ≠ (truth 49).encode ∧ delivered w.trace = delivered w'.trace := by
  have hconf : InEffect literal 4096 twoLevels (postpone calm twoLevelsConf true).r.conf :=
    show InEffect literal 4096 twoLevels (mergeLocConf 4096 _ _) from .merged rfl rfl
  obtain ⟨⟨rets, w⟩, hrun, hdone⟩ : ∃ x,
      runCalls calm (postpone calm twoLevelsConf true) [[Buf.memory (truth 116).encode]] = .ok x ∧
      Completed x.1 x.2 := ⟨_, rfl, by simp, rfl⟩
  obtain ⟨⟨rets', w'⟩, hrun', hdone'⟩ : ∃ x,
      runCalls calm (postpone calm twoLevelsConf true) [[Buf.memory (truth 49).encode]] = .ok x ∧
      Completed x.1 x.2 := ⟨_, rfl, by simp, rfl⟩
  have halike := same_response_iff takes_calm (postponed_postpone rfl rfl true) rfl hconf
    ⟨truth 116, truth_ok rfl⟩ ⟨truth 49, truth_ok rfl⟩ (truth_numeric 116) (truth_numeric 49)
    ⟨_, rets, [], by simp, hrun, hdone⟩ ⟨_, rets', [], by simp, hrun', hdone'⟩
  exact ⟨w, w', by decide, halike.mpr (.rows (by simp [truth]) (by simp [truth]) (fun _ => rfl) rfl)⟩

end RdsJson.Meaning
