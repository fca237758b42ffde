import RdsJson.Reader
import RdsJson.Lib.Labelled

/-! # Cutting a stream into bufs

A stream is a word of atoms that no buf boundary may cut. Reading the atoms one
by one and reading them in groups come to the same, but for the count of the
bytes behind a value's length. -/
namespace RdsJson.Cuts
open RdsJson.Lib.LittleEndian RdsJson.Lib.Labelled RdsJson.Nginx RdsJson.Rds RdsJson.Format
open RdsJson.ResultSet RdsJson.Reader

/-! ## Atoms -/

/-- The pieces of a stream that come in one buf: a length goes with the first byte
of its value, and the other bytes of the value stand alone. -/
inductive Atom where
  | header (h : Header)
  | col (c : Column)
  | flag (f : UInt8)
  | null
  | empty
  | start (total : Nat) (c : UInt8)
  | byte (c : UInt8)
  | stop
  deriving DecidableEq

def Atom.bytes : Atom → Bytes
  | .header h => encodeHeader h
  | .col c => encodeCol c
  | .flag f => [f]
  | .null => leBytes 4 nullLength
  | .empty => leBytes 4 0
  | .start total c => leBytes 4 total ++ [c]
  | .byte c => [c]
  | .stop => [0]

def groupBytes (group : List Atom) : Bytes := group.flatMap Atom.bytes

def fieldAtoms : Field → List Atom
  | none => [.null]
  | some [] => [.empty]
  | some (c :: v) => .start (v.length + 1) c :: v.map .byte

def rowAtoms (row : Row) : List Atom := .flag row.flag :: row.fields.flatMap fieldAtoms

/-- The atoms of a result set with columns. -/
def atoms (t : Table) : List Atom :=
  .header t.header :: (t.cols.map .col ++ (t.rows.flatMap rowAtoms ++ [.stop]))

@[simp] theorem groupBytes_nil : groupBytes [] = [] := rfl

@[simp] theorem groupBytes_cons (a : Atom) (group : List Atom) :
    groupBytes (a :: group) = a.bytes ++ groupBytes group := rfl

@[simp] theorem groupBytes_append (group group' : List Atom) :
    groupBytes (group ++ group') = groupBytes group ++ groupBytes group' := by
  simp [groupBytes]

theorem Atom.bytes_ne_nil (a : Atom) : a.bytes ≠ [] := by
  refine List.ne_nil_of_length_pos ?_
  cases a <;> simp [Atom.bytes, encodeHeader_length, encodeCol_length]

theorem groupBytes_ne_nil {group : List Atom} (h : group ≠ []) : groupBytes group ≠ [] := by
  obtain ⟨a, group, rfl⟩ := List.exists_cons_of_ne_nil h
  simp [a.bytes_ne_nil]

theorem groupBytes_byte (v : Bytes) : groupBytes (v.map .byte) = v := by
  induction v with
  | nil => rfl
  | cons c v ih => simp [Atom.bytes, ih]

theorem fieldAtoms_bytes (f : Field) : groupBytes (fieldAtoms f) = encodeField f := by
  match f with
  | none => simp [fieldAtoms, Atom.bytes, encodeField]
  | some [] => simp [fieldAtoms, Atom.bytes, encodeField]
  | some (c :: v) => simp [fieldAtoms, Atom.bytes, encodeField, groupBytes_byte]

theorem groupBytes_flatMap {β : Type} (xs : List β) (f : β → List Atom) :
    groupBytes (xs.flatMap f) = xs.flatMap fun x => groupBytes (f x) := by
  simp [groupBytes, List.flatMap_assoc]

/-- The atoms are the stream. -/
theorem atoms_bytes {t : Table} (hcols : t.cols ≠ []) : groupBytes (atoms t) = t.encode := by
  have hcol : groupBytes (t.cols.map .col) = t.cols.flatMap encodeCol := by
    simp [groupBytes, List.flatMap_map, Atom.bytes]
  have hrows : groupBytes (t.rows.flatMap rowAtoms) = t.rows.flatMap encodeRow := by
    simp only [groupBytes_flatMap, rowAtoms, groupBytes_cons, Atom.bytes, fieldAtoms_bytes]
    rfl
  rw [Table.encode, if_neg hcols]
  simp [atoms, hcol, hrows, Atom.bytes]

/-! ## Reading atoms -/

/-- What reading one atom does. -/
inductive Reads : Progress → Atom → Progress → Prop
  | header (h : Header) (hfits : Header.Fits h) (hcols : h.colCount ≠ 0) :
      Reads .header (.header h) (.cols h [])
  | col (h : Header) (cs : List Column) (c : Column) (hfits : Column.Fits c) :
      Reads (.cols h cs) (.col c)
        (if (cs ++ [c]).length ≥ h.colCount.toNat then .rows ⟨h, cs ++ [c], []⟩
          else .cols h (cs ++ [c]))
  | flag (t : Table) (f : UInt8) (hf : f ≠ 0) : Reads (.rows t) (.flag f) (.fields t f [])
  | stop (t : Table) : Reads (.rows t) .stop (.done t)
  | null (t : Table) (f : UInt8) (fs : List Field) :
      Reads (.fields t f fs) .null (endField t f fs none)
  | empty (t : Table) (f : UInt8) (fs : List Field) (hlt : fs.length < t.cols.length) :
      Reads (.fields t f fs) .empty (endField t f fs (some []))
  | start (t : Table) (f : UInt8) (fs : List Field) (col : Column) (total : Nat) (c : UInt8)
      (hcol : t.cols[fs.length]? = some col) (hpos : 0 < total) (hlt : total < nullLength)
      (hacc : accepts col [c] (total - 1) = true) :
      Reads (.fields t f fs) (.start total c) (behindPiece t f fs [c] (total - 1))
  | byte (t : Table) (f : UInt8) (fs : List Field) (col : Column) (got : Bytes) (missing : Nat)
      (c : UInt8) (hcol : t.cols[fs.length]? = some col) (hpos : 0 < missing)
      (hacc : accepts col (got ++ [c]) (missing - 1) = true) :
      Reads (.value t f fs got missing) (.byte c) (behindPiece t f fs (got ++ [c]) (missing - 1))

theorem reads_stuck (t : Table) (a : Atom) (p : Progress) : ¬ Reads (.done t) a p := nofun

theorem Reads.notDone {p q : Progress} {a : Atom} (h : Reads p a q) : p.isDone = false := by
  cases h <;> rfl

/-- Whether the bytes behind a length, up to the end of the buf, are none to the
code: `n` bytes follow the atom. -/
def Atom.wraps (a : Atom) (n : Nat) : Bool :=
  match a with
  | .start _ _ => (1 + n) % 2 ^ 32 = 0
  | _ => false

/-- Whether that happens anywhere in a buf. -/
def wraps : List Atom → Bool
  | [] => false
  | a :: group => a.wraps (groupBytes group).length || wraps group

/-- A value is read on as if its next byte had come alone. -/
theorem continues_of_readValue {p : Progress} {t : Table} {f : UInt8} {fs : List Field}
    {col : Column} {got x y : Bytes} {missing : Nat} {c : UInt8}
    (hcol : t.cols[fs.length]? = some col) (hpos : 0 < missing)
    (hacc : accepts col (got ++ [c]) (missing - 1) = true)
    (hstep : readStep p y = readValue t f fs got missing (c :: x)) :
    Continues p y (behindPiece t f fs (got ++ [c]) (missing - 1)) x := by
  by_cases hmore : 1 < missing ∧ x ≠ []
  · obtain ⟨hlt, hx⟩ := hmore
    have hdrop : readValue t f fs (got ++ [c]) (missing - 1) x =
        readValue t f fs got missing (c :: x) :=
      readValue_drop (x := c :: x) hlt (by simpa using List.length_pos_iff.mpr hx)
    have hvalue : readStep (.value t f fs (got ++ [c]) (missing - 1)) x = readStep p y := by
      rw [hstep, ← hdrop]
      rfl
    rw [Continues, if_neg hx, behindPiece, if_neg (by omega), readBuf_eq, readBuf_eq (.value ..),
      hvalue]
  · refine continues_of_readStep (hstep.trans ?_)
    have hdata : (c :: x).take missing = [c] ∧ (c :: x).drop missing = x := by
      rcases Nat.lt_or_ge 1 missing with hlt | hge
      · have hx : x = [] := by
          by_contra hx
          exact hmore ⟨hlt, hx⟩
        subst hx
        exact ⟨List.take_of_length_le hpos, List.drop_of_length_le hpos⟩
      · obtain rfl : missing = 1 := by omega
        exact ⟨rfl, rfl⟩
    simp [readValue, hcol, hdata.1, hdata.2, hacc]

theorem readStep_length {t : Table} (f : UInt8) (fs : List Field) {total : Nat} (x : Bytes)
    (htotal : total < 256 ^ 4) (hnull : total ≠ nullLength) :
    readStep (.fields t f fs) (leBytes 4 total ++ x) =
      if x.length % 2 ^ 32 = 0 ∧ total ≠ 0 then none else readValue t f fs [] total x := by
  have htake := takeLE_append 4 total x htotal
  simp only [readStep, htake, Option.bind_eq_bind, Option.bind_some, if_neg hnull]

/-- An atom at the front of a buf is read as a buf of its own, unless its length
wraps. -/
theorem Reads.continues {p q : Progress} {a : Atom} (h : Reads p a q) {x : Bytes}
    (hend : q.isDone = true → x = []) (hwrap : a.wraps x.length = false) :
    Continues p (a.bytes ++ x) q x := by
  cases h with
  | header h hfits hcols =>
    refine continues_of_readStep ?_
    simp [readStep, Atom.bytes, decodeHeader_encode h hfits, hcols]
  | col h cs c hfits =>
    refine continues_of_readStep ?_
    simp only [readStep, Atom.bytes, decodeCol_encode c hfits, Option.bind_eq_bind,
      Option.bind_some]
  | flag t f hf =>
    refine continues_of_readStep ?_
    simp [readStep, Atom.bytes, hf]
  | stop t =>
    obtain rfl := hend rfl
    refine continues_of_readStep ?_
    simp [readStep, Atom.bytes]
  | null t f fs =>
    refine continues_of_readStep ?_
    have htake := takeLE_append 4 nullLength x (by decide)
    simp [readStep, Atom.bytes, htake]
  | empty t f fs hlt =>
    refine continues_of_readStep ?_
    have hcol := List.getElem?_eq_getElem hlt
    rw [Atom.bytes, readStep_length f fs x (by decide) (by decide)]
    simp [readValue, hcol, accepts, behindPiece]
  | start t f fs col total c hcol hpos hlt hacc =>
    refine @continues_of_readValue _ t f fs col [] x _ total c hcol hpos hacc ?_
    have hne : ¬ (c :: x).length % 2 ^ 32 = 0 := by
      rw [List.length_cons, Nat.add_comm]
      simpa [Atom.wraps] using hwrap
    rw [Atom.bytes, List.append_assoc, readStep_length f fs _ (by unfold nullLength at hlt; omega)
      hlt.ne, List.singleton_append, if_neg fun hc => hne hc.1]
  | byte t f fs col got missing c hcol hpos hacc =>
    exact continues_of_readValue hcol hpos hacc rfl

/-- A length that wraps is refused. -/
theorem Reads.refused {p q : Progress} {a : Atom} (h : Reads p a q) {x : Bytes}
    (hwrap : a.wraps x.length = true) : readBuf p (a.bytes ++ x) = none := by
  cases h with
  | start t f fs col total c hcol hpos hlt hacc =>
    refine readBuf_eq_none ?_
    have hmod : (c :: x).length % 2 ^ 32 = 0 := by
      rw [List.length_cons, Nat.add_comm]
      simpa [Atom.wraps] using hwrap
    rw [Atom.bytes, List.append_assoc, readStep_length f fs _ (by unfold nullLength at hlt; omega)
      hlt.ne, List.singleton_append, if_pos ⟨hmod, by omega⟩]
  | _ => simp [Atom.wraps] at hwrap

/-! ## The atoms of a stream are read -/

theorem steps_cols {h : Header} {cs rest : List Column} (hne : rest ≠ [])
    (hlen : (cs ++ rest).length = h.colCount.toNat) (hfits : ∀ c ∈ rest, Column.Fits c) :
    Steps Reads (.cols h cs) (rest.map .col) (.rows ⟨h, cs ++ rest, []⟩) := by
  induction rest generalizing cs with
  | nil => exact absurd rfl hne
  | cons c rest ih =>
    have hstep := Reads.col h cs c (hfits c (by simp))
    have hrest : cs ++ c :: rest = cs ++ [c] ++ rest := by simp
    rw [hrest] at hlen ⊢
    by_cases hr : rest = []
    · subst hr
      rw [List.append_nil] at hlen ⊢
      rw [if_pos hlen.ge] at hstep
      exact .single hstep
    · have := List.length_pos_iff.mpr hr
      rw [List.length_append] at hlen
      rw [if_neg (by omega)] at hstep
      exact .cons hstep (ih hr (by rw [List.length_append, hlen]) fun c' hc' => hfits c' (by simp [hc']))

/-- The beginning of an accepted value is accepted. -/
theorem accepts_front {col : Column} {v w : Bytes} (hv : v ≠ [])
    (hacc : accepts col (v ++ w) 0 = true) : accepts col v w.length = true := by
  by_cases hw : w = []
  · subst hw
    simpa using hacc
  · refine ((accepts_append hv fun hbool => ?_).mp hacc).1
    have := length_of_accepts_bool hacc hbool
    have := List.length_pos_iff.mpr hv
    have := List.length_pos_iff.mpr hw
    rw [List.length_append] at *
    omega

theorem steps_bytes {t : Table} {f : UInt8} {fs : List Field} {col : Column} {got v : Bytes}
    (hcol : t.cols[fs.length]? = some col) (hgot : got ≠ [])
    (hacc : accepts col (got ++ v) 0 = true) :
    Steps Reads (behindPiece t f fs got v.length) (v.map .byte)
      (endField t f fs (some (got ++ v))) := by
  induction v generalizing got with
  | nil =>
    rw [List.append_nil, List.length_nil, behindPiece, if_pos rfl]
    exact .nil _
  | cons c v ih =>
    have hsplit : got ++ c :: v = got ++ [c] ++ v := by simp
    rw [hsplit] at hacc ⊢
    have hstep := Reads.byte t f fs col got (v.length + 1) c hcol (Nat.succ_pos _)
      (accepts_front (by simp) hacc)
    rw [behindPiece, List.length_cons, if_neg (Nat.succ_ne_zero _)]
    exact .cons hstep (ih (by simp) hacc)

theorem steps_field {t : Table} (flag : UInt8) {fs : List Field} {col : Column} {f : Field}
    (hcol : t.cols[fs.length]? = some col) (hf : Field.Ok col f) :
    Steps Reads (.fields t flag fs) (fieldAtoms f) (endField t flag fs f) := by
  match f with
  | none => exact .single (.null t flag fs)
  | some [] => exact .single (.empty t flag fs (List.getElem?_eq_some_iff.mp hcol).1)
  | some (c :: v) =>
    obtain ⟨hlt, hacc⟩ := hf
    rw [List.length_cons] at hlt
    have hpiece : accepts col [c] v.length = true := accepts_front (w := v) (by simp) hacc
    exact .cons (.start t flag fs col (v.length + 1) c hcol (Nat.succ_pos _) hlt hpiece)
      (steps_bytes hcol (by simp) hacc)

theorem steps_fields {t : Table} {flag : UInt8} {fs rest : List Field} (hne : rest ≠ [])
    (hlen : (fs ++ rest).length = t.cols.length) (hok : FieldsOk t.cols (fs ++ rest)) :
    Steps Reads (.fields t flag fs) (rest.flatMap fieldAtoms)
      (.rows { t with rows := t.rows ++ [⟨flag, fs ++ rest⟩] }) := by
  induction rest generalizing fs with
  | nil => exact absurd rfl hne
  | cons f rest ih =>
    have hlt : fs.length < t.cols.length := by
      rw [← hlen, List.length_append, List.length_cons]
      omega
    have hcol := List.getElem?_eq_getElem hlt
    have hstep := steps_field flag hcol (hok.get (f := f) hcol (by simp))
    have hrest : fs ++ f :: rest = fs ++ [f] ++ rest := by simp
    rw [hrest] at hlen hok ⊢
    rw [List.flatMap_cons]
    refine hstep.append ?_
    unfold endField
    by_cases hr : rest = []
    · subst hr
      rw [List.append_nil] at hlen ⊢
      rw [if_pos hlen.ge]
      exact .nil _
    · have := List.length_pos_iff.mpr hr
      rw [List.length_append] at hlen
      rw [if_neg (by omega)]
      exact ih hr (by rw [List.length_append, hlen]) hok

theorem steps_rows {h : Header} {cs : List Column} {rs rest : List Row} (hcs : cs ≠ [])
    (hok : ∀ r ∈ rest, r.Ok cs) :
    Steps Reads (.rows ⟨h, cs, rs⟩) (rest.flatMap rowAtoms) (.rows ⟨h, cs, rs ++ rest⟩) := by
  induction rest generalizing rs with
  | nil =>
    rw [List.append_nil]
    exact .nil _
  | cons r rest ih =>
    obtain ⟨hflag, hlen, hfields⟩ := hok r (by simp)
    have hne : r.fields ≠ [] := by
      rintro he
      rw [he] at hlen
      exact hcs (List.length_eq_zero_iff.mp hlen.symm)
    have hrow : Steps Reads (.rows ⟨h, cs, rs⟩) (rowAtoms r) (.rows ⟨h, cs, rs ++ [r]⟩) :=
      .cons (.flag _ _ hflag) (steps_fields hne hlen hfields)
    rw [List.flatMap_cons, List.append_cons]
    exact hrow.append (ih fun r' hr' => hok r' (by simp [hr']))

theorem steps_atoms {t : Table} (hok : t.Ok) (hcols : t.cols ≠ []) :
    Steps Reads .header (atoms t) (.done t) := by
  have hcount : t.header.colCount ≠ 0 := by
    intro hzero
    have hlen := hok.colCount
    rw [hzero] at hlen
    exact hcols (List.length_eq_zero_iff.mp hlen)
  have hspecs : Steps Reads (.cols t.header []) (t.cols.map .col) (.rows ⟨t.header, t.cols, []⟩) :=
    steps_cols hcols hok.colCount hok.colsFit
  have hrows : Steps Reads (.rows ⟨t.header, t.cols, []⟩) (t.rows.flatMap rowAtoms) (.rows t) :=
    steps_rows hcols hok.rowsOk
  exact .cons (.header t.header hok.headerFits hcount)
    (hspecs.append (hrows.append (.single (.stop t))))

/-! ## Reading groups -/

/-- A buf that holds a group of atoms is read as they are, one by one. -/
theorem readBuf_group {p q : Progress} {group : List Atom} (h : Steps Reads p group q)
    (hne : group ≠ []) :
    readBuf p (groupBytes group) = if wraps group then none else some q := by
  induction h with
  | nil p => exact absurd rfl hne
  | @cons p r q a group h hs ih =>
    rw [groupBytes_cons, wraps]
    cases hwrap : a.wraps (groupBytes group).length with
    | true => rw [h.refused hwrap, Bool.true_or, if_pos rfl]
    | false =>
      have hend : r.isDone = true → groupBytes group = [] := by
        intro hdone
        cases r with
        | done t => rw [(hs.stuck (reads_stuck t)).1, groupBytes_nil]
        | _ => cases hdone
      rw [h.continues hend hwrap, Bool.false_or]
      by_cases hgroup : group = []
      · subst hgroup
        cases hs with
        | nil => rfl
      · rw [if_neg (groupBytes_ne_nil hgroup), ih hgroup]

/-- The same for the bufs of a chain. -/
theorem readBufs_groups {p q : Progress} {groups : List (List Atom)} {bufs : List Buf}
    (h : Steps Reads p groups.flatten q) (hne : ∀ group ∈ groups, group ≠ [])
    (hmem : ∀ b ∈ bufs, b.inMemory = true) (hbytes : bufs.map Buf.rest = groups.map groupBytes) :
    readBufs p bufs = if groups.any wraps then none else some (q, []) := by
  induction groups generalizing p bufs with
  | nil =>
    obtain rfl := List.map_eq_nil_iff.mp hbytes
    cases h with
    | nil => simp
  | cons group groups ih =>
    obtain ⟨b, bufs, rfl⟩ := List.exists_cons_of_ne_nil (l := bufs) (by rintro rfl; cases hbytes)
    obtain ⟨hb, hbytes⟩ := List.cons.inj hbytes
    rw [List.flatten_cons] at h
    obtain ⟨r, hgroup, hrest⟩ := h.split
    have hne' := hne group (by simp)
    have hdone : p.isDone = false := by
      cases hgroup with
      | nil => exact absurd rfl hne'
      | cons hstep hs => exact Reads.notDone hstep
    rw [readBufs_memory hdone (hmem b (by simp)), hb, readBuf_group hgroup hne', List.any_cons]
    cases wraps group with
    | true => rfl
    | false =>
      rw [if_neg Bool.false_ne_true, Option.bind_some, Bool.false_or]
      exact ih hrest (fun g hg => hne g (by simp [hg])) (fun b' hb' => hmem b' (by simp [hb']))
        hbytes

end RdsJson.Cuts
