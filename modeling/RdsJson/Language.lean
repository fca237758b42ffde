import RdsJson.Independence
import RdsJson.Streaming
import RdsJson.Encoding
import RdsJson.Lib.Words

/-! # The language that is read

What the reader takes, it takes atom by atom; and what it has taken can always be
gone on with. Together: which sequences of bufs are accepted, and that an error is
found as soon as there is one. -/
namespace RdsJson.Language
open RdsJson.Lib.LittleEndian RdsJson.Lib.Labelled RdsJson.Lib.Words RdsJson.Nginx RdsJson.Rds
open RdsJson.Context RdsJson.Processor RdsJson.FilterModule RdsJson.Format RdsJson.ResultSet
open RdsJson.Reader RdsJson.Cuts RdsJson.Render RdsJson.WriteLayer RdsJson.Runs
open RdsJson.Encoding RdsJson.Output

variable {p q : Progress} {t : Table} {flag : UInt8} {fs : List Field} {col : Column}
variable {x x' : Bytes} {bufs rest : List Buf}

/-! ## Records into atoms -/

/-- A piece of a value is accepted with more bytes to come if the whole piece is. -/
theorem accepts_piece {v w : Bytes} {missing : Nat} (hv : v ≠ [])
    (hacc : accepts col (v ++ w) missing = true) :
    accepts col v (w.length + missing) = true := by
  by_cases hw : w = []
  · subst hw
    simpa using hacc
  · refine ((accepts_append hv fun hbool => ?_).mp hacc).1
    have := length_of_accepts_bool hacc hbool
    have := List.length_pos_iff.mpr hv
    have := List.length_pos_iff.mpr hw
    rw [List.length_append] at *
    omega

/-- The bytes of a piece, one by one. -/
theorem steps_piece (flag : UInt8) {got v : Bytes} {missing : Nat} (hgot : got ≠ [])
    (hcol : t.cols[fs.length]? = some col) (hacc : accepts col (got ++ v) missing = true) :
    Steps Reads (behindPiece t flag fs got (v.length + missing)) (v.map .byte)
      (behindPiece t flag fs (got ++ v) missing) := by
  induction v generalizing got with
  | nil =>
    rw [List.append_nil, List.length_nil, Nat.zero_add]
    exact .nil _
  | cons c v ih =>
    have hsplit : got ++ c :: v = got ++ [c] ++ v := by simp
    rw [hsplit] at hacc ⊢
    have hlen : (c :: v).length + missing = v.length + missing + 1 := by
      rw [List.length_cons]
      omega
    have hstep := Reads.byte t flag fs col got (v.length + missing + 1) c hcol (Nat.succ_pos _)
      (accepts_piece (by simp) hacc)
    rw [behindPiece, hlen, if_neg (Nat.succ_ne_zero _)]
    exact .cons hstep (ih (by simp) hacc)

/-- No length among them. -/
theorem wraps_bytes (v : Bytes) (group : List Atom) :
    wraps (v.map .byte ++ group) = wraps group := by
  induction v with
  | nil => rfl
  | cons c v ih => simpa [wraps, Atom.wraps] using ih

/-- `group` is read off the front of a buf that `x'` is left of. -/
structure Taken (p : Progress) (x : Bytes) (group : List Atom) (q : Progress) (x' : Bytes) :
    Prop where
  steps : Steps Reads p group q
  begun : p.midValue = false → group ≠ []
  bytes : x = groupBytes group ++ x'
  whole : ∀ more, groupBytes more = x' → wraps (group ++ more) = wraps more

theorem Taken.one {a : Atom} (h : Reads p a q) (hx : x = a.bytes ++ x')
    (hwrap : a.wraps x'.length = false) : Taken p x [a] q x' :=
  ⟨.single h, by simp, by simpa using hx, fun more hmore => by simp [wraps, hmore, hwrap]⟩

/-- A value, or the beginning of one, behind its length. -/
theorem taken_start {total : Nat} {p' : Progress} (htotal : total < 256 ^ 4)
    (hnull : total ≠ nullLength) (hlen : ¬ (x.length % 2 ^ 32 = 0 ∧ total ≠ 0))
    (h : readValue t flag fs [] total x = some (p', x')) :
    ∃ group, Taken (.fields t flag fs) (leBytes 4 total ++ x) group p' x' := by
  obtain ⟨col, hcol, h⟩ := Option.bind_eq_some_iff.mp h
  dsimp only at h
  rw [List.nil_append] at h
  split at h
  · next hacc =>
    simp only [Option.some.injEq, Prod.mk.injEq] at h
    obtain ⟨rfl, rfl⟩ := h
    by_cases hzero : total = 0
    · subst hzero
      have hstep := Reads.empty t flag fs (List.getElem?_eq_some_iff.mp hcol).1
      exact ⟨[.empty], Taken.one hstep rfl rfl⟩
    have hmod : x.length % 2 ^ 32 ≠ 0 := fun hm => hlen ⟨hm, hzero⟩
    obtain ⟨c, y, rfl⟩ := List.exists_cons_of_ne_nil (l := x) (by rintro rfl; exact hmod rfl)
    obtain ⟨n, rfl⟩ : ∃ n, total = n + 1 := ⟨total - 1, by omega⟩
    rw [List.take_succ_cons] at hacc ⊢
    rw [List.drop_succ_cons]
    have hmissing : n + 1 - (c :: y.take n).length = n - (y.take n).length := by
      rw [List.length_cons]
      omega
    rw [hmissing] at hacc ⊢
    have htake : (y.take n).length ≤ n := List.length_take_le n y
    have hrest : (y.take n).length + (n - (y.take n).length) = n := by omega
    have hfirst := accepts_piece (v := [c]) (w := y.take n) (by simp) hacc
    rw [hrest] at hfirst
    have hstart := Reads.start t flag fs col (n + 1) c hcol (Nat.succ_pos n)
      (by unfold nullLength at hnull ⊢; omega) hfirst
    have hbytes := steps_piece flag (List.cons_ne_nil c []) hcol hacc
    rw [hrest] at hbytes
    refine ⟨.start (n + 1) c :: (y.take n).map .byte, .cons hstart hbytes, by simp, ?_,
      fun more hmore => ?_⟩
    · rw [groupBytes_cons, groupBytes_byte, Atom.bytes, List.append_assoc, List.append_assoc,
        List.take_append_drop]
      rfl
    · have hcount : (groupBytes ((y.take n).map .byte ++ more)).length = y.length := by
        rw [groupBytes_append, groupBytes_byte, hmore, List.take_append_drop]
      rw [List.length_cons, Nat.add_comm] at hmod
      rw [List.cons_append, wraps, wraps_bytes, hcount, Atom.wraps, decide_eq_false hmod,
        Bool.false_or]
  · cases h

/-- A header without columns is a stream of its own, and no atom of another. -/
structure Alone (p : Progress) (x : Bytes) (q : Progress) : Prop where
  header : p = .header
  done : ∃ h : Header, h.colCount = 0 ∧ Header.Fits h ∧ q = .done ⟨h, [], []⟩ ∧ x = encodeHeader h

/-- Every record is a group of atoms. -/
theorem taken_step (hp : p.Ok) (h : readStep p x = some (q, x')) :
    (∃ group, Taken p x group q x') ∨ Alone p x q ∧ x' = [] := by
  cases p with
  | header =>
    obtain ⟨⟨hd, y⟩, hdec, hk⟩ := Option.bind_eq_some_iff.mp h
    obtain ⟨hfits, hx⟩ := decodeHeader_some hdec
    dsimp only at hk
    split at hk
    · next hzero =>
      split at hk
      · next hy =>
        simp only [Option.some.injEq, Prod.mk.injEq] at hk
        obtain ⟨rfl, rfl⟩ := hk
        exact .inr ⟨⟨rfl, hd, hzero, hfits, rfl, by rw [hx, hy, List.append_nil]⟩, rfl⟩
      · cases hk
    · next hcols =>
      simp only [Option.some.injEq, Prod.mk.injEq] at hk
      obtain ⟨rfl, rfl⟩ := hk
      exact .inl ⟨_, Taken.one (.header hd hfits hcols) hx rfl⟩
  | cols hd cs =>
    obtain ⟨⟨c, y⟩, hdec, hk⟩ := Option.bind_eq_some_iff.mp h
    obtain ⟨hfits, hx⟩ := decodeCol_some hdec
    simp only [Option.some.injEq, Prod.mk.injEq] at hk
    obtain ⟨rfl, rfl⟩ := hk
    exact .inl ⟨_, Taken.one (.col hd cs c hfits) hx rfl⟩
  | rows t =>
    unfold readStep at h
    dsimp only at h
    split at h
    · cases h
    · next flag y =>
      split at h
      · next hzero =>
        split at h
        · next hy =>
          cases h
          exact .inl ⟨_, Taken.one (.stop t) (by rw [hzero, hy]; rfl) rfl⟩
        · cases h
      · next hne =>
        cases h
        exact .inl ⟨_, Taken.one (.flag t flag hne) rfl rfl⟩
  | fields t flag fs =>
    obtain ⟨total, y, hx, htotal, hk⟩ := takeLE_bind h
    dsimp only at hk
    split at hk
    · next hnull =>
      simp only [Option.some.injEq, Prod.mk.injEq] at hk
      obtain ⟨rfl, rfl⟩ := hk
      exact .inl ⟨_, Taken.one (.null t flag fs) (by rw [hx, hnull]; rfl) rfl⟩
    · next hnull =>
      split at hk
      · cases hk
      · next hlen =>
        rw [hx]
        exact .inl (taken_start htotal hnull hlen hk)
  | value t flag fs got missing =>
    obtain ⟨col, hcol, hk⟩ := Option.bind_eq_some_iff.mp h
    dsimp only at hk
    split at hk
    · next hacc =>
      simp only [Option.some.injEq, Prod.mk.injEq] at hk
      obtain ⟨rfl, rfl⟩ := hk
      have htake := List.length_take_le missing x
      have hbytes := steps_piece flag hp.begun hcol hacc
      rw [Nat.add_sub_of_le htake, behindPiece, if_neg hp.unfinished.ne'] at hbytes
      refine .inl ⟨_, hbytes, fun hmid => Bool.noConfusion hmid, ?_, fun more _ => wraps_bytes _ more⟩
      rw [groupBytes_byte, List.take_append_drop]
    · cases hk
  | done t => cases h

theorem endField_ne_header (t : Table) (flag : UInt8) (fs : List Field) (f : Field) :
    Reader.endField t flag fs f ≠ .header := by
  unfold Reader.endField
  split <;> exact Progress.noConfusion

theorem Reads.ne_header {a : Atom} (h : Reads p a q) : q ≠ .header := by
  cases h with
  | header | flag | stop => exact Progress.noConfusion
  | col => split <;> exact Progress.noConfusion
  | null | empty => exact endField_ne_header _ _ _ _
  | start | byte =>
    unfold behindPiece
    split
    · exact endField_ne_header _ _ _ _
    · exact Progress.noConfusion

theorem steps_ne_header {group : List Atom} (h : Steps Reads p group q) (hne : group ≠ []) :
    q ≠ .header := by
  induction h with
  | nil => exact absurd rfl hne
  | @cons p r q a group h hs ih =>
    by_cases hgroup : group = []
    · subst hgroup
      cases hs
      exact Reads.ne_header h
    · exact ih hgroup

/-- The whole buf is a group of atoms, and no length in it wraps. -/
structure Grouped (p : Progress) (x : Bytes) (group : List Atom) (q : Progress) : Prop where
  steps : Steps Reads p group q
  bytes : x = groupBytes group
  unwrapped : wraps group = false

theorem grouped_buf (hp : p.Ok) (h : readBuf p x = some q) :
    (∃ group, Grouped p x group q) ∨ Alone p x q := by
  have hrun (s : Progress × Bytes) (hs : s.1.Ok) : readBuf s.1 s.2 = some q →
      (∃ group, Grouped s.1 s.2 group q) ∨ Alone s.1 s.2 q := by
    induction s using readLoop.induct with
    | h s ih =>
      intro h
      rw [readBuf_eq] at h
      obtain ⟨s', hstep, hk⟩ := Option.bind_eq_some_iff.mp h
      have hok := (readStep_spec hs hstep).1
      rcases taken_step hs hstep with ⟨group, htaken⟩ | ⟨halone, hnil⟩
      · left
        split at hk
        · next hend =>
          obtain rfl := Option.some.inj hk
          have hbytes := htaken.bytes
          have hwhole := htaken.whole [] hend.symm
          rw [hend, List.append_nil] at hbytes
          rw [List.append_nil] at hwhole
          exact ⟨group, htaken.steps, hbytes, hwhole⟩
        · next hmore =>
          have hturn : readLoop.body s = .ok (.again s') := by
            show readTurn s = _
            rw [readTurn, hstep]
            exact if_neg hmore
          rcases ih s' hturn hok hk with ⟨more, hgrouped⟩ | halone
          · refine ⟨group ++ more, htaken.steps.append hgrouped.steps, ?_, ?_⟩
            · rw [htaken.bytes, hgrouped.bytes, groupBytes_append]
            · exact (htaken.whole more hgrouped.bytes.symm).trans hgrouped.unwrapped
          · have hgroup : group = [] := by
              by_contra hne
              exact steps_ne_header htaken.steps hne halone.header
            have hsteps := htaken.steps
            rw [hgroup] at hsteps
            have hheader := (Steps.eq_of_nil hsteps).symm.trans halone.header
            exact absurd hgroup (htaken.begun (by rw [hheader]; rfl))
      · rw [if_pos hnil] at hk
        obtain rfl := Option.some.inj hk
        exact .inr halone
  exact hrun (p, x) hp h

/-! ## Bufs into groups -/

/-- The bufs are groups of atoms, one each, and no length in them wraps. -/
structure CutInto (bufs : List Buf) (groups : List (List Atom)) : Prop where
  nonempty : ∀ group ∈ groups, group ≠ []
  bytes : bufs.map Buf.rest = groups.map groupBytes
  unwrapped : groups.any wraps = false

theorem CutInto.cons {b : Buf} {groups : List (List Atom)} {group : List Atom}
    (hb : b.rest ≠ []) (hgroup : Grouped p b.rest group q) (h : CutInto bufs groups) :
    CutInto (b :: bufs) (group :: groups) := by
  refine ⟨fun g hg => ?_, ?_, ?_⟩
  · rcases List.mem_cons.mp hg with rfl | hg
    · rintro rfl
      exact hb hgroup.bytes
    · exact h.nonempty g hg
  · rw [List.map_cons, List.map_cons, hgroup.bytes, h.bytes]
  · rw [List.any_cons, hgroup.unwrapped, h.unwrapped]
    rfl

theorem Alone.isDone (h : Alone p x q) : q.isDone = true := by
  obtain ⟨hd, -, -, rfl, -⟩ := h.done
  rfl

/-- What is read of a chain comes apart into atoms. -/
theorem grouped_bufs (hp : p.Ok) (hmem : ∀ b ∈ bufs, b.inMemory = true ∧ b.rest ≠ [])
    (h : readBufs p bufs = some (q, rest)) :
    (∃ front groups, bufs = front ++ rest ∧ CutInto front groups ∧
      Steps Reads p groups.flatten q) ∨
    ∃ b, bufs = b :: rest ∧ Alone p b.rest q := by
  induction bufs generalizing p with
  | nil =>
    rw [readBufs_nil] at h
    cases h
    exact .inl ⟨[], [], rfl, ⟨by simp, rfl, rfl⟩, .nil q⟩
  | cons b bufs ih =>
    cases hpd : p.isDone with
    | true =>
      rw [readBufs_of_done hpd] at h
      cases h
      exact .inl ⟨[], [], rfl, ⟨by simp, rfl, rfl⟩, .nil q⟩
    | false =>
      obtain ⟨hb, hne⟩ := hmem b (by simp)
      rw [readBufs_memory hpd hb] at h
      obtain ⟨r, hr, hk⟩ := Option.bind_eq_some_iff.mp h
      rcases grouped_buf hp hr with ⟨group, hgroup⟩ | halone
      · have hmem' : ∀ b' ∈ bufs, b'.inMemory = true ∧ b'.rest ≠ [] :=
          fun b' hb' => hmem b' (by simp [hb'])
        rcases ih (readBuf_spec hp hr).1 hmem' hk with ⟨front, groups, rfl, hcut, hs⟩ | ⟨b', rfl, ha⟩
        · refine .inl ⟨b :: front, group :: groups, rfl, hcut.cons hne hgroup, ?_⟩
          rw [List.flatten_cons]
          exact hgroup.steps.append hs
        · -- another header cannot follow a buf with something in it
          have hgroup' : group ≠ [] := by
            rintro rfl
            exact hne hgroup.bytes
          exact absurd ha.header (steps_ne_header hgroup.steps hgroup')
      · rw [readBufs_of_done halone.isDone] at hk
        cases hk
        exact .inr ⟨b, rfl, halone⟩

/-! ## Atoms are told apart -/

theorem leBytes_append {m n : Nat} {y y' : Bytes} (hm : m < 256 ^ 4) (hn : n < 256 ^ 4)
    (h : leBytes 4 m ++ y = leBytes 4 n ++ y') : m = n ∧ y = y' := by
  have htake := congrArg (takeLE 4) h
  rw [takeLE_append 4 m y hm, takeLE_append 4 n y' hn] at htake
  exact Prod.mk.inj (Option.some.inj htake)

/-- The length that the atom of a field begins with, and what it brings of the value. -/
def Atom.field : Atom → Option (Nat × Bytes)
  | .null => some (nullLength, [])
  | .empty => some (0, [])
  | .start total c => some (total, [c])
  | _ => none

theorem Reads.field {a : Atom} (h : Reads (.fields t flag fs) a q) :
    ∃ total v, Atom.field a = some (total, v) ∧ a.bytes = leBytes 4 total ++ v ∧ total < 256 ^ 4 ∧
      v.length = if 0 < total ∧ total < nullLength then 1 else 0 := by
  cases h with
  | null => exact ⟨_, _, rfl, by simp [Atom.bytes], by decide, by decide⟩
  | empty => exact ⟨_, _, rfl, by simp [Atom.bytes], by decide, by decide⟩
  | start _ _ _ col total c hcol hpos hlt hacc =>
    exact ⟨_, _, rfl, rfl, by unfold nullLength at hlt; omega, by simp [hpos, hlt]⟩

theorem Atom.field_inj {a a' : Atom} (hsome : Atom.field a ≠ none)
    (h : Atom.field a = Atom.field a') : a = a' := by
  cases a with
  | null | empty | start => cases a' <;> simp_all [Atom.field, nullLength]
  | header | col | flag | byte | stop => exact absurd rfl hsome

theorem Reads.det {a : Atom} {q' : Progress} (h : Reads p a q) (h' : Reads p a q') : q = q' := by
  cases h <;> cases h' <;> rfl

/-- At every point the next atom can be told from the bytes. -/
theorem reads_decodable : Decodable Reads Atom.bytes := by
  intro p a a' q q' x x' h h' heq
  suffices hatom : a = a' ∧ x = x' by
    obtain ⟨rfl, rfl⟩ := hatom
    exact ⟨rfl, Reads.det h h', rfl⟩
  cases p with
  | header =>
    obtain ⟨hd, hfits, -⟩ := h
    obtain ⟨hd', hfits', -⟩ := h'
    obtain ⟨rfl, hx⟩ := delimits_header _ _ _ _ hfits hfits' heq
    exact ⟨rfl, hx⟩
  | cols hd cs =>
    cases h with
    | col _ _ c hfits =>
    cases h' with
    | col _ _ c' hfits' =>
    obtain ⟨rfl, hx⟩ := delimits_col _ _ _ _ hfits hfits' heq
    exact ⟨rfl, hx⟩
  | rows t =>
    cases h with
    | flag _ f hf =>
      cases h' with
      | flag _ f' hf' => simpa [Atom.bytes] using heq
      | stop => exact absurd (List.cons.inj heq).1 hf
    | stop =>
      cases h' with
      | flag _ f' hf' => exact absurd (List.cons.inj heq).1.symm hf'
      | stop => exact ⟨rfl, (List.cons.inj heq).2⟩
  | fields t flag fs =>
    obtain ⟨total, v, hfield, hbytes, htotal, hlen⟩ := Reads.field h
    obtain ⟨total', v', hfield', hbytes', htotal', hlen'⟩ := Reads.field h'
    rw [hbytes, hbytes', List.append_assoc, List.append_assoc] at heq
    obtain ⟨rfl, hrest⟩ := leBytes_append htotal htotal' heq
    obtain ⟨rfl, hx⟩ := List.append_inj hrest (hlen.trans hlen'.symm)
    refine ⟨Atom.field_inj ?_ (hfield.trans hfield'.symm), hx⟩
    rw [hfield]
    exact Option.some_ne_none _
  | value t flag fs got missing =>
    cases h with
    | byte _ _ _ _ _ _ c =>
    cases h' with
    | byte _ _ _ _ _ _ c' => simpa [Atom.bytes] using heq
  | done t => exact absurd h (reads_stuck t a q)

/-- Two streams in atoms with the same bytes are the same. -/
theorem atoms_of_steps {word : List Atom} {t t' : Table} (hok : t.Ok) (hcols : t.cols ≠ [])
    (h : Steps Reads .header word (.done t')) (hbytes : groupBytes word = t.encode) :
    word = atoms t := by
  have heq : word.flatMap Atom.bytes ++ [] = (atoms t).flatMap Atom.bytes ++ [] :=
    congrArg (· ++ []) (hbytes.trans (atoms_bytes hcols).symm)
  rcases Steps.comparable reads_decodable h (steps_atoms hok hcols) heq with
    ⟨rest, hword, hrest⟩ | ⟨rest, hword, hrest⟩
  · rw [hword, (hrest.stuck (reads_stuck t')).1, List.append_nil]
  · rw [hword, (hrest.stuck (reads_stuck t)).1, List.append_nil]

/-! ## What is accepted -/

/-- An atom in a buf of its own is read. -/
theorem Reads.readBuf {a : Atom} (h : Reads p a q) : readBuf p a.bytes = some q := by
  have hcont := h.continues (x := []) (fun _ => rfl) (by cases a <;> rfl)
  rw [List.append_nil, Continues, if_pos rfl] at hcont
  exact hcont

theorem steps_spec {word : List Atom} (hp : p.Ok) (h : Steps Reads p word q) :
    q.Ok ∧ p.bytes ++ groupBytes word = q.bytes := by
  induction h with
  | nil p => exact ⟨hp, List.append_nil _⟩
  | cons h hs ih =>
    obtain ⟨hok, hbytes⟩ := readBuf_spec hp (Reads.readBuf h)
    obtain ⟨hq, hrest⟩ := ih hok
    exact ⟨hq, by rw [groupBytes_cons, ← List.append_assoc, hbytes, hrest]⟩

/-- The atoms are those of a set with columns. -/
theorem cols_of_steps {word : List Atom} (h : Steps Reads .header word (.done t)) :
    t.cols ≠ [] := by
  intro hcols
  obtain ⟨hok, hbytes⟩ := steps_spec (p := .header) trivial h
  cases h with
  | @cons _ _ _ a word h hs =>
    obtain ⟨hd, hfits, hcount⟩ := h
    have hencode : encodeHeader hd ++ groupBytes word = encodeHeader t.header ++ [] := by
      simpa [Progress.bytes, Table.encode, hcols, Atom.bytes] using hbytes
    obtain ⟨rfl, -⟩ := delimits_header _ _ _ _ hfits hok.headerFits hencode
    have hlen := hok.colCount
    rw [hcols] at hlen
    exact hcount (UInt16.toNat_inj.mp hlen.symm)

/-- The bufs bring the stream: cut between its atoms, and so that no length wraps;
a header without columns in one piece. -/
inductive Carries (s : Stream) (bufs : List Buf) : Prop
  | cut (groups : List (List Atom)) (hcols : s.cols ≠ []) (hatoms : groups.flatten = atoms s.toTable)
      (hcut : CutInto bufs groups)
  | header (b : Buf) (hcols : s.cols = []) (hbuf : bufs = [b]) (hbytes : b.rest = s.encode)

theorem Carries.readBufs {s : Stream} {front behind : List Buf} (h : Carries s front)
    (hmem : ∀ b ∈ front, b.inMemory = true) :
    readBufs .header (front ++ behind) = some (.done s.toTable, behind) := by
  rw [readBufs_append behind hmem]
  cases h with
  | cut groups hcols hatoms hcut =>
    have hsteps := steps_atoms s.ok hcols
    rw [← hatoms] at hsteps
    rw [readBufs_groups hsteps hcut.nonempty hmem hcut.bytes, hcut.unwrapped]
    rfl
  | header b hcols hbuf hbytes =>
    subst hbuf
    have hread : readBuf .header b.rest = some (.done s.toTable) := by
      rw [hbytes, readBuf_eq]
      have hcount : s.header.colCount = 0 := by
        have hlen := s.ok.colCount
        rw [hcols] at hlen
        exact UInt16.toNat_inj.mp hlen.symm
      have htable : (⟨s.header, [], []⟩ : Table) = s.toTable := by
        rw [← s.ok.noRows hcols, ← hcols]
      have hdec := decodeHeader_encode s.header s.ok.headerFits []
      simp only [Table.encode, hcols, if_true, readStep, hdec, Option.bind_eq_bind,
        Option.bind_some, hcount, htable]
    rw [readBufs_memory rfl (hmem b (by simp)), hread, Option.bind_some, readBufs_nil]
    rfl

/-- Exactly what brings a stream is read to the end of one. -/
theorem readCalls_done_iff {calls : List (List Buf)}
    (hmem : ∀ b ∈ calls.flatten, b.inMemory = true ∧ b.rest ≠ []) :
    readCalls .header calls = some (.done t) ↔ ∃ (s : Stream) (front behind : List Buf),
      s.toTable = t ∧ calls.flatten = front ++ behind ∧ Carries s front := by
  rw [readCalls_memory fun b hb => (hmem b hb).1]
  constructor
  · intro hread
    obtain ⟨⟨p, rest⟩, hread, hp⟩ := Option.map_eq_some_iff.mp hread
    obtain rfl : p = .done t := hp
    obtain ⟨hok, -, -⟩ := readBufs_spec (p := .header) trivial hread
    have hgroups := grouped_bufs (p := .header) trivial hmem hread
    rcases hgroups with ⟨front, groups, hsplit, hcut, hs⟩ | ⟨b, hsplit, ha⟩
    · have hbytes := (steps_spec (p := .header) trivial hs).2
      have hcols := cols_of_steps hs
      exact ⟨⟨t, hok⟩, front, rest, rfl, hsplit,
        .cut groups hcols (atoms_of_steps hok hcols hs hbytes) hcut⟩
    · obtain ⟨hd, -, -, hdone, hbytes⟩ := ha.done
      obtain rfl := Progress.done.inj hdone
      exact ⟨⟨_, hok⟩, [b], rest, rfl, hsplit, .header b rfl rfl (by simp [hbytes, Table.encode])⟩
  · rintro ⟨s, front, behind, rfl, hsplit, hcarries⟩
    rw [hsplit] at hmem ⊢
    rw [hcarries.readBufs fun b hb => (hmem b (by simp [hb])).1]
    rfl

/-! ## No dead ends -/

/-- Some atoms lead from here to the end of a stream. -/
def Completable (p : Progress) : Prop := ∃ word t, Steps Reads p word (.done t)

theorem Completable.behind {word : List Atom} (hs : Steps Reads p word q) (h : Completable q) :
    Completable p := by
  obtain ⟨word', t, ht⟩ := h
  exact ⟨word ++ word', t, hs.append ht⟩

theorem completable_rows (t : Table) : Completable (.rows t) := ⟨[.stop], t, .single (.stop t)⟩

/-- The row may be filled up with NULL. -/
theorem completable_endField (t : Table) (flag : UInt8) (fs : List Field) (f : Field) :
    Completable (Reader.endField t flag fs f) := by
  induction hn : t.cols.length - fs.length generalizing fs f with
  | zero =>
    rw [Reader.endField, if_pos (by rw [List.length_append, List.length_singleton]; omega)]
    exact completable_rows _
  | succ n ih =>
    unfold Reader.endField
    split
    · exact completable_rows _
    · refine .behind (.single (.null t flag (fs ++ [f]))) (ih (fs ++ [f]) none ?_)
      rw [List.length_append, List.length_singleton]
      omega

/-- The value may be filled up with zeros. -/
theorem completable_value {got : Bytes} {missing : Nat} (h : ValueOpen t flag fs got missing) :
    Completable (.value t flag fs got missing) := by
  obtain ⟨col, hcol, hacc⟩ := h.accepted
  have hmissing := h.unfinished.ne'
  have hzeros : accepts col (got ++ List.replicate missing 48) 0 = true := by
    refine (accepts_append h.begun (rough_ne_bool_of_accepts h.begun hacc hmissing)).mpr
      ⟨hacc, fun _ => List.all_eq_true.mpr fun c hc => ?_⟩
    rw [List.eq_of_mem_replicate hc]
    rfl
  have hsteps := steps_piece flag h.begun hcol hzeros
  rw [List.length_replicate, Nat.add_zero, behindPiece, if_neg hmissing, behindPiece,
    if_pos rfl] at hsteps
  exact .behind hsteps (completable_endField t flag fs _)

theorem completable_cols {hd : Header} {cs : List Column} (hlt : cs.length < hd.colCount.toNat) :
    Completable (.cols hd cs) := by
  have hspecs : Steps Reads (.cols hd cs)
      ((List.replicate (hd.colCount.toNat - cs.length) ⟨0x8000, 0, lit "a"⟩).map .col)
      (.rows ⟨hd, cs ++ List.replicate (hd.colCount.toNat - cs.length) ⟨0x8000, 0, lit "a"⟩, []⟩) :=
    steps_cols (by simp; omega) (by simp; omega) fun c hc => by
      rw [List.eq_of_mem_replicate hc]
      exact ⟨by simp [lit], by decide⟩
  exact .behind hspecs (completable_rows _)

/-- What was read is always the beginning of a stream. -/
theorem completable (hp : p.Ok) (hdone : p.isDone = false) : Completable p := by
  cases p with
  | header =>
    have hheader := Reads.header ⟨0, 0, [], 0, 0, 1⟩ (by simp [Header.Fits]) (by simp)
    exact .behind (.single hheader) (completable_cols (by simp))
  | cols hd cs => exact completable_cols hp.2.1
  | rows t => exact completable_rows t
  | fields t flag fs =>
    exact .behind (.single (.null t flag fs)) (completable_endField t flag fs none)
  | value t flag fs got missing => exact completable_value hp
  | done t => cases hdone

/-- Every atom in a buf of its own. -/
def apart (word : List Atom) : List Buf := word.map fun a => Buf.memory a.bytes

theorem readBufs_apart {word : List Atom} (h : Steps Reads p word q) :
    readBufs p (apart word) = some (q, []) := by
  induction h with
  | nil p => exact readBufs_nil p
  | @cons p r q a word h hs ih =>
    rw [apart, List.map_cons, readBufs_memory (Reads.notDone h) (Buf.memory_inMemory _)]
    have hrest : (Buf.memory a.bytes).rest = a.bytes := Buf.memory_rest _
    rw [hrest, Reads.readBuf h, Option.bind_some]
    exact ih

/-- What was read without error can be gone on with to the end of a stream. -/
theorem readCalls_completable {calls : List (List Buf)} (h : readCalls .header calls = some p) :
    ∃ more t, readCalls .header (calls ++ [more]) = some (.done t) := by
  cases hp : p.isDone with
  | true =>
    obtain ⟨t, rfl⟩ : ∃ t, p = .done t := by
      cases p with
      | done t => exact ⟨t, rfl⟩
      | header | cols | rows | fields | value => cases hp
    exact ⟨[], t, by rw [readCalls_snoc, h, Option.bind_some, readBufs_nil, Option.map_some]⟩
  | false =>
    obtain ⟨word, t, hs⟩ := completable (readCalls_ok (p := .header) trivial h) hp
    refine ⟨apart word, t, ?_⟩
    rw [readCalls_snoc, h, Option.bind_some, readBufs_apart hs, Option.map_some]

/-! ## Runs -/

variable {env : Env} {w w₀ : World} {calls : List (List Buf)} {rets : List Return}

/-- All calls succeed, and the last of them is behind the end of a stream. -/
def Completed (rets : List Return) (w : World) : Prop :=
  (∀ ret ∈ rets, failed ret.rc = false) ∧ w.ctx.state = .done

theorem Served.completed_iff (h : Served env w₀) (hrun : runCalls env w₀ calls = .ok (rets, w)) :
    Completed rets w ↔ ∃ t, readCalls .header calls = some (.done t) := by
  constructor
  · rintro ⟨hok, hdone⟩
    exact h.reads hrun hok hdone
  · rintro ⟨t, hread⟩
    obtain ⟨rets', w', hrun', hout⟩ := Independence.Served.outcome h calls
    cases hrun'.symm.trans hrun
    rw [hread] at hout
    exact ⟨hout.1, hout.2.1⟩

/-- The calls succeed up to the end of a stream if and only if their bufs bring one:
the bufs of a stream with columns are groups of its atoms, and no length wraps. What
goes out is then the text of that stream. -/
theorem completed_iff_carries (h : Served env w₀)
    (hmem : ∀ b ∈ calls.flatten, b.inMemory = true ∧ b.rest ≠ []) :
    ∃ rets w, runCalls env w₀ calls = .ok (rets, w) ∧
      (Completed rets w ↔ ∃ (s : Stream) (front behind : List Buf),
        calls.flatten = front ++ behind ∧ Carries s front) ∧
      ∀ (s : Stream) (front behind : List Buf), calls.flatten = front ++ behind → Carries s front →
        sent w.trace = render w₀.r.conf env.complexValue s.toTable := by
  obtain ⟨rets, w, hrun, hout⟩ := Independence.Served.outcome h calls
  refine ⟨rets, w, hrun, ?_, fun s front behind hsplit hcarries => ?_⟩
  · rw [Served.completed_iff h hrun]
    constructor
    · rintro ⟨t, hread⟩
      obtain ⟨s, front, behind, -, hsplit, hcarries⟩ := (readCalls_done_iff hmem).mp hread
      exact ⟨s, front, behind, hsplit, hcarries⟩
    · rintro ⟨s, front, behind, hsplit, hcarries⟩
      exact ⟨s.toTable, (readCalls_done_iff hmem).mpr ⟨s, front, behind, rfl, hsplit, hcarries⟩⟩
  · rw [(readCalls_done_iff hmem).mpr ⟨s, front, behind, rfl, hsplit, hcarries⟩] at hout
    exact hout.2.2

/-- A stream in two bufs, the second of them in a call of its own. -/
theorem completed_iff_carries_two : ∃ rets w,
    runCalls calm (postpone calm (plainConf 4096) true) Independence.inTwo = .ok (rets, w) ∧
      Completed rets w ∧ sent w.trace =
        render (plainConf 4096) calm.complexValue (oneColumn [some (lit "b")]) := by
  have hok : (oneColumn [some (lit "b")]).Ok := oneColumn_ok (by simp [lit, nullLength])
  have hcarries : Carries ⟨oneColumn [some (lit "b")], hok⟩ Independence.inTwo.flatten :=
    .cut [(atoms (oneColumn [some (lit "b")])).take 3, (atoms (oneColumn [some (lit "b")])).drop 3]
      (by simp [oneColumn]) rfl ⟨by decide, by decide, by decide⟩
  obtain ⟨rets, w, hrun, hiff, hsent⟩ :=
    @completed_iff_carries calm _ Independence.inTwo (served_calm true) (by decide)
  have hsplit : Independence.inTwo.flatten = Independence.inTwo.flatten ++ [] :=
    (List.append_nil _).symm
  exact ⟨rets, w, hrun, hiff.mpr ⟨_, _, [], hsplit, hcarries⟩, hsent _ _ [] hsplit hcarries⟩

/-- A call fails as soon as the stream can no longer be gone on with: as long as all
succeed, there are bufs that bring the run to the end of a stream. -/
theorem succeeds_iff_completable (h : Served env w₀) (calls : List (List Buf)) :
    ∃ rets w, runCalls env w₀ calls = .ok (rets, w) ∧
      ((∀ ret ∈ rets, failed ret.rc = false) ↔ ∃ more rets' w',
        runCalls env w₀ (calls ++ more) = .ok (rets', w') ∧ Completed rets' w') := by
  obtain ⟨rets, w, hrun, hout⟩ := Independence.Served.outcome h calls
  refine ⟨rets, w, hrun, ?_⟩
  cases hread : readCalls .header calls with
  | none =>
    rw [hread] at hout
    obtain ⟨ret, hret, hfail⟩ := hout
    refine iff_of_false (fun hok => Bool.false_ne_true ((hok ret hret).symm.trans hfail)) ?_
    rintro ⟨more, rets', w', hrun', hdone⟩
    obtain ⟨t, ht⟩ := (Served.completed_iff h hrun').mp hdone
    rw [readCalls_append, hread] at ht
    cases ht
  | some p =>
    rw [hread] at hout
    obtain ⟨more, t, hmore⟩ := readCalls_completable hread
    obtain ⟨rets', w', hrun', -⟩ := Independence.Served.outcome h (calls ++ [more])
    exact iff_of_true hout.1
      ⟨[more], rets', w', hrun', (Served.completed_iff h hrun').mpr ⟨t, hmore⟩⟩

/-- A row that has only begun. -/
theorem succeeds_iff_completable_row : ∃ more rets w,
    runCalls calm (postpone calm (plainConf 4096) true)
        ([[Buf.memory ((oneColumn [some (lit "b")]).encode.take 38)]] ++ more) = .ok (rets, w) ∧
      Completed rets w := by
  obtain ⟨x, hrun, hok⟩ : ∃ x, runCalls calm (postpone calm (plainConf 4096) true)
      [[Buf.memory ((oneColumn [some (lit "b")]).encode.take 38)]] = .ok x ∧
      ∀ ret ∈ x.1, failed ret.rc = false := ⟨_, rfl, by simp⟩
  obtain ⟨rets, w, hrun', hiff⟩ := succeeds_iff_completable (served_calm true)
    [[Buf.memory ((oneColumn [some (lit "b")]).encode.take 38)]]
  cases hrun'.symm.trans hrun
  exact hiff.mp hok

end RdsJson.Language
