import RdsJson.Simulation

/-! # Where the RDS header is looked for

Which buf of a chain is read for the header, told from the chain alone, and what
becomes of it. -/
namespace RdsJson.HeaderBuf
open RdsJson.Lib.LittleEndian RdsJson.Nginx RdsJson.Rds RdsJson.Processor RdsJson.Format
open RdsJson.Reader RdsJson.Simulation

variable {chain : List Buf}

/-- The buf of a chain that the RDS header is read from: its first one, or the
one behind it if the first is special. -/
def headerBuf : List Buf → Option Buf
  | [] => none
  | b :: next => if b.inMemory || !b.special then some b else next.head?

/-- A header stands at the front of the buf, and nothing behind it if it has no
columns. -/
def HoldsHeader (b : Buf) : Prop :=
  ∃ h t, Header.Fits h ∧ b.rest = encodeHeader h ++ t ∧ (h.colCount = 0 → t = [])

theorem holdsHeader_iff (b : Buf) : HoldsHeader b ↔ readStep .header b.rest ≠ none := by
  constructor
  · rintro ⟨h, t, hfits, hb, hend⟩
    have hdec := decodeHeader_encode h hfits t
    rw [← hb] at hdec
    by_cases hzero : h.colCount = 0
    · simp [readStep, hdec, hzero, hend hzero]
    · simp [readStep, hdec, hzero]
  · intro hstep
    obtain ⟨s, hs⟩ := Option.ne_none_iff_exists'.mp hstep
    obtain ⟨⟨h, t⟩, hdec, hk⟩ := Option.bind_eq_some_iff.mp hs
    obtain ⟨hfits, hb⟩ := decodeHeader_some hdec
    refine ⟨h, t, hfits, hb, fun hzero => ?_⟩
    by_contra ht
    simp [hzero, ht] at hk

theorem headerBuf_of_openBuf (chain : List Buf) :
    match openBuf ⟨[], chain⟩ with
    | .stop _ => headerBuf chain = none
    | .notInMemory => ∃ b, headerBuf chain = some b ∧ b.rest = []
    | .buf _ b _ => headerBuf chain = some b := by
  unfold openBuf headerBuf
  dsimp only
  cases chain with
  | nil => rfl
  | cons b next =>
    dsimp only
    cases hmem : b.inMemory with
    | true => simp
    | false =>
      cases hsp : b.special with
      | false => simpa using b.noData hmem
      | true => cases next <;> simp

theorem Refuses.headerBuf (h : Refuses .header ⟨[], chain⟩) :
    ∃ b, headerBuf chain = some b ∧ ¬ HoldsHeader b := by
  have hbuf := headerBuf_of_openBuf chain
  unfold Refuses at h
  split at h
  · exact h.elim
  · next ho =>
    rw [ho] at hbuf
    obtain ⟨b, hb, hrest⟩ := hbuf
    refine ⟨b, hb, fun hholds => (holdsHeader_iff b).mp hholds ?_⟩
    rw [hrest]
    simp [readStep, decodeHeader, takeLE]
  · next passed b next ho =>
    rw [ho] at hbuf
    exact ⟨b, hbuf, fun hholds => (holdsHeader_iff b).mp hholds h⟩

theorem Accepts.headerBuf (h : Accepts .header ⟨[], chain⟩) :
    ∃ b, headerBuf chain = some b ∧ HoldsHeader b := by
  have hbuf := headerBuf_of_openBuf chain
  unfold Accepts at h
  split at h
  · exact h.elim
  · exact h.elim
  · next passed b next ho =>
    rw [ho] at hbuf
    exact ⟨b, hbuf, (holdsHeader_iff b).mpr h⟩

theorem OpensCols.headerBuf (h : OpensCols .header ⟨[], chain⟩) :
    ∃ b h x, headerBuf chain = some b ∧ b.rest = encodeHeader h ++ x ∧ h.colCount ≠ 0 := by
  have hbuf := headerBuf_of_openBuf chain
  unfold OpensCols at h
  split at h
  · exact h.elim
  · exact h.elim
  · next passed b next ho =>
    rw [ho] at hbuf
    obtain ⟨hd, x, hstep⟩ := h
    obtain ⟨⟨hd', x'⟩, hdec, hk⟩ := Option.bind_eq_some_iff.mp hstep
    obtain ⟨-, hrest⟩ := decodeHeader_some hdec
    dsimp only at hk
    split at hk
    · split at hk <;> simp at hk
    · next hcols => exact ⟨b, hd', x', hbuf, hrest, hcols⟩

theorem headerBuf_of_waits (h : readBufs .header chain = some (.header, [])) :
    headerBuf chain = none := by
  have hopen := openBuf_spec ⟨[], chain⟩ (p := .header) rfl rfl
  have hbuf := headerBuf_of_openBuf chain
  cases ho : openBuf ⟨[], chain⟩ with
  | stop c => rwa [ho] at hbuf
  | notInMemory =>
    rw [ho] at hopen
    exact absurd (hopen.symm.trans h) nofun
  | buf passed b next =>
    rw [ho] at hopen
    obtain ⟨q, hq, hk⟩ := Option.bind_eq_some_iff.mp (hopen.reads.symm.trans h)
    obtain ⟨hok, hbytes⟩ := readBuf_spec (p := .header) trivial hq
    obtain ⟨-, -, front, -, hfront⟩ := readBufs_spec hok hk
    have hempty : b.rest = [] := by
      rw [← hbytes] at hfront
      have := congrArg List.length hfront
      simp only [Progress.bytes, List.nil_append, List.length_nil, List.length_append] at this
      exact List.length_eq_zero_iff.mp (by omega)
    rw [hempty, readBuf_eq_none (by simp [readStep, decodeHeader, takeLE])] at hq
    cases hq

theorem headerBuf_of_reads {q : Progress} {rest : List Buf}
    (h : readBufs .header chain = some (q, rest)) (hq : q ≠ .header) :
    ∃ b, headerBuf chain = some b ∧ HoldsHeader b := by
  have hopen := openBuf_spec ⟨[], chain⟩ (p := .header) rfl rfl
  have hbuf := headerBuf_of_openBuf chain
  cases ho : openBuf ⟨[], chain⟩ with
  | stop c =>
    rw [ho] at hopen
    obtain ⟨rfl, -⟩ := Prod.mk.inj (Option.some.inj (hopen.1.symm.trans h))
    exact absurd rfl hq
  | notInMemory =>
    rw [ho] at hopen
    exact absurd (hopen.symm.trans h) nofun
  | buf passed b next =>
    rw [ho] at hopen hbuf
    obtain ⟨q', hq', -⟩ := Option.bind_eq_some_iff.mp (hopen.reads.symm.trans h)
    refine ⟨b, hbuf, (holdsHeader_iff b).mpr fun hnone => ?_⟩
    rw [readBuf_eq_none hnone] at hq'
    cases hq'

end RdsJson.HeaderBuf
