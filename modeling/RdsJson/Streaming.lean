import RdsJson.Cuts
import RdsJson.Runs

/-! # Streams that come in pieces

A stream that is cut between its atoms is answered as if it came in one buf,
unless the count of the bytes behind a value's length wraps. -/
namespace RdsJson.Streaming
open RdsJson.Lib.LittleEndian RdsJson.Lib.Labelled RdsJson.Nginx RdsJson.Context RdsJson.Processor
open RdsJson.FilterModule RdsJson.Format RdsJson.ResultSet RdsJson.Reader RdsJson.Cuts
open RdsJson.Render RdsJson.WriteLayer RdsJson.Generators RdsJson.Runs

variable {env : Env} {w₀ : World} {calls : List (List Buf)} {groups : List (List Atom)}

/-- The bufs of the calls, all in memory and none empty, are the groups that the
atoms of the stream were put into. -/
structure Cut (t : Table) (groups : List (List Atom)) (calls : List (List Buf)) : Prop where
  atoms : groups.flatten = atoms t
  nonempty : ∀ group ∈ groups, group ≠ []
  memory : ∀ b ∈ calls.flatten, b.inMemory = true
  bytes : calls.flatten.map Buf.rest = groups.map groupBytes

/-- The cut into one buf. -/
theorem cut_whole {t : Table} (hcols : t.cols ≠ []) :
    Cut t [Cuts.atoms t] [[Buf.memory t.encode]] := by
  refine ⟨by simp, ?_, by simp, by simp [atoms_bytes hcols]⟩
  simp [Cuts.atoms]

/-- A cut stream is read to its end, unless a length wraps. -/
theorem Cut.reads {t : Table} (h : Cut t groups calls) (hok : t.Ok) (hcols : t.cols ≠ []) :
    readCalls .header calls = if groups.any wraps then none else some (.done t) := by
  have hsteps := steps_atoms hok hcols
  rw [← h.atoms] at hsteps
  rw [readCalls_memory h.memory, readBufs_groups hsteps h.nonempty h.memory h.bytes]
  split <;> rfl

/-- All calls succeed and the text is that of the stream in one buf if and only if
neither in the bufs nor in the one buf a value's length is followed by a multiple
of `2 ^ 32` bytes. -/
theorem streaming_iff (hs : Served env w₀) (s : Stream) (hcols : s.cols ≠ [])
    (hcut : Cut s.toTable groups calls) :
    ∃ rets w rets₁ w₁, runCalls env w₀ calls = .ok (rets, w) ∧
      runCalls env w₀ [[Buf.memory s.encode]] = .ok (rets₁, w₁) ∧
      (((∀ ret ∈ rets, failed ret.rc = false) ∧ delivered w.trace = delivered w₁.trace) ↔
        groups.any wraps = false ∧ wraps (Cuts.atoms s.toTable) = false) := by
  have hread := hcut.reads s.ok hcols
  have hwhole := (cut_whole hcols).reads s.ok hcols
  rw [List.any_cons, List.any_nil, Bool.or_false] at hwhole
  cases hw : groups.any wraps with
  | true =>
    rw [hw, if_pos rfl] at hread
    obtain ⟨rets, w, hrun, ret, hret, hfail⟩ := hs.breaks hread
    obtain ⟨rets₁, w₁, hrun₁, -⟩ := hs.course [[Buf.memory s.encode]]
    refine ⟨rets, w, rets₁, w₁, hrun, hrun₁, fun h => ?_,
      fun h => absurd h.1.symm Bool.false_ne_true⟩
    exact absurd ((h.1 ret hret).symm.trans hfail) Bool.false_ne_true
  | false =>
    rw [hw, if_neg Bool.false_ne_true] at hread
    obtain ⟨rets, w, hrun, hok, hsent⟩ := hs.completes hread
    cases hw₁ : wraps (Cuts.atoms s.toTable) with
    | true =>
      rw [hw₁, if_pos rfl] at hwhole
      have hnone : readBufs .header [Buf.memory s.encode] = none := by
        cases hr : readBufs .header [Buf.memory s.encode] with
        | none => rfl
        | some x => simp [readCalls, hr] at hwhole
      obtain ⟨rets₁, w₁, hrun₁, hsent₁⟩ := hs.breaks_at_once hnone
      refine ⟨rets, w, rets₁, w₁, hrun, hrun₁, fun h => ?_,
        fun h => absurd h.2.symm Bool.false_ne_true⟩
      exact absurd (hsent.symm.trans (h.2.trans hsent₁)) (render_ne_nil _ _ _)
    | false =>
      rw [hw₁, if_neg Bool.false_ne_true] at hwhole
      obtain ⟨rets₁, w₁, hrun₁, -, hsent₁⟩ := hs.completes hwhole
      exact ⟨rets, w, rets₁, w₁, hrun, hrun₁, fun _ => ⟨rfl, rfl⟩,
        fun _ => ⟨hok, hsent.trans hsent₁.symm⟩⟩

/-- A row with one value, cut behind the first byte of it. -/
theorem streaming_iff_two_bufs : ∃ rets w rets₁ w₁,
    runCalls calm (postpone calm (plainConf 4096) true)
      [[Buf.memory ((oneColumn [some (lit "ab")]).encode.take 43)],
        [Buf.memory ((oneColumn [some (lit "ab")]).encode.drop 43)]] = .ok (rets, w) ∧
      runCalls calm (postpone calm (plainConf 4096) true)
        [[Buf.memory (oneColumn [some (lit "ab")]).encode]] = .ok (rets₁, w₁) ∧
      (∀ ret ∈ rets, failed ret.rc = false) ∧ delivered w.trace = delivered w₁.trace := by
  have hok : (oneColumn [some (lit "ab")]).Ok := oneColumn_ok (by simp [lit, nullLength])
  have hcut : Cut (oneColumn [some (lit "ab")])
      [(Cuts.atoms (oneColumn [some (lit "ab")])).take 4,
        (Cuts.atoms (oneColumn [some (lit "ab")])).drop 4]
      [[Buf.memory ((oneColumn [some (lit "ab")]).encode.take 43)],
        [Buf.memory ((oneColumn [some (lit "ab")]).encode.drop 43)]] :=
    ⟨rfl, by decide, by decide, by decide⟩
  have hwraps : wraps (Cuts.atoms (oneColumn [some (lit "ab")])) = false := by decide
  obtain ⟨rets, w, rets₁, w₁, hrun, hrun₁, hiff⟩ :=
    streaming_iff (served_calm true) ⟨_, hok⟩ (by simp [oneColumn]) hcut
  exact ⟨rets, w, rets₁, w₁, hrun, hrun₁, hiff.mpr ⟨by decide, hwraps⟩⟩

/-- Two rows, of a value and of NULL, such that `2 ^ 32` bytes follow the length of
the value. -/
def longTable (value : Bytes) : Table := oneColumn [some value, none]

theorem longTable_wraps {value : Bytes} (hlen : value.length = 2 ^ 32 - 6) :
    wraps (Cuts.atoms (longTable value)) = true := by
  obtain ⟨c, v, rfl⟩ := List.exists_cons_of_ne_nil (l := value) (by
    rintro rfl
    cases hlen)
  have hrest : (groupBytes (v.map .byte ++ [.flag 1, .null, .stop])).length = v.length + 6 := by
    simp [groupBytes_byte, Atom.bytes]
  have hatoms : Cuts.atoms (longTable (c :: v)) = [.header ⟨0, 0, [], 0, 0, 1⟩,
      .col ⟨0x8000, 0, lit "a"⟩, .flag 1] ++
        .start (v.length + 1) c :: (v.map .byte ++ [.flag 1, .null, .stop]) := by
    simp [Cuts.atoms, longTable, oneColumn, rowAtoms, fieldAtoms]
  rw [List.length_cons] at hlen
  rw [hatoms]
  simp only [List.cons_append, List.nil_append, wraps, Atom.wraps, Bool.false_or, hrest,
    Bool.or_eq_true, decide_eq_true_eq]
  exact .inl (by omega)

/-- Such a stream in one buf is refused. -/
theorem refuses_long_table (value : Bytes) (hlen : value.length = 2 ^ 32 - 6) :
    (longTable value).Ok ∧
      Cut (longTable value) [Cuts.atoms (longTable value)] [[Buf.memory (longTable value).encode]] ∧
      ∃ rets w, runCalls calm (postpone calm (plainConf 4096) true)
          [[Buf.memory (longTable value).encode]] = .ok (rets, w) ∧
        ∃ ret ∈ rets, failed ret.rc = true := by
  have hok : (longTable value).Ok := oneColumn_ok (by
    simp only [List.mem_cons, Option.some.injEq]
    rintro v (rfl | h | h)
    · unfold nullLength
      omega
    · cases h
    · cases h)
  have hcols : (longTable value).cols ≠ [] := by simp [longTable, oneColumn]
  have hcut := cut_whole hcols
  refine ⟨hok, hcut, (served_calm true).breaks ?_⟩
  rw [hcut.reads hok hcols, List.any_cons, longTable_wraps hlen]
  rfl

/-- One buf with a value of `2 ^ 32 - 6` bytes in it, and a row behind it. -/
theorem refuses_long_value :
    Served calm (postpone calm (plainConf 4096) true) ∧
      (longTable (List.replicate (2 ^ 32 - 6) 97)).Ok ∧
      Cut (longTable (List.replicate (2 ^ 32 - 6) 97))
        [Cuts.atoms (longTable (List.replicate (2 ^ 32 - 6) 97))]
        [[Buf.memory (longTable (List.replicate (2 ^ 32 - 6) 97)).encode]] ∧
      ∃ rets w, runCalls calm (postpone calm (plainConf 4096) true)
          [[Buf.memory (longTable (List.replicate (2 ^ 32 - 6) 97)).encode]] = .ok (rets, w) ∧
        ∃ ret ∈ rets, failed ret.rc = true :=
  ⟨served_calm true, refuses_long_table _ List.length_replicate⟩

end RdsJson.Streaming
