import RdsJson.Runs

/-! # Special bufs between the others

Which special bufs the processors pass over, and which they refuse. -/
namespace RdsJson.SpecialBufs
open RdsJson.Lib.LittleEndian RdsJson.Nginx RdsJson.Context RdsJson.Processor
open RdsJson.FilterModule RdsJson.Format RdsJson.ResultSet RdsJson.Reader RdsJson.Render
open RdsJson.WriteLayer RdsJson.Runs

variable {p q : Progress} {b : Buf} {front next chain : List Buf} {calls : List (List Buf)}

/-! ## How far the bufs in memory bring the reader -/

/-- The progress behind `bufs`, going by those in memory. -/
def progressFrom (p : Progress) (bufs : List Buf) : Option Progress :=
  (readBufs p (bufs.filter Buf.inMemory)).map Prod.fst

theorem progressFrom_nil (p : Progress) : progressFrom p [] = some p := by
  simp [progressFrom]

theorem progressFrom_done (h : p.isDone = true) (bufs : List Buf) :
    progressFrom p bufs = some p := by
  simp [progressFrom, readBufs_of_done h]

theorem progressFrom_append (p : Progress) (bufs more : List Buf) :
    progressFrom p (bufs ++ more) = (progressFrom p bufs).bind fun q => progressFrom q more := by
  unfold progressFrom
  rw [List.filter_append, readBufs_append _ fun b hb => (List.mem_filter.mp hb).2]
  cases readBufs p (bufs.filter Buf.inMemory) with
  | none => rfl
  | some s =>
    cases hs : s.1.isDone with
    | true => simp [hs, readBufs_of_done hs]
    | false => simp [hs]

theorem progressFrom_memory (hp : p.isDone = false) (hb : b.inMemory = true) (next : List Buf) :
    progressFrom p (b :: next) = (readBuf p b.rest).bind fun q => progressFrom q next := by
  unfold progressFrom
  rw [List.filter_cons, if_pos hb, readBufs_memory hp hb]
  cases readBuf p b.rest <;> rfl

theorem progressFrom_special (hb : b.special = true) (p : Progress) (next : List Buf) :
    progressFrom p (b :: next) = progressFrom p next := by
  unfold progressFrom
  rw [List.filter_cons, if_neg (by simp [Buf.special_not_inMemory hb])]

/-! ## One chain -/

/-- Before the stream ends no special buf comes within a value, and none right
behind another one. -/
def Lets (p : Progress) (chain : List Buf) : Prop :=
  ∀ front b next, chain = front ++ b :: next → b.special = true →
    ∀ q, progressFrom p front = some q → q.isDone = false →
      q.midValue = false ∧ ∀ b' ∈ next.head?, b'.special = false

theorem lets_nil (p : Progress) : Lets p [] := by
  intro front b next hsplit
  simp at hsplit

theorem lets_done (h : p.isDone = true) (chain : List Buf) : Lets p chain := by
  intro front b next hsplit hb q hq hdone
  rw [progressFrom_done h] at hq
  obtain rfl := Option.some.inj hq
  exact absurd (h.symm.trans hdone) Bool.true_eq_false.mp

theorem lets_memory (hp : p.isDone = false) (hb : b.inMemory = true)
    (hq : readBuf p b.rest = some q) : Lets p (b :: next) ↔ Lets q next := by
  have hfrom (front : List Buf) : progressFrom p (b :: front) = progressFrom q front := by
    rw [progressFrom_memory hp hb, hq, Option.bind_some]
  constructor
  · intro h front b' next' hsplit hb' q' hq'
    exact h (b :: front) b' next' (by rw [hsplit]; rfl) hb' q' (by rwa [hfrom])
  · intro h front b' next' hsplit hb' q' hq'
    cases front with
    | nil =>
      obtain ⟨rfl, -⟩ := List.cons.inj hsplit
      exact absurd (hb.symm.trans (Buf.special_not_inMemory hb')) Bool.true_eq_false.mp
    | cons b'' front =>
      obtain ⟨rfl, rfl⟩ := List.cons.inj hsplit
      exact h front b' next' rfl hb' q' (by rwa [hfrom] at hq')

theorem lets_special (hp : p.isDone = false) (hb : b.special = true) :
    Lets p (b :: next) ↔
      (p.midValue = false ∧ ∀ b' ∈ next.head?, b'.special = false) ∧ Lets p next := by
  constructor
  · intro h
    refine ⟨h [] b next rfl hb p (progressFrom_nil p) hp, ?_⟩
    intro front b' next' hsplit hb' q hq
    exact h (b :: front) b' next' (by rw [hsplit]; rfl) hb' q (by rwa [progressFrom_special hb])
  · rintro ⟨hfirst, h⟩ front b' next' hsplit hb' q hq
    cases front with
    | nil =>
      obtain ⟨rfl, rfl⟩ := List.cons.inj hsplit
      rw [progressFrom_nil] at hq
      obtain rfl := Option.some.inj hq
      exact fun _ => hfirst
    | cons b'' front =>
      obtain ⟨rfl, rfl⟩ := List.cons.inj hsplit
      exact h front b' next' rfl hb' q (by rwa [progressFrom_special hb] at hq)

/-- Nothing is read from nothing, unless a value is open. -/
theorem readBuf_nil (h : p.midValue = false) : readBuf p [] = none := by
  refine readBuf_eq_none ?_
  cases p with
  | value t flag fs got missing => cases h
  | _ => simp [readStep, decodeHeader, decodeCol, takeLE]

/-- A chain whose bufs in memory can be read is read as they are, or refused for
a special buf. -/
theorem readBufs_special (hkind : ∀ b ∈ chain, b.inMemory = true ∨ b.special = true)
    (hread : progressFrom p chain = some q) :
    (Lets p chain → (readBufs p chain).map Prod.fst = some q) ∧
      (¬ Lets p chain → readBufs p chain = none) := by
  fun_induction readBufs p chain with
  | case1 p =>
    rw [progressFrom_nil] at hread
    exact ⟨fun _ => hread, fun h => absurd (lets_nil p) h⟩
  | case2 p b next hdone =>
    rw [progressFrom_done hdone] at hread
    exact ⟨fun _ => hread, fun h => absurd (lets_done hdone _) h⟩
  | case3 p b next hdone hmem ih =>
    rw [Bool.not_eq_true] at hdone
    rw [progressFrom_memory hdone hmem] at hread
    obtain ⟨q', hq', hk⟩ := Option.bind_eq_some_iff.mp hread
    rw [lets_memory hdone hmem hq', hq', Option.bind_some]
    exact ih q' (fun b' hb' => hkind b' (by simp [hb'])) hk
  | case4 p b next hdone hmem href =>
    rw [Bool.not_eq_true] at hdone
    have hb : b.special = true := (hkind b (by simp)).resolve_left hmem
    have hmid : p.midValue = true := by simpa [hb] using href
    refine ⟨fun h => ?_, fun _ => rfl⟩
    rw [lets_special hdone hb, hmid] at h
    cases h.1.1
  | case5 p b hdone hmem href =>
    rw [Bool.not_eq_true] at hdone
    obtain ⟨hmid, hb⟩ : p.midValue = false ∧ b.special = true := by simpa using href
    rw [progressFrom_special hb, progressFrom_nil] at hread
    refine ⟨fun _ => hread, fun h => absurd ?_ h⟩
    exact (lets_special hdone hb).mpr ⟨⟨hmid, by simp⟩, lets_nil p⟩
  | case6 p b hdone hmem href b' next' ih =>
    rw [Bool.not_eq_true] at hdone
    obtain ⟨hmid, hb⟩ : p.midValue = false ∧ b.special = true := by simpa using href
    rw [lets_special hdone hb]
    rw [progressFrom_special hb] at hread
    cases hb' : b'.special with
    | true =>
      have hempty : b'.rest = [] := b'.noData (Buf.special_not_inMemory hb')
      rw [hempty, readBuf_nil hmid]
      exact ⟨fun h => absurd (h.1.2 b' rfl) (by simp [hb']), fun _ => rfl⟩
    | false =>
      have hmem' : b'.inMemory = true := (hkind b' (by simp)).resolve_right (by simp [hb'])
      rw [progressFrom_memory hdone hmem'] at hread
      obtain ⟨q', hq', hk⟩ := Option.bind_eq_some_iff.mp hread
      rw [lets_memory hdone hmem' hq', hq', Option.bind_some]
      obtain ⟨hlets, hnot⟩ := ih q' (fun b'' hb'' => hkind b'' (by simp [hb''])) hk
      refine ⟨fun h => hlets h.2, fun h => hnot fun hl => h ⟨⟨hmid, ?_⟩, hl⟩⟩
      simp [hb']

/-! ## Whole runs -/

/-- The same for the chains of successive calls. -/
def LetsAll (p : Progress) (calls : List (List Buf)) : Prop :=
  ∀ before chain after, calls = before ++ chain :: after →
    ∀ q, progressFrom p before.flatten = some q → Lets q chain

theorem letsAll_nil (p : Progress) : LetsAll p [] := by
  intro before chain after hsplit
  simp at hsplit

theorem letsAll_cons (hq : progressFrom p chain = some q) :
    LetsAll p (chain :: calls) ↔ Lets p chain ∧ LetsAll q calls := by
  have hfrom (before : List (List Buf)) :
      progressFrom p (chain :: before).flatten = progressFrom q before.flatten := by
    rw [List.flatten_cons, progressFrom_append, hq, Option.bind_some]
  constructor
  · intro h
    refine ⟨h [] chain calls rfl p (progressFrom_nil p), ?_⟩
    intro before chain' after hsplit q' hq'
    exact h (chain :: before) chain' after (by rw [hsplit]; rfl) q' (by rwa [hfrom])
  · rintro ⟨hfirst, h⟩ before chain' after hsplit q' hq'
    cases before with
    | nil =>
      obtain ⟨rfl, -⟩ := List.cons.inj hsplit
      obtain rfl := Option.some.inj ((progressFrom_nil p).symm.trans hq')
      exact hfirst
    | cons first before =>
      obtain ⟨rfl, rfl⟩ := List.cons.inj hsplit
      exact h before chain' after rfl q' (by rwa [hfrom] at hq')

theorem readCalls_special (hkind : ∀ b ∈ calls.flatten, b.inMemory = true ∨ b.special = true)
    (hread : progressFrom p calls.flatten = some q) :
    (LetsAll p calls → readCalls p calls = some q) ∧
      (¬ LetsAll p calls → readCalls p calls = none) := by
  induction calls generalizing p with
  | nil =>
    rw [List.flatten_nil, progressFrom_nil] at hread
    exact ⟨fun _ => hread, fun h => absurd (letsAll_nil p) h⟩
  | cons chain calls ih =>
    rw [List.flatten_cons, progressFrom_append] at hread
    obtain ⟨q', hq', hk⟩ := Option.bind_eq_some_iff.mp hread
    obtain ⟨hlets, hnot⟩ := readBufs_special (fun b hb => hkind b (by simp [hb])) hq'
    obtain ⟨hall, hnone⟩ := ih (fun b hb => hkind b (by simp [hb])) hk
    rw [letsAll_cons hq', readCalls]
    constructor
    · rintro ⟨hfirst, hrest⟩
      obtain ⟨s, hs, hfst⟩ := Option.map_eq_some_iff.mp (hlets hfirst)
      rw [hs, Option.bind_some, hfst]
      exact hall hrest
    · intro h
      by_cases hfirst : Lets p chain
      · obtain ⟨s, hs, hfst⟩ := Option.map_eq_some_iff.mp (hlets hfirst)
        rw [hs, Option.bind_some, hfst]
        exact hnone fun hrest => h ⟨hfirst, hrest⟩
      · rw [hnot hfirst]
        rfl

/-- The bufs of `calls` are those of `plain`, with special bufs between them. -/
def Inserted (plain calls : List (List Buf)) : Prop :=
  calls.flatten.filter (fun b => !b.special) = plain.flatten

theorem Inserted.progress {plain : List (List Buf)} (h : Inserted plain calls)
    (hmem : ∀ b ∈ plain.flatten, b.inMemory = true) :
    (∀ b ∈ calls.flatten, b.inMemory = true ∨ b.special = true) ∧
      progressFrom p calls.flatten = (readBufs p plain.flatten).map Prod.fst := by
  have hkind : ∀ b ∈ calls.flatten, b.inMemory = true ∨ b.special = true := by
    intro b hb
    cases hsp : b.special with
    | true => exact .inr rfl
    | false =>
      refine .inl (hmem b ?_)
      rw [← h]
      exact List.mem_filter.mpr ⟨hb, by simp [hsp]⟩
  refine ⟨hkind, ?_⟩
  unfold progressFrom
  rw [← h]
  congr 2
  refine List.filter_congr fun b hb => ?_
  rcases hkind b hb with hb | hb
  · cases hsp : b.special with
    | true => exact absurd (hb.symm.trans (Buf.special_not_inMemory hsp)) Bool.true_eq_false.mp
    | false => simp [hb]
  · simp [hb, Buf.special_not_inMemory hb]

/-- Special bufs put between the bufs of a stream change neither the success of the
calls nor the text if and only if, before the stream ends, none of them comes
within a value or right behind another one of its call. -/
theorem special_bufs_iff {env : Env} {w₀ w : World} {plain calls : List (List Buf)}
    {rets : List Return} (hs : Served env w₀) (hmem : ∀ b ∈ plain.flatten, b.inMemory = true)
    (hrun : runCalls env w₀ plain = .ok (rets, w)) (hok : ∀ ret ∈ rets, failed ret.rc = false)
    (hdone : w.ctx.state = .done) (hinserted : Inserted plain calls) :
    ∃ rets' w', runCalls env w₀ calls = .ok (rets', w') ∧
      (((∀ ret ∈ rets', failed ret.rc = false) ∧ delivered w'.trace = delivered w.trace) ↔
        LetsAll .header calls) := by
  obtain ⟨t, hread⟩ := hs.reads hrun hok hdone
  obtain ⟨rets₁, w₁, hrun₁, -, hsent₁⟩ := hs.completes hread
  cases hrun₁.symm.trans hrun
  rw [readCalls_memory hmem] at hread
  obtain ⟨hkind, hprogress⟩ := hinserted.progress (p := .header) hmem
  obtain ⟨hlets, hnot⟩ := readCalls_special hkind (hprogress.trans hread)
  by_cases h : LetsAll .header calls
  · obtain ⟨rets', w', hrun', hok', hsent'⟩ := hs.completes (hlets h)
    exact ⟨rets', w', hrun', ⟨fun _ => h, fun _ => ⟨hok', hsent'.trans hsent₁.symm⟩⟩⟩
  · obtain ⟨rets', w', hrun', ret, hret, hfail⟩ := hs.breaks (hnot h)
    refine ⟨rets', w', hrun', ⟨fun hgood => ?_, fun hl => absurd hl h⟩⟩
    exact absurd ((hgood.1 ret hret).symm.trans hfail) Bool.false_ne_true

/-- A flush buf with no data. -/
def flushBuf : Buf where
  inMemory := false
  inFile := false
  flush := true
  lastBuf := false
  sync := false
  before := []
  rest := []
  noData := Buf.nothing_noData

/-- A stream in two bufs, the second of which begins with the second byte of a
value. -/
def firstHalf : Buf := Buf.memory ((oneColumn [some (lit "ab")]).encode.take 43)

def secondHalf : Buf := Buf.memory ((oneColumn [some (lit "ab")]).encode.drop 43)

/-- A flush buf before the stream and one behind it. -/
theorem special_bufs_iff_around : ∃ rets w,
    runCalls calm (postpone calm (plainConf 4096) true)
      [[flushBuf, firstHalf], [secondHalf, flushBuf, flushBuf]] = .ok (rets, w) ∧
    ∀ ret ∈ rets, failed ret.rc = false := by
  obtain ⟨⟨rets, w⟩, hrun, hok, hdone⟩ : ∃ x,
      runCalls calm (postpone calm (plainConf 4096) true) [[firstHalf, secondHalf]] = .ok x ∧
      (∀ ret ∈ x.1, failed ret.rc = false) ∧ x.2.ctx.state = .done := ⟨_, rfl, by simp, rfl⟩
  obtain ⟨rets', w', hrun', hiff⟩ := special_bufs_iff (served_calm true) (by decide) hrun hok hdone
    (show Inserted _ [[flushBuf, firstHalf], [secondHalf, flushBuf, flushBuf]] from rfl)
  have hfirst : Lets .header [flushBuf, firstHalf] :=
    (lets_special rfl rfl).mpr ⟨⟨rfl, by decide⟩, (lets_memory rfl rfl rfl).mpr (lets_nil _)⟩
  refine ⟨rets', w', hrun', (hiff.mpr ((letsAll_cons rfl).mpr ⟨hfirst, ?_⟩)).1⟩
  exact (letsAll_cons rfl).mpr ⟨(lets_memory rfl rfl rfl).mpr (lets_done rfl _), letsAll_nil _⟩

/-- A flush buf within the value: the call fails. -/
theorem refuses_special_buf : ∃ x x',
    runCalls calm (postpone calm (plainConf 4096) true) [[firstHalf, secondHalf]] = .ok x ∧
    (∀ ret ∈ x.1, failed ret.rc = false) ∧ x.2.ctx.state = .done ∧
    runCalls calm (postpone calm (plainConf 4096) true) [[firstHalf, flushBuf, secondHalf]] =
      .ok x' ∧
    Inserted [[firstHalf, secondHalf]] [[firstHalf, flushBuf, secondHalf]] ∧
    ∃ ret ∈ x'.1, failed ret.rc = true :=
  ⟨_, _, rfl, by simp, rfl, rfl, rfl, _, .head _, rfl⟩

end RdsJson.SpecialBufs
