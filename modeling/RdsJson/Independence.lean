import RdsJson.Translator

/-! # What the output does not depend on

Buffer sizes, how fast the output is consumed and what the filters below answer
decide only how far the output lags behind; how the bufs come in calls does not
matter, either. -/
namespace RdsJson.Independence
open RdsJson.Lib.LittleEndian RdsJson.Lib.Refinement RdsJson.Nginx RdsJson.Conf RdsJson.Context
open RdsJson.Processor RdsJson.FilterModule RdsJson.ResultSet RdsJson.Reader RdsJson.Render
open RdsJson.WriteLayer RdsJson.Simulation RdsJson.Calls RdsJson.Runs RdsJson.Translator

variable {s s' : Setting} {env env' : Env} {p q : Progress} {w w' w₀ w₀' : World}
variable {chain : List Buf} {calls calls' : List (List Buf)}

/-! ## The machine without failures -/

/-- The mode behind a stream that was read without error. -/
def modeOf (p : Progress) : Mode := if p.isDone then .past p else .reading p

theorem modeOf_progress (p : Progress) : (modeOf p).progress = p := by
  unfold modeOf
  split <;> rfl

theorem refuse_failed (p : Progress) (chain : List Buf) : (s.refuse p chain).1.failed = true := by
  unfold Setting.refuse
  split
  · rfl
  · split <;> rfl

/-- A chain that is read is no failure. -/
theorem answer_of_reads {rest : List Buf} (h : readBufs p chain = some (q, rest)) :
    (s.answer (modeOf p) chain).1.failed = false ∧ (s.answer (modeOf p) chain).2 = modeOf q := by
  unfold Setting.answer
  by_cases hchain : chain = []
  · subst hchain
    rw [readBufs_nil] at h
    cases h
    rw [if_pos rfl]
    exact ⟨rfl, rfl⟩
  rw [if_neg hchain]
  cases hp : p.isDone with
  | true =>
    rw [readBufs_of_done hp] at h
    cases h
    simp [modeOf, hp]
  | false => simp [modeOf, hp, Setting.read, h]

theorem answer_of_none (h : readBufs p chain = none) :
    (s.answer (modeOf p) chain).1.failed = true := by
  have hchain : chain ≠ [] := by
    rintro rfl
    simp at h
  have hp : p.isDone = false := by
    rw [← Bool.not_eq_true]
    intro hp
    rw [readBufs_of_done hp] at h
    cases h
  simp [Setting.answer, hchain, modeOf, hp, refuse_eq h, refuse_failed]

/-- The machine's calls succeed as long as they are read. -/
theorem run_of_reads (p : Progress) (calls : List (List Buf)) :
    match readCalls p calls with
    | none => ∃ a ∈ ((translator s).run (modeOf p) calls).1, a.failed = true
    | some q => (∀ a ∈ ((translator s).run (modeOf p) calls).1, a.failed = false) ∧
        ((translator s).run (modeOf p) calls).2 = modeOf q := by
  induction calls generalizing p with
  | nil => exact ⟨by simp [Machine.run], rfl⟩
  | cons chain calls ih =>
    rw [readCalls]
    cases hread : readBufs p chain with
    | none => exact ⟨_, .head _, answer_of_none hread⟩
    | some x =>
      obtain ⟨q, rest⟩ := x
      obtain ⟨hok, hmode⟩ := answer_of_reads (s := s) hread
      have hrest := ih q
      rw [← hmode] at hrest
      rw [Option.bind_some]
      cases hcalls : readCalls q calls with
      | none =>
        rw [hcalls] at hrest
        obtain ⟨a, ha, hfail⟩ := hrest
        exact ⟨a, .tail _ ha, hfail⟩
      | some q' =>
        rw [hcalls] at hrest
        refine ⟨fun a ha => ?_, hrest.2⟩
        rcases List.mem_cons.mp ha with rfl | ha
        · exact hok
        · exact hrest.1 a ha

/-! ## Lagging behind -/

theorem due_prefix (s : Setting) (p : Progress) : s.due p <+: s.text p := by
  unfold Setting.due
  split
  · exact List.prefix_rfl
  · exact List.take_prefix _ _

theorem text_length_lt (hroom : 0 < s.conf.bufBytes) (p : Progress) :
    (s.text p).length < (s.due p).length + s.conf.bufBytes := by
  unfold Setting.due
  split
  · omega
  · have hdiv := Nat.div_add_mod (s.text p).length s.conf.bufBytes
    have hmod := Nat.mod_lt (s.text p).length hroom
    rw [List.length_take, Nat.mul_comm, Nat.min_eq_left (by omega)]
    omega

/-- Beginnings of one text, neither of which lags a whole buf behind it. -/
def InStep (B B' : Nat) (out out' : Bytes) : Prop :=
  ∃ text : Bytes, out <+: text ∧ out' <+: text ∧ text.length < out.length + B ∧
    text.length < out'.length + B'

/-- The text does not depend on the size of the bufs it is put into. -/
theorem text_bufSize {n : Option Nat} (hconf : s'.conf = { s.conf with bufSize := n })
    (hvalue : s'.complexValue = s.complexValue) (p : Progress) : s'.text p = s.text p := by
  rw [Setting.text, Setting.text, hconf, hvalue]
  cases p <;> rfl

theorem inStep_due (hs : 0 < s.conf.bufBytes) (hs' : 0 < s'.conf.bufBytes)
    (htext : s'.text p = s.text p) :
    InStep s.conf.bufBytes s'.conf.bufBytes (s.due p) (s'.due p) :=
  ⟨s.text p, due_prefix s p, htext ▸ due_prefix s' p, text_length_lt hs p,
    htext ▸ text_length_lt hs' p⟩

/-! ## Runs -/

/-- The state of the parser that goes with a mode. -/
def stateOf : Mode → State
  | .reading .header => .expectHeader
  | .reading (.cols _ _) => .expectCol
  | .reading (.rows _) => .expectRow
  | .reading (.fields _ _ _) => .expectField
  | .reading (.value _ _ _ _ _) => .expectMoreFieldData
  | .reading (.done _) => .done
  | .past _ => .done
  | .out => .done

theorem Follows.state {mode : Mode} (h : Follows env s w mode) : w.ctx.state = stateOf mode := by
  cases mode with
  | past p => exact h.inMode.1.2
  | out => exact h.inMode.1.2
  | reading p =>
    have hagrees := h.inMode.1.agrees
    cases p with
    | header => exact hagrees
    | done t => exact hagrees
    | cols | rows | fields | value => exact hagrees.1

/-- A request that differs in what comes behind the text alone. -/
structure Twin (env env' : Env) (w₀ w₀' : World) : Prop where
  served : Served env w₀
  served' : Served env' w₀'
  complexValue : env'.complexValue = env.complexValue
  conf : ∃ n, w₀'.r.conf = { w₀.r.conf with bufSize := n }

theorem Twin.inStep (h : Twin env env' w₀ w₀') (p : Progress) :
    InStep w₀.r.conf.bufBytes w₀'.r.conf.bufBytes ((settingOf env w₀).due p)
      ((settingOf env' w₀').due p) := by
  obtain ⟨n, hconf⟩ := h.conf
  exact inStep_due h.served.room h.served'.room (text_bufSize hconf h.complexValue p)

theorem Twin.due_done (h : Twin env env' w₀ w₀') (t : Table) :
    (settingOf env' w₀').due (.done t) = (settingOf env w₀).due (.done t) := by
  obtain ⟨n, hconf⟩ := h.conf
  exact text_bufSize (s := settingOf env w₀) hconf h.complexValue (.done t)

/-- What a run comes to, told by how its calls are read. -/
theorem Served.outcome (h : Served env w₀) (calls : List (List Buf)) :
    ∃ rets w, runCalls env w₀ calls = .ok (rets, w) ∧
      match readCalls .header calls with
      | none => ∃ ret ∈ rets, failed ret.rc = true
      | some p => (∀ ret ∈ rets, failed ret.rc = false) ∧ w.ctx.state = stateOf (modeOf p) ∧
          sent w.trace = (settingOf env w₀).due p := by
  obtain ⟨rets, w, hrun, hshown, hfollows⟩ := Served.translates h calls
  refine ⟨rets, w, hrun, ?_⟩
  have hfailed := hshown.map fun _ _ _ hs => hs.failed
  have hmachine := run_of_reads (s := settingOf env w₀) .header calls
  cases hread : readCalls .header calls with
  | none =>
    rw [hread] at hmachine
    obtain ⟨a, ha, hfail⟩ := hmachine
    have hmem : a.failed ∈ rets.map fun ret => failed ret.rc := by
      rw [hfailed]
      exact List.mem_map_of_mem ha
    obtain ⟨ret, hret, heq⟩ := List.mem_map.mp hmem
    exact ⟨ret, hret, heq.trans hfail⟩
  | some p =>
    rw [hread] at hmachine
    obtain ⟨hok, hmode⟩ := hmachine
    have hmode : ((translator (settingOf env w₀)).run (.reading .header) calls).2 = modeOf p := hmode
    rw [hmode] at hfollows
    refine ⟨fun ret hret => ?_, Follows.state hfollows, ?_⟩
    · have hmem := List.mem_map_of_mem (f := fun ret => failed ret.rc) hret
      rw [hfailed] at hmem
      obtain ⟨a, ha, heq⟩ := List.mem_map.mp hmem
      exact heq.symm.trans (hok a ha)
    · rw [hfollows.sent (Served.suits h), modeOf_progress]

/-- Nothing about a request but its text decides where calls fail. -/
theorem answer_alike (s s' : Setting) (mode : Mode) (chain : List Buf) :
    (s'.answer mode chain).1.failed = (s.answer mode chain).1.failed ∧
      (s'.answer mode chain).2 = (s.answer mode chain).2 := by
  unfold Setting.answer
  split
  · exact ⟨rfl, rfl⟩
  · cases mode with
    | past p => exact ⟨rfl, rfl⟩
    | out => exact ⟨rfl, rfl⟩
    | reading p =>
      dsimp only [Setting.read]
      split
      · unfold Setting.refuse
        split
        · exact ⟨rfl, rfl⟩
        · split <;> exact ⟨rfl, rfl⟩
      · exact ⟨rfl, rfl⟩

theorem run_alike (s s' : Setting) (mode : Mode) (calls : List (List Buf)) :
    ((translator s').run mode calls).1.map Answer.failed =
        ((translator s).run mode calls).1.map Answer.failed ∧
      ((translator s').run mode calls).2 = ((translator s).run mode calls).2 := by
  have hstep (mode mode' : Mode) (chain : List Buf) (hmode : mode = mode') :
      (s'.answer mode chain).1.failed = (s.answer mode' chain).1.failed ∧
        (s'.answer mode chain).2 = (s.answer mode' chain).2 :=
    hmode ▸ answer_alike s s' mode chain
  have hlock : List.Forall₂ (fun a a' : Answer => a.failed = a'.failed)
        ((translator s').run mode calls).1 ((translator s).run mode calls).1 ∧
      ((translator s').run mode calls).2 = ((translator s).run mode calls).2 :=
    Machine.run_lockstep hstep rfl calls
  refine ⟨?_, hlock.2⟩
  rw [← List.forall₂_eq_eq_eq, List.forall₂_map_left_iff, List.forall₂_map_right_iff]
  exact hlock.1

/-- The size of the bufs, how the output is consumed, what the filters below return
and where memory comes from decide neither which calls fail nor what the text is,
only that up to one buf of it is kept back. -/
theorem independent_of_buffering (h : Twin env env' w₀ w₀') (calls : List (List Buf)) :
    ∃ rets w rets' w', runCalls env w₀ calls = .ok (rets, w) ∧
      runCalls env' w₀' calls = .ok (rets', w') ∧
      rets'.map (fun ret => failed ret.rc) = rets.map (fun ret => failed ret.rc) ∧
      w'.ctx.state = w.ctx.state ∧
      InStep w₀.r.conf.bufBytes w₀'.r.conf.bufBytes (sent w.trace) (sent w'.trace) ∧
      ((∀ ret ∈ rets, failed ret.rc = false) → w.ctx.state = .done →
        sent w'.trace = sent w.trace) := by
  obtain ⟨rets, w, hrun, hshown, hfollows⟩ := Served.translates h.served calls
  obtain ⟨rets', w', hrun', hshown', hfollows'⟩ := Served.translates h.served' calls
  obtain ⟨hfailed, hmode⟩ := run_alike (settingOf env w₀) (settingOf env' w₀') (.reading .header) calls
  rw [hmode] at hfollows'
  have hsent := hfollows.sent (Served.suits h.served)
  have hsent' := hfollows'.sent (Served.suits h.served')
  refine ⟨rets, w, rets', w', hrun, hrun', ?_, ?_, ?_, fun hok hdone => ?_⟩
  · rw [hshown'.map fun _ _ _ hs => hs.failed, hshown.map fun _ _ _ hs => hs.failed]
    exact hfailed
  · rw [Follows.state hfollows', Follows.state hfollows]
  · rw [hsent, hsent']
    exact h.inStep _
  · obtain ⟨t, hread⟩ := h.served.reads hrun hok hdone
    have hmachine := run_of_reads (s := settingOf env w₀) .header calls
    rw [hread] at hmachine
    have hend : ((translator (settingOf env w₀)).run (.reading .header) calls).2 = .past (.done t) :=
      hmachine.2
    rw [hsent, hsent', hend]
    exact h.due_done t

/-- As `calm`, but nothing is consumed as long as the request lasts. -/
def slow : Env := { calm with consume := fun _ => 0 }

/-- Bufs of a page that are consumed at once, and bufs of one byte that never are. -/
theorem twin_slow (main : Bool) :
    Twin calm slow (postpone calm (plainConf 4096) main) (postpone slow (plainConf 1) main) where
  served := served_calm main
  served' := {
    toTakes := ⟨fun _ => rfl, fun _ => rfl, fun _ => rfl⟩
    alloc _ := rfl
    postponed := postponed_postpone rfl rfl main
    notHead := rfl
    supported := .inl rfl
    room := by cases main <;> decide }
  complexValue := rfl
  conf := ⟨some 1, rfl⟩

theorem independent_of_buffering_slow : ∃ rets w rets' w',
    runCalls calm (postpone calm (plainConf 4096) true)
      [[Buf.memory (oneColumn [some (lit "b")]).encode]] = .ok (rets, w) ∧
    runCalls slow (postpone slow (plainConf 1) true)
      [[Buf.memory (oneColumn [some (lit "b")]).encode]] = .ok (rets', w') ∧
    sent w'.trace = sent w.trace := by
  obtain ⟨x, hrun, hok, hdone⟩ : ∃ x, runCalls calm (postpone calm (plainConf 4096) true)
      [[Buf.memory (oneColumn [some (lit "b")]).encode]] = .ok x ∧
      (∀ ret ∈ x.1, failed ret.rc = false) ∧ x.2.ctx.state = .done := ⟨_, rfl, by simp, rfl⟩
  obtain ⟨rets, w, rets', w', hrun₁, hrun', -, -, -, hsent⟩ :=
    independent_of_buffering (twin_slow true) [[Buf.memory (oneColumn [some (lit "b")]).encode]]
  cases hrun₁.symm.trans hrun
  exact ⟨_, _, rets', w', hrun₁, hrun', hsent hok hdone⟩

/-- Bufs in memory may come in any calls, each in one of its own or all in one. -/
theorem independent_of_grouping (h : Twin env env' w₀ w₀')
    (hmem : ∀ b ∈ calls.flatten, b.inMemory = true) (hsame : calls'.flatten = calls.flatten) :
    ∃ rets w rets' w', runCalls env w₀ calls = .ok (rets, w) ∧
      runCalls env' w₀' calls' = .ok (rets', w') ∧
      ((∀ ret ∈ rets', failed ret.rc = false) ↔ ∀ ret ∈ rets, failed ret.rc = false) ∧
      ((∀ ret ∈ rets, failed ret.rc = false) → w'.ctx.state = w.ctx.state ∧
        InStep w₀.r.conf.bufBytes w₀'.r.conf.bufBytes (sent w.trace) (sent w'.trace) ∧
        (w.ctx.state = .done → sent w'.trace = sent w.trace)) := by
  obtain ⟨rets, w, hrun, hout⟩ := Served.outcome h.served calls
  obtain ⟨rets', w', hrun', hout'⟩ := Served.outcome h.served' calls'
  have hread : readCalls .header calls' = readCalls .header calls := by
    rw [readCalls_memory hmem, readCalls_memory (hsame ▸ hmem), hsame]
  rw [hread] at hout'
  refine ⟨rets, w, rets', w', hrun, hrun', ?_⟩
  cases hp : readCalls .header calls with
  | none =>
    rw [hp] at hout hout'
    obtain ⟨ret, hret, hfail⟩ := hout
    obtain ⟨ret', hret', hfail'⟩ := hout'
    have hnot : ¬ ∀ ret ∈ rets, failed ret.rc = false := fun hok =>
      Bool.false_ne_true ((hok ret hret).symm.trans hfail)
    have hnot' : ¬ ∀ ret ∈ rets', failed ret.rc = false := fun hok =>
      Bool.false_ne_true ((hok ret' hret').symm.trans hfail')
    exact ⟨iff_of_false hnot' hnot, fun hok => absurd hok hnot⟩
  | some p =>
    rw [hp] at hout hout'
    obtain ⟨hok, hstate, hsent⟩ := hout
    obtain ⟨hok', hstate', hsent'⟩ := hout'
    refine ⟨iff_of_true hok' hok, fun _ => ⟨hstate'.trans hstate.symm, ?_, fun hdone => ?_⟩⟩
    · rw [hsent, hsent']
      exact h.inStep p
    · obtain ⟨t, hread⟩ := h.served.reads hrun hok hdone
      obtain rfl := Option.some.inj (hp.symm.trans hread)
      rw [hsent, hsent']
      exact h.due_done t

/-- Two bufs in two calls. -/
def inTwo : List (List Buf) :=
  [[Buf.memory ((oneColumn [some (lit "b")]).encode.take 38)],
    [Buf.memory ((oneColumn [some (lit "b")]).encode.drop 38)]]

theorem independent_of_grouping_two : ∃ rets w rets' w',
    runCalls calm (postpone calm (plainConf 4096) true) inTwo = .ok (rets, w) ∧
    runCalls slow (postpone slow (plainConf 1) true) [inTwo.flatten] = .ok (rets', w') ∧
    sent w'.trace = sent w.trace := by
  obtain ⟨x, hrun, hok, hdone⟩ : ∃ x, runCalls calm (postpone calm (plainConf 4096) true) inTwo =
      .ok x ∧ (∀ ret ∈ x.1, failed ret.rc = false) ∧ x.2.ctx.state = .done :=
    ⟨_, rfl, by simp, rfl⟩
  have hmem : ∀ b ∈ inTwo.flatten, b.inMemory = true := by simp [inTwo]
  have hsame : [inTwo.flatten].flatten = inTwo.flatten := by simp
  obtain ⟨rets, w, rets', w', hrun₁, hrun', -, halike⟩ :=
    independent_of_grouping (twin_slow true) hmem hsame
  cases hrun₁.symm.trans hrun
  exact ⟨_, _, rets', w', hrun₁, hrun', (halike hok).2.2 hdone⟩

end RdsJson.Independence
