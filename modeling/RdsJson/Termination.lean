import RdsJson.Sizes
import RdsJson.Levels
import RdsJson.Runs

/-! # Whether writes end

The loop that copies the scratch area over has no bound of its own. It ends
wherever a buf takes bytes, and only there. -/
namespace RdsJson.Termination
open RdsJson.Lib.LittleEndian RdsJson.Lib.Outcome RdsJson.Lib.TailLoop RdsJson.Nginx RdsJson.Rds
open RdsJson.Conf RdsJson.Context RdsJson.OutputMem RdsJson.Output RdsJson.WriteLayer
open RdsJson.ResultSet RdsJson.Render RdsJson.Generators RdsJson.Sizes RdsJson.FilterModule
open RdsJson.Blocks RdsJson.Levels RdsJson.Runs

variable (env : Env)

/-- Where the copying loop begins. -/
def copyStart (o : OutCtx) (bytes : Bytes) (final : Bool) : OutCtx :=
  { o with postponed := some bytes, seenStreamEnd := o.seenStreamEnd || final }

/-- A write ends. What needs no loop does; the copying loop ends after finitely
many rounds, with everything taken over unless memory ran out. -/
def WriteEnds (B : Nat) (o : OutCtx) (bytes : Bytes) (final lastBuf : Bool) : Prop :=
  match requestMem env B o bytes.length with
  | (some .scratch, o₁) =>
    ∃ n r, turns (copyTurn env B lastBuf) n (copyStart o₁ bytes final) = some (.ok r) ∧
      ((r.1 = NGX_OK ∧ r.2.postponed = none ∧ pending r.2 = pending o ++ bytes) ∨
        (r.1 = NGX_ERROR ∧ ∃ k, env.alloc k = false))
  | _ => True

variable {env} {B : Nat}

/-- What the scratch area is asked for, a buf is at hand to be copied to. -/
theorem copyStart_carry {o o₁ : OutCtx} (h : Ready B o) {bytes : Bytes} (final : Bool)
    (hreq : requestMem env B o bytes.length = (some .scratch, o₁)) :
    Carry B false { o with seenStreamEnd := o.seenStreamEnd || final } (copyStart o₁ bytes final) [] ∧
      (copyStart o₁ bytes final).availOut = (if o.availOut = 0 then B else o.availOut) ∧
      bytes ≠ [] := by
  obtain ⟨area, o', hreq', hc, ha, harea⟩ | ⟨o', hreq', -⟩ := requestMem_spec env h bytes.length
  · cases hreq.symm.trans hreq'
    have hcarry := (hc.see (o₁.seenStreamEnd || final)).frame (some bytes) o₁.cached o₁.allocs
    rw [hc.added.seen] at hcarry
    refine ⟨by simpa only [copyStart, hc.added.seen] using hcarry, ha, ?_⟩
    rintro rfl
    exact Nat.not_lt_zero _ harea
  · cases hreq.symm.trans hreq'

/-- A buf with room for a byte is enough. -/
theorem write_ends (hB : B ≠ 0) {o : OutCtx} (h : Ready B o) (bytes : Bytes)
    (final lastBuf : Bool) : WriteEnds env B o bytes final lastBuf := by
  unfold WriteEnds
  split
  · next o₁ hreq =>
    obtain ⟨hcarry, ha, hne⟩ := copyStart_carry h final hreq
    have hroom : (copyStart o₁ bytes final).availOut ≠ 0 ∧ bytes.length < bytes.length + 1 := by
      refine ⟨?_, Nat.lt_succ_self _⟩
      rw [ha]
      split <;> assumption
    obtain ⟨r, hr, hends⟩ := (copy_spec env lastBuf (bytes.length + 1) hcarry rfl hne
      (fun _ => hroom) fun _ => rfl).exists_ok fun e he => hB he.2
    refine ⟨bytes.length + 1, r, ?_, ?_⟩
    · cases hturns : turns (copyTurn env B lastBuf) (bytes.length + 1) (copyStart o₁ bytes final) with
      | none => simp [hturns] at hr
      | some result =>
        rw [hturns] at hr
        rw [show result = .ok r from hr]
    · obtain ⟨hrc, hwrote, hidle⟩ | hfail := hends
      · exact .inl ⟨hrc, hidle, hwrote.added.laid⟩
      · exact .inr hfail
  · trivial

/-- Into bufs of no size the loop copies nothing, and goes round. -/
theorem copyTurn_again (halloc : ∀ k, env.alloc k = true) (lastBuf : Bool) {o₀ o : OutCtx}
    {bytes : Bytes} (hne : bytes ≠ []) (hcarry : Carry 0 false o₀ o [])
    (hp : o.postponed = some bytes) :
    ∃ o', copyTurn env 0 lastBuf o = .ok (.again o') ∧ Carry 0 false o₀ o' [] ∧
      o'.postponed = some bytes := by
  have havail : o.availOut = 0 := Nat.le_zero.mp hcarry.avail_le
  obtain ⟨t, ht, hspec⟩ := copyTurn_spec env lastBuf hcarry hp hne fun _ => rfl
  cases t with
  | again o' =>
    obtain ⟨-, hcarry', hp', -⟩ := hspec
    rw [havail] at hcarry' hp'
    exact ⟨o', ht, hcarry', hp'⟩
  | done r =>
    obtain ⟨-, hwrote, -⟩ | ⟨-, k, hk⟩ := hspec
    · have hadd := hwrote.added.avail
      have hstart := hcarry.added.avail
      simp only [Nat.mod_zero, List.nil_append, List.length_nil, havail] at hadd hstart
      exact absurd (List.eq_nil_of_length_eq_zero (by omega)) hne
    · exact absurd hk (by simp [halloc])

theorem copy_endless (halloc : ∀ k, env.alloc k = true) (lastBuf : Bool) {o₀ o : OutCtx}
    {bytes : Bytes} (hne : bytes ≠ []) (hcarry : Carry 0 false o₀ o [])
    (hp : o.postponed = some bytes) (n : Nat) : turns (copyTurn env 0 lastBuf) n o = none :=
  turns_eq_none (I := fun o => Carry 0 false o₀ o [] ∧ o.postponed = some bytes)
    (fun _ ⟨hc, hp⟩ => copyTurn_again halloc lastBuf hne hc hp) n o ⟨hcarry, hp⟩

/-- Where the bufs have no size, a write that is not empty never ends while there
is memory. -/
theorem not_write_ends (halloc : ∀ k, env.alloc k = true) {o : OutCtx} (h : Ready 0 o)
    {bytes : Bytes} (hne : bytes ≠ []) (final lastBuf : Bool) :
    ¬ WriteEnds env 0 o bytes final lastBuf := by
  intro hends
  obtain ⟨area, o₁, hreq, -, ha, harea⟩ | ⟨o₁, -, k, hk⟩ := requestMem_spec env h bytes.length
  · have havail : o₁.availOut = 0 := by
      have := h.avail_le
      rw [ha]
      split <;> omega
    cases area with
    | inPlace =>
      have hlen := harea.1
      rw [havail] at hlen
      exact hne (List.eq_nil_of_length_eq_zero (Nat.le_zero.mp hlen))
    | scratch =>
      unfold WriteEnds at hends
      rw [hreq] at hends
      obtain ⟨n, r, hturns, -⟩ := hends
      have hcarry := (copyStart_carry h final hreq).1
      rw [copy_endless halloc lastBuf hne hcarry rfl n] at hturns
      cases hturns
  · exact absurd hk (by simp [halloc])

/-! ## The output functions -/

/-- Whatever comes of the computation, it comes to an end. -/
def Returns {α : Type} (x : Except Fault α) : Prop :=
  Yields (fun e => e ≠ .endless) x fun _ => True

/-- Every function that writes returns, wherever the output is ready for a write. -/
structure OutputEnds (B : Nat) : Prop where
  literal : ∀ env main o data lastBuf, Ready B o → Returns (outputLiteral env B main o data lastBuf)
  header : ∀ env r o h, r.conf.bufBytes = B → Ready B o → Returns (outputHeader env r o h)
  props : ∀ env r o, r.conf.bufBytes = B → Ready B o → Returns (outputProps env r o)
  cols : ∀ env r ctx o, r.conf.bufBytes = B → Ready B o → Returns (outputCols env r ctx o)
  field : ∀ env r ctx o data isNull, r.conf.bufBytes = B → Ready B o →
    Returns (outputField env r ctx o data isNull)
  more : ∀ env r ctx o data, r.conf.bufBytes = B → Ready B o →
    Returns (outputMoreFieldData env r ctx o data)

theorem returns_ok {α : Type} (a : α) : Returns (.ok a) := trivial

theorem exactWrite_returns (hB : B ≠ 0) {o : OutCtx} (h : Ready B o) (bytes : Bytes)
    (final lastBuf : Bool) : Returns (exactWrite env B o bytes final lastBuf) :=
  ((exactWrite_spec env h bytes final lastBuf).weaken fun _ he => absurd he.2 hB).mono
    fun _ _ => trivial

theorem run_returns (hB : B ≠ 0) {o : OutCtx} (h : Ready B o) (g : Generator)
    (hsized : g.Sized B) : Returns (g.run env B o) := by
  refine g.run_yields hsized (fun _ he => ?_) (fun _ => trivial)
    fun n bytes final lastBuf => exactWrite_returns hB (h.alloc n) bytes final lastBuf
  obtain rfl | rfl := he
  · exact nofun
  · exact nofun

theorem outputEnds (hB : B ≠ 0) : OutputEnds B where
  literal env main o data lastBuf ho := run_returns hB ho (.literal main data lastBuf) trivial
  header env r o h hr ho := run_returns hB ho (.header r h) hr
  props env r o hr ho := run_returns hB ho (.props r) hr
  cols env r ctx o hr ho := by
    have hreturns : Returns (Generator.run env B o (.cols r ctx)) := run_returns hB ho _ hr
    rw [Generator.run] at hreturns
    cases hrun : outputCols env r ctx o with
    | ok x => exact returns_ok x
    | error e =>
      rw [hrun] at hreturns
      exact hreturns
  field env r ctx o data isNull hr ho := run_returns hB ho (.field r ctx data isNull) hr
  more env r ctx o data hr ho := run_returns hB ho (.moreFieldData r ctx data) hr

/-- Writes end just where bufs take bytes, or where there is nothing to write; and
the functions that write return just there. -/
theorem writes_end_iff (B : Nat) :
    (∀ o, Ready B o → ∀ bytes final lastBuf,
      (∀ env, WriteEnds env B o bytes final lastBuf) ↔ B ≠ 0 ∨ bytes = []) ∧
    (OutputEnds B ↔ B ≠ 0) := by
  refine ⟨fun o ho bytes final lastBuf => ⟨fun hends => ?_, fun hwhen env => ?_⟩,
    ⟨fun hends => ?_, outputEnds⟩⟩
  · by_contra hnot
    rw [not_or, not_not] at hnot
    obtain ⟨rfl, hne⟩ := hnot
    exact not_write_ends (fun _ => rfl) ho hne final lastBuf (hends calm)
  · obtain hB | rfl := hwhen
    · exact write_ends hB ho bytes final lastBuf
    · unfold WriteEnds
      split
      · next o₁ hreq => exact absurd rfl (copyStart_carry ho final hreq).2.2
      · trivial
  · rintro rfl
    have hreturns := hends.literal calm true _ [0] false (ready_request 0 (plainConf 0) true)
    exact hreturns rfl

/-- Bufs of no size, set around the location. -/
def zeroLevels : List Block := [[.bufferSize 0], [.rdsJson true]]

def zeroConf : LocConf :=
  mergeLocConf 4096 { createLocConf with bufSize := some 0 }
    { createLocConf with enabled := some true }

/-- A set without columns, its error code in one digit. -/
def emptySet : Table where
  header := ⟨0, 0, [], 0, 0, 0⟩
  cols := []
  rows := []

/-- The object for an empty set is never copied over: no number of rounds is
enough, and the call that should answer never returns. -/
theorem zero_size_endless : InEffect literal 4096 zeroLevels zeroConf ∧ zeroConf.bufBytes = 0 ∧
    (∃ o₁, requestMem calm 0 (postpone calm zeroConf true).out
        (headerText zeroConf calm.complexValue emptySet.header).length = (some .scratch, o₁) ∧
      ∀ n, turns (copyTurn calm 0 true) n
        (copyStart o₁ (headerText zeroConf calm.complexValue emptySet.header) true) = none) ∧
    runCalls calm (postpone calm zeroConf true) [[Buf.memory emptySet.encode]] =
      .error .endless := by
  have hpostponed : Postponed calm (postpone calm zeroConf true) := postponed_postpone rfl rfl true
  have hready : Ready 0 (postpone calm zeroConf true).out := (started hpostponed).live.ready
  obtain ⟨o₁, hreq⟩ : ∃ o₁, requestMem calm 0 (postpone calm zeroConf true).out
    (headerText zeroConf calm.complexValue emptySet.header).length = (some .scratch, o₁) := ⟨_, rfl⟩
  obtain ⟨hcarry, -, hne⟩ := copyStart_carry hready true hreq
  exact ⟨.merged rfl rfl, rfl, ⟨o₁, hreq, copy_endless (fun _ => rfl) true hne hcarry rfl⟩, rfl⟩

end RdsJson.Termination
