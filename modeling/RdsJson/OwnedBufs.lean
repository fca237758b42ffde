import RdsJson.Ownership
import RdsJson.Runs

/-! # The output bufs over a whole run

Every output function, `output_bufs` and what goes past the module, in any order:
who has which buf, how often a buf goes down the chain, and what becomes of the
bytes in it. -/
namespace RdsJson.OwnedBufs
open RdsJson.Lib.LittleEndian RdsJson.Lib.Outcome RdsJson.Lib.Labelled RdsJson.Lib.Pool
open RdsJson.Nginx RdsJson.Rds RdsJson.Conf RdsJson.Context RdsJson.OutputMem RdsJson.Output
open RdsJson.WriteLayer RdsJson.Generators RdsJson.Sizes RdsJson.Ownership RdsJson.Runs

variable {env : Env} {B : Nat} {o o' : OutCtx} {s : Hold} {lost hand : List Nat}
variable {deeds deeds' : List (Deed OutBuf)}

/-! ## The output functions -/

/-- Memory for something else changes nothing. -/
theorem refused_settled (h : Owns B ⟨o, current o, lost⟩) (allocs : Nat) (rc : Int) :
    Settled env B ⟨o, current o, lost⟩ (rc, { o with allocs := allocs }) :=
  ((Advances.refl h).frame o.postponed o.cached allocs o.seenStreamEnd).settled rfl

theorem exactWrite_settled_alloc (env : Env) (hB : 1 ≤ B) (h : Owns B ⟨o, current o, lost⟩)
    (allocs : Nat) (bytes : Bytes) (final lastBuf : Bool) {E : Fault → Prop} :
    Yields E (exactWrite env B { o with allocs := allocs } bytes final lastBuf)
      (Settled env B ⟨o, current o, lost⟩) := by
  have howns : Owns B ⟨{ o with allocs := allocs }, current o, lost⟩ :=
    ⟨h.partition, h.sized, h.hand, h.whole, h.empty⟩
  refine ((exactWrite_settled hB howns bytes final lastBuf).mono ?_).weaken fun _ => False.elim
  intro r hr
  obtain ⟨deeds, lost', hadv⟩ := hr
  exact ⟨deeds, lost', hadv.owns, hadv.path, hadv.busy, hadv.out, hadv.kept, hadv.hidden, hadv.lost⟩

/-- Every output function, whatever its arguments: at most it misses a column. -/
theorem run_settled (env : Env) (hB : 1 ≤ B) (h : Owns B ⟨o, current o, lost⟩) (g : Generator)
    (hsized : g.Sized B) :
    Yields NoColumn (g.run env B o) (Settled env B ⟨o, current o, lost⟩) :=
  g.run_yields hsized (fun _ he => he) (fun n => refused_settled h n _)
    fun n bytes final lastBuf => exactWrite_settled_alloc env hB h n bytes final lastBuf

/-! ## Runs -/

/-- What is done with the output of a request. -/
inductive Action where
  | generate (g : Generator)
  | bufs
  | next (chain : List Buf)

def Action.Sized (B : Nat) : Action → Prop
  | .generate g => g.Sized B
  | .bufs => True
  | .next _ => True

/-- Another action may follow whatever one returns; only the next body filter does
not fail when `output_bufs` calls it. -/
inductive Acts (env : Env) (B : Nat) : World → Action → World → Prop
  | generate {w : World} {g : Generator} {rc : Int} {o : OutCtx}
      (h : g.run env B w.out = .ok (rc, o)) : Acts env B w (.generate g) { w with out := o }
  | bufs {w w' : World} {rc : Int} (h : outputBufs env w = (rc, w'))
      (hbody : w'.trace ≠ w.trace → failed (env.bodyRc w.trace.length) = false) :
      Acts env B w .bufs w'
  | next {w w' : World} {chain : List Buf} {rc : Int} (h : nextBodyFilter env w chain = (rc, w')) :
      Acts env B w (.next chain) w'

/-- The output bufs as the next filter leaves them in an action: only the calls to
it consume anything. -/
def leftBy (env : Env) (w : World) : Action → Nat → OutBuf
  | .generate _ => w.out.bufs
  | .bufs =>
    let (rc, o) := flushOutBuf env w.out
    if rc ≠ NGX_OK ∨ o.out = [] then o.bufs
    else consumeFront (env.consume w.trace.length) (o.busyBufs ++ o.out) o.bufs
  | .next _ => consumeFront (env.consume w.trace.length) w.out.busyBufs w.out.bufs

theorem leftBy_bufs {w : World} {rc : Int} (hflush : flushOutBuf env w.out = (rc, o)) :
    leftBy env w .bufs = if rc ≠ NGX_OK ∨ o.out = [] then o.bufs
      else consumeFront (env.consume w.trace.length) (o.busyBufs ++ o.out) o.bufs := by
  unfold leftBy
  rw [hflush]

/-- What actions do to the bufs of a request, with `lost` before and `lost'` behind
them. -/
structure Serves (env : Env) (B : Nat) (w w' : World) (lost lost' : List Nat)
    (deeds : List (Deed OutBuf)) : Prop where
  owns : Owns B ⟨w'.out, current w'.out, lost'⟩
  path : Steps Moves (Hold.cells ⟨w.out, current w.out, lost⟩) deeds
    (Hold.cells ⟨w'.out, current w'.out, lost'⟩)
  shown : sentBufs w'.trace = sentBufs w.trace ++ deeds.flatMap Deed.shown
  whole : ∀ b ∈ deeds.flatMap Deed.shown, b.pos = 0
  lost : lost' ≠ lost → ∃ k, env.alloc k = false

variable {w w₁ w' : World} {lost' lost₁ : List Nat} {action : Action} {actions : List Action}

theorem Serves.trans (h : Serves env B w w₁ lost lost₁ deeds)
    (h' : Serves env B w₁ w' lost₁ lost' deeds') :
    Serves env B w w' lost lost' (deeds ++ deeds') := by
  refine ⟨h'.owns, h.path.append h'.path, ?_, fun b hb => ?_, fun hne => ?_⟩
  · rw [h'.shown, h.shown, List.flatMap_append, List.append_assoc]
  · rw [List.flatMap_append] at hb
    obtain hb | hb := List.mem_append.mp hb
    · exact h.whole b hb
    · exact h'.whole b hb
  · by_cases heq : lost₁ = lost
    · exact h'.lost (heq ▸ hne)
    · exact h.lost heq

/-- Nothing is done to the bufs, at most consumed. -/
theorem serves_nothing (h : Owns B ⟨w'.out, current w'.out, lost⟩)
    (hcells : Hold.cells ⟨w'.out, current w'.out, lost⟩ = Hold.cells ⟨w.out, current w.out, lost⟩)
    (hsent : sentBufs w'.trace = sentBufs w.trace) : Serves env B w w' lost lost [] := by
  refine ⟨h, hcells ▸ .nil _, hsent.trans (List.append_nil _).symm, fun b hb => ?_,
    fun hne => absurd rfl hne⟩
  cases hb

/-- What only writes, or flushes, shows nothing. -/
theorem serves_of_advances (h : Advances env B ⟨w.out, current w.out, lost⟩ deeds
    ⟨o, current o, lost'⟩) : Serves env B w { w with out := o } lost lost' deeds := by
  refine ⟨h.owns, h.path, ?_, fun b hb => ?_, h.lost⟩
  · rw [h.hidden, List.append_nil]
  · rw [h.hidden] at hb
    cases hb

/-- The bufs on `out` go down the chain and are taken. -/
theorem serves_of_passing (h : Owns B ⟨o, current o, lost⟩) (w : World) (n : Nat) :
    Serves env B { w with out := o } { w with
      out := updateChains { o with bufs := consumeFront n (o.busyBufs ++ o.out) o.bufs }
      trace := w.trace ++ [.json (o.out.map o.bufs)] } lost lost
      (passing o (consumeFront n (o.busyBufs ++ o.out) o.bufs)) := by
  refine ⟨h.passOn n, passing_path o _ (current o) lost, ?_, fun b hb => ?_,
    fun hne => absurd rfl hne⟩
  · rw [passing_shown, sentBufs_append, sentBufs_json]
  · rw [passing_shown] at hb
    obtain ⟨id, hid, rfl⟩ := List.mem_map.mp hb
    exact h.whole id (List.mem_append_left _ hid)

theorem outputBufs_serves {rc : Int} (h : Owns B ⟨w.out, current w.out, lost⟩)
    (hrun : outputBufs env w = (rc, w'))
    (hbody : w'.trace ≠ w.trace → failed (env.bodyRc w.trace.length) = false) :
    (∃ deeds, Serves env B w w' lost lost deeds) ∧
      ∀ id, (w'.out.bufs id).unread = (leftBy env w .bufs id).unread := by
  obtain ⟨rc₁, o, hflush, -, hadv⟩ := flushOutBuf_advances env h
  have hserves : Serves env B w { w with out := o } lost lost [] := serves_of_advances hadv
  rw [leftBy_bufs hflush]
  by_cases hcall : rc₁ ≠ NGX_OK ∨ o.out = []
  · have hnone : w' = { w with out := o } := by
      unfold outputBufs at hrun
      rw [hflush] at hrun
      dsimp only at hrun
      split at hrun
      · exact (Prod.mk.inj hrun).2.symm
      · next hok =>
        rw [if_pos (hcall.resolve_left hok)] at hrun
        exact (Prod.mk.inj hrun).2.symm
    subst hnone
    exact ⟨⟨_, hserves⟩, fun id => by rw [if_pos hcall]⟩
  · obtain ⟨hok, hout⟩ := not_or.mp hcall
    obtain rfl := not_not.mp hok
    obtain ⟨rc₂, w₂, hrun₂, hp, htrace, hcase⟩ := outputBufs_of_flush env hflush hout
    cases hrun.symm.trans hrun₂
    have htaken := hbody (by simp [htrace])
    obtain ⟨hfail, -⟩ | ⟨-, -, ho⟩ := hcase
    · exact absurd (hfail.symm.trans htaken) (by decide)
    have hw : w' = { w with
        out := w'.out
        trace := w.trace ++ [.json (o.out.map o.bufs)] } := by
      rw [← htrace, ← hp.r, ← hp.ctx, ← hp.ctxSet]
    rw [hw, ho]
    refine ⟨⟨_, hserves.trans (serves_of_passing hadv.owns w (env.consume w.trace.length))⟩,
      fun id => ?_⟩
    rw [if_neg hcall]
    exact updateChains_unread o _ id

/-- One action: who has the bufs behind it, and that what was unread of those that
were not free is what the next filter left of them. -/
theorem Acts.serves (hB : 1 ≤ B) (h : Owns B ⟨w.out, current w.out, lost⟩)
    (hsized : action.Sized B) (hact : Acts env B w action w') :
    (∃ lost' deeds, Serves env B w w' lost lost' deeds) ∧
      ∀ id ∈ w.out.busyBufs ++ w.out.out,
        (w'.out.bufs id).unread = (leftBy env w action id).unread := by
  cases hact with
  | @generate g rc o hrun =>
    obtain ⟨deeds, lost', hadv⟩ := (run_settled env hB h g hsized).of_eq_ok hrun
    exact ⟨⟨lost', deeds, serves_of_advances hadv⟩, hadv.kept⟩
  | bufs hrun hbody =>
    obtain ⟨⟨deeds, hserves⟩, hleft⟩ := outputBufs_serves h hrun hbody
    exact ⟨⟨lost, deeds, hserves⟩, fun id _ => hleft id⟩
  | next hrun =>
    cases hrun
    exact ⟨⟨lost, [], serves_nothing (h.consume _) rfl (by simp)⟩, fun id _ => rfl⟩

theorem serves_run (hB : 1 ≤ B) (h : Owns B ⟨w.out, current w.out, lost⟩)
    (hsized : ∀ action ∈ actions, action.Sized B)
    (hrun : Steps (Acts env B) w actions w') :
    ∃ lost' deeds, Serves env B w w' lost lost' deeds := by
  induction hrun generalizing lost with
  | nil w => exact ⟨lost, [], serves_nothing h rfl rfl⟩
  | @cons w w₁ w' action actions hact hrest ih =>
    obtain ⟨⟨lost₁, deeds, hserves⟩, -⟩ := hact.serves hB h (hsized action (by simp))
    obtain ⟨lost', deeds', hserves'⟩ :=
      ih hserves.owns fun action haction => hsized action (by simp [haction])
    exact ⟨lost', deeds ++ deeds', hserves.trans hserves'⟩

theorem leftBy_drop (env : Env) (w : World) (action : Action) (id : Nat)
    (h : Owns B ⟨w.out, current w.out, lost⟩) :
    ∃ k, (leftBy env w action id).unread = (w.out.bufs id).unread.drop k := by
  cases action with
  | generate g => exact ⟨0, List.drop_zero.symm⟩
  | next chain => exact consumeFront_drop _ _ _ id
  | bufs =>
    obtain ⟨rc, o, hflush, hbufs, -⟩ := flushOutBuf_advances env h
    rw [leftBy_bufs hflush, ← hbufs]
    split
    · exact ⟨0, List.drop_zero.symm⟩
    · exact consumeFront_drop _ _ _ id

/-- Every buf is in one place: the one being filled while there is room in it, on
`out`, busy, free, or lost for want of memory. -/
def Placed (env : Env) (o : OutCtx) : Prop :=
  ∃ lost, Partition ⟨o.out ++ current o, o.busyBufs, o.freeBufs, lost, o.nbufs⟩ ∧
    (lost ≠ [] → ∃ k, env.alloc k = false)

theorem placed_of_advances (h : Advances env B s deeds ⟨o, current o, lost⟩)
    (hlost : s.lost ≠ [] → ∃ k, env.alloc k = false) : Placed env o := by
  refine ⟨lost, h.owns.partition, fun hne => ?_⟩
  by_cases heq : lost = s.lost
  · exact hlost (heq ▸ hne)
  · exact h.lost heq

theorem flushOutBuf_placed {rc : Int} (h : Owns B ⟨o, current o, lost⟩)
    (hlost : lost ≠ [] → ∃ k, env.alloc k = false) (hflush : flushOutBuf env o = (rc, o')) :
    Placed env o' := by
  obtain ⟨rc₁, o₁, hflush₁, -, hadv⟩ := flushOutBuf_advances env h
  cases hflush.symm.trans hflush₁
  exact placed_of_advances hadv hlost

theorem requestMem_placed {n : Nat} {area : Option Area} (hB : 1 ≤ B)
    (h : Owns B ⟨o, current o, lost⟩) (hlost : lost ≠ [] → ∃ k, env.alloc k = false)
    (hreq : requestMem env B o n = (area, o')) : Placed env o' := by
  have hsettled : Settled env B ⟨o, current o, lost⟩ (NGX_OK, o') := by
    obtain ⟨area₁, o₁, hreq₁, hfill, -⟩ | ⟨o₁, hreq₁, hfail⟩ := requestMem_filling env hB h n
    · cases hreq.symm.trans hreq₁
      exact hfill.settled
    · cases hreq.symm.trans hreq₁
      exact hfail
  obtain ⟨deeds, lost', hadv⟩ := hsettled
  exact placed_of_advances hadv hlost

/-! ## Ownership -/

/-- Nothing was written, and no buf made. -/
structure Untouched (w : World) : Prop where
  out : w.out.out = []
  busy : w.out.busyBufs = []
  free : w.out.freeBufs = []
  avail : w.out.availOut = 0
  made : w.out.nbufs = 0
  sent : sentBufs w.trace = []

theorem Untouched.cells (h : Untouched w) :
    Hold.cells ⟨w.out, current w.out, []⟩ = ⟨[], [], [], [], 0⟩ := by
  simp [Hold.cells, current, h.out, h.busy, h.free, h.avail, h.made]

theorem Untouched.owns (h : Untouched w) (B : Nat) : Owns B ⟨w.out, current w.out, []⟩ := by
  refine ⟨h.cells ▸ List.Perm.nil, fun id hid => ?_, .inl ⟨current_of_none h.avail, h.avail⟩,
    fun id hid => ?_, fun id hid => ?_⟩
  · exact absurd (h.made ▸ hid) (Nat.not_lt_zero _)
  · simp [current, h.out, h.avail] at hid
  · simp [h.free] at hid

/-- Who has the output bufs of a request that `deeds` were done to since none was
made: each went through its cycle over and over, and what is unread of a buf on
`out` or of a busy one is lost by no action, but consumed by the next filter. -/
structure BufsOwned (env : Env) (B : Nat) (w : World) (deeds : List (Deed OutBuf)) : Prop where
  placed : Placed env w.out
  requested : ∀ n area o, requestMem env B w.out n = (area, o) → Placed env o
  flushed : ∀ rc o, flushOutBuf env w.out = (rc, o) → Placed env o
  empty : ∀ id ∈ w.out.freeBufs, (w.out.bufs id).mem = []
  room : w.out.availOut ≠ 0 → w.out.availOut =
    (w.out.bufs w.out.outBuf).size - (w.out.bufs w.out.outBuf).mem.length
  cycle : ∀ id, ∃ place, Steps Cycle .free (lifeOf id deeds) place ∧
    (id ∈ w.out.out ++ current w.out → place = .taken) ∧
    (id ∈ w.out.busyBufs → place = .busy) ∧ (id ∈ w.out.freeBufs → place = .free)
  sent : sentBufs w.trace = deeds.flatMap Deed.shown
  whole : ∀ b ∈ sentBufs w.trace, b.pos = 0
  kept : ∀ action w', action.Sized B → Acts env B w action w' →
    ∀ id ∈ w.out.busyBufs ++ w.out.out,
      (w'.out.bufs id).unread = (leftBy env w action id).unread ∧
        ∃ k, (leftBy env w action id).unread = (w.out.bufs id).unread.drop k
  within : ∀ g, Generator.Sized B g → ∀ e, g.run env B w.out = .error e → NoColumn e

/-- Whatever is written, whenever it is passed on and however it is consumed, as
long as the next body filter does not fail. -/
theorem output_bufs_owned {w₀ : World} (hB : 1 ≤ B) (hstart : Untouched w₀)
    (hsized : ∀ action ∈ actions, action.Sized B) (hrun : Steps (Acts env B) w₀ actions w) :
    ∃ deeds, BufsOwned env B w deeds := by
  obtain ⟨lost, deeds, hserves⟩ := serves_run hB (hstart.owns B) hsized hrun
  have howns := hserves.owns
  have hpartition := howns.partition
  have hsent : sentBufs w.trace = deeds.flatMap Deed.shown := by
    rw [hserves.shown, hstart.sent, List.nil_append]
  refine ⟨deeds, ?_⟩
  constructor
  · exact ⟨lost, hpartition, hserves.lost⟩
  · exact fun n area o hreq => requestMem_placed hB howns hserves.lost hreq
  · exact fun rc o hflush => flushOutBuf_placed howns hserves.lost hflush
  · exact fun id hid => (howns.empty id hid).1
  · exact howns.room
  · intro id
    have hcycle := steps_cycle hserves.path (hstart.owns B).partition id
    rw [hstart.cells] at hcycle
    have htaken (hin : id ∈ (Hold.cells ⟨w.out, current w.out, lost⟩).taken) := place_taken hin
    exact ⟨_, hcycle, htaken, hpartition.place_busy, hpartition.place_free⟩
  · exact hsent
  · exact fun b hb => hserves.whole b (hsent ▸ hb)
  · intro action w' hsize hact id hid
    exact ⟨(hact.serves hB howns hsize).2 id hid, leftBy_drop env w action id howns⟩
  · intro g hsize e he
    have hyields := run_settled env hB howns g hsize
    rw [he] at hyields
    exact hyields

/-- Surroundings in which the next filter consumes one byte a call. -/
def slow : Env := { calm with consume := fun _ => 1 }

/-- A buf of two bytes is filled and passed on, and its first byte consumed. -/
theorem output_bufs_owned_slow : ∃ w deeds,
    Steps (Acts slow 2) (request (plainConf 2) true)
      [.generate (.literal true (lit "[1,") false), .bufs] w ∧ BufsOwned slow 2 w deeds := by
  have hstart : Untouched (request (plainConf 2) true) := ⟨rfl, rfl, rfl, rfl, rfl, rfl⟩
  have hrun : Steps (Acts slow 2) (request (plainConf 2) true)
      [.generate (.literal true (lit "[1,") false), .bufs] _ :=
    .cons (.generate rfl) (.single (.bufs rfl fun _ => rfl))
  have hsized : ∀ action ∈ [Action.generate (.literal true (lit "[1,") false), .bufs],
      action.Sized 2 := by
    simp [Action.Sized, Generator.Sized]
  obtain ⟨deeds, howned⟩ := output_bufs_owned (by decide) hstart hsized hrun
  exact ⟨_, deeds, hrun, howned⟩

end RdsJson.OwnedBufs
