import RdsJson.Ownership
import RdsJson.Runs

/-! # What a call does to the output

The processors touch the output only through the output functions, through
allocations, and through what the next filter consumes. What these keep, a call
keeps up to its flush. -/
namespace RdsJson.Frame
open RdsJson.Lib.LittleEndian RdsJson.Lib.TailLoop RdsJson.Lib.Outcome RdsJson.Nginx RdsJson.Rds
open RdsJson.Conf RdsJson.Context RdsJson.OutputMem RdsJson.Output RdsJson.Processor RdsJson.Sizes
open RdsJson.Turns

/-- What is kept of the output side of a context. -/
structure Framed (env : Env) (B : Nat) (K : OutCtx → Prop) : Prop where
  alloc : ∀ o n, K o → K { o with allocs := n }
  write : ∀ (g : Generator) o, K o → g.Sized B →
    Yields (fun _ => True) (g.run env B o) fun x => K x.2
  consume : ∀ o n, K o → K { o with bufs := consumeFront n o.busyBufs o.bufs }

variable {env : Env} {conf : LocConf} {K : OutCtx → Prop} {w : World} {c : Cursor}

/-- It holds, under the configuration of the request. -/
def Kept (K : OutCtx → Prop) (conf : LocConf) (w : World) : Prop := K w.out ∧ w.r.conf = conf

/-- What a turn does, and what the loop does with it. -/
def Keeps (K : OutCtx → Prop) (conf : LocConf) (step : Step) : Prop :=
  Yields (fun _ => True) step
    (Turn.Leads (fun e => Kept K conf e.w) fun r => Kept K conf r.w)

theorem keeps_ret {rc : Int} (h : Kept K conf w) : Keeps K conf (ret rc w c) := h

theorem keeps_enter {s : State} (h : Kept K conf w) : Keeps K conf (enter s w c) := h

/-- A fault is no way to break anything. -/
theorem keeps_bind {α : Type} {x : Except Fault α} {f : α → Step} {P : α → Prop}
    (hx : Yields (fun _ => True) x P) (hf : ∀ a, P a → Keeps K conf (f a)) :
    Keeps K conf (x >>= f) :=
  hx.bind hf

theorem yields_any {α : Type} (x : Except Fault α) : Yields (fun _ => True) x fun _ => True := by
  cases x <;> trivial

theorem Framed.generate (h : Framed env conf.bufBytes K) (hk : Kept K conf w) (g : Generator)
    (hsized : g.Sized conf.bufBytes) :
    Yields (fun _ => True) (g.run env conf.bufBytes w.out) fun x => Kept K conf { w with out := x.2 } :=
  (h.write g w.out hk.1 hsized).mono fun _ hx => ⟨hx, hk.2⟩

theorem Framed.literal (h : Framed env conf.bufBytes K) (hk : Kept K conf w) (main : Bool)
    (data : Bytes) (lastBuf : Bool) :
    Yields (fun _ => True) (outputLiteral env w.r.conf.bufBytes main w.out data lastBuf)
      fun x => Kept K conf { w with out := x.2 } := by
  rw [hk.2]
  exact h.generate hk (.literal main data lastBuf) trivial

theorem Framed.cols (h : Framed env conf.bufBytes K) (hk : Kept K conf w) (ctx : Ctx) :
    Yields (fun _ => True) (outputCols env w.r ctx w.out)
      fun x => Kept K conf { w with out := x.2.2 } := by
  have hcols := h.generate hk (.cols w.r ctx) (congrArg LocConf.bufBytes hk.2)
  rw [Generator.run] at hcols
  cases hrun : outputCols env w.r ctx w.out with
  | ok x =>
    rw [hrun] at hcols
    exact hcols
  | error e => trivial

/-! ## The headers -/

theorem Framed.palloc (h : Framed env conf.bufBytes K) (hk : Kept K conf w) :
    Kept K conf (w.palloc env).2 :=
  ⟨h.alloc w.out _ hk.1, hk.2⟩

/-- With the context off the request the special buf passes the module by. -/
theorem Framed.sendSpecial (h : Framed env conf.bufBytes K) (hk : Kept K conf w)
    (hset : w.ctxSet = false) :
    Yields (fun _ => True) (sendSpecial env w) fun x => Kept K conf x.2 := by
  have hkept := h.palloc hk
  unfold Processor.sendSpecial World.palloc OutCtx.palloc
  dsimp only
  split
  · exact hkept
  · rw [if_pos (.inr (by rw [hset]; rfl))]
    exact ⟨h.consume _ _ hkept.1, hk.2⟩

theorem Framed.invalid (h : Framed env conf.bufBytes K) (hk : Kept K conf w) :
    Keeps K conf (invalid env w c) := by
  unfold Processor.invalid
  split
  · dsimp only
    rw [sendHeader_error env rfl]
    exact keeps_bind (h.sendSpecial hk rfl) fun x hx => keeps_ret hx
  · exact keeps_ret hk

theorem kept_sendPostponedHeader (hk : Kept K conf w) :
    Kept K conf (sendPostponedHeader env w).2 := by
  unfold sendPostponedHeader
  split
  · exact hk
  · exact hk

theorem Framed.processHeader (h : Framed env conf.bufBytes K) (hk : Kept K conf w) :
    Keeps K conf (processHeader env w c) := by
  unfold Processor.processHeader
  split
  · exact keeps_ret hk
  · exact h.invalid hk
  · next passed b next =>
    refine keeps_bind (yields_any _) ?_
    rintro ⟨header?, b'⟩ -
    dsimp only
    split
    · exact h.invalid hk
    · next header =>
      split
      · split
        · exact h.invalid hk
        · have hsent := @kept_sendPostponedHeader env conf K
            { w with ctx := { w.ctx with state := .done } } hk
          split
          · exact keeps_ret hsent
          · refine keeps_bind (h.generate hsent (.header _ header) (by
              rw [Generator.Sized, hsent.2])) fun x hx => ?_
            split
            · exact keeps_ret hx
            · exact keeps_ret hx
      · have hpalloc := h.palloc hk
        split
        · exact h.invalid hpalloc
        · have hsent := @kept_sendPostponedHeader env conf K { (w.palloc env).2 with
            ctx := { (w.palloc env).2.ctx with
              cols := List.replicate header.colCount.toNat none
              state := .expectCol
              curCol := 0
              colCount := header.colCount.toNat } } hpalloc
          split
          · exact keeps_ret hsent
          · exact keeps_enter hsent

/-! ## Column specs -/

theorem Framed.beginRows (h : Framed env conf.bufBytes K) (hk : Kept K conf w) :
    Yields (fun _ => True) (beginRows env w) fun x => Kept K conf x.2 := by
  have hconf := hk.2
  have hprops : Yields (fun _ => True)
      (if w.r.conf.root.len ≠ 0 then outputProps env w.r w.out else .ok (NGX_OK, w.out))
      fun x => Kept K conf { w with out := x.2 } := by
    split
    · exact h.generate hk (.props w.r) (by rw [Generator.Sized, hconf])
    · exact hk
  unfold Processor.beginRows
  refine hprops.bind fun x hx => ?_
  dsimp only
  split
  · exact hx
  · refine (h.literal hx w.r.main (lit "[") false).bind fun y hy => ?_
    split
    · exact hy
    · split
      · exact (h.cols hy _).bind fun z hz => hz
      · exact hy

theorem Framed.processCol (h : Framed env conf.bufBytes K) (hk : Kept K conf w) :
    Keeps K conf (processCol env w c) := by
  unfold Processor.processCol
  split
  · exact keeps_ret hk
  · exact keeps_ret hk
  · next passed b next =>
    split
    · trivial
    · have hpalloc := h.palloc hk
      refine keeps_bind (yields_any _) fun x _ => ?_
      dsimp only
      split
      · exact keeps_ret hpalloc
      · next col hcol =>
        split
        · refine keeps_bind (h.beginRows (w := { (w.palloc env).2 with
            ctx := { (w.palloc env).2.ctx with
              cols := (w.palloc env).2.ctx.cols.set (w.palloc env).2.ctx.curCol (some col)
              curCol := (w.palloc env).2.ctx.curCol + 1 } }) hpalloc) fun y hy => ?_
          split
          · exact keeps_ret hy
          · exact keeps_enter hy
        · exact keeps_enter hpalloc

/-! ## Rows and fields -/

theorem Framed.processRow (h : Framed env conf.bufBytes K) (hk : Kept K conf w) :
    Keeps K conf (processRow env w c) := by
  unfold Processor.processRow
  split
  · exact keeps_ret hk
  · exact keeps_ret hk
  · next passed b next =>
    split
    · exact keeps_ret hk
    · refine keeps_bind (yields_any _) fun x _ => ?_
      dsimp only
      split
      · split
        · exact keeps_ret hk
        · exact keeps_bind (h.literal hk w.r.main _ true) fun y hy => keeps_ret hy
      · exact keeps_enter hk

theorem keeps_endField (hk : Kept K conf w) : Keeps K conf (endField w c) := by
  unfold endField
  dsimp only
  split
  · exact keeps_enter hk
  · exact keeps_enter hk

theorem keeps_nextField {P : Prop} [Decidable P] {s : State} {w' : World} (hk : Kept K conf w)
    (hk' : Kept K conf w') : Keeps K conf (if P then enter s w c else endField w' c) := by
  split
  · exact keeps_enter hk
  · exact keeps_endField hk'

theorem Framed.processField (h : Framed env conf.bufBytes K) (hk : Kept K conf w) :
    Keeps K conf (processField env w c) := by
  unfold Processor.processField
  split
  · exact keeps_ret hk
  · exact keeps_ret hk
  · next passed b next =>
    split
    · exact keeps_ret hk
    · refine keeps_bind (yields_any _) fun x _ => ?_
      refine keeps_bind (yields_any _) fun data _ => ?_
      refine keeps_bind (h.generate hk (.field w.r _ data _) (congrArg LocConf.bufBytes hk.2)) ?_
      rintro ⟨rc, out⟩ hy
      dsimp only
      split
      · exact keeps_ret hy
      · exact keeps_nextField hy hy

theorem Framed.processMoreFieldData (h : Framed env conf.bufBytes K) (hk : Kept K conf w) :
    Keeps K conf (processMoreFieldData env w c) := by
  unfold Processor.processMoreFieldData
  split
  · exact keeps_ret hk
  · next b next hc =>
    split
    · exact keeps_ret hk
    · refine keeps_bind (yields_any _) fun data _ => ?_
      refine keeps_bind (h.generate hk (.moreFieldData w.r _ data)
        (congrArg LocConf.bufBytes hk.2)) ?_
      rintro ⟨rc, out⟩ hy
      dsimp only
      split
      · exact keeps_ret hy
      · exact keeps_nextField hy hy

/-! ## All turns of a call -/

theorem Framed.process (h : Framed env conf.bufBytes K) {e : Entry} (hk : Kept K conf e.w) :
    Keeps K conf (process env e) := by
  unfold Processor.process
  cases e.state with
  | expectHeader => exact h.processHeader hk
  | expectCol => exact h.processCol hk
  | expectRow => exact h.processRow hk
  | expectField => exact h.processField hk
  | expectMoreFieldData => exact h.processMoreFieldData hk
  | done => exact keeps_ret hk

/-- Whatever the chain holds, and however the processors end. -/
theorem Framed.processLoop (h : Framed env w.r.conf.bufBytes K) (hk : K w.out) (c : Cursor) :
    Yields (fun _ => True) ((processLoop env).run ⟨w.ctx.state, w, c⟩) fun r => K r.w.out :=
  ((Processor.processLoop env).run_yields (I := fun e => Kept K w.r.conf e.w)
    (fun _ he => h.process he) _ ⟨hk, rfl⟩).mono fun _ hr => hr.1

end RdsJson.Frame
