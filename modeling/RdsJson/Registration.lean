import RdsJson.Bypass
import RdsJson.Directives
import RdsJson.Lib.Links

/-! # When the filters are registered

The filters of ngx_http_rds_json_filter_module.c put themselves in front of the
filter chains where a configuration uses them. A configuration may have more than
one `http` block; each builds the chains anew, and all requests go through those
of the last. -/
namespace RdsJson.Registration
open RdsJson.Lib.LittleEndian RdsJson.Lib.Links RdsJson.Conf RdsJson.Context RdsJson.Blocks
open RdsJson.Levels RdsJson.Runs RdsJson.Directives RdsJson.Bypass

/-- `ngx_http_rds_json_main_conf_t`. -/
structure MainConf where
  requiresFilters : Bool

/-- `ngx_http_rds_json_create_main_conf`. -/
def createMainConf : MainConf := ⟨false⟩

/-- `ngx_http_rds_json` raises the flag whatever its argument; no other directive
does. -/
def MainConf.apply (main : MainConf) : Directive → MainConf
  | .rdsJson _ => { main with requiresFilters := true }
  | _ => main

/-- The main configuration once the directives of an `http` block are read, those of
the blocks in it included. -/
def mainConf (lines : List Directive) : MainConf := lines.foldl MainConf.apply createMainConf

/-- Whose filter it is: the first one that nginx registers, which calls no other, this
module's, or that of another module. -/
inductive Module where
  | core
  | rdsJson
  | other (n : Nat)
  deriving DecidableEq

/-- `ngx_http_rds_json_prev_cycle` and `ngx_cycle`, and the two chains of filters. -/
structure Globals where
  prevCycle : Option Nat
  cycle : Nat
  header : Chain Module
  body : Chain Module

/-- `ngx_http_rds_json_filter_init`. -/
def filterInit (main : MainConf) (g : Globals) : Globals :=
  let (multiHttpBlocks, g) :=
    if g.prevCycle ≠ some g.cycle then (false, { g with prevCycle := some g.cycle }) else (true, g)
  if multiHttpBlocks || main.requiresFilters then
    { g with header := g.header.push .rdsJson, body := g.body.push .rdsJson }
  else g

/-- An `http` block: its directives, and which modules register filters before and
behind this one. -/
structure HttpBlock where
  lines : List Directive
  headerBefore : List Nat
  headerBehind : List Nat
  bodyBefore : List Nat
  bodyBehind : List Nat

def others (ids : List Nat) : List Module := ids.map .other

/-- The chains begin with nginx's own filters. -/
def reset (g : Globals) : Globals :=
  { g with header := { g.header with top := .core }, body := { g.body with top := .core } }

def register (header body : List Nat) (g : Globals) : Globals :=
  { g with
    header := (others header).foldl Chain.push g.header
    body := (others body).foldl Chain.push g.body }

def HttpBlock.init (g : Globals) (b : HttpBlock) : Globals :=
  register b.headerBehind b.bodyBehind
    (filterInit (mainConf b.lines) (register b.headerBefore b.bodyBefore (reset g)))

/-- No module registers twice. -/
structure HttpBlock.Distinct (b : HttpBlock) : Prop where
  header : (b.headerBefore ++ b.headerBehind).Nodup
  body : (b.bodyBefore ++ b.bodyBehind).Nodup

/-- The `http` blocks of one configuration. -/
def load (g : Globals) (blocks : List HttpBlock) : Globals := blocks.foldl HttpBlock.init g

/-- What may be between two configurations since nginx was started, and whether one
with an `http` block has failed since the last that did not. A new cycle is not where
the one is that the module remembers. -/
inductive History : Globals → Bool → Prop
  | start (cycle : Nat) (header body : Chain Module) : History ⟨none, cycle, header, body⟩ false
  | loaded {g : Globals} {stale : Bool} {blocks : List HttpBlock} {cycle : Nat}
      (h : History g stale) (hnew : (load g blocks).prevCycle ≠ some cycle) :
      History { load g blocks with cycle := cycle } false
  | failed {g : Globals} {stale : Bool} {blocks : List HttpBlock} (h : History g stale) :
      History (load g blocks) (stale || !blocks.isEmpty)

/-! ## One block -/

variable {g : Globals} {b : HttpBlock}

theorem requires_iff (lines : List Directive) :
    (mainConf lines).requiresFilters = true ↔ ∃ on, Directive.rdsJson on ∈ lines := by
  have hfold (main : MainConf) : (lines.foldl MainConf.apply main).requiresFilters = true ↔
      main.requiresFilters = true ∨ ∃ on, Directive.rdsJson on ∈ lines := by
    induction lines generalizing main with
    | nil => simp
    | cons d lines ih =>
      rw [List.foldl_cons, ih]
      cases d <;> simp [MainConf.apply]
  rw [mainConf, hfold]
  simp [createMainConf]

/-- What the module puts in front of the chains. -/
def own (registered : Prop) [Decidable registered] : List Module :=
  if registered then [.rdsJson] else []

theorem filterInit_eq (main : MainConf) (g : Globals) :
    filterInit main g = { g with
      prevCycle := some g.cycle
      header := (own (g.prevCycle = some g.cycle ∨ main.requiresFilters = true)).foldl Chain.push
        g.header
      body := (own (g.prevCycle = some g.cycle ∨ main.requiresFilters = true)).foldl Chain.push
        g.body } := by
  unfold filterInit own
  by_cases hsame : g.prevCycle = some g.cycle
  · rw [if_neg (not_not_intro hsame), if_pos (.inl hsame), ← hsame]
    rfl
  · rw [if_pos hsame]
    cases hreq : main.requiresFilters with
    | true => simp
    | false => simp [hsame]

theorem init_cycle (b : HttpBlock) (g : Globals) :
    (b.init g).cycle = g.cycle ∧ (b.init g).prevCycle = some g.cycle := by
  unfold HttpBlock.init
  rw [filterInit_eq]
  exact ⟨rfl, rfl⟩

theorem own_reverse (registered : Prop) [Decidable registered] :
    (own registered).reverse = own registered := by
  unfold own
  split
  · rfl
  · rfl

/-- A chain in the order of calls: who registers last is called first. -/
def filters (before behind : List Nat) (registered : Prop) [Decidable registered] : List Module :=
  (others behind).reverse ++ (own registered ++ ((others before).reverse ++ [.core]))

/-- One chain, built from the filters before the module's, the module's own and those
behind it. -/
theorem calls_filters {c : Chain Module} {before behind : List Nat} (registered : Prop)
    [Decidable registered] (hnodup : (before ++ behind).Nodup) (htop : c.top = .core) :
    ((others behind).foldl Chain.push ((own registered).foldl Chain.push
      ((others before).foldl Chain.push c))).Calls .core (filters before behind registered) := by
  have hcore : c.Calls .core [.core] := by
    rw [Chain.Calls, htop]
    exact .last
  have hinj : Function.Injective Module.other := fun _ _ heq => Module.other.inj heq
  obtain ⟨hbefore, hbehind, hapart⟩ := List.nodup_append.mp hnodup
  have hfirst := hcore.pushes (hbefore.map hinj) (by simp)
  have hown : (own registered).Nodup ∧
      ∀ m ∈ own registered, m ∉ (others before).reverse ++ [.core] := by
    unfold own
    split <;> simp [others]
  have hsecond := hfirst.pushes hown.1 hown.2
  rw [own_reverse] at hsecond
  refine hsecond.pushes (hbehind.map hinj) fun m hm => ?_
  obtain ⟨id, hid, rfl⟩ := List.mem_map.mp hm
  have hother : id ∉ before := fun hin => hapart id hin id hid rfl
  unfold own
  split <;> simp [hother]

theorem calls_of_init (hb : b.Distinct) (g : Globals) :
    (b.init g).header.Calls .core (filters b.headerBefore b.headerBehind
        (g.prevCycle = some g.cycle ∨ (mainConf b.lines).requiresFilters = true)) ∧
      (b.init g).body.Calls .core (filters b.bodyBefore b.bodyBehind
        (g.prevCycle = some g.cycle ∨ (mainConf b.lines).requiresFilters = true)) := by
  unfold HttpBlock.init
  rw [filterInit_eq]
  exact ⟨calls_filters _ hb.header rfl, calls_filters _ hb.body rfl⟩

/-! ## Many configurations -/

theorem load_cycle (g : Globals) (blocks : List HttpBlock) :
    (load g blocks).cycle = g.cycle ∧
      (load g blocks).prevCycle = if blocks = [] then g.prevCycle else some g.cycle := by
  unfold load
  induction blocks using List.reverseRecOn with
  | nil => exact ⟨rfl, rfl⟩
  | append_singleton blocks b ih =>
    obtain ⟨hcycle, hprev⟩ := init_cycle b (blocks.foldl HttpBlock.init g)
    rw [List.foldl_append, List.foldl_cons, List.foldl_nil, if_neg (by simp), hcycle, hprev, ih.1]
    exact ⟨rfl, rfl⟩

theorem History.stale_iff {stale : Bool} (h : History g stale) :
    g.prevCycle = some g.cycle ↔ stale = true := by
  induction h with
  | start => simp
  | loaded h hnew ih => exact iff_of_false hnew Bool.false_ne_true
  | @failed g stale blocks h ih =>
    obtain ⟨hcycle, hprev⟩ := load_cycle g blocks
    rw [hcycle, hprev]
    cases blocks with
    | nil => simpa using ih
    | cons b blocks => simp

theorem filters_congr {registered registered' : Prop} [Decidable registered]
    [Decidable registered'] (before behind : List Nat) (h : registered ↔ registered') :
    filters before behind registered = filters before behind registered' := by
  unfold filters own
  rw [if_congr h rfl rfl]

/-- The last block of a configuration finds that there was another, or has `rds_json`. -/
def Registers (g : Globals) (front : List HttpBlock) (b : HttpBlock) : Prop :=
  (load g front).prevCycle = some (load g front).cycle ∨ (mainConf b.lines).requiresFilters = true

instance (g : Globals) (front : List HttpBlock) (b : HttpBlock) : Decidable (Registers g front b) :=
  inferInstanceAs (Decidable (_ ∨ _))

theorem registers_iff {stale : Bool} {front : List HttpBlock} (h : History g stale) :
    Registers g front b ↔ (∃ b' ∈ front ++ [b], ∃ on, Directive.rdsJson on ∈ b'.lines) ∨
      front ≠ [] ∨ stale = true := by
  obtain ⟨hcycle, hprev⟩ := load_cycle g front
  rw [Registers, requires_iff, hcycle, hprev]
  cases front with
  | nil =>
    rw [if_pos rfl, h.stale_iff]
    simp [or_comm]
  | cons b' front => simp

theorem calls_of_load (hb : b.Distinct) (g : Globals) (front : List HttpBlock) :
    (load g (front ++ [b])).header.Calls .core
        (filters b.headerBefore b.headerBehind (Registers g front b)) ∧
      (load g (front ++ [b])).body.Calls .core
        (filters b.bodyBefore b.bodyBehind (Registers g front b)) := by
  have hload : load g (front ++ [b]) = b.init (load g front) := by
    simp [load, List.foldl_append]
  rw [hload]
  exact calls_of_init hb (load g front)

/-- Once a configuration is read, its requests go through both filters of the module
or through neither, each once and in the same place of its chain; they are there if
any `http` block has `rds_json`, and otherwise only if there is more than one block, or
the configuration read before this one failed. -/
theorem filters_registered {stale : Bool} {front : List HttpBlock} (h : History g stale)
    (hb : b.Distinct) :
    ∃ registered : Bool,
      (load g (front ++ [b])).header.Calls .core
        (filters b.headerBefore b.headerBehind (registered = true)) ∧
      (load g (front ++ [b])).body.Calls .core
        (filters b.bodyBefore b.bodyBehind (registered = true)) ∧
      (registered = true ↔ (∃ b' ∈ front ++ [b], ∃ on, Directive.rdsJson on ∈ b'.lines) ∨
        front ≠ [] ∨ stale = true) := by
  obtain ⟨hheader, hbody⟩ := calls_of_load hb g front
  refine ⟨decide (Registers g front b), ?_, ?_, decide_eq_true_iff.trans (registers_iff h)⟩
  · rw [filters_congr _ _ decide_eq_true_iff]
    exact hheader
  · rw [filters_congr _ _ decide_eq_true_iff]
    exact hbody

/-- A block without `rds_json`, and a filter of another module on either side. -/
def unused : HttpBlock := ⟨[.root [97]], [1], [2], [1], [2]⟩

/-- Nginx before it reads anything. -/
def fresh : Globals := ⟨none, 0, ⟨.core, id⟩, ⟨.core, id⟩⟩

/-- The first configuration fails, and the second is registered for without need. -/
theorem filters_registered_failed :
    (load (load fresh [unused]) [unused]).header.Calls .core
      [.other 2, .rdsJson, .other 1, .core] := by
  have hhistory : History (load fresh [unused]) true := .failed (.start 0 ⟨.core, id⟩ ⟨.core, id⟩)
  have hdistinct : unused.Distinct := ⟨by decide, by decide⟩
  obtain ⟨registered, hheader, -, hiff⟩ := @filters_registered _ unused true [] hhistory hdistinct
  obtain rfl : registered = true := hiff.mpr (.inr (.inr rfl))
  exact hheader

/-! ## Whether they are missed -/

variable {env : Env} {w : World} {compiles : Bytes → Bool} {pagesize : Nat} {levels : List Block}

theorem mem_filters {registered : Prop} [Decidable registered] (before behind : List Nat)
    (h : registered) : Module.rdsJson ∈ filters before behind registered := by
  simp [filters, own, h]

/-- `rds_json` is on nowhere but where a block says so. -/
theorem line_of_enabled (hconf : InEffect compiles pagesize levels w.r.conf)
    (hon : w.r.conf.enabled = some true) :
    ∃ block ∈ levels, ∃ on, Directive.rdsJson on ∈ block := by
  have hsetting : setting enabledLine false levels = true :=
    Option.some.inj ((settled_of_inEffect hconf).enabled.symm.trans hon)
  unfold setting innermost at hsetting
  cases hfind : levels.reverse.findSome? (List.findSome? enabledLine) with
  | none =>
    rw [hfind] at hsetting
    cases hsetting
  | some on =>
    obtain ⟨block, hblock, hline⟩ := List.exists_of_findSome?_eq_some hfind
    obtain ⟨d, hd, hgives⟩ := List.exists_of_findSome?_eq_some hline
    cases d with
    | rdsJson on' => exact ⟨block, List.mem_reverse.mp hblock, on', hd⟩
    | _ => cases hgives

/-- Where `rds_json` is on, the filters are in both chains, whatever was read before; and
where it is off they would do nothing, so that they are not missed where they are not. -/
theorem registered_where_needed {stale : Bool} {front : List HttpBlock} {b' : HttpBlock}
    (h : History g stale) (hb : b.Distinct) (hmem : b' ∈ front ++ [b])
    (hlevels : ∀ block ∈ levels, block ⊆ b'.lines)
    (hconf : InEffect compiles pagesize levels w.r.conf) (hset : w.ctxSet = false) :
    (w.r.conf.enabled = some true → ∃ as bs,
      (load g (front ++ [b])).header.Calls .core as ∧ Module.rdsJson ∈ as ∧
        (load g (front ++ [b])).body.Calls .core bs ∧ Module.rdsJson ∈ bs) ∧
      (w.r.conf.enabled ≠ some true → ∀ ops, ∃ w',
        runOps env w ops = .ok (answers env w.trace.length ops, w') ∧
          w'.trace = w.trace ++ ops.map Op.event) := by
  constructor
  · intro hon
    obtain ⟨block, hblock, on, hline⟩ := line_of_enabled hconf hon
    have hregisters : Registers g front b :=
      (registers_iff h).mpr (.inl ⟨b', hmem, on, hlevels block hblock hline⟩)
    obtain ⟨hheader, hbody⟩ := calls_of_load hb g front
    exact ⟨_, _, hheader, mem_filters _ _ hregisters, hbody, mem_filters _ _ hregisters⟩
  · intro hoff ops
    have hnone : ∀ op ∈ ops, ¬ op.Taken w.r.conf := by
      intro op hop htaken
      cases op with
      | header status contentType => exact hoff htaken.2.1
      | body chain => exact htaken
    obtain ⟨w', hrun, htrace, -⟩ := @passed_ops env w ops (.inl hset) hnone
    exact ⟨w', hrun, htrace⟩

/-- A location of a second `http` block, under a configuration that is read first. -/
def used : HttpBlock := ⟨[.rdsJson true, .root [97]], [1], [2], [1], [2]⟩

theorem registered_where_needed_used : ∃ as bs,
    (load fresh [unused, used]).header.Calls .core as ∧ Module.rdsJson ∈ as ∧
      (load fresh [unused, used]).body.Calls .core bs ∧ Module.rdsJson ∈ bs := by
  have hconf : InEffect literal 4096 [[], [.rdsJson true]] (request (plainConf 4096) true).r.conf :=
    .merged rfl rfl
  refine (@registered_where_needed fresh used calm (request (plainConf 4096) true) literal 4096
    [[], [.rdsJson true]] false [unused] used (.start 0 ⟨.core, id⟩ ⟨.core, id⟩)
    ⟨by decide, by decide⟩ (by simp) (by simp [used]) hconf rfl).1 rfl

end RdsJson.Registration
