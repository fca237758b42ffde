import RdsJson.Runs

/-! # Responses that are none of the module's

The filters are in the way of every response of a server that uses the module
anywhere. Up to a header that announces a result set, and behind the header of an
error page, they pass everything on as it is. -/
namespace RdsJson.Bypass
open RdsJson.Lib.LittleEndian RdsJson.Lib.Outcome RdsJson.Nginx RdsJson.Util RdsJson.Rds
open RdsJson.Conf RdsJson.Context RdsJson.Processor RdsJson.FilterModule RdsJson.Runs

/-- What nginx asks of the filters of a request: to send a header as it was set before,
or a piece of the body. -/
inductive Op where
  | header (status : Nat) (contentType : Bytes)
  | body (chain : List Buf)

def Op.run (env : Env) (w : World) : Op → Except Fault (Int × World)
  | .header status contentType =>
    .ok (sendHeader env { w with r := { w.r with status := status, contentType := contentType } })
  | .body chain => do
    let ret ← bodyFilter env w chain
    .ok (ret.rc, ret.w)

def runOps (env : Env) (w : World) : List Op → Except Fault (List Int × World)
  | [] => .ok ([], w)
  | op :: ops => do
    let (rc, w) ← op.run env w
    let (rcs, w) ← runOps env w ops
    .ok (rc :: rcs, w)

/-! ## Without the module -/

def Op.event : Op → Event
  | .header status _ => .header status
  | .body chain => .body chain

/-- What the filters below return, `k` events before it. -/
def Op.answer (env : Env) (k : Nat) : Op → Int
  | .header _ _ => env.headerRc k
  | .body _ => env.bodyRc k

def answers (env : Env) : Nat → List Op → List Int
  | _, [] => []
  | k, op :: ops => op.answer env k :: answers env (k + 1) ops

/-! ## With it -/

/-- A status that a result set may come with. -/
def Successful (status : Nat) : Prop :=
  NGX_HTTP_OK ≤ status ∧ status < NGX_HTTP_SPECIAL_RESPONSE ∧ status ≠ NGX_HTTP_NO_CONTENT ∧
    status ≠ NGX_HTTP_RESET_CONTENT

/-- A header that announces a result set, where they are translated. -/
def Op.Taken (conf : LocConf) : Op → Prop
  | .header status contentType =>
    Successful status ∧ conf.enabled = some true ∧ contentType = rdsContentType
  | .body _ => False

/-- No response is in the hands of the module: none was, or an error page comes. -/
def Clear (w : World) (ops : List Op) : Prop :=
  w.ctxSet = false ∨ ∃ status contentType ops',
    ops = .header status contentType :: ops' ∧ ¬ Successful status

variable {env : Env} {w : World} {op : Op} {ops : List Op}

/-- What an operation leaves behind that passes the module. -/
structure Passed (env : Env) (w : World) (op : Op) (w' : World) : Prop where
  run : op.run env w = .ok (op.answer env w.trace.length, w')
  trace : w'.trace = w.trace ++ [op.event]
  conf : w'.r.conf = w.r.conf
  cleared : w'.ctxSet = false

theorem testContentType_iff (s : Bytes) : testContentType s = true ↔ s = rdsContentType := by
  simp only [testContentType, Bool.and_eq_true, beq_iff_eq]
  exact ⟨And.right, fun h => ⟨congrArg List.length h, h⟩⟩

theorem successful_iff (status : Nat) : Successful status ↔
    ¬ (status < NGX_HTTP_OK ∨ status ≥ NGX_HTTP_SPECIAL_RESPONSE ∨
      status = NGX_HTTP_NO_CONTENT ∨ status = NGX_HTTP_RESET_CONTENT) := by
  unfold Successful
  omega

theorem headerFilter_passed (w : World)
    (hnot : ¬ (Op.header w.r.status w.r.contentType).Taken w.r.conf) :
    headerFilter env w = nextHeaderFilter env w ∧ Successful w.r.status ∨
      headerFilter env w = nextHeaderFilter env { w with ctxSet := false } ∧
        ¬ Successful w.r.status := by
  unfold headerFilter
  split
  · next hbad => exact .inr ⟨rfl, fun hgood => (successful_iff _).mp hgood hbad⟩
  · next hgood =>
    have hgood : Successful w.r.status := (successful_iff _).mpr hgood
    refine .inl ⟨?_, hgood⟩
    split
    · rfl
    · next henabled =>
      rw [if_pos]
      rw [Bool.not_eq_true', ← Bool.not_eq_true, testContentType_iff]
      exact fun hcontent => hnot ⟨hgood, not_not.mp henabled, hcontent⟩

/-- The context is on the request, and the header postponed. -/
structure Installed (w w' : World) : Prop where
  installed : w'.ctxSet = true
  state : w'.ctx.state = .expectHeader
  unsent : w'.ctx.headerSent = false
  headerOnly : w'.r.headerOnly = w.r.headerOnly
  main : w'.r.main = w.r.main
  status : w'.r.status = w.r.status
  conf : w'.r.conf = w.r.conf
  trace : w'.trace = w.trace

theorem headerFilter_taken (htaken : (Op.header w.r.status w.r.contentType).Taken w.r.conf) :
    (∃ w', headerFilter env w = (NGX_ERROR, w') ∧ w'.trace = w.trace ∧
        ∃ k, env.alloc k = false) ∨
      ∃ w', headerFilter env w = (NGX_OK, w') ∧ Installed w w' := by
  obtain ⟨hgood, henabled, hcontent⟩ := htaken
  have hcontent : testContentType w.r.contentType = true := (testContentType_iff _).mpr hcontent
  rw [headerFilter, if_neg ((successful_iff _).mp hgood), if_neg (not_not_intro henabled), hcontent]
  unfold World.palloc OutCtx.palloc
  dsimp only
  cases halloc : env.alloc w.out.allocs with
  | false => exact .inl ⟨_, rfl, rfl, _, halloc⟩
  | true => exact .inr ⟨_, rfl, rfl, rfl, rfl, rfl, rfl, rfl, rfl, rfl⟩

theorem header_passed {status : Nat} {contentType : Bytes}
    (hnot : ¬ (Op.header status contentType).Taken w.r.conf)
    (hclear : w.ctxSet = false ∨ ¬ Successful status) :
    ∃ w', Passed env w (.header status contentType) w' := by
  obtain ⟨hrun, hgood⟩ | ⟨hrun, -⟩ := @headerFilter_passed env
    { w with r := { w.r with status := status, contentType := contentType } } hnot
  · exact ⟨_, congrArg Except.ok hrun, rfl, rfl, hclear.resolve_right (not_not_intro hgood)⟩
  · exact ⟨_, congrArg Except.ok hrun, rfl, rfl, rfl⟩

theorem body_passed (hset : w.ctxSet = false) (chain : List Buf) :
    ∃ w', Passed env w (.body chain) w' := by
  have hrun : bodyFilter env w chain =
      .ok ⟨(nextBodyFilter env w chain).1, (nextBodyFilter env w chain).2, ⟨[], chain⟩⟩ := by
    unfold bodyFilter
    split
    · rfl
    · rw [if_pos (by simp [hset])]
  refine ⟨(nextBodyFilter env w chain).2, ?_, rfl, rfl, hset⟩
  rw [Op.run, hrun]
  rfl

theorem passed_of_clear (hclear : Clear w (op :: ops)) (hnot : ¬ op.Taken w.r.conf) :
    ∃ w', Passed env w op w' := by
  cases op with
  | header status contentType =>
    refine header_passed hnot (hclear.imp_right ?_)
    rintro ⟨status', contentType', ops', hops, hbad⟩
    cases hops
    exact hbad
  | body chain =>
    refine body_passed (hclear.resolve_right ?_) chain
    rintro ⟨status, contentType, ops', hops, -⟩
    cases hops

theorem passed_ops (hclear : Clear w ops) (hnone : ∀ op ∈ ops, ¬ op.Taken w.r.conf) :
    ∃ w', runOps env w ops = .ok (answers env w.trace.length ops, w') ∧
      w'.trace = w.trace ++ ops.map Op.event ∧ w'.r.conf = w.r.conf ∧ w'.ctxSet = false := by
  induction ops generalizing w with
  | nil =>
    refine ⟨w, rfl, (List.append_nil _).symm, rfl, hclear.resolve_right ?_⟩
    rintro ⟨status, contentType, ops', hops, -⟩
    cases hops
  | cons op ops ih =>
    obtain ⟨w₁, h⟩ := @passed_of_clear env w op ops hclear (hnone op (by simp))
    obtain ⟨w', hrun, htrace, hconf, hset⟩ := ih (.inl h.cleared) fun op' hop => by
      rw [h.conf]
      exact hnone op' (by simp [hop])
    refine ⟨w', ?_, ?_, hconf.trans h.conf, hset⟩
    · rw [runOps, h.run, ok_bind]
      dsimp only
      rw [hrun, ok_bind, answers, h.trace, List.length_append]
      rfl
    · rw [htrace, h.trace, List.map_cons, List.append_assoc, List.singleton_append]

/-- Nothing is passed on for a header that is taken, and for nothing else. -/
theorem taken_iff_kept (hset : w.ctxSet = false) (op : Op) :
    op.Taken w.r.conf ↔ ∃ rc w', op.run env w = .ok (rc, w') ∧ w'.trace = w.trace := by
  constructor
  · intro htaken
    cases op with
    | body chain => cases htaken
    | header status contentType =>
      obtain ⟨w', hrun, htrace, -⟩ | ⟨w', hrun, h⟩ := @headerFilter_taken env
        { w with r := { w.r with status := status, contentType := contentType } } htaken
      · exact ⟨_, w', congrArg Except.ok hrun, htrace⟩
      · exact ⟨_, w', congrArg Except.ok hrun, h.trace⟩
  · rintro ⟨rc, w', hrun, htrace⟩
    by_contra hnot
    obtain ⟨w₁, h⟩ := @passed_of_clear env w op [] (.inl hset) hnot
    cases hrun.symm.trans h.run
    exact List.cons_ne_nil _ _ (List.self_eq_append_right.mp (htrace.symm.trans h.trace))

/-- Up to the first header that announces a result set, a request is answered as if the
module was not there; so is the rest of any request once an error page is sent, however
far the module was with it. Only such a header is kept back. -/
theorem passes_through (hclear : Clear w ops) (hnone : ∀ op ∈ ops, ¬ op.Taken w.r.conf) :
    ∃ w', runOps env w ops = .ok (answers env w.trace.length ops, w') ∧
      w'.trace = w.trace ++ ops.map Op.event ∧
      ∀ op : Op, op.Taken w.r.conf ↔
        ∃ rc w'', op.run env w' = .ok (rc, w'') ∧ w''.trace = w'.trace := by
  obtain ⟨w', hrun, htrace, hconf, hset⟩ := @passed_ops env w ops hclear hnone
  exact ⟨w', hrun, htrace, fun op => hconf ▸ taken_iff_kept hset op⟩

/-- A response that fails behind its first row. -/
def errorPage : List Op := [.header 500 (lit "text/html"), .body [Buf.memory (lit "oops")]]

theorem not_successful_500 : ¬ Successful 500 := by
  rintro ⟨-, hhigh, -⟩
  exact absurd hhigh (by decide)

theorem errorPage_breaksOff : ∃ status contentType ops,
    errorPage = .header status contentType :: ops ∧ ¬ Successful status :=
  ⟨500, lit "text/html", _, rfl, not_successful_500⟩

theorem errorPage_not_taken (conf : LocConf) : ∀ op ∈ errorPage, ¬ op.Taken conf := by
  intro op hop htaken
  obtain rfl | rfl := List.mem_pair.mp hop
  · exact not_successful_500 htaken.1
  · exact htaken

theorem passes_through_errorPage : ∃ rets w w',
    runCalls calm (postpone calm (plainConf 4) true)
        [[Buf.memory ((oneColumn [some (lit "b"), none]).encode.take 43)]] = .ok (rets, w) ∧
      w.ctx.state = .expectRow ∧ w.trace.length = 2 ∧
      runOps calm w errorPage = .ok ([NGX_OK, NGX_OK], w') ∧
      w'.trace = w.trace ++ [.header 500, .body [Buf.memory (lit "oops")]] := by
  obtain ⟨x, hrun, hstate, hlen⟩ : ∃ x, runCalls calm (postpone calm (plainConf 4) true)
      [[Buf.memory ((oneColumn [some (lit "b"), none]).encode.take 43)]] = .ok x ∧
      x.2.ctx.state = .expectRow ∧ x.2.trace.length = 2 := ⟨_, rfl, by decide, by decide⟩
  obtain ⟨w', hops, htrace, -⟩ := @passes_through calm x.2 errorPage
    (.inr errorPage_breaksOff) (errorPage_not_taken _)
  exact ⟨x.1, x.2, w', hrun, hstate, hlen, hops, htrace⟩

end RdsJson.Bypass
