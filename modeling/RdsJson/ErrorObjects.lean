import RdsJson.ErrorKeys
import RdsJson.Escaping
import RdsJson.Sizes
import RdsJson.Runs

/-! # Error objects

The object for a result set without columns and the one that `rds_json_ret`
sends, as JSON values. -/
namespace RdsJson.ErrorObjects
open RdsJson.Lib.LittleEndian RdsJson.Lib.Outcome RdsJson.Lib.Json RdsJson.Lib.Decimal
open RdsJson.Nginx RdsJson.Rds RdsJson.Util RdsJson.Conf RdsJson.Context RdsJson.Escaping
open RdsJson.Output RdsJson.Render RdsJson.Generators RdsJson.WriteLayer RdsJson.Handler
open RdsJson.FilterModule RdsJson.Sizes RdsJson.Blocks RdsJson.Levels RdsJson.ErrorKeys RdsJson.Runs

/-! ## Objects of scalars -/

/-- No list and no object, and no number that is none. -/
def Scalar : Value → Prop
  | .bool _ => True
  | .number text => isNumber text = true
  | .string _ => True
  | _ => False

def scalarText : Value → Bytes
  | .bool b => if b then lit "true" else lit "false"
  | .number text => text
  | .string s => quote s
  | _ => []

def memberText (m : Bytes × Value) : Bytes := quote m.1 ++ lit ":" ++ scalarText m.2

def objectText (members : List (Bytes × Value)) : Bytes :=
  lit "\x7b" ++ commaSep (members.map memberText) ++ lit "\x7d"

theorem spells_scalarText {v : Value} (h : Scalar v) : Spells (scalarText v) v := by
  cases v with
  | bool b => exact spells_bool b
  | number text => exact spells_number h
  | string s => exact spells_quote s
  | null => exact h.elim
  | array vs => exact h.elim
  | object members => exact h.elim

theorem spells_objectText {members : List (Bytes × Value)} (h : ∀ m ∈ members, Scalar m.2) :
    Spells (objectText members) (.object members) := by
  have hmembers : List.Forall₂ SpellsMember (members.map memberText) members := by
    rw [List.forall₂_map_left_iff, List.forall₂_same]
    exact fun m hm => spellsMember_quote m.1 (spells_scalarText (h m hm))
  unfold objectText
  rw [commaSep_eq]
  exact Spells.object hmembers

/-- What stands in front brings its commas along. -/
theorem commaSep_lead (xs : List Bytes) (y : Bytes) (ys : List Bytes) :
    commaSep (xs ++ y :: ys) = xs.flatMap (fun x => x ++ lit ",") ++ commaSep (y :: ys) := by
  induction xs with
  | nil => rfl
  | cons x xs ih =>
    have hstep : commaSep (x :: (xs ++ y :: ys)) = x ++ lit "," ++ commaSep (xs ++ y :: ys) := by
      cases xs <;> rfl
    rw [List.cons_append, hstep, ih]
    simp

/-- What stands behind has them in front. -/
theorem commaSep_tail (y : Bytes) (ys : List Bytes) :
    commaSep (y :: ys) = y ++ ys.flatMap fun x => lit "," ++ x := by
  induction ys generalizing y with
  | nil => simp [commaSep]
  | cons x xs ih =>
    rw [commaSep, ih x]
    simp

theorem objectText_eq (lead : List (Bytes × Value)) (m : Bytes × Value)
    (tail : List (Bytes × Value)) :
    objectText (lead ++ m :: tail) = lit "\x7b" ++ lead.flatMap (fun m => memberText m ++ lit ",") ++
      memberText m ++ tail.flatMap (fun m => lit "," ++ memberText m) ++ lit "\x7d" := by
  unfold objectText
  rw [List.map_append, List.map_cons, commaSep_lead, commaSep_tail, List.flatMap_map,
    List.flatMap_map]
  simp only [List.append_assoc]

/-! ## Members -/

def successMembers (levels : List Block) (ok : Bool) : List (Bytes × Value) :=
  (successKey levels).toList.map fun key => (key, .bool ok)

def propMembers (levels : List Block) (complexValue : Bytes → Bytes) : List (Bytes × Value) :=
  ((userProps levels).getD []).map fun p => (p.1, .string (complexValue p.2))

def errstrMembers (levels : List Block) (errstr : Bytes) : List (Bytes × Value) :=
  if errstr = [] then [] else [(errstrKey levels, .string errstr)]

/-- Counters that are zero are left out. -/
def countMembers (name : Bytes) (n : UInt64) : List (Bytes × Value) :=
  if n = 0 then [] else [(name, .number (digits n.toNat))]

/-- The object for a result set without columns. -/
def headerObject (levels : List Block) (complexValue : Bytes → Bytes) (h : Header) : Value :=
  .object (successMembers levels (h.stdErrcode = 0) ++ propMembers levels complexValue ++
    (errcodeKey levels, .number (digits h.stdErrcode.toNat)) ::
      (errstrMembers levels h.errstr ++ countMembers (lit "insert_id") h.insertId ++
        countMembers (lit "affected_rows") h.affectedRows))

/-- The object that `rds_json_ret` stands for. -/
def retObject (levels : List Block) (complexValue : Bytes → Bytes) (errcode : Nat)
    (errstr : Bytes) : Value :=
  .object ((errcodeKey levels, .number (digits errcode)) ::
    (errstrMembers levels errstr ++ successMembers levels (errcode = 0) ++
      propMembers levels complexValue))

theorem scalar_successMembers (levels : List Block) (ok : Bool) :
    ∀ m ∈ successMembers levels ok, Scalar m.2 := by
  simp [successMembers, Scalar]

theorem scalar_propMembers (levels : List Block) (complexValue : Bytes → Bytes) :
    ∀ m ∈ propMembers levels complexValue, Scalar m.2 := by
  intro m hm
  obtain ⟨p, -, rfl⟩ := List.mem_map.mp hm
  trivial

theorem scalar_errstrMembers (levels : List Block) (errstr : Bytes) :
    ∀ m ∈ errstrMembers levels errstr, Scalar m.2 := by
  unfold errstrMembers
  split <;> simp [Scalar]

theorem scalar_countMembers (name : Bytes) (n : UInt64) :
    ∀ m ∈ countMembers name n, Scalar m.2 := by
  unfold countMembers
  split <;> simp [Scalar, isNumber_digits]

variable {levels : List Block} {conf : LocConf} (complexValue : Bytes → Bytes)

theorem successText_eq (h : Effective levels conf) (ok : Bool) :
    successText conf ok = (successMembers levels ok).flatMap fun m => memberText m ++ lit "," := by
  unfold successText successMembers
  rw [Str.len, h.success]
  cases successKey levels with
  | none => rfl
  | some key =>
    rw [if_neg (keyText_length.mpr rfl)]
    cases ok <;> simp [keyText, memberText, scalarText, lit]

/-- The user properties, whatever a property becomes. -/
theorem flatMap_props (h : Effective levels conf) {f : Property → Bytes}
    {g : Bytes × Value → Bytes} (hfg : ∀ p, f (property p) = g (p.1, .string (complexValue p.2))) :
    conf.props.flatMap f = (propMembers levels complexValue).flatMap g := by
  unfold propMembers
  rw [LocConf.props, h.userProps]
  cases userProps levels with
  | none => rfl
  | some props => simp [List.flatMap_map, hfg]

theorem propsText_eq (h : Effective levels conf) : propsText conf complexValue =
    (propMembers levels complexValue).flatMap fun m => memberText m ++ lit "," :=
  flatMap_props complexValue h fun p => by simp [property, memberText, scalarText]

/-! ## The object of a header -/

theorem spells_headerText (h : Effective levels conf) (herr : EffectiveErrors levels conf)
    (header : Header) :
    Spells (headerText conf complexValue header) (headerObject levels complexValue header) := by
  have herrstr : (if header.errstr = [] then [] else
      lit "," ++ conf.errstrKey.bytes ++ lit ":" ++ quote header.errstr) =
      (errstrMembers levels header.errstr).flatMap fun m => lit "," ++ memberText m := by
    unfold errstrMembers
    rw [herr.errstrKey]
    split <;> simp [memberText, scalarText, Str.bytes]
  have hcount (name : Bytes) (n : UInt64) (text : Bytes)
      (htext : text = lit "," ++ quote name ++ lit ":") :
      (if n = 0 then [] else text ++ decimal n.toNat) =
        (countMembers name n).flatMap fun m => lit "," ++ memberText m := by
    unfold countMembers
    split
    · rfl
    · simp [htext, memberText, scalarText, decimal, digits]
  have htext : headerText conf complexValue header = objectText
      (successMembers levels (header.stdErrcode = 0) ++ propMembers levels complexValue ++
        (errcodeKey levels, .number (digits header.stdErrcode.toNat)) ::
          (errstrMembers levels header.errstr ++ countMembers (lit "insert_id") header.insertId ++
            countMembers (lit "affected_rows") header.affectedRows)) := by
    unfold headerText
    rw [objectText_eq, successText_eq h, propsText_eq complexValue h, herrstr,
      hcount (lit "insert_id") header.insertId (lit ",\"insert_id\":") rfl,
      hcount (lit "affected_rows") header.affectedRows (lit ",\"affected_rows\":") rfl,
      herr.errcodeKey]
    simp [memberText, scalarText, decimal, digits, Str.bytes]
  rw [htext]
  refine spells_objectText fun m hm => ?_
  simp only [List.mem_append, List.mem_cons] at hm
  obtain (hm | hm) | rfl | (hm | hm) | hm := hm
  · exact scalar_successMembers _ _ m hm
  · exact scalar_propMembers _ _ m hm
  · exact isNumber_digits _
  · exact scalar_errstrMembers _ _ m hm
  · exact scalar_countMembers _ _ m hm
  · exact scalar_countMembers _ _ m hm

/-- The object for an empty set is written whole, and says what the header says. -/
theorem header_is_object (env : Env) {r : Request} {o : OutCtx} {compiles : Bytes → Bool}
    {pagesize : Nat} {levels : List Block} (hconf : InEffect compiles pagesize levels r.conf)
    (ho : Ready r.conf.bufBytes o) (h : Header) :
    Yields (EndlessIn r.conf.bufBytes) (outputHeader env r o h) fun x =>
      (x.1 = NGX_OK ∧ ∃ text, pending x.2 = pending o ++ text ∧
        parse text = some (headerObject levels env.complexValue h)) ∨
      (x.1 = NGX_ERROR ∧ ∃ k, env.alloc k = false) := by
  have hspells := spells_headerText env.complexValue hconf.effective
    (effectiveErrors_of_inEffect hconf) h
  refine (outputHeader_spec env ho h).mono fun x hx => ?_
  obtain ⟨hrc, hwrote, -⟩ | hfail := hx
  · exact .inl ⟨hrc, _, hwrote.added.laid, hspells.parse⟩
  · exact .inr hfail

/-- A success key around a location that renames the code and returns one itself. -/
def errorLevels : List Block :=
  [[.successProperty (lit "ok")], [.rdsJson true], [.errcodeKey (lit "code"),
    .userProperty (lit "uid") (lit "1"), .ret (lit "007") (lit "bad") []]]

def errorConf : LocConf :=
  mergeLocConf 4096
    (mergeLocConf 4096 { createLocConf with success := some (quote (lit "ok")) }
      { createLocConf with enabled := some true })
    { createLocConf with
      errcodeKey := some (quote (lit "code"))
      userProps := some [⟨quote (lit "uid"), lit "1"⟩]
      errcode := some (lit "007")
      errstr := some (lit "bad") }

theorem errorConf_inEffect : InEffect literal 4096 errorLevels errorConf :=
  .nested (.merged rfl rfl) (.inl rfl) rfl

theorem header_is_object_failed : ∃ x : Int × OutCtx, x.1 = NGX_OK ∧
    ∃ text, pending x.2 = pending (postpone calm errorConf true).out ++ text ∧
      parse text = some (headerObject errorLevels id ⟨1, 0, lit "\n", 0, 2, 0⟩) := by
  have hpostponed : Postponed calm (postpone calm errorConf true) := postponed_postpone rfl rfl true
  have hready := (started hpostponed).live.ready
  have hobject := header_is_object calm (r := (postpone calm errorConf true).r)
    errorConf_inEffect hready ⟨1, 0, lit "\n", 0, 2, 0⟩
  obtain ⟨x, -, ⟨hrc, htext⟩ | ⟨-, k, hk⟩⟩ := hobject.exists_ok fun e he => nomatch he.2
  · exact ⟨x, hrc, htext⟩
  · exact absurd hk (by simp [calm])

/-! ## The object of a location that returns -/

/-- What nginx says `ngx_atoi` does with digits: numbers that do not fit are
errors. -/
structure Atoi (ngxAtoi : Bytes → Int) : Prop where
  digits : ∀ s, s ≠ [] → s.all isDigit = true →
    ngxAtoi s = if value s ≤ NGX_MAX_INT_T_VALUE then (value s : Int) else NGX_ERROR

theorem Atoi.zero {ngxAtoi : Bytes → Int} (h : Atoi ngxAtoi) {s : Bytes} (hne : s ≠ [])
    (hs : s.all isDigit = true) : ngxAtoi s = 0 ↔ value s = 0 := by
  rw [h.digits s hne hs]
  split
  · omega
  · next hbig =>
    have hpos : value s ≠ 0 := by omega
    simp [hpos, NGX_ERROR]

/-- The code goes out as the directive has it. -/
theorem retBytes_eq (h : Effective levels conf) (herr : EffectiveErrors levels conf)
    (ngxAtoi : Bytes → Int) {errcode text : Bytes} (hret : ret levels = some (errcode, text))
    (errstr : Bytes) :
    retBytes ngxAtoi conf errstr (evaluated complexValue conf) =
      lit "\x7b" ++ (quote (errcodeKey levels) ++ lit ":" ++ errcode) ++
        (errstrMembers levels errstr ++ successMembers levels (ngxAtoi errcode = 0) ++
          propMembers levels complexValue).flatMap (fun m => lit "," ++ memberText m) ++
        lit "\x7d" := by
  have herrcode : conf.errcode.bytes = errcode := by
    rw [herr.errcode, hret]
    rfl
  have hkey : conf.errcodeKey.bytes = quote (errcodeKey levels) := by
    rw [herr.errcodeKey]
    rfl
  have herrstr : (if errstr.length ≠ 0 then
      lit "," ++ conf.errstrKey.bytes ++ lit ":" ++ lit "\"" ++
        copyEscaped (escapeJsonStrExtra errstr) errstr ++ lit "\"" else []) =
      (errstrMembers levels errstr).flatMap fun m => lit "," ++ memberText m := by
    unfold errstrMembers
    rw [herr.errstrKey, copyEscaped_eq]
    by_cases he : errstr = [] <;> simp [he, memberText, scalarText, quote, Str.bytes]
  have hsuccess : (if conf.success.len ≠ 0 then
      lit "," ++ conf.success.bytes ++ (if ngxAtoi errcode = 0 then lit ":true" else lit ":false")
      else []) =
      (successMembers levels (ngxAtoi errcode = 0)).flatMap fun m => lit "," ++ memberText m := by
    unfold successMembers
    rw [Str.len, h.success]
    cases successKey levels with
    | none => rfl
    | some key =>
      rw [if_pos (keyText_length.mpr rfl)]
      by_cases hzero : ngxAtoi errcode = 0 <;>
        simp [hzero, keyText, memberText, scalarText, lit]
  have hprops : retPropsBytes (evaluated complexValue conf) =
      (propMembers levels complexValue).flatMap fun m => lit "," ++ memberText m := by
    rw [← flatMap_props complexValue h (f := fun p => lit "," ++ p.key ++ lit ":" ++
      quote (complexValue p.value)) fun p => by simp [property, memberText, scalarText]]
    unfold evaluated
    induction conf.props with
    | nil => rfl
    | cons p props ih => simp [retPropsBytes, ih, copyEscaped_eq, quote]
  unfold retBytes
  rw [hkey, herrcode, hprops, herrstr, hsuccess]
  simp only [List.flatMap_append, List.append_assoc]

/-- Nothing of what follows the code lengthens it. -/
theorem ends_tail (members : List (Bytes × Value)) :
    Lib.Json.Ends (members.flatMap (fun m => lit "," ++ memberText m) ++ lit "\x7d") := by
  cases members with
  | nil => exact ends_cons (c := 125) rfl []
  | cons m members => exact ends_cons (c := 44) rfl _

/-- The object is well formed, and says what it should, where the code is a
numeral, and is not JSON at all elsewhere. -/
theorem parse_retBytes (h : Effective levels conf) (herr : EffectiveErrors levels conf)
    {ngxAtoi : Bytes → Int} (hatoi : Atoi ngxAtoi) {errcode text : Bytes}
    (hret : ret levels = some (errcode, text)) (errstr : Bytes) :
    parse (retBytes ngxAtoi conf errstr (evaluated complexValue conf)) =
      if Canonical errcode then some (retObject levels complexValue (value errcode) errstr)
      else none := by
  obtain ⟨hne, hdigits⟩ := herr.digits _ hret
  have hzero : decide (ngxAtoi errcode = 0) = decide (value errcode = 0) :=
    decide_eq_decide.mpr (hatoi.zero hne hdigits)
  rw [retBytes_eq complexValue h herr ngxAtoi hret, hzero]
  split
  · next hcan =>
    have hscalar : ∀ m ∈ (errcodeKey levels, Value.number (digits (value errcode))) ::
        (errstrMembers levels errstr ++ successMembers levels (decide (value errcode = 0)) ++
          propMembers levels complexValue), Scalar m.2 := by
      intro m hm
      simp only [List.mem_cons, List.mem_append] at hm
      obtain rfl | (hm | hm) | hm := hm
      · exact isNumber_digits _
      · exact scalar_errstrMembers _ _ m hm
      · exact scalar_successMembers _ _ m hm
      · exact scalar_propMembers _ _ m hm
    have hspells := spells_objectText hscalar
    have htext := objectText_eq [] (errcodeKey levels, .number (digits (value errcode)))
      (errstrMembers levels errstr ++ successMembers levels (decide (value errcode = 0)) ++
        propMembers levels complexValue)
    rw [List.nil_append] at htext
    rw [htext] at hspells
    rw [retObject, ← hspells.parse]
    simp [memberText, scalarText, digits_value hdigits hcan]
  · next hcan =>
    rw [quote_eq_quoted]
    have hnone := parse_object_none (readString_quoted escapes_escapeByte (errcodeKey levels))
      (readValue_none hdigits hne hcan (ends_tail (errstrMembers levels errstr ++
        successMembers levels (decide (value errcode = 0)) ++ propMembers levels complexValue)))
    rw [← hnone]
    simp [lit]

/-- What goes down the chain: the headers, and the body unless they fail. -/
theorem sendRet_trace (env : Env) (w : World) (bytes : Bytes) :
    (failed (sendRet env w bytes).1 = true ∧
        (sendRet env w bytes).2.trace = w.trace ++ [.header NGX_HTTP_OK]) ∨
      (sendRet env w bytes).2.trace =
        w.trace ++ [.header NGX_HTTP_OK, .body [retBuf w.r.main bytes]] := by
  unfold sendRet nextHeaderFilter outputFilter
  dsimp only
  split
  · next hfail => exact .inl ⟨hfail, rfl⟩
  · exact .inr (by simp)

/-- The handler never writes out of bounds, and the body it sends is the object of
the directive just where the code does not begin with a zero in front of other
digits. -/
theorem ret_is_object_iff {env : Env} {ngxAtoi : Bytes → Int} (hatoi : Atoi ngxAtoi) {w : World}
    {compiles : Bytes → Bool} {pagesize : Nat} {levels : List Block} {errcode text : Bytes}
    (hconf : InEffect compiles pagesize levels w.r.conf) (hret : ret levels = some (errcode, text)) :
    ∃ rc w', retHandler env ngxAtoi w = .ok (rc, w') ∧
      ((rc = NGX_ERROR ∧ w'.trace = w.trace ∧ ∃ k, env.alloc k = false) ∨
        (failed rc = true ∧ w'.trace = w.trace ++ [.header NGX_HTTP_OK]) ∨
        ∃ body, w'.trace = w.trace ++ [.header NGX_HTTP_OK, .body [retBuf w.r.main body]] ∧
          (parse body = some (retObject levels env.complexValue (value errcode)
            (env.complexValue text)) ↔ Canonical errcode)) := by
  have herr := effectiveErrors_of_inEffect hconf
  have htext : w.r.conf.errstr = some text := by
    rw [herr.errstr, hret]
    rfl
  obtain ⟨n, ⟨hrun, halloc⟩ | hrun⟩ := retHandler_cases env ngxAtoi htext
  · exact ⟨_, _, hrun, .inl ⟨rfl, rfl, halloc⟩⟩
  refine ⟨_, _, hrun, .inr ?_⟩
  obtain hfail | hsent := sendRet_trace env { w with out := { w.out with allocs := n } }
    (retBytes ngxAtoi w.r.conf (env.complexValue text) (evaluated env.complexValue w.r.conf))
  · exact .inl hfail
  refine .inr ⟨_, hsent, ?_⟩
  rw [parse_retBytes env.complexValue hconf.effective herr hatoi hret]
  by_cases hcan : Canonical errcode <;> simp [hcan]

/-- `ngx_atoi`. -/
def atoi (s : Bytes) : Int :=
  if s ≠ [] ∧ s.all isDigit = true ∧ value s ≤ NGX_MAX_INT_T_VALUE then value s else NGX_ERROR

theorem atoi_atoi : Atoi atoi where
  digits s hne hs := by simp [atoi, hne, hs]

/-- The code with a zero in front is sent as it is, which is not JSON. -/
theorem ret_leading_zero : InEffect literal 4096 errorLevels errorConf ∧
    ret errorLevels = some (lit "007", lit "bad") ∧ ∃ w',
    retHandler calm atoi (request errorConf true) = .ok (NGX_OK, w') ∧
    delivered w'.trace =
      lit "\x7b\"code\":007,\"errstr\":\"bad\",\"ok\":false,\"uid\":\"1\"\x7d" ∧
    parse (delivered w'.trace) = none :=
  ⟨errorConf_inEffect, rfl, _, rfl, rfl, rfl⟩

theorem ret_is_object_iff_leading_zero : ∃ rc w' body,
    retHandler calm atoi (request errorConf true) = .ok (rc, w') ∧
      w'.trace = [.header NGX_HTTP_OK, .body [retBuf true body]] ∧
      parse body ≠ some (retObject errorLevels id 7 (lit "bad")) := by
  have hzero : ¬ Canonical (lit "007") := by decide
  obtain ⟨w₁, hok⟩ : ∃ w₁, retHandler calm atoi (request errorConf true) = .ok (NGX_OK, w₁) :=
    ⟨_, rfl⟩
  obtain ⟨rc, w', hrun, ⟨hrc, -⟩ | ⟨hfail, -⟩ | ⟨body, htrace, hiff⟩⟩ :=
    @ret_is_object_iff calm atoi atoi_atoi (request errorConf true) literal 4096 errorLevels _ _
      errorConf_inEffect rfl
  · rw [hok] at hrun
    cases hrun
    cases hrc
  · rw [hok] at hrun
    cases hrun
    cases hfail
  · exact ⟨rc, w', body, hrun, htrace, hiff.not.mpr hzero⟩

end RdsJson.ErrorObjects
