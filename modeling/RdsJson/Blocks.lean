import RdsJson.Generators
import RdsJson.Lib.Decimal
import Mathlib.Data.List.Induction

/-! # Blocks of configuration

A block is read line by line, each line changing what the lines before it set up.
What comes out is told from the lines at once: most settings may be given once, and
only the user properties and `rds_json_ret` depend on the order of lines. -/
namespace RdsJson.Blocks
open RdsJson.Lib.LittleEndian RdsJson.Lib.Outcome RdsJson.Lib.Json RdsJson.Nginx RdsJson.Util
open RdsJson.Conf RdsJson.Render RdsJson.Generators

/-- The lines between a pair of braces. -/
abbrev Block := List Directive

/-! ## What a line says -/

def enabledLine : Directive → Option Bool
  | .rdsJson on => some on
  | _ => none

def rootLine : Directive → Option Bytes
  | .root value => some value
  | _ => none

def successLine : Directive → Option Bytes
  | .successProperty value => some value
  | _ => none

def propertyLine : Directive → Option (Bytes × Bytes)
  | .userProperty key value => some (key, value)
  | _ => none

def formatLine : Directive → Option Format
  | .formatNormal => some .normal
  | .formatCompact => some .compact
  | _ => none

def contentTypeLine : Directive → Option Bytes
  | .contentType value => some value
  | _ => none

def bufferSizeLine : Directive → Option Nat
  | .bufferSize size => some size
  | _ => none

def errcodeKeyLine : Directive → Option Bytes
  | .errcodeKey value => some value
  | _ => none

def errstrKeyLine : Directive → Option Bytes
  | .errstrKey value => some value
  | _ => none

/-- The code and the description. -/
def retLine : Directive → Option (Bytes × Bytes)
  | .ret errcode errstr _ => some (errcode, errstr)
  | _ => none

/-- A block without user properties leaves them unset. -/
def blockProps (block : Block) : Option (List (Bytes × Bytes)) :=
  if block.filterMap propertyLine = [] then none else some (block.filterMap propertyLine)

/-- A later line replaces an earlier one. -/
def blockRet (block : Block) : Option (Bytes × Bytes) := block.reverse.findSome? retLine

/-- How the directive keeps a user property. -/
def property (p : Bytes × Bytes) : Property := ⟨quote p.1, p.2⟩

/-- What the lines of a block say. -/
def spelled (block : Block) : LocConf where
  enabled := block.findSome? enabledLine
  format := block.findSome? formatLine
  contentType := block.findSome? contentTypeLine
  root := (block.findSome? rootLine).map quote
  success := (block.findSome? successLine).map quote
  userProps := (blockProps block).map (List.map property)
  errcodeKey := (block.findSome? errcodeKeyLine).map quote
  errstrKey := (block.findSome? errstrKeyLine).map quote
  bufSize := block.findSome? bufferSizeLine
  errcode := (blockRet block).map Prod.fst
  errstr := (blockRet block).map Prod.snd

/-- What the directive leaves behind when nothing is wrong. -/
def give (conf : LocConf) : Directive → LocConf
  | .rdsJson on => { conf with enabled := some on }
  | .root value => { conf with root := some (quote value) }
  | .successProperty value => { conf with success := some (quote value) }
  | .userProperty key value =>
    { conf with userProps := some (conf.props ++ [property (key, value)]) }
  | .errcodeKey value => { conf with errcodeKey := some (quote value) }
  | .errstrKey value => { conf with errstrKey := some (quote value) }
  | .formatNormal => { conf with format := some .normal }
  | .formatCompact => { conf with format := some .compact }
  | .contentType value => { conf with contentType := some value }
  | .ret errcode errstr _ => { conf with errcode := some errcode, errstr := some errstr }
  | .bufferSize size => { conf with bufSize := some size }

/-! ## What is wrong with a block -/

/-- The settings that a block may give once. -/
inductive Slot where
  | enabled
  | root
  | success
  | errcodeKey
  | errstrKey
  | format
  | contentType
  | bufSize
  deriving DecidableEq

def slot : Directive → Option Slot
  | .rdsJson _ => some .enabled
  | .root _ => some .root
  | .successProperty _ => some .success
  | .userProperty _ _ => none
  | .errcodeKey _ => some .errcodeKey
  | .errstrKey _ => some .errstrKey
  | .formatNormal => some .format
  | .formatCompact => some .format
  | .contentType _ => some .contentType
  | .ret _ _ _ => none
  | .bufferSize _ => some .bufSize

-- the success of `ngx_http_compile_complex_value`
variable (compiles : Bytes → Bool)

def keyFlaw (value : Bytes) : Option ConfError :=
  if value = [] then some (.directive (lit "takes an empty value")) else none

/-- What is wrong with a line, wherever it stands. -/
def flaw : Directive → Option ConfError
  | .root value => keyFlaw value
  | .successProperty value => keyFlaw value
  | .errcodeKey value => keyFlaw value
  | .errstrKey value => keyFlaw value
  | .userProperty key value =>
    if key = [] then some (.directive (lit "takes an empty key"))
    else if value = [] then some (.directive (lit "takes an empty value"))
    else if compiles value then none
    else some (.confError none)
  | .ret errcode errstr _ =>
    if errcode = [] then
      some (.confError (some (lit "rds_json: rds_json_ret: the errcode argument is empty")))
    else if !errcode.all isDigit then
      some (.confError (some (lit "rds_json: rds_json_ret: invalid errcode argument: \"" ++
        errcode ++ lit "\"")))
    else if errstr = [] ∨ compiles errstr then none
    else some (.confError none)
  | _ => none

/-- What the function of the directive finds behind the lines before. -/
def refusal (before : Block) (d : Directive) : Option ConfError :=
  if (slot d).any fun s => s ∈ before.filterMap slot then some (.directive (lit "is duplicate"))
  else flaw compiles d

/-- What nginx reports of a line behind others. -/
def objection (cmdType : CmdType) (before : Block) (d : Directive) : Option ConfError :=
  if cmdType ∈ d.type then refusal compiles before d
  else some (.directive (lit "is not allowed here"))

/-- No line is objected to. -/
structure Acceptable (cmdType : CmdType) (block : Block) : Prop where
  placed : ∀ d ∈ block, cmdType ∈ d.type
  sound : ∀ d ∈ block, flaw compiles d = none
  once : (block.filterMap slot).Nodup

variable {compiles} {cmdType : CmdType} {block block' before : Block} {d : Directive}
variable {conf : LocConf}

theorem objection_eq_none :
    objection compiles cmdType before d = none ↔
      cmdType ∈ d.type ∧ refusal compiles before d = none := by
  unfold objection
  split
  · next hplace => simp [hplace]
  · next hplace => simp [hplace]

theorem acceptable_snoc : Acceptable compiles cmdType (block ++ [d]) ↔
    Acceptable compiles cmdType block ∧ objection compiles cmdType block d = none := by
  have hslot : ((block ++ [d]).filterMap slot).Nodup ↔ (block.filterMap slot).Nodup ∧
      ¬ ((slot d).any fun s => decide (s ∈ block.filterMap slot)) = true := by
    rw [List.filterMap_append, List.filterMap_cons, List.filterMap_nil]
    cases slot d with
    | none => simp
    | some s =>
      rw [List.nodup_append_comm, List.singleton_append, List.nodup_cons]
      simp [and_comm]
  have hall {P : Directive → Prop} (hblock : ∀ d' ∈ block, P d') (hd : P d) :
      ∀ d' ∈ block ++ [d], P d' := by
    intro d' hd'
    obtain hd' | hd' := List.mem_append.mp hd'
    · exact hblock d' hd'
    · rw [List.mem_singleton.mp hd']
      exact hd
  rw [objection_eq_none]
  constructor
  · intro h
    obtain ⟨honce, hnew⟩ := hslot.mp h.once
    refine ⟨⟨fun d' hd' => h.placed d' (by simp [hd']), fun d' hd' => h.sound d' (by simp [hd']),
      honce⟩, h.placed d (by simp), ?_⟩
    rw [refusal, if_neg hnew]
    exact h.sound d (by simp)
  · rintro ⟨h, hplace, hrefusal⟩
    unfold refusal at hrefusal
    split at hrefusal
    · cases hrefusal
    · next hnew =>
      exact ⟨hall h.placed hplace, hall h.sound hrefusal, hslot.mpr ⟨h.once, hnew⟩⟩

/-! ## One line -/

theorem quote_length_ne_zero (s : Bytes) : (quote s).length ≠ 0 := by simp [quote, lit]

theorem quoteKey_eq (value : Bytes) : quoteKey value = .ok (quote value) := by
  have hlen : (lit "\"" ++ copyEscaped (escapeJsonStrExtra value) value ++ lit "\"").length =
      value.length + escapeJsonStrExtra value + 2 := by
    rw [copyEscaped_eq, List.length_append, List.length_append, escapeJsonStr_length]
    have hquote : (lit "\"").length = 1 := rfl
    omega
  rw [quoteKey, if_neg (not_not_intro hlen), copyEscaped_eq]
  rfl

/-- A key that is given is not empty, so a second one is noticed. -/
theorem setKey_eq (said : Option Bytes) (value : Bytes) :
    setKey (said.map quote) value =
      if said.isSome then .error (.directive (lit "is duplicate"))
      else if value = [] then .error (.directive (lit "takes an empty value"))
      else .ok (some (quote value)) := by
  unfold setKey
  rw [quoteKey_eq]
  cases said with
  | none => simp [Str.len, Str.bytes]
  | some key =>
    have hlen := quote_length_ne_zero key
    simp [Str.len, Str.bytes, hlen]

theorem setSlot_eq {α : Type} (said : Option α) (value : α) :
    setSlot said value =
      if said.isSome then .error (.directive (lit "is duplicate")) else .ok (some value) := by
  cases said <;> rfl

theorem blockProps_snoc (block : Block) (key value : Bytes) :
    blockProps (block ++ [.userProperty key value]) =
      some ((blockProps block).getD [] ++ [(key, value)]) := by
  unfold blockProps
  rw [List.filterMap_append, if_neg (by simp [propertyLine])]
  split
  · next h => simp [h, propertyLine]
  · simp [propertyLine]

theorem blockProps_skip (block : Block) {d : Directive} (hd : propertyLine d = none) :
    blockProps (block ++ [d]) = blockProps block := by
  simp [blockProps, List.filterMap_append, hd]

theorem blockRet_snoc (block : Block) (d : Directive) :
    blockRet (block ++ [d]) = (retLine d).or (blockRet block) := by
  rw [blockRet, List.reverse_append, List.reverse_singleton, List.singleton_append,
    List.findSome?_cons]
  cases retLine d <;> rfl

/-- The lines of a setting are those that give it. -/
def Gives {α : Type} (line : Directive → Option α) (s : Slot) : Prop :=
  ∀ d, (line d).isSome = true ↔ slot d = some s

theorem Gives.isSome {α : Type} {line : Directive → Option α} {s : Slot} (h : Gives line s)
    (before : Block) :
    (before.findSome? line).isSome = true ↔ s ∈ before.filterMap slot := by
  rw [List.findSome?_isSome_iff, List.mem_filterMap]
  exact exists_congr fun d => and_congr_right fun _ => h d

theorem Gives.refusal {α : Type} {line : Directive → Option α} {s : Slot} (h : Gives line s)
    (before : Block) (hslot : slot d = some s) :
    refusal compiles before d =
      if (before.findSome? line).isSome then some (.directive (lit "is duplicate"))
      else flaw compiles d := by
  unfold Blocks.refusal
  refine if_congr ?_ rfl rfl
  rw [hslot, h.isSome before]
  simp

section
attribute [local simp] enabledLine formatLine contentTypeLine rootLine successLine errcodeKeyLine
  errstrKeyLine bufferSizeLine retLine slot

theorem gives_enabled : Gives enabledLine .enabled := by
  intro d
  cases d <;> simp

theorem gives_root : Gives rootLine .root := by
  intro d
  cases d <;> simp

theorem gives_success : Gives successLine .success := by
  intro d
  cases d <;> simp

theorem gives_errcodeKey : Gives errcodeKeyLine .errcodeKey := by
  intro d
  cases d <;> simp

theorem gives_errstrKey : Gives errstrKeyLine .errstrKey := by
  intro d
  cases d <;> simp

theorem gives_format : Gives formatLine .format := by
  intro d
  cases d <;> simp

theorem gives_contentType : Gives contentTypeLine .contentType := by
  intro d
  cases d <;> simp

theorem gives_bufSize : Gives bufferSizeLine .bufSize := by
  intro d
  cases d <;> simp

/-- What the lines say with one line more. -/
theorem spelled_snoc (h : refusal compiles before d = none) :
    spelled (before ++ [d]) = give (spelled before) d := by
  have hnew {α : Type} {line : Directive → Option α} {s : Slot} (hline : Gives line s)
      (hslot : slot d = some s) : before.findSome? line = none := by
    rw [hline.refusal before hslot] at h
    cases hsaid : before.findSome? line with
    | none => rfl
    | some a =>
      rw [hsaid] at h
      cases h
  cases d with
  | rdsJson on =>
    have hnone := hnew gives_enabled rfl
    rw [spelled, blockProps_skip before rfl]
    simp [spelled, give, blockRet_snoc, hnone]
  | root value =>
    have hnone := hnew gives_root rfl
    rw [spelled, blockProps_skip before rfl]
    simp [spelled, give, blockRet_snoc, hnone]
  | successProperty value =>
    have hnone := hnew gives_success rfl
    rw [spelled, blockProps_skip before rfl]
    simp [spelled, give, blockRet_snoc, hnone]
  | userProperty key value =>
    simp only [spelled, give, blockProps_snoc, blockRet_snoc, LocConf.props]
    cases blockProps before <;> simp
  | errcodeKey value =>
    have hnone := hnew gives_errcodeKey rfl
    rw [spelled, blockProps_skip before rfl]
    simp [spelled, give, blockRet_snoc, hnone]
  | errstrKey value =>
    have hnone := hnew gives_errstrKey rfl
    rw [spelled, blockProps_skip before rfl]
    simp [spelled, give, blockRet_snoc, hnone]
  | formatNormal =>
    have hnone := hnew gives_format rfl
    rw [spelled, blockProps_skip before rfl]
    simp [spelled, give, blockRet_snoc, hnone]
  | formatCompact =>
    have hnone := hnew gives_format rfl
    rw [spelled, blockProps_skip before rfl]
    simp [spelled, give, blockRet_snoc, hnone]
  | contentType value =>
    have hnone := hnew gives_contentType rfl
    rw [spelled, blockProps_skip before rfl]
    simp [spelled, give, blockRet_snoc, hnone]
  | ret errcode errstr more =>
    rw [spelled, blockProps_skip before rfl]
    simp [spelled, give, blockRet_snoc]
  | bufferSize size =>
    have hnone := hnew gives_bufSize rfl
    rw [spelled, blockProps_skip before rfl]
    simp [spelled, give, blockRet_snoc, hnone]

end

theorem any_not_digit (errcode : Bytes) :
    (errcode.any fun c => c < 48 || c > 57) = !errcode.all isDigit := by
  rw [List.not_all_eq_any_not]
  refine congrArg (List.any errcode) (funext fun c => ?_)
  simp [isDigit, Bool.not_and, ← UInt8.not_le]

/-- A directive does what its line says, or gives the reason why not. -/
theorem apply_eq (before : Block) (d : Directive) :
    d.apply compiles (spelled before) =
      match refusal compiles before d with
      | some e => .error e
      | none => .ok (give (spelled before) d) := by
  have hkey {line : Directive → Option Bytes} {s : Slot} {value : Bytes} {set : Str → LocConf}
      (hline : Gives line s) (hslot : slot d = some s) (hflaw : flaw compiles d = keyFlaw value) :
      (do let key ← setKey ((before.findSome? line).map quote) value
          Except.ok (set key)) =
        match refusal compiles before d with
        | some e => .error e
        | none => .ok (set (some (quote value))) := by
    rw [hline.refusal before hslot, hflaw, keyFlaw, setKey_eq]
    cases before.findSome? line with
    | some key => rfl
    | none =>
      by_cases hvalue : value = []
      · simp [hvalue]
        rfl
      · simp [hvalue]
  have hvalue {α : Type} {line : Directive → Option α} {s : Slot} {value : α}
      {set : Option α → LocConf} (hline : Gives line s) (hslot : slot d = some s)
      (hflaw : flaw compiles d = none) :
      (do let value ← setSlot (before.findSome? line) value
          Except.ok (set value)) =
        match refusal compiles before d with
        | some e => .error e
        | none => .ok (set (some value)) := by
    rw [hline.refusal before hslot, hflaw, setSlot_eq]
    cases before.findSome? line with
    | some key => rfl
    | none => rfl
  cases d with
  | rdsJson on => exact hvalue gives_enabled rfl rfl
  | root value => exact hkey gives_root rfl rfl
  | successProperty value => exact hkey gives_success rfl rfl
  | userProperty key value =>
    have hrefusal : refusal compiles before (.userProperty key value) =
        flaw compiles (.userProperty key value) := rfl
    show rdsJsonUserProperty compiles (spelled before) key value = _
    rw [hrefusal, rdsJsonUserProperty, quoteKey_eq, ok_bind]
    simp only [flaw, List.length_eq_zero_iff]
    split
    · rfl
    · split
      · rfl
      · cases compiles value with
        | true => rfl
        | false => rfl
  | errcodeKey value => exact hkey gives_errcodeKey rfl rfl
  | errstrKey value => exact hkey gives_errstrKey rfl rfl
  | formatNormal => exact hvalue gives_format rfl rfl
  | formatCompact => exact hvalue gives_format rfl rfl
  | contentType value => exact hvalue gives_contentType rfl rfl
  | ret errcode errstr more =>
    have hrefusal : refusal compiles before (.ret errcode errstr more) =
        flaw compiles (.ret errcode errstr more) := rfl
    show rdsJsonRet compiles (spelled before) errcode errstr = _
    rw [hrefusal, rdsJsonRet, any_not_digit]
    simp only [flaw, List.length_eq_zero_iff]
    split
    · rfl
    · split
      · rfl
      · by_cases herrstr : errstr = []
        · simp [herrstr, give]
        · cases hcompiles : compiles errstr with
          | true => simp [give]
          | false => simp [herrstr]
  | bufferSize size => exact hvalue gives_bufSize rfl rfl

/-- Where a line may not stand, its directive is not asked. -/
theorem read_eq (before : Block) (d : Directive) :
    d.read compiles cmdType (spelled before) =
      match objection compiles cmdType before d with
      | some e => .error e
      | none => .ok (give (spelled before) d) := by
  unfold Directive.read objection
  split
  · exact apply_eq before d
  · rfl

/-! ## A whole block -/

theorem readBlock_append (block after : Block) :
    readBlock compiles cmdType (block ++ after) =
      (readBlock compiles cmdType block >>= fun conf =>
        after.foldlM (Directive.read compiles cmdType) conf) :=
  List.foldlM_append

theorem readBlock_of_acceptable (h : Acceptable compiles cmdType block) :
    readBlock compiles cmdType block = .ok (spelled block) := by
  induction block using List.reverseRecOn with
  | nil => rfl
  | append_singleton block d ih =>
    obtain ⟨h, hobj⟩ := acceptable_snoc.mp h
    rw [readBlock_append, ih h, ok_bind, List.foldlM_cons, read_eq, hobj,
      spelled_snoc (objection_eq_none.mp hobj).2]
    rfl

theorem readBlock_of_objection {after : Block} {e : ConfError}
    (h : Acceptable compiles cmdType before) (hobj : objection compiles cmdType before d = some e) :
    readBlock compiles cmdType (before ++ d :: after) = .error e := by
  rw [readBlock_append, readBlock_of_acceptable h, ok_bind, List.foldlM_cons, read_eq, hobj]
  rfl

/-- Either nothing is objected to, or there is a first line that something is. -/
theorem acceptable_or (compiles : Bytes → Bool) (cmdType : CmdType) (block : Block) :
    Acceptable compiles cmdType block ∨ ∃ before d after e, block = before ++ d :: after ∧
      Acceptable compiles cmdType before ∧ objection compiles cmdType before d = some e := by
  induction block using List.reverseRecOn with
  | nil => exact .inl ⟨by simp, by simp, by simp⟩
  | append_singleton block d ih =>
    obtain h | ⟨before, d', after, e, rfl, h, hobj⟩ := ih
    · cases hobj : objection compiles cmdType block d with
      | none => exact .inl (acceptable_snoc.mpr ⟨h, hobj⟩)
      | some e => exact .inr ⟨block, d, [], e, rfl, h, hobj⟩
    · exact .inr ⟨before, d', after ++ [d], e, by simp, h, hobj⟩

theorem readBlock_ok_iff :
    readBlock compiles cmdType block = .ok conf ↔
      Acceptable compiles cmdType block ∧ conf = spelled block := by
  obtain h | ⟨before, d, after, e, rfl, h, hobj⟩ := acceptable_or compiles cmdType block
  · rw [readBlock_of_acceptable h, Except.ok.injEq]
    exact ⟨fun heq => ⟨h, heq.symm⟩, fun heq => heq.2.symm⟩
  · have hread : readBlock compiles cmdType (before ++ d :: after) = .error e :=
      readBlock_of_objection h hobj
    refine iff_of_false (fun hok => by cases hread.symm.trans hok) ?_
    rintro ⟨hall, -⟩
    cases hread.symm.trans (readBlock_of_acceptable hall)

theorem readBlock_error_iff {e : ConfError} :
    readBlock compiles cmdType block = .error e ↔ ∃ before d after, block = before ++ d :: after ∧
      Acceptable compiles cmdType before ∧ objection compiles cmdType before d = some e := by
  constructor
  · intro he
    obtain h | ⟨before, d, after, e', rfl, h, hobj⟩ := acceptable_or compiles cmdType block
    · cases (readBlock_of_acceptable h).symm.trans he
    · cases (readBlock_of_objection h hobj).symm.trans he
      exact ⟨before, d, after, rfl, h, hobj⟩
  · rintro ⟨before, d, after, rfl, h, hobj⟩
    exact readBlock_of_objection h hobj

/-- What a location returns has digits for its code. -/
theorem Acceptable.digits (h : Acceptable compiles cmdType block) :
    ∀ r ∈ blockRet block, r.1 ≠ [] ∧ r.1.all isDigit = true := by
  intro r hr
  obtain ⟨d, hd, hline⟩ := List.exists_of_findSome?_eq_some hr
  cases d with
  | ret errcode errstr more =>
    cases hline
    have hsound := h.sound _ (List.mem_reverse.mp hd)
    simp only [flaw] at hsound
    split at hsound
    · cases hsound
    next hne =>
    split at hsound
    · cases hsound
    next hdigits => exact ⟨hne, by simpa using hdigits⟩
  | _ => cases hline

/-- What may stand anywhere may stand in a location. -/
theorem Acceptable.loc (h : Acceptable compiles cmdType block) : Acceptable compiles .loc block where
  placed d _ := by
    cases d <;> simp [Directive.type]
  sound := h.sound
  once := h.once

/-! ## The order of lines -/

theorem Acceptable.perm (h : Acceptable compiles cmdType block) (hp : block.Perm block') :
    Acceptable compiles cmdType block' where
  placed d hd := h.placed d (hp.mem_iff.mpr hd)
  sound d hd := h.sound d (hp.mem_iff.mpr hd)
  once := (hp.filterMap slot).nodup_iff.mp h.once

/-- There is one line of a setting at most. -/
theorem Gives.length_le {α : Type} {line : Directive → Option α} {s : Slot} (h : Gives line s)
    (hblock : Acceptable compiles cmdType block) : (block.filterMap line).length ≤ 1 := by
  have hcount := List.nodup_iff_count_le_one.mp hblock.once s
  rw [List.count_filterMap] at hcount
  rw [List.length_filterMap_eq_countP]
  refine le_trans (le_of_eq (List.countP_congr fun d _ => ?_)) hcount
  rw [h d]
  simp

theorem Gives.perm {α : Type} {line : Directive → Option α} {s : Slot} (h : Gives line s)
    (hblock : Acceptable compiles cmdType block) (hp : block.Perm block') :
    block.findSome? line = block'.findSome? line := by
  rw [← List.head?_filterMap, ← List.head?_filterMap]
  have hlines := hp.filterMap line
  have hle := h.length_le hblock
  cases hfirst : block.filterMap line with
  | nil =>
    rw [hfirst] at hlines
    rw [List.nil_perm.mp hlines]
  | cons a rest =>
    rw [hfirst, List.length_cons] at hle
    obtain rfl := List.eq_nil_of_length_eq_zero (Nat.le_zero.mp (Nat.le_of_succ_le_succ hle))
    rw [hfirst] at hlines
    rw [List.singleton_perm.mp hlines]

theorem spelled_perm (h : Acceptable compiles cmdType block) (hp : block.Perm block')
    (hprops : block.filterMap propertyLine = block'.filterMap propertyLine)
    (hret : blockRet block = blockRet block') : spelled block = spelled block' := by
  unfold spelled blockProps
  rw [gives_enabled.perm h hp, gives_format.perm h hp, gives_contentType.perm h hp,
    gives_root.perm h hp, gives_success.perm h hp, gives_errcodeKey.perm h hp,
    gives_errstrKey.perm h hp, gives_bufSize.perm h hp, hprops, hret]

end RdsJson.Blocks
