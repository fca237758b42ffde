import RdsJson.ErrorKeys

/-! # Which configurations are read, and what they come to

One block at first, then the order of its lines, and last the blocks around it. -/
namespace RdsJson.Directives
open RdsJson.Lib.LittleEndian RdsJson.Nginx RdsJson.Util RdsJson.Conf RdsJson.Render
open RdsJson.Blocks RdsJson.Levels RdsJson.ErrorKeys

variable {compiles : Bytes → Bool} {cmdType : CmdType} {block block' : Block} {conf : LocConf}

/-- A block is read if and only if nothing is objected to, and then as what it
spells; what is reported otherwise is the first objection. -/
theorem readBlock_spec (compiles : Bytes → Bool) (cmdType : CmdType) (block : Block) :
    (∀ conf, readBlock compiles cmdType block = .ok conf ↔
      Acceptable compiles cmdType block ∧ conf = spelled block) ∧
      ∀ e, readBlock compiles cmdType block = .error e ↔ ∃ before d after,
        block = before ++ d :: after ∧ Acceptable compiles cmdType before ∧
          objection compiles cmdType before d = some e :=
  ⟨fun _ => readBlock_ok_iff, fun _ => readBlock_error_iff⟩

example : readBlock literal .srv [.ret (lit "400") (lit "Bad") [lit "request"]] =
    .error (.directive (lit "is not allowed here")) := rfl

example : readBlock literal .loc [.userProperty (lit "uid") (lit "$")] = .error (.confError none) :=
  rfl

/-! ## The order of lines -/

/-- Lines may change places as long as the user properties stay in order and the last
`rds_json_ret` stays the last. -/
theorem readBlock_perm (hp : block.Perm block')
    (hprops : block.filterMap propertyLine = block'.filterMap propertyLine)
    (hret : blockRet block = blockRet block') (conf : LocConf) :
    readBlock compiles cmdType block = .ok conf ↔ readBlock compiles cmdType block' = .ok conf := by
  rw [readBlock_ok_iff, readBlock_ok_iff]
  constructor
  · rintro ⟨h, rfl⟩
    exact ⟨h.perm hp, spelled_perm h hp hprops hret⟩
  · rintro ⟨h, rfl⟩
    exact ⟨h.perm hp.symm, spelled_perm h hp.symm hprops.symm hret.symm⟩

theorem readBlock_perm_swapped : ∃ conf,
    readBlock literal .loc [.rdsJson true, .userProperty (lit "a") (lit "b"), .root (lit "rows"),
      .ret (lit "1") (lit "c") []] = .ok conf ∧
    readBlock literal .loc [.root (lit "rows"), .ret (lit "1") (lit "c") [], .rdsJson true,
      .userProperty (lit "a") (lit "b")] = .ok conf := by
  have hp : ([.rdsJson true, .userProperty (lit "a") (lit "b")] ++
        [.root (lit "rows"), .ret (lit "1") (lit "c") []] : Block).Perm
      ([.root (lit "rows"), .ret (lit "1") (lit "c") []] ++
        [.rdsJson true, .userProperty (lit "a") (lit "b")]) := List.perm_append_comm
  obtain ⟨conf, hread⟩ : ∃ conf, readBlock literal .loc [.root (lit "rows"),
      .ret (lit "1") (lit "c") [], .rdsJson true, .userProperty (lit "a") (lit "b")] =
        .ok conf := ⟨_, rfl⟩
  exact ⟨conf, (readBlock_perm hp rfl rfl conf).mpr hread, hread⟩

/-! ## Blocks in blocks -/

/-- What the innermost block that gives a setting gives, and the default last. -/
def setting {α : Type} (line : Directive → Option α) (default : α) (levels : List Block) : α :=
  (innermost (List.findSome? line) levels).getD default

/-- What is in effect in the innermost of some blocks. -/
def innermostConf (pagesize : Nat) (levels : List Block) : LocConf where
  enabled := some (setting enabledLine false levels)
  format := some (setting formatLine .normal levels)
  contentType := some (setting contentTypeLine (lit "application/json") levels)
  root := some (keyText (rootKey levels))
  success := some (keyText (successKey levels))
  userProps := (userProps levels).map (List.map property)
  errcodeKey := some (quote (setting errcodeKeyLine (lit "errcode") levels))
  errstrKey := some (quote (setting errstrKeyLine (lit "errstr") levels))
  bufSize := some (setting bufferSizeLine pagesize levels)
  errcode := (ErrorKeys.ret levels).map Prod.fst
  errstr := (ErrorKeys.ret levels).map Prod.snd

variable {pagesize : Nat} {levels : List Block}

/-- A slot around a block: merged with its default, or as the one block left it. -/
def Holds {α : Type} (line : Directive → Option α) (default : α) (levels : List Block)
    (slot : Option α) : Prop :=
  slot = some (setting line default levels) ∨ slot = innermost (List.findSome? line) levels

theorem Holds.merge {α : Type} {line : Directive → Option α} {default : α} {outer : Option α}
    (h : Holds line default levels outer) (block : Block) :
    mergeValue (block.findSome? line) outer default =
      some (setting line default (levels ++ [block])) := by
  unfold setting
  rw [innermost_snoc]
  cases block.findSome? line with
  | some a => rfl
  | none =>
    obtain rfl | rfl := h
    · rfl
    · rfl

theorem mergeStr_eq_value (own outer : Str) (default : Bytes) :
    mergeStr own outer default = mergeValue own outer default := by
  cases own with
  | some s => rfl
  | none => cases outer <;> rfl

/-- The settings that no text depends on, around a block. -/
structure Surrounds (pagesize : Nat) (levels : List Block) (conf : LocConf) : Prop where
  enabled : Holds enabledLine false levels conf.enabled
  contentType : Holds contentTypeLine (lit "application/json") levels conf.contentType
  bufSize : Holds bufferSizeLine pagesize levels conf.bufSize

/-- The same settings once they are merged. -/
structure Settled (pagesize : Nat) (levels : List Block) (conf : LocConf) : Prop where
  enabled : conf.enabled = some (setting enabledLine false levels)
  contentType : conf.contentType = some (setting contentTypeLine (lit "application/json") levels)
  bufSize : conf.bufSize = some (setting bufferSizeLine pagesize levels)

theorem surrounds_spelled (pagesize : Nat) (block : Block) :
    Surrounds pagesize [block] (spelled block) := by
  refine ⟨.inr ?_, .inr ?_, .inr ?_⟩
  · rw [innermost_one]
    rfl
  · rw [innermost_one]
    rfl
  · rw [innermost_one]
    rfl

theorem Settled.surrounds (h : Settled pagesize levels conf) : Surrounds pagesize levels conf :=
  ⟨.inl h.enabled, .inl h.contentType, .inl h.bufSize⟩

theorem Surrounds.merge {prev : LocConf} (h : Surrounds pagesize levels prev) (block : Block) :
    Settled pagesize (levels ++ [block]) (mergeLocConf pagesize prev (spelled block)) where
  enabled := h.enabled.merge block
  contentType := (mergeStr_eq_value _ _ _).trans (h.contentType.merge block)
  bufSize := h.bufSize.merge block

theorem settled_of_inEffect (h : InEffect compiles pagesize levels conf) : Settled pagesize levels conf := by
  induction h with
  | merged hprev hconf =>
    obtain ⟨-, rfl⟩ := readBlock_ok_iff.mp hprev
    obtain ⟨-, rfl⟩ := readBlock_ok_iff.mp hconf
    exact (surrounds_spelled pagesize _).merge _
  | nested hprev htype hconf ih =>
    obtain ⟨-, rfl⟩ := readBlock_ok_iff.mp hconf
    exact ih.surrounds.merge _

/-- Merging leaves no key unset. -/
theorem keys_of_inEffect (h : InEffect compiles pagesize levels conf) :
    conf.root = some conf.root.bytes ∧ conf.success = some conf.success.bytes := by
  have hmerged (prev conf' : LocConf) :
      (mergeLocConf pagesize prev conf').root = some (mergeLocConf pagesize prev conf').root.bytes ∧
      (mergeLocConf pagesize prev conf').success =
        some (mergeLocConf pagesize prev conf').success.bytes := by
    have hsome (own outer : Str) (default : Bytes) :
        mergeStr own outer default = some (mergeStr own outer default).bytes := by
      cases own with
      | some s => rfl
      | none => cases outer <;> rfl
    have hroot {P : Prop} [Decidable P] {s : Str} (hs : s = some s.bytes) :
        (if P then some (lit "\"data\"") else s) =
          some (Str.bytes (if P then some (lit "\"data\"") else s)) := by
      split
      · rfl
      · exact hs
    exact ⟨hroot (hsome _ _ _), hsome _ _ _⟩
  cases h with
  | merged => exact hmerged _ _
  | nested => exact hmerged _ _

theorem eq_innermostConf (h : InEffect compiles pagesize levels conf) :
    conf = innermostConf pagesize levels := by
  have heffective := h.effective
  have herrors := effectiveErrors_of_inEffect h
  have hsettled := settled_of_inEffect h
  obtain ⟨hroot, hsuccess⟩ := keys_of_inEffect h
  rw [heffective.root] at hroot
  rw [heffective.success] at hsuccess
  cases conf
  rw [innermostConf, LocConf.mk.injEq]
  exact ⟨hsettled.enabled, heffective.format, hsettled.contentType, hroot, hsuccess,
    heffective.userProps, herrors.errcodeKey, herrors.errstrKey, hsettled.bufSize, herrors.errcode,
    herrors.errstr⟩

/-- All the blocks are read, each where it stands. -/
def AllAcceptable (compiles : Bytes → Bool) (levels : List Block) : Prop :=
  ∃ http server inner, levels = http :: server :: inner ∧ Acceptable compiles .main http ∧
    Acceptable compiles .srv server ∧ ∀ block ∈ inner, Acceptable compiles .loc block

theorem AllAcceptable.snoc (h : AllAcceptable compiles levels)
    (hblock : Acceptable compiles .loc block) : AllAcceptable compiles (levels ++ [block]) := by
  obtain ⟨http, server, inner, rfl, hhttp, hserver, hinner⟩ := h
  refine ⟨http, server, inner ++ [block], rfl, hhttp, hserver, fun b hb => ?_⟩
  obtain hb | hb := List.mem_append.mp hb
  · exact hinner b hb
  · rw [List.mem_singleton.mp hb]
    exact hblock

theorem allAcceptable_of_inEffect (h : InEffect compiles pagesize levels conf) :
    AllAcceptable compiles levels := by
  induction h with
  | merged hprev hconf =>
    exact ⟨_, _, [], rfl, (readBlock_ok_iff.mp hprev).1, (readBlock_ok_iff.mp hconf).1, by simp⟩
  | nested hprev htype hconf ih => exact ih.snoc (readBlock_ok_iff.mp hconf).1.loc

theorem AllAcceptable.exists_inEffect (h : AllAcceptable compiles levels) :
    ∃ conf, InEffect compiles pagesize levels conf := by
  obtain ⟨http, server, inner, rfl, hhttp, hserver, hinner⟩ := h
  induction inner using List.reverseRecOn with
  | nil => exact ⟨_, .merged (readBlock_of_acceptable hhttp) (readBlock_of_acceptable hserver)⟩
  | append_singleton inner block ih =>
    obtain ⟨prev, hprev⟩ := ih fun b hb => hinner b (by simp [hb])
    exact ⟨_, .nested hprev (.inl rfl) (readBlock_of_acceptable (hinner block (by simp)))⟩

/-- A configuration is in effect if and only if all blocks around it are read, and it
holds what their lines say: the innermost line of each setting, and the default where
there is none. -/
theorem inEffect_iff (compiles : Bytes → Bool) (pagesize : Nat) (levels : List Block)
    (conf : LocConf) :
    InEffect compiles pagesize levels conf ↔
      AllAcceptable compiles levels ∧ conf = innermostConf pagesize levels := by
  constructor
  · intro h
    exact ⟨allAcceptable_of_inEffect h, eq_innermostConf h⟩
  · rintro ⟨hall, rfl⟩
    obtain ⟨conf, h⟩ : ∃ conf, InEffect compiles pagesize levels conf := hall.exists_inEffect
    exact eq_innermostConf h ▸ h

end RdsJson.Directives
