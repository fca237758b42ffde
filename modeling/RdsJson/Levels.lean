import RdsJson.Blocks

/-! # Nested levels of configuration

Which settings are in effect where blocks of configuration are nested, said
without merging: the innermost block that sets something decides. -/
namespace RdsJson.Levels
open RdsJson.Lib.LittleEndian RdsJson.Nginx RdsJson.Util RdsJson.Conf RdsJson.Render
open RdsJson.Generators RdsJson.Blocks

/-- What the innermost level says that says something; the outermost comes first. -/
def innermost {α : Type} (get : Block → Option α) (levels : List Block) : Option α :=
  levels.reverse.findSome? get

def successKey (levels : List Block) : Option Bytes :=
  innermost (List.findSome? successLine) levels

/-- The properties of the innermost level that has any, and only these. -/
def userProps (levels : List Block) : Option (List (Bytes × Bytes)) := innermost blockProps levels

def wrapped (levels : List Block) : Bool := (successKey levels).isSome || (userProps levels).isSome

/-- Where only the success key or user properties are set there is a key, too. -/
def rootKey (levels : List Block) : Option Bytes :=
  (innermost (List.findSome? rootLine) levels).or (if wrapped levels then some (lit "data") else none)

def format (levels : List Block) : Format :=
  (innermost (List.findSome? formatLine) levels).getD .normal

/-- The configuration of the innermost of some levels: each block is merged with
what is around it. The outermost is an `http` block, and never in effect alone; the
next is a `server` block in it, and those behind are `location` blocks, or ifs in them. -/
inductive InEffect (compiles : Bytes → Bool) (pagesize : Nat) : List Block → LocConf → Prop
  | merged {http server : Block} {prev conf : LocConf}
      (hprev : readBlock compiles .main http = .ok prev)
      (hconf : readBlock compiles .srv server = .ok conf) :
      InEffect compiles pagesize [http, server] (mergeLocConf pagesize prev conf)
  | nested {levels : List Block} {block : Block} {cmdType : CmdType} {prev conf : LocConf}
      (hprev : InEffect compiles pagesize levels prev) (htype : cmdType = .loc ∨ cmdType = .lif)
      (hconf : readBlock compiles cmdType block = .ok conf) :
      InEffect compiles pagesize (levels ++ [block]) (mergeLocConf pagesize prev conf)

/-- Texts without variables are compiled. -/
def literal (text : Bytes) : Bool := !text.contains 36

/-! ## Blocks in blocks -/

theorem innermost_snoc {α : Type} (get : Block → Option α) (levels : List Block) (block : Block) :
    innermost get (levels ++ [block]) = (get block).or (innermost get levels) := by
  simp only [innermost, List.reverse_append, List.reverse_singleton, List.singleton_append,
    List.findSome?_cons]
  cases get block <;> rfl

theorem innermost_one {α : Type} (get : Block → Option α) (block : Block) :
    innermost get [block] = get block := by
  simp [innermost]

/-- The text of a key that may be unset. -/
def keyText (key : Option Bytes) : Bytes := (key.map quote).getD []

theorem keyText_length {key : Option Bytes} : (keyText key).length ≠ 0 ↔ key.isSome = true := by
  cases key with
  | none => simp [keyText]
  | some k => simpa [keyText] using quote_length_ne_zero k

/-- A configuration in effect holds what the levels say. -/
structure Effective (levels : List Block) (conf : LocConf) : Prop where
  success : conf.success.bytes = keyText (successKey levels)
  userProps : conf.userProps = (userProps levels).map (List.map property)
  format : conf.format = some (format levels)
  root : conf.root.bytes = keyText (rootKey levels)

/-- What is around a block, merged or not: the outermost block has no defaults. -/
structure Encloses (levels : List Block) (conf : LocConf) : Prop where
  success : conf.success.bytes = keyText (successKey levels)
  userProps : conf.userProps = (userProps levels).map (List.map property)
  format : conf.format = innermost (List.findSome? formatLine) levels ∨
    innermost (List.findSome? formatLine) levels = none ∧ conf.format = some .normal
  root : conf.root.bytes = keyText (rootKey levels) ∨
    innermost (List.findSome? rootLine) levels = none ∧ conf.root.bytes = []

theorem Effective.encloses {levels : List Block} {conf : LocConf} (h : Effective levels conf) :
    Encloses levels conf := by
  refine ⟨h.success, h.userProps, ?_, .inl h.root⟩
  rw [h.format, Levels.format]
  cases hf : innermost (List.findSome? formatLine) levels with
  | none => exact .inr ⟨rfl, rfl⟩
  | some f => exact .inl rfl

/-- One block, as it was read. -/
theorem encloses_spelled (block : Block) : Encloses [block] (spelled block) := by
  refine ⟨?_, ?_, .inl (innermost_one _ _).symm, ?_⟩
  · rw [successKey, innermost_one]
    rfl
  · rw [Levels.userProps, innermost_one]
    rfl
  · have hroot : (spelled block).root = (block.findSome? rootLine).map quote := rfl
    rw [hroot, rootKey, innermost_one]
    cases block.findSome? rootLine with
    | none => exact .inr ⟨rfl, rfl⟩
    | some r => exact .inl rfl

theorem mergeStr_bytes (key : Option Bytes) (prev : Str) :
    (mergeStr (key.map quote) prev []).bytes = if key.isSome then keyText key else prev.bytes := by
  cases key with
  | some k => rfl
  | none => cases prev <;> rfl

theorem wrapped_snoc {levels : List Block} (h : wrapped levels = true) (block : Block) :
    wrapped (levels ++ [block]) = true := by
  simp only [wrapped, successKey, userProps, innermost_snoc, Bool.or_eq_true,
    Option.isSome_or] at h ⊢
  exact h.imp (fun hk => .inr hk) fun hk => .inr hk

/-- The root key of a merged block: its own, that of the levels around it, or the
default. -/
theorem Encloses.root_merge {levels : List Block} {block : Block} {prev : LocConf} {root : Str}
    (h : Encloses levels prev) (hroot : root.bytes = if (block.findSome? rootLine).isSome then
      keyText (block.findSome? rootLine) else prev.root.bytes) :
    Str.bytes (if root.len = 0 ∧ wrapped (levels ++ [block]) = true then some (lit "\"data\"")
      else root) = keyText (rootKey (levels ++ [block])) := by
  have hstays {k : Bytes} (hk : root.bytes = keyText (some k)) : root.len ≠ 0 := by
    rw [Str.len, hk]
    exact keyText_length.mpr rfl
  rw [rootKey, innermost_snoc]
  cases hown : block.findSome? rootLine with
  | some r =>
    rw [hown, Option.isSome_some, if_pos rfl] at hroot
    rw [if_neg fun hc => hstays hroot hc.1, hroot]
    rfl
  | none =>
    rw [hown, Option.isSome_none, if_neg Bool.false_ne_true] at hroot
    have houter := h.root
    rw [← hroot, rootKey] at houter
    cases hlevels : innermost (List.findSome? rootLine) levels with
    | some r =>
      rw [hlevels] at houter
      have hkey := houter.resolve_right fun hc => Option.some_ne_none r hc.1
      rw [if_neg fun hc => hstays hkey hc.1, hkey]
      rfl
    | none =>
      rw [hlevels, Option.none_or] at houter
      rw [Option.none_or, Option.none_or]
      by_cases hw : wrapped (levels ++ [block]) = true
      · rw [if_pos hw]
        split
        · rfl
        · next hlen =>
          have hne : root.len ≠ 0 := fun hl => hlen ⟨hl, hw⟩
          have hkey := houter.resolve_right fun hc => hne (by rw [Str.len, hc.2]; rfl)
          split at hkey
          · exact hkey
          · exact absurd (by rw [Str.len, hkey]; rfl) hne
      · rw [if_neg hw, if_neg fun hc => hw hc.2]
        rw [if_neg fun hl => hw (wrapped_snoc hl block)] at houter
        exact houter.elim id And.right

/-- Merging a block with what is around it. -/
theorem Encloses.merge {levels : List Block} {prev : LocConf} (h : Encloses levels prev)
    (pagesize : Nat) (block : Block) :
    Effective (levels ++ [block]) (mergeLocConf pagesize prev (spelled block)) := by
  have hsuccess : (mergeStr (spelled block).success prev.success []).bytes =
      keyText (successKey (levels ++ [block])) := by
    rw [spelled, mergeStr_bytes, successKey, innermost_snoc, h.success, successKey]
    cases block.findSome? successLine <;> rfl
  have hprops : (mergeLocConf pagesize prev (spelled block)).userProps =
      (Levels.userProps (levels ++ [block])).map (List.map property) := by
    unfold mergeLocConf spelled
    dsimp only
    rw [Levels.userProps, innermost_snoc, h.userProps, Levels.userProps]
    cases blockProps block <;> rfl
  refine ⟨hsuccess, hprops, ?_, ?_⟩
  · show mergeValue (block.findSome? formatLine) prev.format .normal = _
    rw [Levels.format, innermost_snoc]
    cases block.findSome? formatLine with
    | some f => rfl
    | none =>
      rcases h.format with hf | ⟨hnone, hf⟩
      · rw [hf]
        rfl
      · rw [hf, hnone]
        rfl
  · have hwrapped : (mergeStr (spelled block).success prev.success []).len ≠ 0 ∨
        (mergeLocConf pagesize prev (spelled block)).userProps.isSome = true ↔
          wrapped (levels ++ [block]) = true := by
      rw [hprops, Str.len, hsuccess, keyText_length, wrapped, Bool.or_eq_true, Option.isSome_map]
    have hroot := h.root_merge (mergeStr_bytes (block.findSome? rootLine) prev.root)
    exact (congrArg Str.bytes (if_congr (and_congr Iff.rfl hwrapped) rfl rfl)).trans hroot

theorem InEffect.effective {compiles : Bytes → Bool} {pagesize : Nat} {levels : List Block}
    {conf : LocConf} (h : InEffect compiles pagesize levels conf) : Effective levels conf := by
  induction h with
  | merged hprev hconf =>
    obtain ⟨-, rfl⟩ := readBlock_ok_iff.mp hprev
    obtain ⟨-, rfl⟩ := readBlock_ok_iff.mp hconf
    exact (encloses_spelled _).merge pagesize _
  | nested hprev htype hconf ih =>
    obtain ⟨-, rfl⟩ := readBlock_ok_iff.mp hconf
    exact ih.encloses.merge pagesize _

end RdsJson.Levels
