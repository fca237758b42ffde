import RdsJson.Levels

/-! # The settings of error objects

What `rds_json_errcode_key`, `rds_json_errstr_key` and `rds_json_ret` set, told
from the nested levels. The keys are inherited and have defaults; what a location
returns is its own. -/
namespace RdsJson.ErrorKeys
open RdsJson.Lib.LittleEndian RdsJson.Lib.Json RdsJson.Nginx RdsJson.Util RdsJson.Conf
open RdsJson.Render RdsJson.Blocks RdsJson.Levels

def errcodeKey (levels : List Block) : Bytes :=
  (innermost (List.findSome? errcodeKeyLine) levels).getD (lit "errcode")

def errstrKey (levels : List Block) : Bytes :=
  (innermost (List.findSome? errstrKeyLine) levels).getD (lit "errstr")

/-- What the innermost block itself returns. -/
def ret (levels : List Block) : Option (Bytes × Bytes) := levels.getLast?.bind blockRet

/-- A configuration in effect has both keys, and returns what its block says. -/
structure EffectiveErrors (levels : List Block) (conf : LocConf) : Prop where
  errcodeKey : conf.errcodeKey = some (quote (errcodeKey levels))
  errstrKey : conf.errstrKey = some (quote (errstrKey levels))
  errcode : conf.errcode = (ret levels).map Prod.fst
  errstr : conf.errstr = (ret levels).map Prod.snd
  digits : ∀ r ∈ ret levels, r.1 ≠ [] ∧ r.1.all isDigit = true

/-- A key that is unset takes what is around it, and the default last. -/
theorem mergeStr_quote (own : Option Bytes) {outer : Option Bytes} {prev : Str} {default : Bytes}
    (hprev : prev = outer.map quote ∨ prev = some (quote (outer.getD default))) :
    mergeStr (own.map quote) prev (quote default) = some (quote ((own.or outer).getD default)) := by
  cases own with
  | some key => rfl
  | none =>
    obtain rfl | rfl := hprev
    · cases outer <;> rfl
    · rfl

/-- Merging a block that was read with what is around it. -/
theorem effectiveErrors_merge {compiles : Bytes → Bool} {cmdType : CmdType} {levels : List Block}
    {block : Block} {prev : LocConf} (h : Acceptable compiles cmdType block) (pagesize : Nat)
    (hcode : prev.errcodeKey = (innermost (List.findSome? errcodeKeyLine) levels).map quote ∨
      prev.errcodeKey = some (quote (errcodeKey levels)))
    (hstr : prev.errstrKey = (innermost (List.findSome? errstrKeyLine) levels).map quote ∨
      prev.errstrKey = some (quote (errstrKey levels))) :
    EffectiveErrors (levels ++ [block]) (mergeLocConf pagesize prev (spelled block)) := by
  have hret : ret (levels ++ [block]) = blockRet block := by simp [ret]
  refine ⟨?_, ?_, ?_, ?_, ?_⟩
  · show mergeStr ((block.findSome? errcodeKeyLine).map quote) prev.errcodeKey
      (quote (lit "errcode")) = _
    rw [mergeStr_quote _ hcode, errcodeKey, innermost_snoc]
  · show mergeStr ((block.findSome? errstrKeyLine).map quote) prev.errstrKey
      (quote (lit "errstr")) = _
    rw [mergeStr_quote _ hstr, errstrKey, innermost_snoc]
  · rw [hret]
    rfl
  · rw [hret]
    rfl
  · rw [hret]
    exact h.digits

theorem effectiveErrors_of_inEffect {compiles : Bytes → Bool} {pagesize : Nat}
    {levels : List Block} {conf : LocConf} (h : InEffect compiles pagesize levels conf) :
    EffectiveErrors levels conf := by
  induction h with
  | @merged http server prev conf hprev hconf =>
    obtain ⟨-, rfl⟩ := readBlock_ok_iff.mp hprev
    obtain ⟨hserver, rfl⟩ := readBlock_ok_iff.mp hconf
    refine @effectiveErrors_merge compiles .srv [http] _ _ hserver pagesize (.inl ?_) (.inl ?_)
    · rw [innermost_one]
      rfl
    · rw [innermost_one]
      rfl
  | nested hprev htype hconf ih =>
    obtain ⟨hblock, rfl⟩ := readBlock_ok_iff.mp hconf
    exact effectiveErrors_merge hblock pagesize (.inr ih.errcodeKey) (.inr ih.errstrKey)

end RdsJson.ErrorKeys
