import RdsJson.Generators
import RdsJson.Lib.Json

/-! # Escaped strings are JSON strings

What `escape_json_str` writes is read back by a JSON reader as the bytes it was
given, and its two passes agree. -/
namespace RdsJson.Escaping
open RdsJson.Lib.LittleEndian RdsJson.Lib.Json RdsJson.Nginx RdsJson.Util RdsJson.Render
open RdsJson.Generators

/-! ## Bytes -/

/-- What holds of the numbers below `n` holds of the bytes. -/
theorem forall_byte_lt {P : UInt8 → Prop} {n : Nat} (h : ∀ k < n, P (UInt8.ofNat k)) {c : UInt8}
    (hc : c.toNat < n) : P c := by
  have := h c.toNat hc
  rwa [UInt8.ofNat_toNat] at this

theorem readEscape_short {c e : UInt8} (h : shortEscapes.lookup c = some e) (rest : Bytes) :
    readEscape (e :: rest) = some ([c], rest) := by
  have hmem : (c, e) ∈ shortEscapes := by
    obtain ⟨l₁, l₂, hsplit, -⟩ := List.lookup_eq_some_iff.mp h
    simp [hsplit]
  have hback : shortEscapes.all fun p => simpleEscapes.lookup p.2 = some p.1 := rfl
  have hletter := of_decide_eq_true (List.all_eq_true.mp hback _ hmem)
  dsimp only at hletter
  simp [readEscape, hletter]

/-- The digits of a control character. -/
theorem readUnicode_control {c : UInt8} (h : c < 32) (rest : Bytes) :
    readUnicode (48 :: 48 :: hex.getD (c >>> 4).toNat 0 :: hex.getD (c &&& 0x0f).toNat 0 :: rest) =
      some ([c], rest) := by
  have hlt : c.toNat < 32 := h
  have hdigits : hexVal (hex.getD (c >>> 4).toNat 0) = some (c.toNat / 16) ∧
      hexVal (hex.getD (c &&& 0x0f).toNat 0) = some (c.toNat % 16) :=
    forall_byte_lt (P := fun c => hexVal (hex.getD (c >>> 4).toNat 0) = some (c.toNat / 16) ∧
      hexVal (hex.getD (c &&& 0x0f).toNat 0) = some (c.toNat % 16)) (by decide) hlt
  obtain ⟨hhigh, hlow⟩ := hdigits
  have hzero : hexVal 48 = some 0 := rfl
  generalize hex.getD (c >>> 4).toNat 0 = high at hhigh ⊢
  generalize hex.getD (c &&& 0x0f).toNat 0 = low at hlow ⊢
  have hunit : readHex4 (48 :: 48 :: high :: low :: rest) = some (c.toNat, rest) := by
    have hval : c.toNat / 16 * 16 + c.toNat % 16 = c.toNat := by omega
    simp [readHex4, hhigh, hlow, hzero, hval]
  have hsmall : c.toNat < 0xd800 ∧ c.toNat < 0x80 := by omega
  simp [readUnicode, hunit, utf8, hsmall.1, hsmall.2]

theorem low_of_special {c : UInt8} (h : c = 92 ∨ c = 34 ∨ c < 32) : c &&& 0x80 = 0 := by
  have hlt : c.toNat < 128 := by
    rcases h with rfl | rfl | hlt
    · decide
    · decide
    · have : c.toNat < 32 := hlt
      omega
  exact forall_byte_lt (P := fun c => c &&& 0x80 = 0) (by decide) hlt

theorem readChar_plain {c : UInt8} (h : ¬ (c = 92 ∨ c = 34 ∨ c < 32)) (rest : Bytes) :
    readChar (c :: rest) = some ([c], rest) := by
  simp only [not_or] at h
  simp [readChar, h.1, h.2.1, h.2.2]

theorem escapes_escapeByte : Escapes escapeByte := by
  intro c rest
  unfold escapeByte
  split
  · split
    · next e he => exact readEscape_short he rest
    · next hnone =>
      split
      · next hlt => exact readUnicode_control hlt rest
      · next hge =>
        refine readChar_plain ?_ rest
        rintro (rfl | rfl | hlt)
        · cases hnone
        · cases hnone
        · exact hge hlt
  · next hhigh => exact readChar_plain (fun h => hhigh (low_of_special h)) rest

/-- No control character is written. -/
theorem escapeByte_not_control (c : UInt8) : ∀ d ∈ escapeByte c, ¬ d < 32 := by
  unfold escapeByte
  intro d hd
  split at hd
  · split at hd
    · next e he =>
      have hletters : shortEscapes.all fun p => !decide (p.2 < 32) := rfl
      obtain ⟨l₁, l₂, hsplit, -⟩ := List.lookup_eq_some_iff.mp he
      have hletter := List.all_eq_true.mp hletters (c, e) (by simp [hsplit])
      rcases List.mem_pair.mp hd with rfl | rfl
      · decide
      · simpa using hletter
    · split at hd
      · next hlt =>
        have hdigits : ¬ hex.getD (c >>> 4).toNat 0 < 32 ∧ ¬ hex.getD (c &&& 0x0f).toNat 0 < 32 :=
          forall_byte_lt (P := fun c => ¬ hex.getD (c >>> 4).toNat 0 < 32 ∧
            ¬ hex.getD (c &&& 0x0f).toNat 0 < 32) (by decide) hlt
        have hprefix : (lit "\\u00").all fun b => !decide (b < 32) := rfl
        rcases List.mem_append.mp hd with hd | hd
        · simpa using List.all_eq_true.mp hprefix d hd
        · rcases List.mem_pair.mp hd with rfl | rfl
          · exact hdigits.1
          · exact hdigits.2
      · next hge => rwa [List.mem_singleton.mp hd]
  · next hhigh =>
    rw [List.mem_singleton.mp hd]
    exact fun hlt => hhigh (low_of_special (.inr (.inr hlt)))

/-! ## Strings -/

theorem escapeJsonStr_eq_flatMap (s : Bytes) : escapeJsonStr s = s.flatMap escapeByte := by
  induction s with
  | nil => rfl
  | cons c s ih => simp [escapeJsonStr, ih]

theorem quote_eq_quoted (s : Bytes) : quote s = quoted escapeByte s := by
  rw [quote, escapeJsonStr_eq_flatMap]
  rfl

theorem spells_quote (s : Bytes) : Spells (quote s) (.string s) :=
  quote_eq_quoted s ▸ spells_quoted escapes_escapeByte s

theorem spellsMember_quote (key : Bytes) {text : Bytes} {v : Value} (hv : Spells text v) :
    SpellsMember (quote key ++ lit ":" ++ text) (key, v) := by
  have h := spellsMember_quoted escapes_escapeByte key hv
  rw [← quote_eq_quoted] at h
  simpa [lit] using h

theorem escapeJsonStr_not_control (s : Bytes) : ∀ d ∈ escapeJsonStr s, ¬ d < 32 := by
  intro d hd
  rw [escapeJsonStr_eq_flatMap] at hd
  obtain ⟨c, -, hc⟩ := List.mem_flatMap.mp hd
  exact escapeByte_not_control c d hc

/-- The counting pass counts what the writing pass adds, a string without escapes
is its own escaped form, and what is written is the body of a JSON string that
reads back as the bytes it was made from. -/
theorem escape_json_str_correct (s : Bytes) :
    (escapeJsonStr s).length = s.length + escapeJsonStrExtra s ∧
      (escapeJsonStrExtra s = 0 → escapeJsonStr s = s) ∧
      (∀ d ∈ escapeJsonStr s, ¬ d < 32) ∧ IsBody (escapeJsonStr s) ∧
      ∀ rest, readString (lit "\"" ++ escapeJsonStr s ++ lit "\"" ++ rest) = some (s, rest) := by
  refine ⟨escapeJsonStr_length s, fun h => ?_, escapeJsonStr_not_control s, ?_, fun rest => ?_⟩
  · rw [← copyEscaped_eq, copyEscaped, if_pos h]
  · rw [escapeJsonStr_eq_flatMap]
    exact escapes_escapeByte.isBody s
  · have hread := readString_quoted escapes_escapeByte s rest
    rwa [← quote_eq_quoted] at hread

/-! ## Lists -/

theorem commaSep_eq (xs : List Bytes) : commaSep xs = List.intercalate [44] xs := by
  induction xs with
  | nil => rfl
  | cons x xs ih =>
    cases xs with
    | nil => simp [commaSep]
    | cons y ys =>
      rw [commaSep, ih, List.intercalate_cons_cons]
      rfl

theorem spells_list {texts : List Bytes} {vs : List Value} (h : List.Forall₂ Spells texts vs) :
    Spells (lit "[" ++ commaSep texts ++ lit "]") (.array vs) := by
  rw [commaSep_eq]
  exact Spells.array h

end RdsJson.Escaping
