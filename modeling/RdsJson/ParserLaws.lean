import RdsJson.Encoding

/-! # The parsers undo the encodings

Headers and column specs are read back from their encodings, nothing else is
read as one, and no content of a buf makes a parser read past its end. -/
namespace RdsJson.ParserLaws
open RdsJson.Lib.LittleEndian RdsJson.Lib.PrefixCode RdsJson.Nginx RdsJson.Rds RdsJson.Format
open RdsJson.Encoding

variable {α : Type} {Fits : α → Prop} {enc : α → Bytes}
  {parse : Buf → Except Fault (Option α × Buf)}

/-- A parser undoes an encoding. `total` is what rules out a read at or past
`last`: that is a fault. -/
structure Decodes (Fits : α → Prop) (enc : α → Bytes)
    (parse : Buf → Except Fault (Option α × Buf)) : Prop where
  encoded : ∀ a b t, Fits a → b.rest = enc a ++ t →
    parse b = .ok (some a, b.advance (enc a).length)
  only : ∀ a b b', parse b = .ok (some a, b') →
    Fits a ∧ b.rest = enc a ++ b'.rest ∧ b' = b.advance (enc a).length
  short : ∀ a b t, Fits a → t ≠ [] → enc a = b.rest ++ t → ∃ b', parse b = .ok (none, b')
  total : ∀ b, ∃ r, parse b = .ok r

/-- Where a code is the beginning of no other, a beginning of a code is no code. -/
theorem decodes_of_delimits (hcode : Delimits Fits enc)
    (hencoded : ∀ a b t, Fits a → b.rest = enc a ++ t →
      parse b = .ok (some a, b.advance (enc a).length))
    (hspec : ∀ b, ∃ a? b', parse b = .ok (a?, b') ∧ ∀ a, a? = some a →
      Fits a ∧ b.rest = enc a ++ b'.rest ∧ b' = b.advance (enc a).length) :
    Decodes Fits enc parse := by
  refine ⟨hencoded, fun a b b' hparse => ?_, fun a b t hfits ht hshort => ?_, fun b => ?_⟩
  · obtain ⟨a?, b₁, heq, hsome⟩ := hspec b
    cases heq.symm.trans hparse
    exact hsome a rfl
  · obtain ⟨a?, b', heq, hsome⟩ := hspec b
    cases a? with
    | none => exact ⟨b', heq⟩
    | some a' =>
      obtain ⟨hfits', hrest, -⟩ := hsome a' rfl
      have hcodes : enc a ++ [] = enc a' ++ (b'.rest ++ t) := by
        rw [List.append_nil, hshort, hrest, List.append_assoc]
      have hnil := (hcode a a' _ _ hfits hfits' hcodes).2
      exact absurd (List.append_eq_nil_iff.mp hnil.symm).2 ht
  · obtain ⟨a?, b', heq, -⟩ := hspec b
    exact ⟨_, heq⟩

theorem decodes_header : Decodes Header.Fits encodeHeader parseHeader :=
  decodes_of_delimits delimits_header (fun _ _ _ => parseHeader_encode) parseHeader_spec

theorem decodes_col : Decodes Column.Fits encodeCol (parseCol true) :=
  decodes_of_delimits delimits_col (fun _ _ _ => parseCol_encode) fun b => by
    obtain ⟨col?, b', heq, hsome⟩ := parseCol_spec true b
    exact ⟨col?, b', heq, fun c hc => ⟨(hsome c hc).1, (hsome c hc).2.2⟩⟩

/-- Both parsers undo their encodings; without memory for the name no column spec
is read, from any buf. -/
theorem parsers_decode :
    Decodes Header.Fits encodeHeader parseHeader ∧ Decodes Column.Fits encodeCol (parseCol true) ∧
      ∀ b, ∃ b', parseCol false b = .ok (none, b') := by
  refine ⟨decodes_header, decodes_col, fun b => ?_⟩
  obtain ⟨col?, b', heq, hsome⟩ := parseCol_spec false b
  cases col? with
  | none => exact ⟨b', heq⟩
  | some c => cases (hsome c rfl).2.1

end RdsJson.ParserLaws
