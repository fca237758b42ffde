import RdsJson.Lib.LittleEndian
import Mathlib.Data.List.Forall2

/-! # JSON texts

A strict reader of JSON at byte level, and rules for putting texts together that
it reads. Bytes from 0x80 on stand for themselves. -/
namespace RdsJson.Lib.Json
open RdsJson.Lib.LittleEndian

/-- A number is kept as it is spelt, an object as its members in order. -/
inductive Value where
  | null
  | bool (b : Bool)
  | number (text : Bytes)
  | string (bytes : Bytes)
  | array (elements : List Value)
  | object (members : List (Bytes × Value))

/-! ## Tokens -/

/-- Tab, line feed, carriage return and blank. -/
def isWs (c : UInt8) : Bool := c = 9 || c = 10 || c = 13 || c = 32

def skipWs (bs : Bytes) : Bytes := bs.dropWhile isWs

/-- The byte `c` behind whitespace. -/
def expect (c : UInt8) (bs : Bytes) : Option Bytes :=
  match skipWs bs with
  | [] => none
  | d :: rest => if d = c then some rest else none

/-- What may stand behind a number or a literal: whitespace, a comma or a closing
bracket. -/
def delimiter (c : UInt8) : Bool := isWs c || c = 44 || c = 93 || c = 125

/-! ## Numbers -/

def isDigit (c : UInt8) : Bool := 48 ≤ c && c ≤ 57

/-- One digit or more. Like the next three, what is left behind it. -/
def afterDigits : Bytes → Option Bytes
  | [] => none
  | c :: bs => if isDigit c then some (bs.dropWhile isDigit) else none

/-- A zero stands alone. -/
def afterInt : Bytes → Option Bytes
  | [] => none
  | c :: bs => if c = 48 then some bs else afterDigits (c :: bs)

def afterFraction : Bytes → Option Bytes
  | [] => some []
  | c :: bs => if c = 46 then afterDigits bs else some (c :: bs)

def afterSign (sign : UInt8 → Bool) : Bytes → Bytes
  | [] => []
  | c :: bs => if sign c then bs else c :: bs

def afterExponent : Bytes → Option Bytes
  | [] => some []
  | c :: bs =>
    if c = 101 || c = 69 then afterDigits (afterSign (fun c => c = 43 || c = 45) bs)
    else some (c :: bs)

/-- A minus at most, an integer, a fraction at most and an exponent at most. -/
def isNumber (bs : Bytes) : Bool :=
  (do
    let bs ← afterInt (afterSign (fun c => c = 45) bs)
    let bs ← afterFraction bs
    afterExponent bs) = some []

/-- A number or a literal, as long as it goes. -/
def readWord (bs : Bytes) : Option (Value × Bytes) :=
  let word := bs.takeWhile fun c => !delimiter c
  let rest := bs.dropWhile fun c => !delimiter c
  if word = [110, 117, 108, 108] then some (.null, rest)
  else if word = [116, 114, 117, 101] then some (.bool true, rest)
  else if word = [102, 97, 108, 115, 101] then some (.bool false, rest)
  else if isNumber word then some (.number word, rest)
  else none

/-! ## Strings -/

/-- What the letter behind a backslash stands for. -/
def simpleEscapes : List (UInt8 × UInt8) :=
  [(34, 34), (92, 92), (47, 47), (98, 8), (102, 12), (110, 10), (114, 13), (116, 9)]

def hexVal (c : UInt8) : Option Nat :=
  if 48 ≤ c && c ≤ 57 then some (c.toNat - 48)
  else if 97 ≤ c && c ≤ 102 then some (c.toNat - 87)
  else if 65 ≤ c && c ≤ 70 then some (c.toNat - 55)
  else none

def readHex4 : Bytes → Option (Nat × Bytes)
  | a :: b :: c :: d :: rest => do
    let a ← hexVal a
    let b ← hexVal b
    let c ← hexVal c
    let d ← hexVal d
    some (((a * 16 + b) * 16 + c) * 16 + d, rest)
  | _ => none

/-- The bytes of a code point in UTF-8. -/
def utf8 (n : Nat) : Bytes :=
  if n < 0x80 then [UInt8.ofNat n]
  else if n < 0x800 then [UInt8.ofNat (0xc0 + n / 64), UInt8.ofNat (0x80 + n % 64)]
  else if n < 0x10000 then
    [UInt8.ofNat (0xe0 + n / 4096), UInt8.ofNat (0x80 + n / 64 % 64), UInt8.ofNat (0x80 + n % 64)]
  else
    [UInt8.ofNat (0xf0 + n / 262144), UInt8.ofNat (0x80 + n / 4096 % 64),
      UInt8.ofNat (0x80 + n / 64 % 64), UInt8.ofNat (0x80 + n % 64)]

/-- A code unit; surrogates come in pairs. -/
def readUnicode (bs : Bytes) : Option (Bytes × Bytes) := do
  let (high, bs) ← readHex4 bs
  if high < 0xd800 ∨ 0xe000 ≤ high then some (utf8 high, bs)
  else
    match bs with
    | 92 :: 117 :: bs => do
      let (low, bs) ← readHex4 bs
      if high < 0xdc00 ∧ 0xdc00 ≤ low ∧ low < 0xe000 then
        some (utf8 (0x10000 + (high - 0xd800) * 0x400 + (low - 0xdc00)), bs)
      else none
    | _ => none

def readEscape : Bytes → Option (Bytes × Bytes)
  | [] => none
  | e :: bs =>
    match simpleEscapes.lookup e with
    | some c => some ([c], bs)
    | none => if e = 117 then readUnicode bs else none

/-- One character inside a string, as the bytes it stands for. -/
def readChar : Bytes → Option (Bytes × Bytes)
  | [] => none
  | c :: bs =>
    if c = 92 then readEscape bs else if c < 32 ∨ c = 34 then none else some ([c], bs)

/-- One character as it is spelt: a plain byte, or a whole escape sequence. -/
def IsChar (text : Bytes) : Prop :=
  (∃ c, text = [c] ∧ ¬ c < 32 ∧ c ≠ 34 ∧ c ≠ 92) ∨
    ∃ e s, text = 92 :: e ∧ readEscape e = some (s, [])

/-- What may stand between quotation marks. -/
def IsBody (text : Bytes) : Prop :=
  ∃ chars : List Bytes, text = chars.flatten ∧ ∀ char ∈ chars, IsChar char

/-- The characters up to the closing quotation mark; there are fewer of them
than bytes, which bounds the fuel. -/
def readChars : Nat → Bytes → Option (Bytes × Bytes)
  | 0, _ => none
  | _ + 1, [] => none
  | fuel + 1, c :: bs =>
    if c = 34 then some ([], bs)
    else do
      let (s, bs) ← readChar (c :: bs)
      let (s', bs) ← readChars fuel bs
      some (s ++ s', bs)

def readString (bs : Bytes) : Option (Bytes × Bytes) := do
  let bs ← expect 34 bs
  readChars bs.length bs

/-! ## Values -/

section
variable {α : Type}

/-- One item or more, with commas between them, up to `close`. -/
def readItems (item : Bytes → Option (α × Bytes)) (close : UInt8) :
    Nat → Bytes → Option (List α × Bytes)
  | 0, _ => none
  | fuel + 1, bs => do
    let (a, bs) ← item bs
    match expect 44 bs with
    | some bs => do
      let (as, bs) ← readItems item close fuel bs
      some (a :: as, bs)
    | none => do
      let bs ← expect close bs
      some ([a], bs)

def readList (item : Bytes → Option (α × Bytes)) (close : UInt8) (bs : Bytes) :
    Option (List α × Bytes) :=
  match expect close bs with
  | some bs => some ([], bs)
  | none => readItems item close bs.length bs

/-- A member of an object. -/
def readMember (value : Bytes → Option (α × Bytes)) (bs : Bytes) :
    Option ((Bytes × α) × Bytes) := do
  let (key, bs) ← readString bs
  let bs ← expect 58 bs
  let (v, bs) ← value bs
  some ((key, v), bs)

end

/-- A value that is nested less than `depth` deep, and what is behind it. -/
def readValue : Nat → Bytes → Option (Value × Bytes)
  | 0, _ => none
  | depth + 1, bs =>
    match skipWs bs with
    | [] => none
    | c :: rest =>
      if c = 91 then do
        let (elements, rest) ← readList (readValue depth) 93 rest
        some (.array elements, rest)
      else if c = 123 then do
        let (members, rest) ← readList (readMember (readValue depth)) 125 rest
        some (.object members, rest)
      else if c = 34 then do
        let (s, rest) ← readString (c :: rest)
        some (.string s, rest)
      else readWord (c :: rest)

/-- A text is one value, with nothing but whitespace around it. -/
def parse (text : Bytes) : Option Value := do
  let (v, rest) ← readValue text.length text
  if skipWs rest = [] then some v else none

/-! ## Whitespace and tokens -/

theorem skipWs_cons {c : UInt8} (hc : isWs c = false) (bs : Bytes) :
    skipWs (c :: bs) = c :: bs := by
  simp [skipWs, hc]

theorem expect_cons {c : UInt8} (hc : isWs c = false) (bs : Bytes) :
    expect c (c :: bs) = some bs := by
  simp [expect, skipWs_cons hc]

theorem expect_ne {c d : UInt8} (hd : isWs d = false) (hne : d ≠ c) (bs : Bytes) :
    expect c (d :: bs) = none := by
  simp [expect, skipWs_cons hd, hne]

theorem expect_some {c : UInt8} {bs rest : Bytes} (h : expect c bs = some rest) :
    skipWs bs = c :: rest := by
  unfold expect at h
  split at h
  · cases h
  · next d rest' hd =>
    split at h
    · next hdc =>
      cases h
      rw [hd, hdc]
    · cases h

/-- Two bytes cannot both be next. -/
theorem expect_unique {c d : UInt8} {bs rest : Bytes} (h : expect c bs = some rest) (hne : c ≠ d) :
    expect d bs = none := by
  simp [expect, expect_some h, hne]

/-- Nothing behind a value makes it longer. -/
def Ends (rest : Bytes) : Prop := ∀ c ∈ rest.head?, delimiter c = true

theorem ends_nil : Ends [] := by simp [Ends]

theorem ends_cons {c : UInt8} (hc : delimiter c = true) (bs : Bytes) : Ends (c :: bs) := by
  simpa [Ends] using hc

/-! ## What is read off the front -/

section
variable {α : Type} {item : Bytes → Option (α × Bytes)} {close : UInt8}

/-- `item` reads `a` off the text, whatever ends it. -/
def Reads (item : Bytes → Option (α × Bytes)) (text : Bytes) (a : α) : Prop :=
  ∀ rest, Ends rest → item (text ++ rest) = some (a, rest)

theorem length_intercalate (texts : List Bytes) :
    texts.length ≤ (List.intercalate [44] texts).length + 1 := by
  induction texts with
  | nil => simp
  | cons text texts ih =>
    by_cases hnil : texts = []
    · simp [hnil]
    · rw [List.intercalate_cons_of_ne_nil hnil]
      simp only [List.length_append, List.length_cons, List.length_nil]
      omega

theorem length_le_intercalate {text : Bytes} {texts : List Bytes} (h : text ∈ texts) :
    text.length ≤ (List.intercalate [44] texts).length := by
  induction texts with
  | nil => cases h
  | cons head texts ih =>
    by_cases hnil : texts = []
    · subst hnil
      rw [List.mem_singleton.mp h, List.intercalate_singleton]
    · rw [List.intercalate_cons_of_ne_nil hnil]
      simp only [List.length_append]
      rcases List.mem_cons.mp h with rfl | htail
      · omega
      · have := ih htail
        omega

/-- Items that are read as long as they have at most `n` bytes. -/
theorem forall₂_reads {S : Bytes → α → Prop} {texts : List Bytes} {as : List α} {n : Nat}
    (h : List.Forall₂ S texts as) (hn : (List.intercalate [44] texts).length ≤ n)
    (hitem : ∀ text a, S text a → text.length ≤ n → Reads item text a) :
    List.Forall₂ (Reads item) texts as := by
  have hshort : ∀ text ∈ texts, text.length ≤ n := fun text htext =>
    Nat.le_trans (length_le_intercalate htext) hn
  exact ((List.forall₂_and_left texts as).mpr ⟨hshort, h⟩).imp fun text a ha =>
    hitem text a ha.2 ha.1

/-- Items with commas between them are read one by one. -/
theorem readItems_intercalate {texts : List Bytes} {as : List α} {fuel : Nat}
    (h : List.Forall₂ (Reads item) texts as) (hne : texts ≠ []) (hclose : close = 93 ∨ close = 125)
    (hfuel : texts.length ≤ fuel) (rest : Bytes) :
    readItems item close fuel (List.intercalate [44] texts ++ close :: rest) = some (as, rest) := by
  have hws : isWs close = false ∧ delimiter close = true ∧ close ≠ 44 := by
    rcases hclose with rfl | rfl <;> decide
  obtain ⟨hws, hdelimiter, hcomma⟩ := hws
  induction h generalizing fuel with
  | nil => exact absurd rfl hne
  | @cons text a texts as hreads h ih =>
    obtain ⟨fuel, rfl⟩ : ∃ k, fuel = k + 1 := ⟨fuel - 1, by simp at hfuel; omega⟩
    rw [readItems]
    by_cases hnil : texts = []
    · subst hnil
      cases h
      rw [List.intercalate_singleton, hreads _ (ends_cons hdelimiter rest)]
      simp [expect_ne hws hcomma, expect_cons hws]
    · rw [List.intercalate_cons_of_ne_nil hnil, List.append_assoc, List.append_assoc,
        List.singleton_append, hreads _ (ends_cons rfl _)]
      simp only [List.length_cons] at hfuel
      simp [expect_cons (show isWs 44 = false from rfl), ih hnil (by omega : texts.length ≤ fuel)]

/-- A list in brackets, of items that cannot start with the closing bracket. -/
theorem readList_intercalate {texts : List Bytes} {as : List α}
    (h : List.Forall₂ (Reads item) texts as) (hclose : close = 93 ∨ close = 125)
    (hstart : ∀ bs rest, expect close bs = some rest → item bs = none) (rest : Bytes) :
    readList item close (List.intercalate [44] texts ++ close :: rest) = some (as, rest) := by
  have hws : isWs close = false ∧ delimiter close = true := by
    rcases hclose with rfl | rfl <;> decide
  unfold readList
  cases h with
  | nil => simp [List.intercalate, expect_cons hws.1]
  | @cons text a texts as hreads h =>
    have hlen := length_intercalate (text :: texts)
    have hfuel : (text :: texts).length ≤
        (List.intercalate [44] (text :: texts) ++ close :: rest).length := by
      simp only [List.length_append, List.length_cons] at hlen ⊢
      omega
    have hread := readItems_intercalate (.cons hreads h) (by simp) hclose hfuel rest
    cases hex : expect close (List.intercalate [44] (text :: texts) ++ close :: rest) with
    | none => exact hread
    | some bs =>
      have hnone := hstart _ _ hex
      by_cases hnil : texts = []
      · subst hnil
        rw [List.intercalate_singleton, hreads _ (ends_cons hws.2 rest)] at hnone
        cases hnone
      · rw [List.intercalate_cons_of_ne_nil hnil, List.append_assoc, List.append_assoc,
          List.singleton_append, hreads _ (ends_cons rfl _)] at hnone
        cases hnone

end

/-! ## Strings -/

/-- Every spelling that `esc` puts out for a byte is read back as that byte. -/
def Escapes (esc : UInt8 → Bytes) : Prop :=
  ∀ c rest, readChar (esc c ++ rest) = some ([c], rest)

theorem Escapes.cons {esc : UInt8 → Bytes} (h : Escapes esc) (c : UInt8) :
    ∃ d bs, esc c = d :: bs ∧ d ≠ 34 := by
  cases hesc : esc c with
  | nil =>
    have hread := h c []
    rw [hesc] at hread
    cases hread
  | cons d bs =>
    refine ⟨d, bs, rfl, fun hd => ?_⟩
    have hread := h c []
    rw [hesc, hd] at hread
    cases hread

theorem Escapes.isChar {esc : UInt8 → Bytes} (h : Escapes esc) (c : UInt8) : IsChar (esc c) := by
  have hread := h c []
  rw [List.append_nil] at hread
  cases hesc : esc c with
  | nil =>
    rw [hesc] at hread
    cases hread
  | cons d bs =>
    rw [hesc, readChar] at hread
    split at hread
    · next hd => exact .inr ⟨bs, [c], by rw [hd], hread⟩
    · next hd =>
      split at hread
      · cases hread
      · next hplain =>
        cases hread
        exact .inl ⟨c, rfl, fun hlt => hplain (.inl hlt), fun hq => hplain (.inr hq), hd⟩

theorem Escapes.isBody {esc : UInt8 → Bytes} (h : Escapes esc) (s : Bytes) :
    IsBody (s.flatMap esc) := by
  refine ⟨s.map esc, rfl, fun char hchar => ?_⟩
  obtain ⟨c, -, rfl⟩ := List.mem_map.mp hchar
  exact h.isChar c

theorem readChars_flatMap {esc : UInt8 → Bytes} (h : Escapes esc) {s : Bytes} {fuel : Nat}
    (hfuel : s.length < fuel) (rest : Bytes) :
    readChars fuel (s.flatMap esc ++ 34 :: rest) = some (s, rest) := by
  induction s generalizing fuel with
  | nil =>
    obtain ⟨fuel, rfl⟩ : ∃ k, fuel = k + 1 := ⟨fuel - 1, by simp at hfuel; omega⟩
    rfl
  | cons c s ih =>
    obtain ⟨fuel, rfl⟩ : ∃ k, fuel = k + 1 := ⟨fuel - 1, by simp at hfuel; omega⟩
    obtain ⟨d, bs, hesc, hd⟩ := h.cons c
    have hread := h c (s.flatMap esc ++ 34 :: rest)
    rw [hesc, List.cons_append] at hread
    rw [List.flatMap_cons, List.append_assoc, hesc, List.cons_append, readChars, if_neg hd, hread]
    rw [List.length_cons] at hfuel
    simp [ih (by omega : s.length < fuel)]

/-- A string in quotation marks. -/
def quoted (esc : UInt8 → Bytes) (s : Bytes) : Bytes := 34 :: (s.flatMap esc ++ [34])

theorem length_le_flatMap {esc : UInt8 → Bytes} (h : Escapes esc) (s : Bytes) :
    s.length ≤ (s.flatMap esc).length := by
  induction s with
  | nil => simp
  | cons c s ih =>
    obtain ⟨d, bs, hesc, -⟩ := h.cons c
    simp only [List.flatMap_cons, List.length_append, List.length_cons, hesc]
    omega

theorem readString_quoted {esc : UInt8 → Bytes} (h : Escapes esc) (s rest : Bytes) :
    readString (quoted esc s ++ rest) = some (s, rest) := by
  have hlen := length_le_flatMap h s
  have hfuel : s.length < (s.flatMap esc ++ 34 :: rest).length := by
    simp only [List.length_append, List.length_cons]
    omega
  rw [quoted, List.cons_append, List.append_assoc, List.singleton_append, readString,
    expect_cons rfl]
  exact readChars_flatMap h hfuel rest

/-! ## Values -/

/-- The text spells the value: the reader finds it there, whatever ends it. -/
def Spells (text : Bytes) (v : Value) : Prop :=
  ∀ depth, text.length ≤ depth → Reads (readValue depth) text v

/-- A spelt value is a text of its own. -/
theorem Spells.parse {text : Bytes} {v : Value} (h : Spells text v) :
    Json.parse text = some v := by
  have hread := h text.length (Nat.le_refl _) [] ends_nil
  rw [List.append_nil] at hread
  simp [Json.parse, hread, skipWs]

theorem spells_quoted {esc : UInt8 → Bytes} (h : Escapes esc) (s : Bytes) :
    Spells (quoted esc s) (.string s) := by
  intro depth hdepth rest _
  obtain ⟨depth, rfl⟩ : ∃ k, depth = k + 1 := ⟨depth - 1, by simp [quoted] at hdepth; omega⟩
  have hread := readString_quoted h s rest
  rw [quoted, List.cons_append] at hread ⊢
  rw [readValue, skipWs_cons rfl]
  simp only [hread]
  rfl

/-! ## Words -/

def numberByte (c : UInt8) : Bool :=
  isDigit c || c = 43 || c = 45 || c = 46 || c = 69 || c = 101

/-- `f` goes over bytes of a number. -/
def GoesOver (f : Bytes → Option Bytes) : Prop :=
  ∀ bs rest, f bs = some rest → ∃ word, bs = word ++ rest ∧ ∀ c ∈ word, numberByte c = true

theorem GoesOver.bind {f g : Bytes → Option Bytes} (hf : GoesOver f) (hg : GoesOver g) :
    GoesOver fun bs => f bs >>= g := by
  intro bs rest h
  obtain ⟨mid, hmid, hrest⟩ := Option.bind_eq_some_iff.mp h
  obtain ⟨word, rfl, hword⟩ := hf bs mid hmid
  obtain ⟨word', rfl, hword'⟩ := hg mid rest hrest
  refine ⟨word ++ word', by rw [List.append_assoc], fun c hc => ?_⟩
  exact (List.mem_append.mp hc).elim (hword c) (hword' c)

theorem numberByte_of_isDigit {c : UInt8} (h : isDigit c = true) : numberByte c = true := by
  simp [numberByte, h]

theorem goesOver_digits : GoesOver afterDigits := by
  intro bs rest h
  cases bs with
  | nil => cases h
  | cons c bs =>
    rw [afterDigits] at h
    split at h
    · next hc =>
      cases h
      refine ⟨c :: bs.takeWhile isDigit, by simp [List.takeWhile_append_dropWhile], ?_⟩
      intro d hd
      rcases List.mem_cons.mp hd with rfl | hd
      · exact numberByte_of_isDigit hc
      · exact numberByte_of_isDigit (List.all_eq_true.mp List.all_takeWhile d hd)
    · cases h

/-- One byte more in front. -/
theorem GoesOver.cons {f : Bytes → Option Bytes} (hf : GoesOver f) {c : UInt8} {bs rest : Bytes}
    (hc : numberByte c = true) (h : f bs = some rest) :
    ∃ word, c :: bs = word ++ rest ∧ ∀ d ∈ word, numberByte d = true := by
  obtain ⟨word, rfl, hword⟩ := hf bs rest h
  refine ⟨c :: word, rfl, fun d hd => ?_⟩
  rcases List.mem_cons.mp hd with rfl | hd
  · exact hc
  · exact hword d hd

theorem goesOver_none : GoesOver some :=
  fun bs rest h => ⟨[], Option.some.inj h, by simp⟩

theorem goesOver_int : GoesOver afterInt := by
  intro bs rest h
  cases bs with
  | nil => cases h
  | cons c bs =>
    rw [afterInt] at h
    split at h
    · next hc => exact goesOver_none.cons (hc ▸ rfl) h
    · exact goesOver_digits _ _ h

theorem goesOver_sign {sign : UInt8 → Bool} (hsign : ∀ c, sign c = true → numberByte c = true) :
    GoesOver fun bs => some (afterSign sign bs) := by
  intro bs rest h
  cases bs with
  | nil => exact goesOver_none _ _ h
  | cons c bs =>
    dsimp only at h
    rw [afterSign] at h
    split at h
    · next hc => exact goesOver_none.cons (hsign c hc) h
    · exact goesOver_none _ _ h

theorem goesOver_fraction : GoesOver afterFraction := by
  intro bs rest h
  cases bs with
  | nil => exact goesOver_none _ _ h
  | cons c bs =>
    rw [afterFraction] at h
    split at h
    · next hc => exact goesOver_digits.cons (hc ▸ rfl) h
    · exact goesOver_none _ _ h

theorem goesOver_exponent : GoesOver afterExponent := by
  have hsign : GoesOver fun bs => some (afterSign (fun c => c = 43 || c = 45) bs) :=
    goesOver_sign fun c hc => by
      rcases (by simpa using hc : c = 43 ∨ c = 45) with rfl | rfl <;> rfl
  intro bs rest h
  cases bs with
  | nil => exact goesOver_none _ _ h
  | cons c bs =>
    rw [afterExponent] at h
    split at h
    · next hc =>
      have hbyte : numberByte c = true := by
        rcases (by simpa using hc : c = 101 ∨ c = 69) with rfl | rfl <;> rfl
      exact (hsign.bind goesOver_digits).cons hbyte h
    · exact goesOver_none _ _ h

theorem numberByte_of_isNumber {text : Bytes} (h : isNumber text = true) :
    ∀ c ∈ text, numberByte c = true := by
  have hsign : GoesOver fun bs => some (afterSign (fun c => c = 45) bs) :=
    goesOver_sign fun c hc => by
      obtain rfl : c = 45 := by simpa using hc
      rfl
  have hall := hsign.bind (goesOver_int.bind (goesOver_fraction.bind goesOver_exponent))
  obtain ⟨word, hword, hbytes⟩ := hall text [] (by simpa [isNumber] using h)
  rw [List.append_nil] at hword
  rwa [hword]

/-- No part of a word ends it or starts another kind of value. -/
def wordByte (c : UInt8) : Bool := !delimiter c && c ≠ 91 && c ≠ 123 && c ≠ 34

theorem wordByte_of_numberByte {c : UInt8} (h : numberByte c = true) : wordByte c = true := by
  by_contra hword
  have hcases : c = 9 ∨ c = 10 ∨ c = 13 ∨ c = 32 ∨ c = 44 ∨ c = 93 ∨ c = 125 ∨ c = 91 ∨ c = 123 ∨
      c = 34 := by
    simp [wordByte, delimiter, isWs] at hword
    tauto
  rcases hcases with rfl | rfl | rfl | rfl | rfl | rfl | rfl | rfl | rfl | rfl <;> cases h

theorem takeWhile_word {word rest : Bytes} (hword : ∀ c ∈ word, wordByte c = true)
    (hrest : Ends rest) :
    (word ++ rest).takeWhile (fun c => !delimiter c) = word ∧
      (word ++ rest).dropWhile (fun c => !delimiter c) = rest := by
  have hall : ∀ c ∈ word, (!delimiter c) = true := by
    intro c hc
    have := hword c hc
    simp only [wordByte, Bool.and_eq_true] at this
    exact this.1.1.1
  rw [List.takeWhile_append_of_pos hall, List.dropWhile_append_of_pos hall]
  cases rest with
  | nil => simp
  | cons c rest =>
    have hc : delimiter c = true := hrest c rfl
    simp [hc]

/-- Where a word begins, a word is read. -/
theorem readValue_word {c : UInt8} {bs : Bytes} (hc : wordByte c = true) (depth : Nat) :
    readValue (depth + 1) (c :: bs) = readWord (c :: bs) := by
  simp only [wordByte, delimiter, Bool.and_eq_true, Bool.not_eq_true', Bool.or_eq_false_iff,
    decide_eq_true_eq] at hc
  rw [readValue, skipWs_cons hc.1.1.1.1.1.1]
  dsimp only
  rw [if_neg hc.1.1.2, if_neg hc.1.2, if_neg hc.2]

/-- A word is a value of its own. -/
theorem spells_word {word : Bytes} {v : Value} (hne : word ≠ [])
    (hword : ∀ c ∈ word, wordByte c = true)
    (hread : ∀ rest, Ends rest → readWord (word ++ rest) = some (v, rest)) : Spells word v := by
  intro depth hdepth rest hrest
  obtain ⟨c, word, rfl⟩ := List.exists_cons_of_ne_nil hne
  obtain ⟨depth, rfl⟩ : ∃ k, depth = k + 1 := ⟨depth - 1, by simp at hdepth; omega⟩
  have hread := hread rest hrest
  rw [List.cons_append] at hread ⊢
  rw [readValue_word (hword c (by simp)), hread]

theorem spells_number {text : Bytes} (h : isNumber text = true) : Spells text (.number text) := by
  have hbytes := numberByte_of_isNumber h
  have hword : ∀ c ∈ text, wordByte c = true := fun c hc => wordByte_of_numberByte (hbytes c hc)
  refine spells_word (fun hnil => ?_) hword fun rest hrest => ?_
  · rw [hnil] at h
    cases h
  have hnot (c : UInt8) (hc : numberByte c = false) (word : Bytes) : text ≠ c :: word := by
    rintro rfl
    exact Bool.false_ne_true (hc.symm.trans (hbytes c (by simp)))
  obtain ⟨htake, hdrop⟩ := takeWhile_word hword hrest
  simp [readWord, htake, hdrop, h, hnot 110 rfl, hnot 116 rfl, hnot 102 rfl]

theorem spells_null : Spells [110, 117, 108, 108] .null := by
  have hword : ∀ c ∈ [110, 117, 108, 108], wordByte c = true := List.all_eq_true.mp rfl
  refine spells_word (by simp) hword fun rest hrest => ?_
  obtain ⟨htake, hdrop⟩ := takeWhile_word hword hrest
  simp only [readWord, htake, hdrop]
  rfl

theorem spells_bool (b : Bool) :
    Spells (if b then [116, 114, 117, 101] else [102, 97, 108, 115, 101]) (.bool b) := by
  have hword : ∀ c ∈ (if b then [116, 114, 117, 101] else [102, 97, 108, 115, 101]),
      wordByte c = true := by cases b <;> exact List.all_eq_true.mp rfl
  refine spells_word (by cases b <;> simp) hword fun rest hrest => ?_
  obtain ⟨htake, hdrop⟩ := takeWhile_word hword hrest
  simp only [readWord, htake, hdrop]
  cases b <;> rfl

/-! ## Lists and objects -/

/-- A bracketed list of spelt values. -/
theorem Spells.array {texts : List Bytes} {vs : List Value} (h : List.Forall₂ Spells texts vs) :
    Spells (91 :: (List.intercalate [44] texts ++ [93])) (.array vs) := by
  intro depth hdepth rest _
  obtain ⟨depth, rfl⟩ : ∃ k, depth = k + 1 := ⟨depth - 1, by simp at hdepth; omega⟩
  have hlen : (List.intercalate [44] texts).length ≤ depth := by
    simp only [List.length_cons, List.length_append] at hdepth
    omega
  have hitems := forall₂_reads h hlen fun text v hv => hv depth
  have hstart (bs rest : Bytes) (hex : expect 93 bs = some rest) : readValue depth bs = none := by
    cases depth with
    | zero => rfl
    | succ depth =>
      simp [readValue, expect_some hex, readWord, delimiter, isNumber, afterSign, afterInt]
  have hlist := readList_intercalate hitems (.inl rfl) hstart rest
  simp [readValue, skipWs_cons (show isWs 91 = false from rfl), hlist]

/-- A member spells its key and its value. -/
def SpellsMember (text : Bytes) (member : Bytes × Value) : Prop :=
  ∃ key value, text = key ++ 58 :: value ∧ (∀ rest, readString (key ++ rest) = some (member.1, rest)) ∧
    Spells value member.2

theorem spellsMember_quoted {esc : UInt8 → Bytes} (h : Escapes esc) (key : Bytes) {text : Bytes}
    {v : Value} (hv : Spells text v) : SpellsMember (quoted esc key ++ 58 :: text) (key, v) :=
  ⟨_, _, rfl, readString_quoted h key, hv⟩

theorem SpellsMember.reads {text : Bytes} {member : Bytes × Value} {depth : Nat}
    (h : SpellsMember text member) (hdepth : text.length ≤ depth) :
    Reads (readMember (readValue depth)) text member := by
  obtain ⟨key, value, rfl, hkey, hvalue⟩ := h
  intro rest hrest
  have hlen : value.length ≤ depth := by
    simp only [List.length_append, List.length_cons] at hdepth
    omega
  simp [readMember, hkey, expect_cons (show isWs 58 = false from rfl), hvalue depth hlen rest hrest]

/-- A list of members in braces. -/
theorem Spells.object {texts : List Bytes} {members : List (Bytes × Value)}
    (h : List.Forall₂ SpellsMember texts members) :
    Spells (123 :: (List.intercalate [44] texts ++ [125])) (.object members) := by
  intro depth hdepth rest _
  obtain ⟨depth, rfl⟩ : ∃ k, depth = k + 1 := ⟨depth - 1, by simp at hdepth; omega⟩
  have hlen : (List.intercalate [44] texts).length ≤ depth := by
    simp only [List.length_cons, List.length_append] at hdepth
    omega
  have hitems := forall₂_reads h hlen fun text member hmember => hmember.reads
  have hstart (bs rest : Bytes) (hex : expect 125 bs = some rest) :
      readMember (readValue depth) bs = none := by
    simp [readMember, readString, expect_unique hex (show (125 : UInt8) ≠ 34 by decide)]
  have hlist := readList_intercalate hitems (.inr rfl) hstart rest
  simp [readValue, skipWs_cons (show isWs 123 = false from rfl), hlist]

/-- An object is not read where the value of its first member is not. -/
theorem parse_object_none {key bs k : Bytes} (hkey : ∀ rest, readString (key ++ rest) = some (k, rest))
    (hvalue : ∀ depth, readValue depth bs = none) : parse (123 :: (key ++ 58 :: bs)) = none := by
  have hmember (depth : Nat) : readMember (readValue depth) (key ++ 58 :: bs) = none := by
    simp [readMember, hkey, expect_cons (show isWs 58 = false from rfl), hvalue]
  have hopen : expect 125 (key ++ 58 :: bs) = none := by
    cases hex : expect 125 (key ++ 58 :: bs) with
    | none => rfl
    | some rest =>
      have hquote := expect_unique hex (show (125 : UInt8) ≠ 34 by decide)
      have hread := hkey (58 :: bs)
      simp [readString, hquote] at hread
  have hlist (depth : Nat) : readList (readMember (readValue depth)) 125 (key ++ 58 :: bs) = none := by
    simp only [readList, hopen]
    generalize (key ++ 58 :: bs).length = fuel
    cases fuel with
    | zero => rfl
    | succ fuel => simp [readItems, hmember]
  rw [parse, List.length_cons, readValue, skipWs_cons rfl]
  simp [hlist]

end RdsJson.Lib.Json
