import Dafeng.Learning.Replace

/-!
# Dafeng.Learning.YamlDict

The file `learned_words.yaml` read back (`src/daemon/user_dict.cc`). A scalar
between double quotes is unescaped by the rules of YAML, and the file is read line
by line: each text begins a word, and the lines behind it fill in its fields. What
`Generate` writes gives back the words it was given, whatever bytes are in them.
-/

namespace Dafeng.Learning

open Dafeng.Utf8

/-! ### Scalars between double quotes -/

/-- The escapes of one letter that the generator uses. -/
def shortEscape (e : UInt8) : Option UInt8 :=
  if e = 0x5C ∨ e = 0x22 then some e
  else if e = 0x6E then some 0x0A
  else if e = 0x72 then some 0x0D
  else if e = 0x74 then some 0x09
  else none

def hexValue (c : UInt8) : Option UInt8 :=
  if 0x30 ≤ c ∧ c ≤ 0x39 then some (c - 0x30)
  else if 0x61 ≤ c ∧ c ≤ 0x66 then some (c - 0x57)
  else if 0x41 ≤ c ∧ c ≤ 0x46 then some (c - 0x37)
  else none

/-- What stands between double quotes, unescaped: a backslash begins a short escape, or `x` and
two hex digits; a quote does not stand alone. -/
def unescapeYaml : Bytes → Option Bytes
  | [] => some []
  | c :: rest =>
      if c = 0x5C then
        match rest with
        | [] => none
        | e :: rest =>
            if e = 0x78 then
              match rest with
              | high :: low :: rest =>
                  (hexValue high).bind fun h => (hexValue low).bind fun l =>
                    (unescapeYaml rest).map ((16 * h + l) :: ·)
              | _ => none
            else (shortEscape e).bind fun v => (unescapeYaml rest).map (v :: ·)
      else if c = 0x22 then none
      else (unescapeYaml rest).map (c :: ·)

/-- A double quote stands in the text that no backslash escapes. -/
def hasBareQuote : Bytes → Bool
  | [] => false
  | c :: rest =>
      if c = 0x5C then
        match rest with
        | [] => false
        | _ :: rest => hasBareQuote rest
      else c == 0x22 || hasBareQuote rest

section Escape

variable {c : UInt8}

theorem unescapeYaml_plain (hb : c ≠ 0x5C) (hq : c ≠ 0x22) (rest : Bytes) :
    unescapeYaml (c :: rest) = (unescapeYaml rest).map (c :: ·) := by
  rw [unescapeYaml.eq_def]
  simp [hb, hq]

theorem unescapeYaml_short {e v : UInt8} (he : e ≠ 0x78) (hv : shortEscape e = some v)
    (rest : Bytes) : unescapeYaml (0x5C :: e :: rest) = (unescapeYaml rest).map (v :: ·) := by
  rw [unescapeYaml.eq_def]
  simp [he, hv]

theorem unescapeYaml_hex {high low h l : UInt8} (hh : hexValue high = some h)
    (hl : hexValue low = some l) (rest : Bytes) :
    unescapeYaml (0x5C :: 0x78 :: high :: low :: rest) =
      (unescapeYaml rest).map ((16 * h + l) :: ·) := by
  rw [unescapeYaml.eq_def]
  simp [hh, hl]

theorem hasBareQuote_plain (hb : c ≠ 0x5C) (hq : c ≠ 0x22) (rest : Bytes) :
    hasBareQuote (c :: rest) = hasBareQuote rest := by
  rw [hasBareQuote.eq_def]
  simp [hb, hq]

theorem hasBareQuote_escape (e : UInt8) (rest : Bytes) :
    hasBareQuote (0x5C :: e :: rest) = hasBareQuote rest := by
  rw [hasBareQuote.eq_def]
  simp

def hexDigit (n : Nat) : UInt8 := UInt8.ofNat (Nat.digitChar n).toNat

/-- A control byte is escaped as two hex digits. -/
theorem escapeByte_control (hlt : c < 0x20) (hn : c ≠ 0x0A) (hr : c ≠ 0x0D) (ht : c ≠ 0x09) :
    escapeByte c = [0x5C, 0x78, hexDigit (c.toNat / 16), hexDigit (c.toNat % 16)] := by
  have hall : ∀ n < 32, ascii "\\x" ++ (if n < 16 then ascii "0" else []) ++
      (Nat.toDigits 16 n).map (fun d => UInt8.ofNat d.toNat) =
        [0x5C, 0x78, hexDigit (n / 16), hexDigit (n % 16)] := by
    decide
  have hspecial : ¬(c = 0x5C ∨ c = 0x22) := by
    rintro (rfl | rfl) <;> exact absurd hlt (by decide)
  rw [escapeByte, if_neg hspecial, if_neg hn, if_neg hr, if_neg ht, if_pos hlt]
  exact hall c.toNat (UInt8.lt_iff_toNat_lt.mp hlt)

/-- The two hex digits of a control byte give it back. -/
theorem hexValue_hexDigit (hlt : c < 0x20) :
    hexValue (hexDigit (c.toNat / 16)) = some (UInt8.ofNat (c.toNat / 16)) ∧
      hexValue (hexDigit (c.toNat % 16)) = some (UInt8.ofNat (c.toNat % 16)) ∧
      16 * UInt8.ofNat (c.toNat / 16) + UInt8.ofNat (c.toNat % 16) = c := by
  have hall : ∀ n < 32, hexValue (hexDigit (n / 16)) = some (UInt8.ofNat (n / 16)) ∧
      hexValue (hexDigit (n % 16)) = some (UInt8.ofNat (n % 16)) ∧
      16 * UInt8.ofNat (n / 16) + UInt8.ofNat (n % 16) = UInt8.ofNat n := by
    decide
  have hc := hall c.toNat (UInt8.lt_iff_toNat_lt.mp hlt)
  rwa [UInt8.ofNat_toNat] at hc

/-- The bytes with a short escape, each behind the letter that stands for it. -/
def shortEscapes : List (UInt8 × UInt8) :=
  [(0x5C, 0x5C), (0x22, 0x22), (0x6E, 0x0A), (0x72, 0x0D), (0x74, 0x09)]

theorem escapeByte_short : ∀ p ∈ shortEscapes, p.1 ≠ 0x78 ∧ 0x20 ≤ p.1 ∧
    shortEscape p.1 = some p.2 ∧ escapeByte p.2 = [0x5C, p.1] := by
  intro p hp
  simp only [shortEscapes, List.mem_cons, List.not_mem_nil, or_false] at hp
  rcases hp with rfl | rfl | rfl | rfl | rfl <;> decide

/-- What becomes of a byte: itself, a short escape, or two hex digits. -/
theorem escapeByte_cases (c : UInt8) :
    (c ≠ 0x5C ∧ c ≠ 0x22 ∧ 0x20 ≤ c ∧ escapeByte c = [c]) ∨
      (∃ e, e ≠ 0x78 ∧ 0x20 ≤ e ∧ shortEscape e = some c ∧ escapeByte c = [0x5C, e]) ∨
      (c < 0x20 ∧ escapeByte c =
        [0x5C, 0x78, hexDigit (c.toNat / 16), hexDigit (c.toNat % 16)]) := by
  by_cases hshort : c ∈ shortEscapes.map Prod.snd
  · obtain ⟨p, hp, rfl⟩ := List.mem_map.mp hshort
    exact .inr (.inl ⟨p.1, escapeByte_short p hp⟩)
  · obtain ⟨hb, hq, hn, hr, ht⟩ : c ≠ 0x5C ∧ c ≠ 0x22 ∧ c ≠ 0x0A ∧ c ≠ 0x0D ∧ c ≠ 0x09 := by
      simpa [shortEscapes] using hshort
    by_cases hlt : c < 0x20
    · exact .inr (.inr ⟨hlt, escapeByte_control hlt hn hr ht⟩)
    · refine .inl ⟨hb, hq, UInt8.not_lt.mp hlt, ?_⟩
      rw [escapeByte, if_neg (not_or.mpr ⟨hb, hq⟩), if_neg hn, if_neg hr, if_neg ht, if_neg hlt]

/-- An escaped byte is read back, whatever stands behind it. -/
theorem unescapeYaml_escapeByte (c : UInt8) (rest : Bytes) :
    unescapeYaml (escapeByte c ++ rest) = (unescapeYaml rest).map (c :: ·) := by
  rcases escapeByte_cases c with ⟨hb, hq, -, h⟩ | ⟨e, he, -, hv, h⟩ | ⟨hlt, h⟩
  · rw [h]
    exact unescapeYaml_plain hb hq rest
  · rw [h]
    exact unescapeYaml_short he hv rest
  · obtain ⟨hhigh, hlow, hvalue⟩ := hexValue_hexDigit hlt
    rw [h]
    simpa [hvalue] using unescapeYaml_hex hhigh hlow rest

theorem unescapeYaml_escape (s : Bytes) : unescapeYaml (s.flatMap escapeByte) = some s := by
  induction s with
  | nil => rfl
  | cons c s ih => rw [List.flatMap_cons, unescapeYaml_escapeByte, ih, Option.map_some]

theorem hexDigit_plain (hlt : c < 0x20) :
    ∀ n ∈ [c.toNat / 16, c.toNat % 16],
      hexDigit n ≠ 0x5C ∧ hexDigit n ≠ 0x22 ∧ 0x20 ≤ hexDigit n := by
  have hall : ∀ n < 16, hexDigit n ≠ 0x5C ∧ hexDigit n ≠ 0x22 ∧ 0x20 ≤ hexDigit n := by
    decide
  have hc := UInt8.lt_iff_toNat_lt.mp hlt
  have h32 : (0x20 : UInt8).toNat = 32 := rfl
  intro n hn
  simp only [List.mem_cons, List.not_mem_nil, or_false] at hn
  exact hall n (by omega)

example : escapeYamlString (ascii "a\"b\\c") = ascii "\"a\\\"b\\\\c\"" := by decide

/-- An escaped byte has no quote that stands alone. -/
theorem hasBareQuote_escapeByte (c : UInt8) (rest : Bytes) :
    hasBareQuote (escapeByte c ++ rest) = hasBareQuote rest := by
  rcases escapeByte_cases c with ⟨hb, hq, -, h⟩ | ⟨e, -, -, -, h⟩ | ⟨hlt, h⟩
  · rw [h]
    exact hasBareQuote_plain hb hq rest
  · rw [h]
    exact hasBareQuote_escape e rest
  · have hdigits := hexDigit_plain hlt
    obtain ⟨hhb, hhq, -⟩ := hdigits _ List.mem_cons_self
    obtain ⟨hlb, hlq, -⟩ := hdigits _ (List.mem_cons_of_mem _ List.mem_cons_self)
    simp only [h, List.cons_append, List.nil_append]
    rw [hasBareQuote_escape, hasBareQuote_plain hhb hhq, hasBareQuote_plain hlb hlq]

theorem hasBareQuote_escape_all (s : Bytes) : hasBareQuote (s.flatMap escapeByte) = false := by
  induction s with
  | nil => rfl
  | cons c s ih => rw [List.flatMap_cons, hasBareQuote_escapeByte, ih]

/-- No control byte stands in an escaped text. -/
theorem le_of_mem_escape {s : Bytes} {b : UInt8} (hb : b ∈ s.flatMap escapeByte) : 0x20 ≤ b := by
  obtain ⟨c, -, hmem⟩ := List.mem_flatMap.mp hb
  rcases escapeByte_cases c with ⟨-, -, hle, h⟩ | ⟨e, -, hle, -, h⟩ | ⟨hlt, h⟩
  · rw [h, List.mem_singleton] at hmem
    exact hmem ▸ hle
  · rw [h] at hmem
    simp only [List.mem_cons, List.not_mem_nil, or_false] at hmem
    rcases hmem with rfl | rfl
    · decide
    · exact hle
  · have hdigits := hexDigit_plain hlt
    rw [h] at hmem
    simp only [List.mem_cons, List.not_mem_nil, or_false] at hmem
    rcases hmem with rfl | rfl | rfl | rfl
    · decide
    · decide
    · exact (hdigits _ List.mem_cons_self).2.2
    · exact (hdigits _ (List.mem_cons_of_mem _ List.mem_cons_self)).2.2

end Escape

/-! ### The reader -/

/-- A scalar between double quotes. -/
def readScalar (s : Bytes) : Option Bytes :=
  if s.head? = some 0x22 ∧ s.tail.getLast? = some 0x22 then unescapeYaml s.tail.dropLast else none

/-- A decimal number below the bound. -/
def readNumber (bound : Nat) (s : Bytes) : Option Nat :=
  let n := s.foldl (fun n c => 10 * n + (c.toNat - 0x30)) 0
  if s ≠ [] ∧ s.all (fun c => decide (0x30 ≤ c ∧ c ≤ 0x39)) = true ∧ n < bound then some n
  else none

/-- The word that the last text began, with a field filled in. -/
def amend (f : DiscoveredWord → Option DiscoveredWord) :
    List DiscoveredWord → Option (List DiscoveredWord)
  | [] => none
  | w :: words => (f w).map (· :: words)

/-- The keys of a word. -/
inductive Field
  | text
  | code
  | frequency
  | firstSeen
  | lastSeen
  deriving DecidableEq

/-- What a line begins with. -/
def Field.key : Field → Bytes
  | .text => ascii "  - text: "
  | .code => ascii "    code: "
  | .frequency => ascii "    frequency: "
  | .firstSeen => ascii "    first_seen_us: "
  | .lastSeen => ascii "    last_seen_us: "

/-- What the rest of the line does to the words read so far, the last one first. -/
def Field.read (s : Bytes) (words : List DiscoveredWord) : Field → Option (List DiscoveredWord)
  | .text => (readScalar s).map fun text => { text, code := [] } :: words
  | .code => amend (fun w => (readScalar s).map fun code => { w with code }) words
  | .frequency => amend (fun w =>
      (readNumber (2 ^ 32) s).map fun n => { w with frequency := UInt32.ofNat n }) words
  | .firstSeen => amend (fun w =>
      (readNumber (2 ^ 64) s).map fun n => { w with firstSeenUs := UInt64.ofNat n }) words
  | .lastSeen => amend (fun w =>
      (readNumber (2 ^ 64) s).map fun n => { w with lastSeenUs := UInt64.ofNat n }) words

def fields : List Field := [.text, .code, .frequency, .firstSeen, .lastSeen]

/-- One line of the words. -/
def readLine (words : List DiscoveredWord) (line : Bytes) : Option (List DiscoveredWord) :=
  (fields.find? fun f => f.key.isPrefixOf line).bind fun f =>
    f.read (line.drop f.key.length) words

/-- The line that the words stand behind. -/
def wordsMarker : Bytes := ascii "words:"

/-- The words of a file, line by line. -/
def readLearnedWords (file : Bytes) : Option (List DiscoveredWord) :=
  ((tableLines (· == wordsMarker) (getlines lineFeed file)).foldlM readLine []).map List.reverse

section Lines

theorem readScalar_escape (s : Bytes) : readScalar (escapeYamlString s) = some s := by
  have hlast : (escapeYamlString s).tail = s.flatMap escapeByte ++ [0x22] := rfl
  rw [readScalar, hlast, if_pos ⟨rfl, by simp⟩, List.dropLast_concat, unescapeYaml_escape]

/-- The digits of a number as bytes. -/
theorem decimal_eq_map (n : Nat) :
    decimal n = (Nat.toDigits 10 n).map fun d => UInt8.ofNat d.toNat := by
  have hdigit : ∀ d ∈ Nat.toDigits 10 n, d.isDigit = true :=
    fun d hd => Nat.isDigit_of_mem_toDigits (by decide) (by decide) hd
  unfold decimal
  generalize Nat.toDigits 10 n = ds at hdigit
  induction ds with
  | nil => rfl
  | cons d ds ih =>
      have hd : d.toNat < 128 := by
        have hle := hdigit d List.mem_cons_self
        simp only [Char.isDigit, Bool.and_eq_true, decide_eq_true_eq, UInt32.le_iff_toNat_le] at hle
        exact Nat.lt_of_le_of_lt hle.2 (by decide)
      rw [encodeText_cons, encodeChar_ascii hd, List.map_cons,
        ih fun d hd => hdigit d (List.mem_cons_of_mem _ hd)]
      rfl

theorem readNumber_decimal {n bound : Nat} (h : n < bound) :
    readNumber bound (decimal n) = some n := by
  have hdigit : ∀ d ∈ Nat.toDigits 10 n, 48 ≤ d.toNat ∧ d.toNat ≤ 57 := by
    intro d hd
    have hle := Nat.isDigit_of_mem_toDigits (by decide) (by decide) hd
    simp only [Char.isDigit, Bool.and_eq_true, decide_eq_true_eq, UInt32.le_iff_toNat_le] at hle
    exact hle
  have hbyte : ∀ d ∈ Nat.toDigits 10 n, (UInt8.ofNat d.toNat).toNat = d.toNat := by
    intro d hd
    have hd := hdigit d hd
    simp
    omega
  have hvalue : (decimal n).foldl (fun n c => 10 * n + (c.toNat - 0x30)) 0 = n := by
    have hchars := Nat.ofDigitChars_ten_toDigits (n := n)
    rw [Nat.ofDigitChars_eq_foldl] at hchars
    rw [decimal_eq_map, List.foldl_map]
    refine Eq.trans (List.foldl_ext _ _ 0 fun n d hd => ?_) hchars
    rw [hbyte d hd]
    rfl
  have hall : (decimal n).all (fun c => decide (0x30 ≤ c ∧ c ≤ 0x39)) = true := by
    rw [decimal_eq_map, List.all_map, List.all_eq_true]
    intro d hd
    have hd' := hdigit d hd
    simp only [Function.comp_apply, decide_eq_true_eq, UInt8.le_iff_toNat_le, hbyte d hd]
    exact hd'
  have hne : decimal n ≠ [] := by
    rw [decimal_eq_map]
    simp
  unfold readNumber
  dsimp only
  rw [hvalue, if_pos ⟨hne, hall, h⟩]

/-- The keys differ within their first six bytes, so that a line has one of them at most. -/
theorem eq_of_isPrefixOf {f g : Field} {s : Bytes} (h : g.key.isPrefixOf (f.key ++ s) = true) :
    g = f := by
  have hlen : ∀ f : Field, 6 ≤ f.key.length := by
    intro f
    cases f <;> decide
  have htake : g.key.take 6 = f.key.take 6 := by
    obtain ⟨rest, hrest⟩ := List.isPrefixOf_iff_prefix.mp h
    have hsix := congrArg (List.take 6) hrest
    rwa [List.take_append_of_le_length (hlen g), List.take_append_of_le_length (hlen f)] at hsix
  cases f <;> cases g <;> first | rfl | exact absurd htake (by decide)

/-- A line is read by the field whose key it begins with. -/
theorem readLine_field (f : Field) (s : Bytes) (words : List DiscoveredWord) :
    readLine words (f.key ++ s) = f.read s words := by
  have hkey : f.key.isPrefixOf (f.key ++ s) = true :=
    List.isPrefixOf_iff_prefix.mpr (List.prefix_append _ _)
  have hfind : fields.find? (fun g => g.key.isPrefixOf (f.key ++ s)) = some f := by
    have hf : f ∈ fields := by cases f <;> decide
    have hsome : (fields.find? fun g => g.key.isPrefixOf (f.key ++ s)).isSome = true :=
      List.find?_isSome.mpr ⟨f, hf, hkey⟩
    obtain ⟨g, hg⟩ := Option.isSome_iff_exists.mp hsome
    have hprefix : g.key.isPrefixOf (f.key ++ s) = true := by simpa using List.find?_some hg
    rw [hg, eq_of_isPrefixOf hprefix]
  rw [readLine, hfind, Option.bind_some, List.drop_left]

/-! ### The file -/

/-- The lines of a word. -/
def wordLines (w : DiscoveredWord) : List Bytes :=
  [Field.text.key ++ escapeYamlString w.text] ++
    (if w.code ≠ [] then [Field.code.key ++ escapeYamlString w.code] else []) ++
    [Field.frequency.key ++ decimal w.frequency.toNat,
      Field.firstSeen.key ++ decimal w.firstSeenUs.toNat,
      Field.lastSeen.key ++ decimal w.lastSeenUs.toNat]

/-- The lines in front of the words. -/
def headerOf (generated : IsoTimestamp) (n : Nat) : List Bytes :=
  [ascii "# Dafeng learned words.", ascii "# Generated at: " ++ encodeText generated.chars,
    ascii "# Total entries: " ++ decimal n,
    ascii "# DO NOT EDIT BY HAND. Regenerated each learning round.", ascii "---",
    ascii "schema:", ascii "  schema_id: dafeng_learned", ascii "  version: \"1\"", []]

theorem flatten_wordPieces (w : DiscoveredWord) :
    (wordPieces w).flatten = unlines lineFeed (wordLines w) := by
  have hlf : ascii "\n" = [lineFeed] := by decide
  unfold wordPieces wordLines
  split_ifs <;> simp [hlf, Field.key]

theorem flatten_generatePieces (generated : IsoTimestamp) (words : List DiscoveredWord) :
    (generatePieces generated words).flatten = unlines lineFeed
      (headerOf generated words.length ++ wordsMarker :: words.flatMap wordLines) := by
  have hlf : ascii "\n" = [lineFeed] := by decide
  have hwords : (words.flatMap wordPieces).flatten =
      unlines lineFeed (words.flatMap wordLines) := by
    induction words with
    | nil => rfl
    | cons w words ih =>
        rw [List.flatMap_cons, List.flatten_append, ih, flatten_wordPieces, List.flatMap_cons,
          unlines_append]
  have htitle : ascii "# Dafeng learned words.\n" =
      ascii "# Dafeng learned words." ++ [lineFeed] := by decide
  have hfixed : [ascii "# DO NOT EDIT BY HAND. Regenerated each learning round.\n", ascii "---\n",
      ascii "schema:\n", ascii "  schema_id: dafeng_learned\n", ascii "  version: \"1\"\n\n",
      ascii "words:\n"].flatten = unlines lineFeed
        [ascii "# DO NOT EDIT BY HAND. Regenerated each learning round.", ascii "---",
          ascii "schema:", ascii "  schema_id: dafeng_learned", ascii "  version: \"1\"", [],
          wordsMarker] := by decide
  have hpieces : generatePieces generated words =
      [ascii "# Dafeng learned words.\n", ascii "# Generated at: ", encodeText generated.chars,
        ascii "\n", ascii "# Total entries: ", decimal words.length, ascii "\n"] ++
      [ascii "# DO NOT EDIT BY HAND. Regenerated each learning round.\n", ascii "---\n",
        ascii "schema:\n", ascii "  schema_id: dafeng_learned\n", ascii "  version: \"1\"\n\n",
        ascii "words:\n"] ++ words.flatMap wordPieces := rfl
  have hlines : headerOf generated words.length ++ wordsMarker :: words.flatMap wordLines =
      [ascii "# Dafeng learned words.", ascii "# Generated at: " ++ encodeText generated.chars,
        ascii "# Total entries: " ++ decimal words.length] ++
      [ascii "# DO NOT EDIT BY HAND. Regenerated each learning round.", ascii "---",
        ascii "schema:", ascii "  schema_id: dafeng_learned", ascii "  version: \"1\"", [],
        wordsMarker] ++ words.flatMap wordLines := rfl
  rw [hpieces, hlines, List.flatten_append, List.flatten_append, hwords, hfixed, unlines_append,
    unlines_append]
  simp [hlf, htitle]

/-- The lines of a word add the word. -/
theorem readLine_wordLines (w : DiscoveredWord) (words : List DiscoveredWord) (rest : List Bytes) :
    (wordLines w ++ rest).foldlM readLine words = rest.foldlM readLine (w :: words) := by
  have hfrequency := readNumber_decimal (UInt32.toNat_lt w.frequency)
  have hfirst := readNumber_decimal (UInt64.toNat_lt w.firstSeenUs)
  have hlast := readNumber_decimal (UInt64.toNat_lt w.lastSeenUs)
  unfold wordLines
  split_ifs with hcode
  · simp [readLine_field, Field.read, readScalar_escape, amend, hfrequency, hfirst, hlast]
  · -- The word starts with an empty code, and no line fills it in.
    simp only [not_not] at hcode
    simp [readLine_field, Field.read, readScalar_escape, amend, hfrequency, hfirst, hlast, ← hcode]

theorem readLine_words (words read : List DiscoveredWord) :
    (words.flatMap wordLines).foldlM readLine read = some (words.reverse ++ read) := by
  induction words generalizing read with
  | nil => rfl
  | cons w words ih =>
      rw [List.flatMap_cons, readLine_wordLines, ih]
      simp

theorem lineFeed_not_mem_escape (s : Bytes) : lineFeed ∉ escapeYamlString s := by
  have hescape : lineFeed ∉ s.flatMap escapeByte :=
    fun h => absurd (le_of_mem_escape h) (by decide)
  have hquote : lineFeed ≠ 0x22 := by decide
  simp [escapeYamlString, hescape, hquote]

theorem lineFeed_not_mem_key (f : Field) : lineFeed ∉ f.key := by
  cases f <;> decide

/-- No line has a line feed in it. -/
theorem lineFeed_not_mem_wordLines (w : DiscoveredWord) :
    ∀ line ∈ wordLines w, lineFeed ∉ line := by
  have hline : ∀ (f : Field) (s : Bytes), lineFeed ∉ s → lineFeed ∉ f.key ++ s := fun f s hs hmem =>
    (List.mem_append.mp hmem).elim (lineFeed_not_mem_key f) hs
  intro line hmem
  unfold wordLines at hmem
  simp only [List.mem_append, List.mem_cons, List.not_mem_nil, or_false] at hmem
  rcases hmem with (rfl | hcode) | rfl | rfl | rfl
  · exact hline _ _ (lineFeed_not_mem_escape w.text)
  · split_ifs at hcode
    · rw [List.mem_singleton] at hcode
      exact hcode ▸ hline _ _ (lineFeed_not_mem_escape w.code)
    · simp at hcode
  all_goals exact hline _ _ (lineFeed_not_mem_decimal _)

theorem lineFeed_not_mem_headerOf (generated : IsoTimestamp) (n : Nat) :
    ∀ line ∈ headerOf generated n, lineFeed ∉ line ∧ (line == wordsMarker) = false := by
  have hstamp : lineFeed ∉ encodeText generated.chars := by
    rw [lineFeed_mem_encodeText]
    intro hmem
    have hplain := generated.plain _ hmem
    revert hplain
    decide
  have hfixed : ∀ line ∈ [ascii "# Dafeng learned words.",
      ascii "# DO NOT EDIT BY HAND. Regenerated each learning round.", ascii "---",
      ascii "schema:", ascii "  schema_id: dafeng_learned", ascii "  version: \"1\"", []],
      lineFeed ∉ line ∧ (line == wordsMarker) = false := by
    decide
  -- A comment line begins with a byte that the marker does not begin with.
  have hcomment : ∀ s, (0x23 :: s == wordsMarker) = false := fun s => by
    have hhead : wordsMarker.head? ≠ some 0x23 := by decide
    refine beq_eq_false_iff_ne.mpr fun heq => hhead ?_
    rw [← heq]
    rfl
  have hgenerated : ascii "# Generated at: " = 0x23 :: ascii " Generated at: " := by decide
  have htotal : ascii "# Total entries: " = 0x23 :: ascii " Total entries: " := by decide
  have hfeed : lineFeed ∉ 0x23 :: ascii " Generated at: " ∧
      lineFeed ∉ 0x23 :: ascii " Total entries: " := by decide
  intro line hline
  simp only [headerOf, List.mem_cons, List.not_mem_nil, or_false] at hline
  rcases hline with rfl | rfl | rfl | hline
  · exact hfixed _ List.mem_cons_self
  · rw [hgenerated]
    exact ⟨fun hmem => (List.mem_append.mp hmem).elim hfeed.1 hstamp, hcomment _⟩
  · rw [htotal]
    exact ⟨fun hmem => (List.mem_append.mp hmem).elim hfeed.2 (lineFeed_not_mem_decimal n),
      hcomment _⟩
  · refine hfixed line ?_
    simpa using .inr hline

/-- What `Generate` writes is read back as the words it was given. -/
theorem readLearnedWords_generate (generated : IsoTimestamp) (words : List DiscoveredWord) :
    readLearnedWords (generatePieces generated words).flatten = some words := by
  have hheader := lineFeed_not_mem_headerOf generated words.length
  have hmarker : lineFeed ∉ wordsMarker := by decide
  have hlines : ∀ line ∈ headerOf generated words.length ++
      wordsMarker :: words.flatMap wordLines, lineFeed ∉ line := by
    intro line hline
    rcases List.mem_append.mp hline with hline | hline
    · exact (hheader line hline).1
    · rcases List.mem_cons.mp hline with rfl | hline
      · exact hmarker
      · obtain ⟨w, -, hw⟩ := List.mem_flatMap.mp hline
        exact lineFeed_not_mem_wordLines w line hw
  rw [readLearnedWords, flatten_generatePieces, getlines_unlines, flatMap_splitOn hlines,
    tableLines_append (fun line hline => (hheader line hline).2) (beq_self_eq_true _),
    readLine_words]
  simp

/-- **Escaping is faithful.** A text stands between its quotes without a control byte and without
a quote of its own, and is unescaped to what it was; and a file that `Generate` has written gives
back the words it was given. It writes one where nothing fails. -/
theorem yaml_escaping_faithful {φ : Type} [DecidableEq φ] :
    (∀ s, ∃ body, escapeYamlString s = 0x22 :: body ++ [0x22] ∧ (∀ c ∈ body, 0x20 ≤ c) ∧
        hasBareQuote body = false ∧ unescapeYaml body = some s) ∧
      (∀ (faults : Faults) (generated : IsoTimestamp) (words : List DiscoveredWord) (path : φ)
        (d : Disk φ), readLearnedWords (generatePieces generated words).flatten = some words ∧
          ((generate faults generated words path d).1 = true →
            ((generate faults generated words path d).2.read (.file path)).bind
              readLearnedWords = some words)) ∧
      ∀ (generated : IsoTimestamp) (words : List DiscoveredWord) (path : φ) (d : Disk φ),
        (generate {} generated words path d).1 = true ∧
          ((generate {} generated words path d).2.read (.file path)).bind readLearnedWords =
            some words := by
  have hwritten : ∀ (faults : Faults) (generated : IsoTimestamp) (words : List DiscoveredWord)
      (path : φ) (d : Disk φ), (generate faults generated words path d).1 = true →
        ((generate faults generated words path d).2.read (.file path)).bind readLearnedWords =
          some words := by
    intro faults generated words path d hresult
    rcases (replaceFile_spec faults path (generatePieces generated words) d).1 with
      ⟨-, hfile⟩ | ⟨hfalse, -⟩
    · rw [generate, hfile, Option.bind_some, readLearnedWords_generate]
    · rw [generate, hfalse] at hresult
      exact absurd hresult (by decide)
  refine ⟨fun s => ⟨s.flatMap escapeByte, rfl, fun c => le_of_mem_escape,
    hasBareQuote_escape_all s, unescapeYaml_escape s⟩, fun faults generated words path d =>
      ⟨readLearnedWords_generate generated words, hwritten faults generated words path d⟩,
    fun generated words path d => ?_⟩
  have hresult : (generate {} generated words path d).1 = true :=
    replaceFile_succeeds path (generatePieces generated words) d
  exact ⟨hresult, hwritten {} generated words path d hresult⟩

/-- Words whose bytes look like lines of the file. -/
def hostileWords : List DiscoveredWord :=
  [{ text := ascii "a\"b\\c\n  - text: \"x\"", code := [0x00, 0x1F, 0xFF], frequency := 3 },
    { text := [], code := [] }]

theorem yaml_escaping_faithful_hostile :
    (generate {} someTime hostileWords () savedEmpty).1 = true ∧
      ((generate {} someTime hostileWords () savedEmpty).2.read (.file ())).bind readLearnedWords =
        some hostileWords :=
  (@yaml_escaping_faithful Unit _).2.2 someTime hostileWords () savedEmpty

end Lines

end Dafeng.Learning
