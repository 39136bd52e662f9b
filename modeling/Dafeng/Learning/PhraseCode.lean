import Dafeng.Learning.WubiCodec

/-!
# Dafeng.Learning.PhraseCode

What the phrase encoder makes of a dictionary file: the code of every character, by
the lines of the file, and the code of every phrase, by those of its characters.
-/

namespace Dafeng.Learning

open Dafeng.Utf8

/-- A text is split where its characters are. -/
theorem splitOn_encodeText {sep : Char} (hsep : sep.toNat < 128) (cs : List Char) :
    (encodeText cs).splitOn (UInt8.ofNat sep.toNat) = (cs.splitOn sep).map encodeText := by
  induction cs with
  | nil => rfl
  | cons c cs ih =>
      rw [encodeText_cons, List.splitOn_cons_eq_if_modifyHead]
      by_cases hc : c = sep
      · rw [if_pos (by simpa using hc), hc, encodeChar_ascii hsep, List.singleton_append,
          List.splitOn_cons_eq_if_modifyHead, if_pos (by simp), ih]
        rfl
      · have hnot : UInt8.ofNat sep.toNat ∉ encodeChar c := by
          have hmem : UInt8.ofNat sep.toNat ∈ encodeText [c] ↔ sep ∈ [c] :=
            mem_encodeText_ascii hsep
          rw [encodeText_cons, encodeText_nil, List.append_nil] at hmem
          simpa [hmem] using Ne.symm hc
        rw [if_neg (by simpa using hc), splitOn_append_of_not_mem hnot, ih]
        obtain ⟨first, parts, hparts⟩ :=
          List.exists_cons_of_ne_nil (List.splitOn_ne_nil sep cs)
        rw [hparts]
        simp

/-- The lines of a well-formed file are well formed. -/
theorem encodeText_of_mem_getlines {cs : List Char} {line : Bytes}
    (h : line ∈ getlines lineFeed (encodeText cs)) : ∃ ds, line = encodeText ds := by
  have hline : line ∈ (encodeText cs).splitOn lineFeed := by
    unfold getlines at h
    dsimp only at h
    split_ifs at h
    · exact List.dropLast_subset _ h
    · exact h
  have hsplit : (encodeText cs).splitOn lineFeed = (cs.splitOn '\n').map encodeText :=
    splitOn_encodeText (show '\n'.toNat < 128 by decide) cs
  rw [hsplit] at hline
  obtain ⟨ds, -, hds⟩ := List.mem_map.mp hline
  exact ⟨ds, hds.symm⟩

/-- What stands before the first separator is the first part. -/
theorem head?_splitOn {α : Type} [DecidableEq α] (sep : α) (s : List α) :
    (s.splitOn sep).head? = some (s.takeWhile fun a => a ≠ sep) := by
  induction s with
  | nil => rfl
  | cons a s ih =>
      rw [List.splitOn_cons_eq_if_modifyHead]
      by_cases ha : a = sep
      · simp [ha]
      · rw [if_neg (by simpa using ha), List.head?_modifyHead, ih]
        simp [ha]

namespace WubiCodec

/-! ### Columns -/

/-- The part of a line before its first tab. -/
def textColumn (line : Bytes) : Bytes := line.takeWhile fun b => b ≠ tab

/-- The part between the first tab and the second one, or the end of the line. -/
def codeColumn (line : Bytes) : Bytes :=
  ((line.dropWhile fun b => b ≠ tab).drop 1).takeWhile fun b => b ≠ tab

/-- The codes that the lines of a dictionary file give a text. -/
def listedCodes (contents text : Bytes) : List Bytes :=
  ((getlines lineFeed contents).filter fun line =>
    line ≠ [] ∧ line.head? ≠ some hash ∧ tab ∈ line ∧ textColumn line = text).map codeColumn

theorem splitOn_tab {line : Bytes} (h : tab ∈ line) :
    ∃ rest, line.splitOn tab = textColumn line :: codeColumn line :: rest := by
  have hnot : tab ∉ textColumn line := by
    intro hmem
    simpa using List.mem_takeWhile_imp hmem
  obtain ⟨b, s, hdrop⟩ : ∃ b s, line.dropWhile (fun b => b ≠ tab) = b :: s := by
    refine List.exists_cons_of_ne_nil fun hnil => ?_
    rw [List.dropWhile_eq_nil_iff] at hnil
    simpa using hnil tab h
  have hb : b = tab := by
    have hhead := List.head?_dropWhile_not (fun b => decide (b ≠ tab)) line
    rw [hdrop] at hhead
    simpa using hhead
  have hline : line = textColumn line ++ tab :: s := by
    rw [← hb, ← hdrop, textColumn, List.takeWhile_append_dropWhile]
  have hcode : codeColumn line = s.takeWhile fun b => b ≠ tab := by
    rw [codeColumn, hdrop]
    rfl
  -- the second column is the first part behind the tab
  obtain ⟨second, rest, hrest⟩ := List.exists_cons_of_ne_nil (List.splitOn_ne_nil tab s)
  have hsecond := head?_splitOn tab s
  rw [hrest, List.head?_cons, ← hcode] at hsecond
  refine ⟨rest, ?_⟩
  conv_lhs => rw [hline]
  rw [splitOn_append_of_not_mem hnot, List.splitOn_cons_eq_if_modifyHead, if_pos (by simp), hrest,
    Option.some_inj.mp hsecond]
  simp

/-- A line gives its two columns, if it has both. -/
theorem dictRow_eq (line : Bytes) : dictRow line =
    if tab ∈ line ∧ textColumn line ≠ [] ∧ codeColumn line ≠ [] then
      some (textColumn line, codeColumn line) else none := by
  by_cases h : tab ∈ line
  · obtain ⟨rest, hsplit⟩ := splitOn_tab h
    rw [dictRow, hsplit]
    dsimp only
    split_ifs <;> simp_all
  · rw [dictRow, List.splitOn_eq_singleton h, if_neg (by simp [h])]

/-- The rows are cut from well-formed lines. -/
theorem encodeText_of_mem_dictRows {cs : List Char} {row : Bytes × Bytes}
    (h : row ∈ dictRows (encodeText cs)) : ∃ ds, row.1 = encodeText ds := by
  obtain ⟨line, hline, hrow⟩ := List.mem_filterMap.mp h
  obtain ⟨ds, rfl⟩ := encodeText_of_mem_getlines (List.mem_filter.mp hline).1
  rw [dictRow_eq] at hrow
  split_ifs at hrow with hcolumns
  have hsplit : (encodeText ds).splitOn tab = (ds.splitOn '\t').map encodeText :=
    splitOn_encodeText (show '\t'.toNat < 128 by decide) ds
  obtain ⟨rest, hrest⟩ := splitOn_tab hcolumns.1
  have hmem : textColumn (encodeText ds) ∈ (ds.splitOn '\t').map encodeText := by
    rw [← hsplit, hrest]
    exact List.mem_cons_self
  obtain ⟨es, -, hes⟩ := List.mem_map.mp hmem
  refine ⟨es, ?_⟩
  rw [← Option.some_inj.mp hrow, hes]

/-- Lines with an empty code do not count, and would not be longer. -/
theorem codesOf_eq (contents : Bytes) (c : Char) :
    codesOf (dictRows contents) c =
      (listedCodes contents (encodeChar c)).filter fun code => code ≠ [] := by
  have hmap : ∀ lines : List Bytes, lines.map codeColumn =
      lines.filterMap fun line => some (codeColumn line) := fun lines => by
    rw [← List.filterMap_eq_map]
    rfl
  rw [codesOf, dictRows, listedCodes, hmap, List.filterMap_filter, List.filter_filterMap,
    List.map_filterMap, List.filterMap_filter, List.filter_filterMap]
  -- line by line
  refine List.filterMap_congr fun line _ => ?_
  have hnil : tab ∈ line → line ≠ [] := List.ne_nil_of_mem
  rw [dictRow_eq]
  by_cases hhash : line.head? = some hash
  · simp [hhash]
  · by_cases htab : tab ∈ line
    · by_cases htext : textColumn line = encodeChar c
      · by_cases hcode : codeColumn line = []
        · simp [hhash, htab, hnil htab, htext, hcode, Option.filter]
        · simp [hhash, htab, hnil htab, htext, hcode, encodeChar_ne_nil, Option.filter]
      · by_cases hcolumns : textColumn line ≠ [] ∧ codeColumn line ≠ []
        · simp [htext, hcolumns]
        · simp [htext, hcolumns]
    · simp [htab]

/-! ### The codec -/

/-- `FullCode`. -/
def fullCode (codec : WubiCodec) (ch : Bytes) : Bytes := (codec.charToFullCode.lookup ch).getD []

/-- `LoadFromDict` on a codec that may hold another dictionary, whose table is cleared
first. -/
def reload (codec : WubiCodec) (dict : Option Bytes) : Bool × WubiCodec :=
  let cleared := { codec with charToFullCode := ∅ }
  match dict with
  | none => (false, cleared)
  | some contents =>
    let loading := (getlines lineFeed contents).foldl Loading.line
      { codes := cleared.charToFullCode }
    (true, { cleared with charToFullCode := loading.codes })

theorem reload_eq (codec : WubiCodec) (dict : Option Bytes) :
    codec.reload dict = loadFromDict dict := by
  cases dict with
  | none => rfl
  | some contents => rfl

variable {codec : WubiCodec}

theorem fullCode_eq (ch : Bytes) : codec.fullCode ch = (codec.knownCode ch).getD [] := by
  rw [fullCode, knownCode]
  cases codec.charToFullCode.lookup ch with
  | none => rfl
  | some code =>
      rw [Option.bind_some]
      split_ifs with hnil
      · rw [hnil]
        rfl
      · rfl

theorem knownCode_eq_ite (ch : Bytes) : codec.knownCode ch =
    if codec.fullCode ch = [] then none else some (codec.fullCode ch) := by
  rw [fullCode, knownCode]
  cases codec.charToFullCode.lookup ch with
  | none => rfl
  | some code => rfl

/-- Empty texts are not the longest, or nothing is lost with them. -/
theorem argmax_filter_ne_nil {α : Type} [DecidableEq α] (xss : List (List α)) :
    ((xss.filter fun xs => xs ≠ []).argmax List.length).getD [] =
      (xss.argmax List.length).getD [] := by
  have hstep : ∀ cur : List α, longer cur [] = cur := fun cur => if_neg (Nat.not_lt_zero _)
  rw [← foldl_longer, ← foldl_longer, List.foldl_filter]
  refine congrArg (fun step => xss.foldl step []) ?_
  funext cur new
  by_cases hnew : new = []
  · simp [hnew, hstep]
  · simp [hnew]

/-- The full code of a character is its longest one. -/
theorem fullCode_encodeChar (cs : List Char) (c : Char) :
    (loadFromDict (some (encodeText cs))).2.fullCode (encodeChar c) =
      ((listedCodes (encodeText cs) (encodeChar c)).argmax List.length).getD [] := by
  rw [fullCode_eq, knownCode_encodeChar fun _ => encodeText_of_mem_dictRows, longestCode,
    codesOf_eq, argmax_filter_ne_nil]

/-- What is not one character has no code. -/
theorem fullCode_eq_nil (cs : List Char) {s : Bytes} (h : ∀ c, s ≠ encodeChar c) :
    (loadFromDict (some (encodeText cs))).2.fullCode s = [] := by
  have hnone : (((dictRows (encodeText cs)).filterMap charCode).filter fun p => p.1 = s) = [] := by
    rw [List.filter_eq_nil_iff]
    intro pair hpair hs
    obtain ⟨row, hrow, hcode⟩ := List.mem_filterMap.mp hpair
    obtain ⟨ds, hds⟩ := encodeText_of_mem_dictRows hrow
    -- only a row of one character goes into the table
    rw [charCode, hds, splitUtf8Chars_encodeText] at hcode
    split at hcode
    · next ch hch =>
        obtain ⟨c, rfl, rfl⟩ := List.map_eq_singleton_iff.mp hch
        obtain rfl := Option.some_inj.mp hcode
        exact h c (of_decide_eq_true hs).symm
    · cases hcode
  rw [fullCode_eq, knownCode_eq, hnone]
  rfl

/-! ### Phrases -/

/-- The encoder rules: the keys that the characters of a phrase give. -/
def phraseKeys (full : Char → Bytes) : List Char → Bytes
  | [a, b] => (full a).take 2 ++ (full b).take 2
  | [a, b, c] => (full a).take 1 ++ (full b).take 1 ++ (full c).take 2
  | a :: b :: c :: d :: rest =>
    (full a).take 1 ++ (full b).take 1 ++ (full c).take 1 ++
      (full ((d :: rest).getLast (by simp))).take 1
  | _ => []

theorem phraseCode_map (full : Char → Bytes) (gram : List Char) :
    phraseCode (gram.map full) = phraseKeys full gram := by
  match gram with
  | [] => rfl
  | [_] => rfl
  | [_, _] => rfl
  | [_, _, _] => rfl
  | a :: b :: c :: d :: rest =>
      have hlast := List.getLast_map (f := full) (l := d :: rest) (by simp)
      rw [phraseKeys, ← hlast]
      rfl

theorem length_phraseKeys (full : Char → Bytes) (gram : List Char) :
    (phraseKeys full gram).length ≤ 4 := by
  unfold phraseKeys
  split
  all_goals
    simp only [List.length_append, List.length_take, List.length_nil]
    omega

theorem phraseKeys_ne_nil {full : Char → Bytes} {gram : List Char} (hlen : 2 ≤ gram.length)
    (hfull : ∀ c ∈ gram, full c ≠ []) : phraseKeys full gram ≠ [] := by
  match gram with
  | [] => simp at hlen
  | [_] => simp at hlen
  | [a, b] => simp [phraseKeys, hfull a]
  | [a, b, c] => simp [phraseKeys, hfull a]
  | a :: b :: c :: d :: rest => simp [phraseKeys, hfull a]

theorem mapM_eq_ite {α : Type} {full : α → Bytes} (xs : List α) :
    xs.mapM (fun a => if full a = [] then none else some (full a)) =
      if ∀ a ∈ xs, full a ≠ [] then some (xs.map full) else none := by
  induction xs with
  | nil => rfl
  | cons a xs ih =>
      rw [List.mapM_cons, ih]
      by_cases ha : full a = []
      · simp [ha]
      · by_cases hxs : ∀ a ∈ xs, full a ≠ []
        · have hall : ∀ b ∈ a :: xs, full b ≠ [] := List.forall_mem_cons.mpr ⟨ha, hxs⟩
          rw [if_pos hxs, if_pos hall, if_neg ha]
          rfl
        · have hall : ¬ ∀ b ∈ a :: xs, full b ≠ [] := fun h => hxs (List.forall_mem_cons.mp h).2
          rw [if_neg hxs, if_neg hall, if_neg ha]
          rfl

/-- A well-formed phrase is encoded by the rules, if it has two characters and all of
them have codes. -/
theorem encodePhrase_spec (gram : List Char) :
    ((2 ≤ gram.length ∧ ∀ c ∈ gram, codec.fullCode (encodeChar c) ≠ []) →
      codec.encodePhrase (encodeText gram) =
        phraseKeys (fun c => codec.fullCode (encodeChar c)) gram) ∧
    (¬ (2 ≤ gram.length ∧ ∀ c ∈ gram, codec.fullCode (encodeChar c) ≠ []) →
      codec.encodePhrase (encodeText gram) = []) := by
  have hcodes : (gram.map encodeChar).mapM codec.knownCode =
      gram.mapM fun c => if codec.fullCode (encodeChar c) = [] then none
        else some (codec.fullCode (encodeChar c)) := by
    rw [List.mapM_map]
    exact congrArg (gram.mapM ·) (funext fun c => knownCode_eq_ite (encodeChar c))
  rw [encodePhrase, splitUtf8Chars_encodeText, hcodes, mapM_eq_ite, List.length_map]
  constructor
  · rintro ⟨hlen, hfull⟩
    rw [if_neg (by omega), if_pos hfull]
    exact phraseCode_map _ gram
  · intro huncoded
    split_ifs with hlen hfull
    · rfl
    · exact absurd ⟨by omega, hfull⟩ huncoded
    · rfl

/-- The code of a phrase is by the rules: there is one exactly when the phrase has two
characters or more and all of them have codes, and it has four keys at most. -/
def EncodesByRules (codec : WubiCodec) (gram : List Char) : Prop :=
  (codec.encodePhrase (encodeText gram) ≠ [] ↔
    2 ≤ gram.length ∧ ∀ c ∈ gram, codec.fullCode (encodeChar c) ≠ []) ∧
  (codec.encodePhrase (encodeText gram) ≠ [] →
    (codec.encodePhrase (encodeText gram)).length ≤ 4 ∧
    codec.encodePhrase (encodeText gram) =
      phraseKeys (fun c => codec.fullCode (encodeChar c)) gram)

theorem encodesByRules (codec : WubiCodec) (gram : List Char) : codec.EncodesByRules gram := by
  obtain ⟨hkeys, hnone⟩ := @encodePhrase_spec codec gram
  unfold EncodesByRules
  by_cases hcoded : 2 ≤ gram.length ∧ ∀ c ∈ gram, codec.fullCode (encodeChar c) ≠ []
  · rw [hkeys hcoded]
    exact ⟨iff_of_true (phraseKeys_ne_nil hcoded.1 hcoded.2) hcoded,
      fun _ => ⟨length_phraseKeys _ gram, rfl⟩⟩
  · rw [hnone hcoded]
    exact ⟨iff_of_false (fun h => h rfl) hcoded, fun h => absurd rfl h⟩

/-- The encoder on a well-formed dictionary file, whatever was loaded before: the full
code of a character is the first of the longest codes that the file lists for it, nothing
else has one, and phrases are encoded by the rules. -/
theorem wubiCodes (before : WubiCodec) (dict : List Char) :
    (∀ c, (before.reload (some (encodeText dict))).2.fullCode (encodeChar c) =
      ((listedCodes (encodeText dict) (encodeChar c)).argmax List.length).getD []) ∧
    (∀ s, (∀ c, s ≠ encodeChar c) →
      (before.reload (some (encodeText dict))).2.fullCode s = []) ∧
    ∀ gram, (before.reload (some (encodeText dict))).2.EncodesByRules gram := by
  rw [reload_eq]
  exact ⟨fullCode_encodeChar dict, fun s => fullCode_eq_nil dict, encodesByRules _⟩

end WubiCodec

end Dafeng.Learning
