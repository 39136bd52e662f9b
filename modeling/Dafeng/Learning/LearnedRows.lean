import Dafeng.Learning.Learnable

/-!
# Dafeng.Learning.LearnedRows

From the history to the dictionary of learned words. For well-formed texts the
rows of the dictionary are those of the discovered words, each under the code of
its characters if the wubi dictionary knows them all, and else under the code it
was typed with.
-/

namespace Dafeng.Learning

open Dafeng.Utf8

/-! ### The code of a word -/

/-- The code of a sequence of characters: that of the phrase if each character has
one, and else the typed one. -/
def wordCode (rows : List (Bytes × Bytes)) (gram : List Char) (typedCode : Bytes) : Bytes :=
  ((gram.mapM (WubiCodec.longestCode rows)).map WubiCodec.phraseCode).getD typedCode

theorem exists_codes {rows : List (Bytes × Bytes)} {gram : List Char}
    (h : ∀ c ∈ gram, WubiCodec.codesOf rows c ≠ []) :
    ∃ codes, gram.mapM (WubiCodec.longestCode rows) = some codes :=
  Option.ne_none_iff_exists'.mp (mapM_ne_none_iff.mpr fun c hc hnone =>
    h c hc (List.argmax_eq_none.mp hnone))

theorem phraseCode_ne_nil {contents : Bytes} {gram : List Char} {codes : List Bytes}
    (h : gram.mapM (WubiCodec.longestCode (WubiCodec.dictRows contents)) = some codes)
    (hlen : 2 ≤ gram.length) : WubiCodec.phraseCode codes ≠ [] := by
  obtain ⟨hcount, hknown⟩ := of_mapM_eq_some h
  have hne : ∀ code ∈ codes, code ≠ [] := by
    intro code hcode
    obtain ⟨c, -, hc⟩ := hknown code hcode
    exact (WubiCodec.mem_codesOf (List.argmax_mem hc)).1
  match codes with
  | [a, b] => simp [WubiCodec.phraseCode, hne a]
  | [a, b, c] => simp [WubiCodec.phraseCode, hne a]
  | a :: b :: c :: d :: rest => simp [WubiCodec.phraseCode, hne a]
  | [] => simp at hcount; omega
  | [a] => simp at hcount; omega

section Rows

variable {chars : HistoryEntry → List Char} {p : Platform} {cfg : LearningRoundConfig}
  {history : HistoryStore}

/-- The text of a word is that of a sequence of two or three characters. -/
theorem gram_of_discover
    (hchars : ∀ e ∈ history.recentEntries cfg.scanMaxEntries,
      encodeText (chars e) = e.committedText)
    {w : DiscoveredWord} (hw : w ∈ discover p.chrono p.ranking p.hash history cfg.discovery) :
    ∃ gram : List Char, w.text = encodeText gram ∧ 2 ≤ gram.length := by
  obtain ⟨gram, hspan, -, hword⟩ :=
    (mem_discover_counted chars p.chrono cfg.discovery p.ranking p.hash history hchars w).mp hw
  obtain ⟨-, -, rfl⟩ := wordOf_eq_some.mp hword
  exact ⟨gram, rfl, by omega⟩

/-- The code that a round gives to a word of well-formed text. -/
theorem reencode_eq {contents : Bytes}
    (hdict : ∀ row ∈ WubiCodec.dictRows contents, ∃ cs, row.1 = encodeText cs)
    {w : DiscoveredWord} {gram : List Char} (htext : w.text = encodeText gram)
    (hlen : 2 ≤ gram.length) : reencode (WubiCodec.loadFromDict (some contents)).2 w =
      { w with code := wordCode (WubiCodec.dictRows contents) gram w.code } := by
  obtain ⟨text, typedCode, frequency, firstSeenUs, lastSeenUs⟩ := w
  obtain rfl : text = encodeText gram := htext
  rw [reencode, WubiCodec.encodePhrase_encodeText hdict hlen, wordCode]
  cases hcodes : gram.mapM (WubiCodec.longestCode (WubiCodec.dictRows contents)) with
  | none => rfl
  | some codes => exact if_pos (phraseCode_ne_nil hcodes hlen)

/-- **From the history to the dictionary.** The data rows that a round writes are
those of the discovered words that have a code, in the order of the report. A word
has the code of its characters if the wubi dictionary knows them all, and else the
one it was typed with. A sequence of two or three characters that is counted, often
enough and no noise, and known to the dictionary has its row. -/
theorem learned_rows
    (hchars : ∀ e ∈ history.recentEntries cfg.scanMaxEntries,
      encodeText (chars e) = e.committedText)
    (hcodes : ∀ e ∈ history.recentEntries cfg.scanMaxEntries, lineFeed ∉ e.code)
    {contents : Bytes}
    (hdict : ∀ row ∈ WubiCodec.dictRows contents, ∃ cs, row.1 = encodeText cs)
    (table : NgramTable) (w : Writes) {rw : RimeWrite} (hwritten : rw.written = true)
    (files : RoundFiles) :
    ∃ dict, (learningRound p cfg { wubiDict := some contents } history table w rw files).2.dict =
        some dict ∧
      (∃ gram : DiscoveredWord → List Char,
        (∀ word ∈ discover p.chrono p.ranking p.hash history cfg.discovery,
          word.text = encodeText (gram word)) ∧
        dataRows dict = (discover p.chrono p.ranking p.hash history cfg.discovery).filterMap
          fun word => wordRow { word with
            code := wordCode (WubiCodec.dictRows contents) (gram word) word.code }) ∧
      ∀ (gram : List Char) (occ : List (List Typed)), occ = occurrences (typedRuns chars p.chrono
          cfg.discovery (history.recentEntries cfg.scanMaxEntries)) gram →
        (gram.length = 2 ∧ cfg.includeBigrams ∨ gram.length = 3 ∧ cfg.includeTrigrams) →
        occ ≠ [] → cfg.minNewWordFreq.toNat ≤ occ.length % 2 ^ 32 →
        looksLikeRealCandidate (encodeText gram) = true →
        (∀ c ∈ gram, WubiCodec.codesOf (WubiCodec.dictRows contents) c ≠ []) →
          ∃ codes, gram.mapM (WubiCodec.longestCode (WubiCodec.dictRows contents)) = some codes ∧
            tableRow (encodeText gram) (WubiCodec.phraseCode codes) (UInt32.ofNat occ.length) ∈
              dataRows dict := by
  set words := discover p.chrono p.ranking p.hash history cfg.discovery
  have hgram : ∀ word : DiscoveredWord, ∃ gram : List Char,
      word ∈ words → word.text = encodeText gram ∧ 2 ≤ gram.length := by
    intro word
    by_cases hword : word ∈ words
    · obtain ⟨gram, hgram⟩ := gram_of_discover hchars hword
      exact ⟨gram, fun _ => hgram⟩
    · exact ⟨[], fun h => absurd h hword⟩
  choose gram hgram using hgram
  set coded := fun word : DiscoveredWord =>
    { word with code := wordCode (WubiCodec.dictRows contents) (gram word) word.code }
  have hlearned : learnedWords p cfg { wubiDict := some contents } history = words.map coded :=
    List.map_congr_left fun word hword =>
      reencode_eq hdict (hgram word hword).1 (hgram word hword).2
  have hrows : dataRows (rimeDictYaml rw (words.map coded)) =
      words.filterMap fun word => wordRow (coded word) := by
    rw [dataRows_rimeDictYaml, List.filterMap_map, flatMap_splitOn]
    · rfl
    · -- no row is split
      intro row hrow
      obtain ⟨word, hword, hrow⟩ := List.mem_filterMap.mp hrow
      have hcode := lineFeed_of_learnedWords hcodes (hlearned ▸ List.mem_map_of_mem hword)
      rw [Function.comp_apply, wordRow] at hrow
      split_ifs at hrow
      obtain rfl := Option.some.inj hrow
      rw [lineFeed_mem_tableRow]
      exact not_or.mpr ⟨(plain_of_discover hword).2, hcode⟩
  refine ⟨rimeDictYaml rw (words.map coded), ?_, ⟨gram, fun word hword => (hgram word hword).1,
    hrows⟩, ?_⟩
  · simp only [learningRound, writeDict, writeRimeDictYaml, hwritten, hlearned, if_true]
  · intro seq occ hocc hspan hne hoften hreal hknown
    obtain ⟨codes, hseq⟩ := exists_codes hknown
    obtain ⟨word, hword, htext, hfreq⟩ := mem_discover_of_often chars p.chrono cfg.discovery
      p.ranking p.hash history hchars hocc hspan hne hoften hreal
    have hsame : gram word = seq := by
      refine encodeText_injective ?_
      rw [← (hgram word hword).1, htext]
    refine ⟨codes, hseq, ?_⟩
    rw [hrows]
    refine List.mem_filterMap.mpr ⟨word, hword, ?_⟩
    dsimp only [coded]
    rw [hsame, wordCode, hseq, wordRow, Option.map_some, Option.getD_some,
      if_neg (phraseCode_ne_nil hseq (by omega)), htext, hfreq]

end Rows

/-- A dictionary that knows two characters, one of them with a short code as well. -/
def smallDict : Bytes :=
  encodeText "# wubi86\n---\nname: wubi86\n...\n弹\txu\n弹\txuuf\t100\n窗\tpwtq\n弹窗\txupw\n".toList

theorem smallDict_rows : WubiCodec.dictRows smallDict =
    [(encodeText ['弹'], ascii "xu"), (encodeText ['弹'], ascii "xuuf"),
      (encodeText ['窗'], ascii "pwtq"), (encodeText ['弹', '窗'], ascii "xupw")] := by
  decide

/-- Two characters that were typed one by one, twice, have a row under their phrase
code. -/
theorem learned_rows_splitTyped : ∃ dict,
    (learningRound .stable { minNewWordFreq := 2 } { wubiDict := some smallDict } splitTyped ∅ {}
      { generated := someTime, version := someTime } {}).2.dict = some dict ∧
    tableRow (encodeText ['弹', '窗']) (ascii "xupw") 2 ∈ dataRows dict := by
  have hdict : ∀ row ∈ WubiCodec.dictRows smallDict, ∃ cs, row.1 = encodeText cs := by
    rw [smallDict_rows]
    simp only [List.forall_mem_cons, List.not_mem_nil, false_imp_iff, implies_true, and_true]
    exact ⟨⟨_, rfl⟩, ⟨_, rfl⟩, ⟨_, rfl⟩, ⟨_, rfl⟩⟩
  obtain ⟨dict, hwritten, -, hrow⟩ := @learned_rows
    (fun e => if e.code = ascii "xu" then ['弹'] else ['窗']) .stable { minNewWordFreq := 2 }
    splitTyped (by decide) (by decide) smallDict hdict ∅ {}
    { generated := someTime, version := someTime } rfl {}
  obtain ⟨codes, hcodes, hmem⟩ := hrow ['弹', '窗'] _ rfl (.inl ⟨rfl, rfl⟩) (by decide) (by decide)
    (by decide) (by rw [smallDict_rows]; exact forall_mem_of_all (by decide))
  rw [smallDict_rows] at hcodes
  obtain rfl : [ascii "xuuf", ascii "pwtq"] = codes := Option.some.inj hcodes
  exact ⟨dict, hwritten, hmem⟩

/-- Characters that were typed one by one, a tenth of a second apart. -/
def charByChar (cs : List Char) : HistoryStore where
  recentEntries _ := (cs.zipIdx.map fun p =>
    { tsUs := UInt64.ofNat (100000 * p.2), committedText := encodeText [p.1] }).reverse
  count := UInt64.ofNat cs.length

/-- The character of such an entry. -/
def charAt (cs : List Char) (e : HistoryEntry) : List Char :=
  [cs.getD (e.tsUs.toNat / 100000) ' ']

/-- Every phrase that `allowed` admits, typed often enough character by character and
known to the dictionary, has a row under its code. -/
def RowPromised (allowed : LearningRoundConfig → List Char → Prop) : Prop :=
  ∀ (cfg : LearningRoundConfig) (cs gram : List Char) (contents : Bytes),
    (∀ row ∈ WubiCodec.dictRows contents, ∃ cs, row.1 = encodeText cs) → allowed cfg gram →
    max 1 cfg.minNewWordFreq.toNat ≤ (occurrences (typedRuns (charAt cs) byTime cfg.discovery
      ((charByChar cs).recentEntries cfg.scanMaxEntries)) gram).length →
    (∀ c ∈ gram, WubiCodec.codesOf (WubiCodec.dictRows contents) c ≠ []) →
      ∃ dict codes freq, (learningRound .stable cfg { wubiDict := some contents } (charByChar cs) ∅
          {} { generated := someTime, version := someTime } {}).2.dict = some dict ∧
        gram.mapM (WubiCodec.longestCode (WubiCodec.dictRows contents)) = some codes ∧
        tableRow (encodeText gram) (WubiCodec.phraseCode codes) freq ∈ dataRows dict

def charDict : Bytes := encodeText "今\twynb\n天\tgdi\n我\ttrnt\n们\twu\n哈\tkwgk\n".toList

theorem charDict_rows : WubiCodec.dictRows charDict =
    [(encodeText ['今'], ascii "wynb"), (encodeText ['天'], ascii "gdi"),
      (encodeText ['我'], ascii "trnt"), (encodeText ['们'], ascii "wu"),
      (encodeText ['哈'], ascii "kwgk")] := by
  decide

/-- A phrase of four characters has no row, nor has one of two where these are not
counted, nor one that is a single character three times. -/
theorem row_not_promised :
    ¬ RowPromised (fun _ gram => 2 ≤ gram.length) ∧ ¬ RowPromised (fun _ gram => gram.length = 2) ∧
      ¬ RowPromised (fun cfg gram => gram.length = 3 ∧ cfg.includeTrigrams) := by
  have hdict : ∀ row ∈ WubiCodec.dictRows charDict, ∃ cs, row.1 = encodeText cs := by
    rw [charDict_rows]
    simp only [List.forall_mem_cons, List.not_mem_nil, false_imp_iff, implies_true, and_true]
    exact ⟨⟨_, rfl⟩, ⟨_, rfl⟩, ⟨_, rfl⟩, ⟨_, rfl⟩, ⟨_, rfl⟩⟩
  have hmissing : ∀ (cfg : LearningRoundConfig) (cs gram : List Char),
      tab ∉ encodeText gram →
      (∀ row ∈ dataRows (rimeDictYaml { generated := someTime, version := someTime }
        (learnedWords .stable cfg { wubiDict := some charDict } (charByChar cs))),
          rowText row ≠ encodeText gram) →
      ¬ ∃ dict codes freq, (learningRound .stable cfg { wubiDict := some charDict } (charByChar cs)
          ∅ {} { generated := someTime, version := someTime } {}).2.dict = some dict ∧
        gram.mapM (WubiCodec.longestCode (WubiCodec.dictRows charDict)) = some codes ∧
        tableRow (encodeText gram) (WubiCodec.phraseCode codes) freq ∈ dataRows dict := by
    intro cfg cs gram htab hnone h
    obtain ⟨dict, codes, freq, hdict, -, hrow⟩ := h
    obtain rfl := Option.some.inj hdict
    exact hnone _ hrow (rowText_tableRow htab _ _)
  refine ⟨fun h => ?_, fun h => ?_, fun h => ?_⟩
  · refine hmissing { minNewWordFreq := 2 } "今天我们今天我们".toList "今天我们".toList (by decide) ?_
      (h _ _ _ charDict hdict (by decide) (by decide)
        (by rw [charDict_rows]; exact forall_mem_of_all (by decide)))
    rw [dataRows_rimeDictYaml]
    decide
  · refine hmissing { minNewWordFreq := 2, includeBigrams := false } "今天今天".toList "今天".toList
      (by decide) ?_
      (h _ _ _ charDict hdict (by decide) (by decide)
        (by rw [charDict_rows]; exact forall_mem_of_all (by decide)))
    rw [dataRows_rimeDictYaml]
    decide
  · refine hmissing { minNewWordFreq := 2 } "哈哈哈哈".toList "哈哈哈".toList (by decide) ?_
      (h _ _ _ charDict hdict (by decide) (by decide)
        (by rw [charDict_rows]; exact forall_mem_of_all (by decide)))
    rw [dataRows_rimeDictYaml]
    decide

end Dafeng.Learning
