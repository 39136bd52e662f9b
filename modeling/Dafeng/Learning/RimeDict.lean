import Dafeng.Learning.Discovery
import Dafeng.Learning.Round
import Dafeng.Learning.WubiCodec

/-!
# Dafeng.Learning.RimeDict

The dictionary of learned words that RIME reads, `dafeng_learned.dict.yaml`: the
codes that a learning round gives its words (`src/daemon/learning_round.cc`), and
the file it writes (`src/daemon/user_dict.cc`).
-/

namespace Dafeng.Learning

open Dafeng.Utf8

/-! ### Codes -/

/-- A word with the code that the encoder makes for its text, if it makes one. -/
def reencode (codec : WubiCodec) (w : DiscoveredWord) : DiscoveredWord :=
  let canonical := codec.encodePhrase w.text
  if canonical ≠ [] then { w with code := canonical } else w

/-- The code assignment of `RunLearningRound`. `wubiDict` is the file at
`wubi_dict_path`, and `none` if the path is empty or the file cannot be opened. -/
def assignCodes (wubiDict : Option Bytes) (words : List DiscoveredWord) : List DiscoveredWord :=
  let (loaded, codec) := WubiCodec.loadFromDict wubiDict
  if loaded then words.map (reencode codec) else words

/-! ### The file -/

/-- `IsoTimestamp`: the local time as `%FT%T%z` prints it. -/
structure IsoTimestamp where
  chars : List Char
  plain : ∀ c ∈ chars, c.isDigit ∨ c = '-' ∨ c = ':' ∨ c = 'T' ∨ c = '+'

def someTime : IsoTimestamp := ⟨"2026-01-01T08:00:00+0800".toList, forall_mem_of_all (by decide)⟩

/-- The header of `WriteRimeDictYaml`, without the line that ends it. The two calls
of `IsoTimestamp` can see different times. -/
def rimeHeader (generated version : IsoTimestamp) : List (List Char) := [
  "# Rime dictionary — generated by dafeng-daemon".toList,
  "# Generated at: ".toList ++ generated.chars,
  "---".toList,
  "name: dafeng_learned".toList,
  "version: \"".toList ++ version.chars ++ ['"'],
  "sort: by_weight".toList,
  "use_preset_vocabulary: false".toList,
  "columns:".toList,
  "  - text".toList,
  "  - code".toList,
  "  - weight".toList]

/-- The line that ends a header. -/
def headerEnd : List Char := ['.', '.', '.']

/-- A row of the table. -/
def tableRow (text code : Bytes) (weight : UInt32) : Bytes :=
  text ++ tab :: code ++ tab :: encodeText (Nat.toDigits 10 weight.toNat)

/-- The row of a word; a word without a code has none. -/
def wordRow (w : DiscoveredWord) : Option Bytes :=
  if w.code = [] then none else some (tableRow w.text w.code w.frequency)

theorem filterMap_wordRow (words : List DiscoveredWord) : words.filterMap wordRow =
    (words.filter fun w => w.code ≠ []).map fun w => tableRow w.text w.code w.frequency := by
  induction words with
  | nil => rfl
  | cons w words ih =>
      by_cases hcode : w.code = []
      · rw [List.filterMap_cons_none (by rw [wordRow, if_pos hcode]), ih,
          List.filter_cons_of_neg (by simpa using hcode)]
      · rw [List.filterMap_cons_some (by rw [wordRow, if_neg hcode]), ih,
          List.filter_cons_of_pos (by simpa using hcode), List.map_cons]

/-- Whether a write succeeds, and the times that it sees. -/
structure RimeWrite where
  written : Bool := true
  generated : IsoTimestamp
  version : IsoTimestamp

/-- What `WriteRimeDictYaml` writes. -/
def rimeDictYaml (rw : RimeWrite) (words : List DiscoveredWord) : Bytes :=
  unlines lineFeed
    ((rimeHeader rw.generated rw.version ++ [headerEnd]).map encodeText ++ words.filterMap wordRow)

/-- `WriteRimeDictYaml`: its result, and the file afterwards. -/
def writeRimeDictYaml (rw : RimeWrite) (words : List DiscoveredWord) (file : Option Bytes) :
    Bool × Option Bytes :=
  if rw.written then (true, some (rimeDictYaml rw words)) else (false, file)

/-! ### The round -/

/-- The rest of `LearningRoundConfig` that the dictionary depends on: whether
`rime_user_dir` is set, and the file at `wubi_dict_path`. -/
structure RimeConfig where
  userDir : Bool := true
  wubiDict : Option Bytes := none
  deriving DecidableEq, Repr

/-- The words of a round, with the codes they are written with. -/
def learnedWords (p : Platform) (cfg : LearningRoundConfig) (rime : RimeConfig)
    (history : HistoryStore) : List DiscoveredWord :=
  assignCodes rime.wubiDict (discover p.chrono p.ranking p.hash history cfg.discovery)

/-- Step 3, the dictionary. The result of the write is not looked at. -/
def writeDict (rime : RimeConfig) (rw : RimeWrite) (words : List DiscoveredWord)
    (file : Option Bytes) : Option Bytes :=
  if rime.userDir then (writeRimeDictYaml rw words file).2 else file

theorem writeDict_eq (rime : RimeConfig) (rw : RimeWrite) (words : List DiscoveredWord)
    (file : Option Bytes) : writeDict rime rw words file =
      if rime.userDir && rw.written then some (rimeDictYaml rw words) else file := by
  unfold writeDict writeRimeDictYaml
  cases rime.userDir <;> cases rw.written <;> rfl

/-- The files that a round leaves. -/
structure RoundFiles where
  ngram : Option Bytes := none
  dict : Option Bytes := none
  deriving DecidableEq, Repr

/-- `RunLearningRound` with the dictionary. -/
def learningRound (p : Platform) (cfg : LearningRoundConfig) (rime : RimeConfig)
    (history : HistoryStore) (table : NgramTable) (w : Writes) (rw : RimeWrite)
    (files : RoundFiles) : LearningRoundResult × RoundFiles :=
  let (result, ngram) := runLearningRound p cfg history table w files.ngram
  let words := learnedWords p cfg rime history
  (result, { ngram, dict := writeDict rime rw words files.dict })

/-! ### Lines of the file -/

/-- The data rows of a dictionary: the lines behind `...`. -/
def dataRows (dict : Bytes) : List Bytes :=
  tableLines (· == encodeText headerEnd) (getlines lineFeed dict)

/-- The lines of a dictionary up to `...`. -/
def headRows (dict : Bytes) : List Bytes :=
  headerLines (· == encodeText headerEnd) (getlines lineFeed dict)

theorem IsoTimestamp.ne (t : IsoTimestamp) {c : Char} (hc : c ∈ t.chars) : c ≠ '\n' := by
  rintro rfl
  rcases t.plain _ hc with h | h | h | h | h <;> revert h <;> decide

/-- A line of the header is one line, and has a character that `...` has not. -/
theorem mem_rimeHeader {generated version : IsoTimestamp} {line : List Char}
    (h : line ∈ rimeHeader generated version) :
    '\n' ∉ line ∧ ∃ c ∈ line, c = '#' ∨ c = '-' ∨ c = ':' := by
  have hstamp := fun (t : IsoTimestamp) (hmem : '\n' ∈ t.chars) => t.ne hmem rfl
  simp only [rimeHeader, List.mem_cons, List.not_mem_nil, or_false] at h
  rcases h with rfl | rfl | rfl | rfl | rfl | rfl | rfl | rfl | rfl | rfl | rfl
  · exact ⟨by decide, '#', by decide, .inl rfl⟩
  · refine ⟨?_, '#', by simp, .inl rfl⟩
    rw [List.mem_append]
    exact not_or.mpr ⟨by decide, hstamp generated⟩
  · exact ⟨by decide, '-', by decide, .inr (.inl rfl)⟩
  · exact ⟨by decide, ':', by decide, .inr (.inr rfl)⟩
  · refine ⟨?_, ':', by simp, .inr (.inr rfl)⟩
    rw [List.mem_append, List.mem_append]
    exact not_or.mpr ⟨not_or.mpr ⟨by decide, hstamp version⟩, by decide⟩
  · exact ⟨by decide, ':', by decide, .inr (.inr rfl)⟩
  · exact ⟨by decide, ':', by decide, .inr (.inr rfl)⟩
  · exact ⟨by decide, ':', by decide, .inr (.inr rfl)⟩
  all_goals exact ⟨by decide, '-', by decide, .inr (.inl rfl)⟩

theorem lineFeed_mem_encodeText {cs : List Char} : lineFeed ∈ encodeText cs ↔ '\n' ∈ cs :=
  mem_encodeText_ascii (c := '\n') (by decide)

theorem lineFeed_not_mem_decimal (n : Nat) : lineFeed ∉ encodeText (Nat.toDigits 10 n) := by
  rw [lineFeed_mem_encodeText]
  intro hmem
  have hdigit := Nat.isDigit_of_mem_toDigits (by decide) (by decide) hmem
  revert hdigit
  decide

theorem lineFeed_mem_tableRow {text code : Bytes} {weight : UInt32} :
    lineFeed ∈ tableRow text code weight ↔ lineFeed ∈ text ∨ lineFeed ∈ code := by
  have hdecimal := lineFeed_not_mem_decimal weight.toNat
  have htab : lineFeed ≠ tab := by decide
  simp [tableRow, hdecimal, htab]

/-- The header of the daemon, as bytes. -/
def headerBytes (generated version : IsoTimestamp) : Bytes :=
  unlines lineFeed ((rimeHeader generated version ++ [headerEnd]).map encodeText)

theorem rimeDictYaml_eq (rw : RimeWrite) (words : List DiscoveredWord) : rimeDictYaml rw words =
    headerBytes rw.generated rw.version ++ unlines lineFeed (words.filterMap wordRow) :=
  unlines_append _

/-- The lines of a file behind the header stay as they are. -/
theorem getlines_headerBytes (generated version : IsoTimestamp) (rest : Bytes) :
    getlines lineFeed (headerBytes generated version ++ rest) =
      (rimeHeader generated version).map encodeText ++
        encodeText headerEnd :: getlines lineFeed rest := by
  have hheader : ∀ line ∈ (rimeHeader generated version ++ [headerEnd]).map encodeText,
      lineFeed ∉ line := by
    intro line hline
    obtain ⟨cs, hcs, rfl⟩ := List.mem_map.mp hline
    rw [lineFeed_mem_encodeText]
    rcases List.mem_append.mp hcs with hcs | hcs
    · exact (mem_rimeHeader hcs).1
    · rw [List.mem_singleton.mp hcs]
      decide
  rw [headerBytes, getlines_unlines_append, flatMap_splitOn hheader, List.map_append,
    List.append_assoc]
  rfl

theorem header_not_end (generated version : IsoTimestamp) :
    ∀ line ∈ (rimeHeader generated version).map encodeText,
      (line == encodeText headerEnd) = false := by
  intro line hline
  obtain ⟨cs, hcs, rfl⟩ := List.mem_map.mp hline
  obtain ⟨-, c, hc, hmark⟩ := mem_rimeHeader hcs
  refine beq_eq_false_iff_ne.mpr fun heq => ?_
  rw [encodeText_injective heq] at hc
  obtain rfl : c = '.' := by simpa [headerEnd] using hc
  revert hmark
  decide

theorem dataRows_headerBytes (generated version : IsoTimestamp) (rest : Bytes) :
    dataRows (headerBytes generated version ++ rest) = getlines lineFeed rest := by
  rw [dataRows, getlines_headerBytes]
  exact tableLines_append (header_not_end generated version) (beq_self_eq_true _) _

theorem headRows_headerBytes (generated version : IsoTimestamp) (rest : Bytes) :
    headRows (headerBytes generated version ++ rest) =
      (rimeHeader generated version ++ [headerEnd]).map encodeText := by
  rw [headRows, getlines_headerBytes, List.map_append]
  exact headerLines_append (header_not_end generated version) (beq_self_eq_true _) _

/-- The rows that `WriteRimeDictYaml` writes; a line feed within a row splits it. -/
theorem dataRows_rimeDictYaml (rw : RimeWrite) (words : List DiscoveredWord) :
    dataRows (rimeDictYaml rw words) =
      (words.filterMap wordRow).flatMap (·.splitOn lineFeed) := by
  rw [rimeDictYaml_eq, dataRows_headerBytes, getlines_unlines]

/-- The text of a row: its first column. -/
def rowText (row : Bytes) : Bytes := (row.splitOn tab).headD []

theorem rowText_tableRow {text : Bytes} (h : tab ∉ text) (code : Bytes) (weight : UInt32) :
    rowText (tableRow text code weight) = text := by
  rw [rowText, tableRow, List.append_assoc, List.cons_append,
    List.splitOn_append_cons_self_of_not_mem h]
  rfl

/-- The texts of the rows of a dictionary. -/
def dictTexts (dict : Option Bytes) : List Bytes :=
  match dict with
  | none => []
  | some contents => (dataRows contents).map rowText

/-- The texts that a list of words is written with; a line feed in a code makes a
further row. -/
def rowTexts (words : List DiscoveredWord) : List Bytes :=
  ((words.filterMap wordRow).flatMap (·.splitOn lineFeed)).map rowText

theorem dictTexts_rimeDictYaml (rw : RimeWrite) (words : List DiscoveredWord) :
    dictTexts (some (rimeDictYaml rw words)) = rowTexts words :=
  congrArg (List.map rowText) (dataRows_rimeDictYaml rw words)

theorem rowTexts_eq {words : List DiscoveredWord}
    (htext : ∀ w ∈ words, tab ∉ w.text ∧ lineFeed ∉ w.text)
    (hcode : ∀ w ∈ words, lineFeed ∉ w.code) :
    rowTexts words = (words.filter fun w => w.code ≠ []).map DiscoveredWord.text := by
  have hlines : ∀ row ∈ words.filterMap wordRow, lineFeed ∉ row := by
    intro row hrow
    rw [filterMap_wordRow] at hrow
    obtain ⟨w, hw, rfl⟩ := List.mem_map.mp hrow
    have hmem := (List.mem_filter.mp hw).1
    rw [lineFeed_mem_tableRow]
    exact not_or.mpr ⟨(htext w hmem).2, hcode w hmem⟩
  rw [rowTexts, flatMap_splitOn hlines, filterMap_wordRow, List.map_map]
  exact List.map_congr_left fun w hw =>
    rowText_tableRow (htext w (List.mem_filter.mp hw).1).1 w.code w.frequency

/-! ### The words of a round -/

section Words

variable {p : Platform} {cfg : LearningRoundConfig} {rime : RimeConfig} {history : HistoryStore}

/-- The noise filter lets no tab and no line feed pass. -/
theorem plain_of_discover {w : DiscoveredWord}
    (hw : w ∈ discover p.chrono p.ranking p.hash history cfg.discovery) :
    tab ∉ w.text ∧ lineFeed ∉ w.text := by
  obtain ⟨text, c, -, hword⟩ := mem_discover_lookup.mp hw
  obtain ⟨-, hreal, rfl⟩ := wordOf_eq_some.mp hword
  have hspace : text.any isSpace = false := by
    unfold looksLikeRealCandidate at hreal
    split_ifs at hreal with hnil hspace
    simpa using hspace
  rw [List.any_eq_false] at hspace
  exact ⟨fun hmem => hspace _ hmem (by decide), fun hmem => hspace _ hmem (by decide)⟩

theorem reencode_text (codec : WubiCodec) (w : DiscoveredWord) :
    (reencode codec w).text = w.text := by
  unfold reencode
  dsimp only
  split_ifs <;> rfl

/-- Codes are assigned, and the texts stay. -/
theorem map_text_learnedWords : (learnedWords p cfg rime history).map DiscoveredWord.text =
    (discover p.chrono p.ranking p.hash history cfg.discovery).map DiscoveredWord.text := by
  rw [learnedWords, assignCodes]
  cases rime.wubiDict with
  | none => rfl
  | some contents =>
      have htext : DiscoveredWord.text ∘ reencode (WubiCodec.loadFromDict (some contents)).2 =
          DiscoveredWord.text := funext fun w => reencode_text _ w
      dsimp only [WubiCodec.loadFromDict] at htext ⊢
      rw [if_pos rfl, List.map_map, htext]

theorem length_learnedWords : (learnedWords p cfg rime history).length =
    (discover p.chrono p.ranking p.hash history cfg.discovery).length := by
  simpa using congrArg List.length (@map_text_learnedWords p cfg rime history)

theorem nodup_learnedWords :
    ((learnedWords p cfg rime history).map DiscoveredWord.text).Nodup := by
  rw [map_text_learnedWords]
  exact (discover_ordered p.chrono cfg.discovery p.ranking p.hash history).1

theorem plain_of_learnedWords {w : DiscoveredWord} (hw : w ∈ learnedWords p cfg rime history) :
    tab ∉ w.text ∧ lineFeed ∉ w.text := by
  have htext := List.mem_map_of_mem (f := DiscoveredWord.text) hw
  rw [map_text_learnedWords] at htext
  obtain ⟨w', hw', heq⟩ := List.mem_map.mp htext
  rw [← heq]
  exact plain_of_discover hw'

end Words

end Dafeng.Learning
