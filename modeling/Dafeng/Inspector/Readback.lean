import Dafeng.Inspector.LearnedDict

/-!
# Dafeng.Inspector.Readback

What the Inspector reads of a dictionary that the daemon wrote. It reads the words
that were written if and only if it takes no part of their rows for something else.
-/

namespace Dafeng.Inspector

open Dafeng.Utf8 Dafeng.Learning

/-! ### Numbers -/

theorem isDigit_of_mem {n : Nat} {c : Char} (hc : c ∈ Nat.toDigits 10 n) : c.isDigit = true :=
  Nat.isDigit_of_mem_toDigits (by decide) (by decide) hc

theorem parseDigits_toDigits {n : Int} (h : -2 ^ 63 ≤ n ∧ n < 2 ^ 63) :
    parseDigits (decide (n < 0)) (Nat.toDigits 10 n.natAbs) = some n := by
  have hvalue : (if decide (n < 0) = true then -(n.natAbs : Int) else n.natAbs) = n := by
    by_cases hneg : n < 0
    · rw [if_pos (decide_eq_true hneg)]
      omega
    · rw [if_neg (by simpa using hneg)]
      omega
  rw [parseDigits, if_pos ⟨Nat.toDigits_ne_nil, List.all_eq_true.mpr fun c => isDigit_of_mem⟩]
  dsimp only
  rw [Nat.ofDigitChars_ten_toDigits, hvalue, if_pos h]

theorem parseInt_printInt {n : Int} (h : -2 ^ 63 ≤ n ∧ n < 2 ^ 63) :
    parseInt (printInt n) = some n := by
  have hdigits := parseDigits_toDigits h
  unfold printInt
  split_ifs with hneg
  · rw [decide_eq_true hneg] at hdigits
    exact hdigits
  · rw [decide_eq_false hneg] at hdigits
    -- a digit is no sign
    obtain ⟨d, ds, hd⟩ := List.exists_cons_of_ne_nil (@Nat.toDigits_ne_nil n.natAbs 10)
    have hdigit : d.isDigit = true := isDigit_of_mem (n := n.natAbs) (by rw [hd]; simp)
    rw [hd] at hdigits ⊢
    unfold parseInt
    split
    · next heq =>
        rw [(List.cons.inj heq).1] at hdigit
        exact absurd hdigit (by decide)
    · next heq =>
        rw [(List.cons.inj heq).1] at hdigit
        exact absurd hdigit (by decide)
    · exact hdigits

theorem mem_printInt {n : Int} {c : Char} (h : c ∈ printInt n) : c = '-' ∨ c.isDigit = true := by
  unfold printInt at h
  split_ifs at h
  · exact (List.mem_cons.mp h).imp id isDigit_of_mem
  · exact .inr (isDigit_of_mem h)

theorem printInt_ne_nil (n : Int) : printInt n ≠ [] := by
  unfold printInt
  split_ifs
  · simp
  · exact Nat.toDigits_ne_nil

/-! ### Rows -/

/-- Columns that are read as they stand. -/
structure Plain (swift : Swift) (columns : Columns) : Prop where
  text : ∀ c ∈ columns.1, isNewline c = false ∧ c ≠ '\t'
  code : ∀ c ∈ columns.2.1, isNewline c = false ∧ c ≠ '\t'
  begins : ∃ c, columns.1.head? = some c ∧ isWhitespaceOrNewline c = false
  noComment : hasHashPrefix swift (columns.1 ++ ['\t']) = false
  weight : -2 ^ 63 ≤ columns.2.2 ∧ columns.2.2 < 2 ^ 63

variable {swift : Swift}

theorem hasHashPrefix_cons (c : Char) {rest rest' : List Char} (h : rest.head? = rest'.head?) :
    hasHashPrefix swift (c :: rest) = hasHashPrefix swift (c :: rest') := by
  unfold hasHashPrefix
  split
  · next heq =>
      obtain ⟨rfl, rfl⟩ := List.cons.inj heq
      rw [h]
      rfl
  · next hne =>
      split
      · next heq =>
          obtain ⟨rfl, rfl⟩ := List.cons.inj heq
          exact absurd rfl (hne rest)
      · rfl

/-- Whether a row is a comment is seen before its first tab ends. -/
theorem hasHashPrefix_row {text : List Char} (hne : text ≠ []) (rest : List Char) :
    hasHashPrefix swift (text ++ '\t' :: rest) = hasHashPrefix swift (text ++ ['\t']) := by
  obtain ⟨c, cs, rfl⟩ := List.exists_cons_of_ne_nil hne
  refine hasHashPrefix_cons c ?_
  cases cs <;> rfl

theorem isWhitespaceOrNewline_printInt {n : Int} {c : Char} (h : c ∈ printInt n) :
    isWhitespaceOrNewline c = false ∧ c ≠ '\t' := by
  have hrange : c.toNat = 45 ∨ 48 ≤ c.toNat ∧ c.toNat ≤ 57 := by
    rcases mem_printInt h with rfl | hdigit
    · exact .inl rfl
    · simp only [Char.isDigit, Bool.and_eq_true, decide_eq_true_eq] at hdigit
      exact .inr ⟨hdigit.1, hdigit.2⟩
  refine ⟨?_, ?_⟩
  · simp only [isWhitespaceOrNewline, isWhitespace, isNewline, Bool.or_eq_false_iff,
      Bool.and_eq_false_iff, beq_eq_false_iff_ne, decide_eq_false_iff_not]
    omega
  · rintro rfl
    revert hrange
    decide

/-- A row of plain columns is read as they are. -/
theorem parseLine_printLine {columns : Columns} (h : Plain swift columns) :
    parseLine swift (printLine columns) = some columns := by
  obtain ⟨text, code, weight⟩ := columns
  obtain ⟨htext, hcode, ⟨c, hc, hbegins⟩, hcomment, hweight⟩ := h
  dsimp only at htext hcode hc hcomment hweight
  have hne : text ≠ [] := by
    rintro rfl
    cases hc
  have hrow : printLine (text, code, weight) =
      text ++ '\t' :: (code ++ '\t' :: printInt weight) := by
    simp [printLine]
  have htrim : trim isWhitespaceOrNewline (printLine (text, code, weight)) =
      printLine (text, code, weight) := by
    refine trim_eq_self (fun a ha => ?_) fun a ha => ?_
    · rw [hrow, List.head?_append, hc] at ha
      obtain rfl : c = a := by simpa using ha
      exact hbegins
    · -- a row ends in a digit
      have hends : printLine (text, code, weight) =
          (text ++ '\t' :: code ++ ['\t']) ++ printInt weight := by
        simp [printLine]
      rw [hends, List.getLast?_append_of_ne_nil _ (printInt_ne_nil weight)] at ha
      exact (isWhitespaceOrNewline_printInt (List.mem_of_getLast? ha)).1
  have hsplit : (printLine (text, code, weight)).splitOn '\t' = [text, code, printInt weight] := by
    rw [hrow, List.splitOn_append_cons_self_of_not_mem fun hmem => (htext _ hmem).2 rfl,
      List.splitOn_append_cons_self_of_not_mem fun hmem => (hcode _ hmem).2 rfl,
      List.splitOn_eq_singleton fun hmem => (isWhitespaceOrNewline_printInt hmem).2 rfl]
  unfold parseLine
  dsimp only
  rw [htrim, if_neg, hsplit]
  · dsimp only
    rw [List.head?_cons, Option.bind_some, parseInt_printInt hweight]
    rfl
  · rw [hrow, hasHashPrefix_row hne, hcomment]
    simp

theorem isNewline_printLine {columns : Columns} (h : Plain swift columns) :
    ∀ c ∈ printLine columns, isNewline c = false := by
  intro c hc
  have htab : isNewline '\t' = false := by decide
  rw [printLine, List.mem_append, List.mem_append, List.mem_cons, List.mem_cons] at hc
  rcases hc with (hc | rfl | hc) | rfl | hc
  · exact (h.text c hc).1
  · exact htab
  · exact (h.code c hc).1
  · exact htab
  · have hspace := (isWhitespaceOrNewline_printInt hc).1
    exact (Bool.or_eq_false_iff.mp hspace).2

/-- The body that is read is the one that is written. -/
theorem parseBody_unlines {rows : List Columns}
    (h : ∀ row ∈ rows, Plain swift row) :
    parseBody swift (unlines '\n' (rows.map printLine)) = rows := by
  have hrows : ∀ line ∈ rows.map printLine, ∀ c ∈ line, isNewline c = false := by
    intro line hline
    obtain ⟨row, hrow, rfl⟩ := List.mem_map.mp hline
    exact isNewline_printLine (h row hrow)
  have hne : ∀ line ∈ rows.map printLine, line ≠ [] := by
    intro line hline
    obtain ⟨row, hrow, rfl⟩ := List.mem_map.mp hline
    simp [printLine]
  have hsplit := splitOnP_unlines_append (show isNewline '\n' = true by decide)
    (rows.map printLine) []
  rw [List.append_nil, flatMap_splitOnP hrows] at hsplit
  have hlast : (([] : List Char).splitOnP isNewline).filter (· ≠ []) = [] := by simp
  rw [parseBody, hsplit, List.filter_append, List.filter_eq_self.mpr (by simpa using hne), hlast,
    List.append_nil, List.filterMap_map]
  have hlines : ∀ row ∈ rows, (parseLine swift ∘ printLine) row = some row :=
    fun row hrow => parseLine_printLine (h row hrow)
  rw [List.filterMap_congr hlines]
  exact List.filterMap_some

theorem parseInt_range {s : List Char} {n : Int} (h : parseInt s = some n) :
    -2 ^ 63 ≤ n ∧ n < 2 ^ 63 := by
  have hkept : ∀ value : Int,
      (if -2 ^ 63 ≤ value ∧ value < 2 ^ 63 then some value else none) = some n →
        -2 ^ 63 ≤ n ∧ n < 2 ^ 63 := by
    intro value hvalue
    by_cases hrange : -2 ^ 63 ≤ value ∧ value < 2 ^ 63
    · rw [if_pos hrange] at hvalue
      exact Option.some.inj hvalue ▸ hrange
    · rw [if_neg hrange] at hvalue
      cases hvalue
  have hdigits : ∀ negative digits, parseDigits negative digits = some n →
      -2 ^ 63 ≤ n ∧ n < 2 ^ 63 := by
    intro negative digits hdigits
    unfold parseDigits at hdigits
    by_cases hplain : digits ≠ [] ∧ digits.all Char.isDigit
    · rw [if_pos hplain] at hdigits
      exact hkept _ hdigits
    · rw [if_neg hplain] at hdigits
      cases hdigits
  unfold parseInt at h
  split at h <;> exact hdigits _ _ h

/-- What is read is plain. -/
theorem plain_of_parseLine {raw : List Char} (hraw : ∀ c ∈ raw, isNewline c = false)
    {columns : Columns} (h : parseLine swift raw = some columns) :
    Plain swift columns := by
  unfold parseLine at h
  dsimp only at h
  split_ifs at h with hskip
  obtain ⟨hne, hcomment⟩ := not_or.mp hskip
  split at h
  · next text code rest hsplit =>
      obtain rfl := Option.some.inj h
      have hplain : ∀ part ∈ (trim isWhitespaceOrNewline raw).splitOn '\t', ∀ c ∈ part,
          isNewline c = false ∧ c ≠ '\t' := by
        intro part hpart c hc
        refine ⟨hraw c (trim_subset _ _ (mem_of_mem_splitOn hpart hc)), ?_⟩
        rintro rfl
        exact not_mem_of_mem_splitOn hpart hc
      rw [hsplit] at hplain
      obtain ⟨s, hs, -⟩ := splitOn_eq_cons_cons hsplit
      -- a text that is empty would begin with the tab
      have hhead : ∃ c, text.head? = some c ∧ isWhitespaceOrNewline c = false := by
        cases text with
        | nil =>
            have htab := not_of_head_trim (p := isWhitespaceOrNewline) (s := raw) (a := '\t')
              (by rw [hs]; rfl)
            exact absurd htab (by decide)
        | cons c cs => exact ⟨c, rfl, not_of_head_trim (by rw [hs]; rfl)⟩
      have htext : text ≠ [] := by
        rintro rfl
        obtain ⟨c, hc, -⟩ := hhead
        cases hc
      refine ⟨hplain text (by simp), hplain code (by simp), hhead, ?_, ?_⟩
      · rw [hs, hasHashPrefix_row htext] at hcomment
        simpa using hcomment
      · dsimp only
        cases hweight : rest.head?.bind parseInt with
        | none => simp
        | some n =>
            obtain ⟨s, -, hn⟩ := Option.bind_eq_some_iff.mp hweight
            exact parseInt_range hn
  · cases h

theorem plain_of_mem_parseBody {body : List Char} {columns : Columns}
    (h : columns ∈ parseBody swift body) : Plain swift columns := by
  obtain ⟨line, hline, hcolumns⟩ := List.mem_filterMap.mp h
  exact plain_of_parseLine (of_mem_splitOnP (List.mem_filter.mp hline).1).1 hcolumns

/-! ### Files -/

theorem splitHeaderBody_unlines {header : List (List Char)} {last : List Char}
    (hheader : ∀ line ∈ header, '\n' ∉ line ∧ endsHeader line = false)
    (hlast : '\n' ∉ last ∧ endsHeader last = true) (body : List Char) :
    splitHeaderBody (unlines '\n' (header ++ [last]) ++ body) =
      (unlines '\n' (header ++ [last]), body) := by
  have hlines : ∀ line ∈ header ++ [last], '\n' ∉ line := by
    intro line hline
    rcases List.mem_append.mp hline with hline | hline
    · exact (hheader line hline).1
    · rw [List.mem_singleton.mp hline]
      exact hlast.1
  have hsplit : (unlines '\n' (header ++ [last]) ++ body).splitOn '\n' =
      header ++ last :: body.splitOn '\n' := by
    rw [splitOn_unlines_append, flatMap_splitOn hlines, List.append_assoc]
    rfl
  have hpass : ∀ line ∈ header, (!endsHeader line) = true := by
    intro line hline
    rw [(hheader line hline).2]
    rfl
  unfold splitHeaderBody
  dsimp only
  rw [hsplit, List.dropWhile_append_of_pos hpass,
    List.dropWhile_cons_of_neg (p := fun line => !endsHeader line) (by simp [hlast.2]),
    List.takeWhile_append_of_pos hpass,
    List.takeWhile_cons_of_neg (p := fun line => !endsHeader line) (by simp [hlast.2])]
  dsimp only
  rw [List.append_nil, intercalate_append_sep (by simp), List.intercalate_splitOn]

/-- The header of the daemon. -/
def headerText (generated version : IsoTimestamp) : List Char :=
  unlines '\n' (rimeHeader generated version ++ [headerEnd])

theorem splitHeaderBody_headerText (generated version : IsoTimestamp) (body : List Char) :
    splitHeaderBody (headerText generated version ++ body) =
      (headerText generated version, body) := by
  refine splitHeaderBody_unlines (fun line hline => ?_) ⟨by decide, by decide⟩ body
  obtain ⟨hlf, c, hc, hmark⟩ := mem_rimeHeader hline
  refine ⟨hlf, beq_eq_false_iff_ne.mpr fun heq => ?_⟩
  -- the mark is not trimmed away
  have hspace : isWhitespace c = false := by
    rcases hmark with rfl | rfl | rfl <;> decide
  have hmem := mem_trim hc hspace
  rw [heq] at hmem
  rcases hmark with rfl | rfl | rfl <;> revert hmem <;> decide

theorem encodeText_unlines (lines : List (List Char)) :
    encodeText (unlines '\n' lines) = unlines lineFeed (lines.map encodeText) := by
  have hlf : encodeChar '\n' = [lineFeed] := by decide
  induction lines with
  | nil => rfl
  | cons line lines ih =>
      rw [unlines_cons, encodeText_append, encodeText_cons, ih, hlf, List.map_cons, unlines_cons]
      rfl

theorem encodeText_headerText (generated version : IsoTimestamp) :
    encodeText (headerText generated version) = headerBytes generated version :=
  encodeText_unlines _

/-- What is read of a file with the daemon's header. -/
theorem load_headerText (swift : Swift) (next : Nat) (generated version : IsoTimestamp)
    (body : Bytes) : load swift next (some (headerBytes generated version ++ body)) =
      match decodeText body with
      | none => .error .readFailed
      | some body =>
        .ok (headerText generated version, makeEntries next (parseBody swift body)) := by
  rw [load, ← encodeText_headerText, decodeText_append]
  cases decodeText body with
  | none => rfl
  | some body =>
      rw [Option.map_some]
      dsimp only
      rw [splitHeaderBody_headerText]

theorem map_columns_makeEntries (next : Nat) (rows : List Columns) :
    (makeEntries next rows).map LearnedEntry.columns = rows := by
  rw [makeEntries, List.map_map]
  exact List.zipIdx_map_fst 0 rows

/-! ### Reading back -/

/-- Columns as bytes. -/
def columnBytes (columns : Columns) : Bytes × Bytes × Int :=
  (encodeText columns.1, encodeText columns.2.1, columns.2.2)

/-- The columns of a word. -/
def wordColumns (w : DiscoveredWord) : Bytes × Bytes × Int := (w.text, w.code, w.frequency.toNat)

/-- A row of columns. -/
def rowBytes (columns : Bytes × Bytes × Int) : Bytes :=
  columns.1 ++ tab :: columns.2.1 ++ tab :: encodeText (printInt columns.2.2)

theorem encodeText_printLine (columns : Columns) :
    encodeText (printLine columns) = rowBytes (columnBytes columns) := by
  have htab : encodeChar '\t' = [tab] := by decide
  rw [printLine, encodeText_append, encodeText_append, encodeText_cons, encodeText_cons, htab]
  rfl

theorem tableRow_eq (w : DiscoveredWord) :
    tableRow w.text w.code w.frequency = rowBytes (wordColumns w) := by
  have hprint : printInt (w.frequency.toNat : Int) = Nat.toDigits 10 w.frequency.toNat :=
    if_neg (by omega)
  rw [rowBytes, wordColumns, hprint]
  rfl

/-- A word whose row is read as it stands. -/
def PlainWord (swift : Swift) (w : DiscoveredWord) : Prop :=
  ∃ columns, columnBytes columns = wordColumns w ∧ Plain swift columns

/-- The Inspector reads of a file the words that have a code, as they are and in
their order. -/
def ReadsBack (swift : Swift) (words : List DiscoveredWord) (file : Option Bytes) : Prop :=
  ∀ next, ∃ header entries, load swift next file = .ok (header, entries) ∧
    entries.map (fun e => columnBytes e.columns) =
      (words.filter fun w => w.code ≠ []).map wordColumns

theorem exists_plain_rows {words : List DiscoveredWord} (h : ∀ w ∈ words, PlainWord swift w) :
    ∃ rows : List Columns, rows.map columnBytes = words.map wordColumns ∧
      ∀ row ∈ rows, Plain swift row := by
  induction words with
  | nil => exact ⟨[], rfl, fun row hrow => absurd hrow List.not_mem_nil⟩
  | cons w words ih =>
      obtain ⟨⟨columns, hcolumns, hplain⟩, hwords⟩ := List.forall_mem_cons.mp h
      obtain ⟨rows, hrows, hall⟩ := ih hwords
      refine ⟨columns :: rows, ?_, List.forall_mem_cons.mpr ⟨hplain, hall⟩⟩
      rw [List.map_cons, List.map_cons, hcolumns, hrows]

theorem map_columnBytes_makeEntries (next : Nat) (rows : List Columns) :
    (makeEntries next rows).map (fun e => columnBytes e.columns) = rows.map columnBytes := by
  have hcolumns := congrArg (List.map columnBytes) (map_columns_makeEntries next rows)
  rwa [List.map_map] at hcolumns

/-- A file of plain rows is read as it was written. -/
theorem readsBack_of_plain (rw : RimeWrite) {words : List DiscoveredWord}
    (h : ∀ w ∈ words, w.code ≠ [] → PlainWord swift w) :
    ReadsBack swift words (some (rimeDictYaml rw words)) := by
  intro next
  have hcoded : ∀ w ∈ words.filter fun w => w.code ≠ [], PlainWord swift w := by
    intro w hw
    obtain ⟨hmem, hcode⟩ := List.mem_filter.mp hw
    exact h w hmem (by simpa using hcode)
  obtain ⟨rows, hrows, hplain⟩ := exists_plain_rows hcoded
  have hbody : words.filterMap wordRow = (rows.map printLine).map encodeText := by
    have hbytes := congrArg (List.map rowBytes) hrows
    rw [List.map_map, List.map_map] at hbytes
    rw [filterMap_wordRow, List.map_map]
    calc (words.filter fun w => w.code ≠ []).map (fun w => tableRow w.text w.code w.frequency)
        = (words.filter fun w => w.code ≠ []).map (rowBytes ∘ wordColumns) :=
          List.map_congr_left fun w _ => tableRow_eq w
      _ = rows.map (rowBytes ∘ columnBytes) := hbytes.symm
      _ = rows.map (encodeText ∘ printLine) :=
          List.map_congr_left fun row _ => (encodeText_printLine row).symm
  refine ⟨headerText rw.generated rw.version, makeEntries next rows, ?_, ?_⟩
  · rw [rimeDictYaml_eq, load_headerText, hbody, ← encodeText_unlines, decodeText_encodeText]
    dsimp only
    rw [parseBody_unlines hplain]
  · rw [map_columnBytes_makeEntries, hrows]

/-- Words that are read back are plain. -/
theorem plain_of_readsBack {rw : RimeWrite} {words : List DiscoveredWord}
    (h : ReadsBack swift words (some (rimeDictYaml rw words))) {w : DiscoveredWord}
    (hw : w ∈ words) (hcode : w.code ≠ []) : PlainWord swift w := by
  obtain ⟨header, entries, hload, hentries⟩ := h 0
  rw [rimeDictYaml_eq, load_headerText] at hload
  split at hload
  · cases hload
  · next body hbody =>
      obtain ⟨-, rfl⟩ := Prod.mk.inj (Except.ok.inj hload)
      rw [map_columnBytes_makeEntries] at hentries
      have hmem : wordColumns w ∈ (words.filter fun w => w.code ≠ []).map wordColumns :=
        List.mem_map_of_mem (List.mem_filter.mpr ⟨hw, by simpa using hcode⟩)
      rw [← hentries] at hmem
      obtain ⟨row, hrow, heq⟩ := List.mem_map.mp hmem
      exact ⟨row, heq, plain_of_mem_parseBody hrow⟩

/-- **Reading back what a round wrote.** The Inspector reads of the dictionary that a
round writes just the words with a code, in their order, if and only if the row of
each can be read as it stands. -/
theorem learned_readable_iff (swift : Swift) (p : Platform) (cfg : LearningRoundConfig)
    (wubiDict : Option Bytes) (history : HistoryStore) (table : NgramTable) (w : Writes)
    (generated version : IsoTimestamp) (files : RoundFiles) :
    ReadsBack swift (learnedWords p cfg { wubiDict } history)
        (learningRound p cfg { wubiDict } history table w { generated, version } files).2.dict ↔
      ∀ word ∈ learnedWords p cfg { wubiDict } history, word.code ≠ [] →
        PlainWord swift word :=
  ⟨fun h _ hword hcode => plain_of_readsBack h hword hcode, readsBack_of_plain _⟩

/-- A number sign and a character, each typed with its code, twice. -/
def signTyped : HistoryStore where
  recentEntries _ := [
    { id := 4, tsUs := 1300000, code := ascii "wq", committedText := encodeText ['你'] },
    { id := 3, tsUs := 1200000, code := ascii "#", committedText := encodeText ['#'] },
    { id := 2, tsUs := 1100000, code := ascii "wq", committedText := encodeText ['你'] },
    { id := 1, tsUs := 1000000, code := ascii "#", committedText := encodeText ['#'] }]
  count := 4

/-- The row of their word begins with the number sign, so that it is read as a
comment. -/
theorem signTyped_not_readable :
    ¬ ∀ (swift : Swift) (p : Platform) (cfg : LearningRoundConfig) (wubiDict : Option Bytes)
      (history : HistoryStore) (table : NgramTable) (w : Writes)
      (generated version : IsoTimestamp) (files : RoundFiles),
      ReadsBack swift (learnedWords p cfg { wubiDict } history)
        (learningRound p cfg { wubiDict } history table w { generated, version } files).2.dict := by
  intro hall
  have hread := hall .scalars .stable { minNewWordFreq := 2 } none signTyped ∅ {}
    someTime someTime {}
  have hmem : ⟨encodeText ['#', '你'], ascii "#wq", 2, 1000000, 1200000⟩ ∈
      learnedWords .stable { minNewWordFreq := 2 } {} signTyped := by decide
  obtain ⟨columns, hcolumns, hplain⟩ := plain_of_readsBack hread hmem (by decide)
  obtain ⟨htext, -⟩ := Prod.mk.inj hcolumns
  have hcomment := hplain.noComment
  rw [encodeText_injective htext] at hcomment
  exact absurd hcomment (by decide)

end Dafeng.Inspector
