import Dafeng.Learning.RimeDict

/-!
# Dafeng.Learning.Learnable

Which texts a learning round puts into the dictionary, said of the commits that it
scans (`learnable`). The texts need not be well-formed.
-/

namespace Dafeng.Learning

open Dafeng.Utf8

/-! ### The condition -/

/-- The windows that are counted under a text. -/
def windowsOf (chrono : Sorter earlier) (cfg : DiscoveryConfig) (entries : List HistoryEntry)
    (text : Bytes) : List (List Token) :=
  ((chains chrono cfg entries).flatMap fun run => grams cfg (runTokens run)).filter
    fun w => windowText w = text

/-- Whether the wubi dictionary gives a text a code. -/
def phraseKnown (wubiDict : Option Bytes) (text : Bytes) : Bool :=
  (WubiCodec.loadFromDict wubiDict).1 &&
    (WubiCodec.loadFromDict wubiDict).2.encodePhrase text != []

/-- A text occurs often enough among the adjacent characters of the scanned commits
(the counter has 32 bits), is no noise, and has a code: that of the wubi dictionary,
or the one it was typed with. -/
def learnable (p : Platform) (cfg : LearningRoundConfig) (rime : RimeConfig)
    (entries : List HistoryEntry) (text : Bytes) : Bool :=
  let ws := windowsOf p.chrono cfg.discovery entries text
  !ws.isEmpty && decide (cfg.minNewWordFreq.toNat ≤ ws.length % 2 ^ 32) &&
    looksLikeRealCandidate text &&
    (phraseKnown rime.wubiDict text || ws.any fun w => w.all fun t => t.code != [])

/-! ### Counters -/

/-- What the windows of a text come to. -/
def tallied (ws : List (List Token)) : Counter := ws.foldl Counter.add {}

theorem lookup_countNgrams_windowsOf {chrono : Sorter earlier} {cfg : DiscoveryConfig}
    {entries : List HistoryEntry} {text : Bytes} {c : Counter} :
    (countNgrams chrono cfg entries).lookup text = some c ↔
      windowsOf chrono cfg entries text ≠ [] ∧ c = tallied (windowsOf chrono cfg entries text) := by
  rw [countNgrams_eq, emitAll, Table.lookup_tally]
  change (if windowsOf chrono cfg entries text = [] then none
    else some (tallied (windowsOf chrono cfg entries text))) = some c ↔ _
  split_ifs with hnil
  · simp [hnil]
  · simp [hnil, eq_comm]

theorem tallied_concat (ws : List (List Token)) (w : List Token) :
    tallied (ws ++ [w]) = (tallied ws).add w := by
  rw [tallied, List.foldl_append]
  rfl

theorem tallied_count (ws : List (List Token)) :
    (tallied ws).count = UInt32.ofNat ws.length := by
  rw [tallied, Counter.count_foldl_add, UInt32.zero_add]

/-- The code of a counter is one of its windows', or none. -/
theorem tallied_code (ws : List (List Token)) :
    (tallied ws).code = [] ∨ ∃ w ∈ ws, windowCode w = some (tallied ws).code := by
  induction ws using List.reverseRecOn with
  | nil => exact .inl rfl
  | append_singleton ws w ih =>
      have hold : (tallied ws).code = [] ∨
          ∃ w' ∈ ws ++ [w], windowCode w' = some (tallied ws).code :=
        ih.imp id fun ⟨w', hw', hcode⟩ => ⟨w', List.mem_append_left _ hw', hcode⟩
      rw [tallied_concat, Counter.add]
      dsimp only
      cases hcode : windowCode w with
      | none => exact hold
      | some code =>
          dsimp only
          split_ifs
          · exact .inr ⟨w, by simp, hcode⟩
          · exact hold

/-- A window with a code leaves the counter one. -/
theorem tallied_code_ne_nil {ws : List (List Token)} {w : List Token} {code : Bytes}
    (hw : w ∈ ws) (hcode : windowCode w = some code) (hne : code ≠ []) :
    (tallied ws).code ≠ [] := by
  induction ws using List.reverseRecOn with
  | nil => cases hw
  | append_singleton ws w' ih =>
      rw [tallied_concat, Counter.add]
      dsimp only
      rcases List.mem_append.mp hw with hold | hlast
      · have hkept := ih hold
        cases windowCode w' with
        | none => exact hkept
        | some code' =>
            dsimp only
            split_ifs with hlen
            · exact List.ne_nil_of_length_pos (by omega)
            · exact hkept
      · rw [← List.mem_singleton.mp hlast, hcode]
        dsimp only
        split_ifs with hlen
        · exact hne
        · have hpos := List.length_pos_of_ne_nil hne
          exact List.ne_nil_of_length_pos (by omega)

/-! ### The words of a round -/

section Words

variable {p : Platform} {cfg : LearningRoundConfig} {rime : RimeConfig} {history : HistoryStore}

/-- The reported words are what the windows of their texts come to. -/
theorem mem_discover_iff {chrono : Sorter earlier} {ranking : Sorter ranksBefore} {hash : Visit}
    {cfg : DiscoveryConfig} {w : DiscoveredWord} : w ∈ discover chrono ranking hash history cfg ↔
      ∃ text, windowsOf chrono cfg (history.recentEntries cfg.scanMaxEntries) text ≠ [] ∧
        wordOf cfg text
          (tallied (windowsOf chrono cfg (history.recentEntries cfg.scanMaxEntries) text)) =
            some w := by
  rw [mem_discover_lookup]
  refine exists_congr fun text => ⟨?_, ?_⟩
  · intro h
    obtain ⟨c, hlookup, hword⟩ := h
    obtain ⟨hne, rfl⟩ := lookup_countNgrams_windowsOf.mp hlookup
    exact ⟨hne, hword⟩
  · intro h
    obtain ⟨hne, hword⟩ := h
    exact ⟨_, lookup_countNgrams_windowsOf.mpr ⟨hne, rfl⟩, hword⟩

theorem of_mem_windowsOf {chrono : Sorter earlier} {cfg : DiscoveryConfig}
    {entries : List HistoryEntry} {text : Bytes} {w : List Token}
    (h : w ∈ windowsOf chrono cfg entries text) : w ≠ [] ∧
      ∃ run ∈ chains chrono cfg entries, ∀ t ∈ w, t ∈ runTokens run := by
  obtain ⟨run, hrun, hw⟩ := List.mem_flatMap.mp (List.mem_filter.mp h).1
  obtain ⟨n, hn, hwindow⟩ := windows_of_mem_spans hw
  refine ⟨List.ne_nil_of_length_pos ?_, run, hrun, fun t => mem_of_mem_windows hwindow⟩
  rw [length_of_mem_windows hwindow]
  omega

/-- A line feed in the code of a word is one in the code of a commit. -/
theorem lineFeed_of_discover (hcodes : ∀ e ∈ history.recentEntries cfg.scanMaxEntries,
      lineFeed ∉ e.code)
    {w : DiscoveredWord} (hw : w ∈ discover p.chrono p.ranking p.hash history cfg.discovery) :
    lineFeed ∉ w.code := by
  obtain ⟨text, -, hword⟩ := mem_discover_iff.mp hw
  obtain ⟨-, -, rfl⟩ := wordOf_eq_some.mp hword
  intro hmem
  rcases tallied_code (windowsOf p.chrono cfg.discovery
    (history.recentEntries cfg.discovery.scanMaxEntries) text) with hnil | ⟨window, hwindow, hcode⟩
  · dsimp only at hmem
    rw [hnil] at hmem
    cases hmem
  · obtain ⟨-, run, hrun, htokens⟩ := of_mem_windowsOf hwindow
    unfold windowCode at hcode
    split_ifs at hcode
    dsimp only at hmem
    rw [← Option.some.inj hcode] at hmem
    obtain ⟨t, ht, hlf⟩ := List.mem_flatMap.mp hmem
    obtain ⟨e, he, htoken⟩ := List.mem_flatMap.mp (htokens t ht)
    obtain ⟨ch, -, rfl⟩ := List.mem_map.mp htoken
    dsimp only at hlf
    split_ifs at hlf
    · exact hcodes e (mem_of_mem_chain hrun he) hlf
    · cases hlf

theorem lineFeed_of_learnedWords (hcodes : ∀ e ∈ history.recentEntries cfg.scanMaxEntries,
      lineFeed ∉ e.code)
    {w : DiscoveredWord} (hw : w ∈ learnedWords p cfg rime history) : lineFeed ∉ w.code := by
  unfold learnedWords assignCodes at hw
  cases hdict : rime.wubiDict with
  | none =>
      rw [hdict] at hw
      exact lineFeed_of_discover hcodes hw
  | some contents =>
      rw [hdict] at hw
      obtain ⟨word, hword, rfl⟩ := List.mem_map.mp hw
      unfold reencode
      dsimp only
      split_ifs
      · exact WubiCodec.lineFeed_not_mem_encodePhrase contents word.text
      · exact lineFeed_of_discover hcodes hword

/-- A round writes a word if the wubi dictionary knows it, or if it was typed with a
code. -/
theorem exists_coded_iff {text : Bytes} :
    (∃ w ∈ learnedWords p cfg rime history, w.code ≠ [] ∧ w.text = text) ↔
      ∃ w ∈ discover p.chrono p.ranking p.hash history cfg.discovery, w.text = text ∧
        (phraseKnown rime.wubiDict text = true ∨ w.code ≠ []) := by
  unfold learnedWords assignCodes phraseKnown
  cases rime.wubiDict with
  | none => simp [WubiCodec.loadFromDict, and_comm]
  | some contents =>
      dsimp only [WubiCodec.loadFromDict]
      rw [if_pos rfl]
      simp only [List.mem_map, exists_exists_and_eq_and, Bool.true_and, bne_iff_ne]
      refine exists_congr fun w => and_congr_right fun _ => ?_
      rw [reencode_text, and_comm]
      refine and_congr_right ?_
      rintro rfl
      unfold reencode
      dsimp only
      split_ifs with hknown
      · simp [hknown]
      · simp [not_not.mp hknown]

/-- Whether the windows of a text leave its counter a code. -/
theorem tallied_code_iff {chrono : Sorter earlier} {cfg : DiscoveryConfig}
    {entries : List HistoryEntry} {text : Bytes} :
    (tallied (windowsOf chrono cfg entries text)).code ≠ [] ↔
      ∃ w ∈ windowsOf chrono cfg entries text, ∀ t ∈ w, t.code ≠ [] := by
  constructor
  · intro hne
    obtain ⟨w, hw, hcode⟩ := (tallied_code _).resolve_left hne
    refine ⟨w, hw, ?_⟩
    unfold windowCode at hcode
    split_ifs at hcode with hall
    simpa using hall
  · intro h
    obtain ⟨w, hw, hall⟩ := h
    obtain ⟨hne, -⟩ := of_mem_windowsOf hw
    obtain ⟨t, ht⟩ := List.exists_mem_of_ne_nil w hne
    have hcode : windowCode w = some (w.flatMap Token.code) := if_pos (by simpa using hall)
    exact tallied_code_ne_nil hw hcode fun hnil => hall t ht (List.flatMap_eq_nil_iff.mp hnil t ht)

/-- The words with a code are those that can be learned from the scanned commits. -/
theorem learnable_iff {text : Bytes} :
    learnable p cfg rime (history.recentEntries cfg.scanMaxEntries) text = true ↔
      ∃ w ∈ learnedWords p cfg rime history, w.code ≠ [] ∧ w.text = text := by
  rw [exists_coded_iff]
  set ws := windowsOf p.chrono cfg.discovery (history.recentEntries cfg.scanMaxEntries) text
  have hoften : cfg.discovery.minFrequency ≤ (tallied ws).count ↔
      cfg.minNewWordFreq.toNat ≤ ws.length % 2 ^ 32 := by
    rw [tallied_count, UInt32.le_iff_toNat_le, UInt32.toNat_ofNat']
    rfl
  have hlearnable : learnable p cfg rime (history.recentEntries cfg.scanMaxEntries) text = true ↔
      (ws ≠ [] ∧ cfg.minNewWordFreq.toNat ≤ ws.length % 2 ^ 32 ∧
        looksLikeRealCandidate text = true) ∧
        (phraseKnown rime.wubiDict text = true ∨ ∃ w ∈ ws, ∀ t ∈ w, t.code ≠ []) := by
    simp [learnable, ws, and_assoc]
  rw [hlearnable]
  constructor
  · intro h
    obtain ⟨⟨hne, hcount, hreal⟩, hcode⟩ := h
    refine ⟨⟨text, (tallied ws).code, (tallied ws).count, (tallied ws).firstUs,
      (tallied ws).lastUs⟩, mem_discover_iff.mpr ⟨text, hne, ?_⟩, rfl, ?_⟩
    · exact wordOf_eq_some.mpr ⟨hoften.mpr hcount, hreal, rfl⟩
    · exact hcode.imp id tallied_code_iff.mpr
  · rintro ⟨w, hw, rfl, hcode⟩
    obtain ⟨text, hne, hword⟩ := mem_discover_iff.mp hw
    obtain ⟨hcount, hreal, rfl⟩ := wordOf_eq_some.mp hword
    exact ⟨⟨hne, hoften.mp hcount, hreal⟩, hcode.imp id tallied_code_iff.mp⟩

/-- A word with a code has a row, even if a line feed splits it. -/
theorem mem_rowTexts {words : List DiscoveredWord} {w : DiscoveredWord} (hw : w ∈ words)
    (hcode : w.code ≠ []) (hplain : tab ∉ w.text ∧ lineFeed ∉ w.text) :
    w.text ∈ rowTexts words := by
  have hrow : tableRow w.text w.code w.frequency ∈ words.filterMap wordRow :=
    List.mem_filterMap.mpr ⟨w, hw, if_neg hcode⟩
  set rest := w.code ++ tab :: encodeText (Nat.toDigits 10 w.frequency.toNat)
  have hlf : lineFeed ∉ w.text ++ [tab] := by
    have htab : lineFeed ≠ tab := by decide
    simp [hplain.2, htab]
  obtain ⟨first, parts, hparts⟩ := List.exists_cons_of_ne_nil (List.splitOn_ne_nil lineFeed rest)
  have hsplit : (tableRow w.text w.code w.frequency).splitOn lineFeed =
      (w.text ++ tab :: first) :: parts := by
    have hrest : tableRow w.text w.code w.frequency = (w.text ++ [tab]) ++ rest := by
      simp [tableRow, rest]
    rw [hrest, splitOn_append_of_not_mem hlf, hparts, List.modifyHead_cons, List.append_assoc]
    rfl
  refine List.mem_map.mpr ⟨w.text ++ tab :: first, ?_, ?_⟩
  · exact List.mem_flatMap.mpr ⟨_, hrow, by rw [hsplit]; exact List.mem_cons_self⟩
  · rw [rowText, List.splitOn_append_cons_self_of_not_mem hplain.1]
    rfl

/-- **The words of a dictionary.** A round writes every word that can be learned from
the commits it scans; if no code of these has a line feed, it writes no others. -/
theorem mem_rowTexts_learnedWords {text : Bytes} :
    (learnable p cfg rime (history.recentEntries cfg.scanMaxEntries) text = true →
      text ∈ rowTexts (learnedWords p cfg rime history)) ∧
    ((∀ e ∈ history.recentEntries cfg.scanMaxEntries, lineFeed ∉ e.code) →
      text ∈ rowTexts (learnedWords p cfg rime history) →
        learnable p cfg rime (history.recentEntries cfg.scanMaxEntries) text = true) := by
  constructor
  · intro hlearnable
    obtain ⟨w, hw, hcode, rfl⟩ := learnable_iff.mp hlearnable
    exact mem_rowTexts hw hcode (plain_of_learnedWords hw)
  · intro hcodes htext
    rw [rowTexts_eq (fun w => plain_of_learnedWords) fun w => lineFeed_of_learnedWords hcodes]
      at htext
    obtain ⟨w, hw, rfl⟩ := List.mem_map.mp htext
    obtain ⟨hmem, hcode⟩ := List.mem_filter.mp hw
    exact learnable_iff.mpr ⟨w, hmem, by simpa using hcode, rfl⟩

end Words

end Dafeng.Learning
