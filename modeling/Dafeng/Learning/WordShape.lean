import Dafeng.Learning.Learnable

/-!
# Dafeng.Learning.WordShape

What the discovered words consist of when the commits hold any bytes. Where the
scanner stops, the last character of a commit takes the malformed bytes behind it
along into every word.
-/

namespace Dafeng.Learning

/-! ### Pieces -/

/-- A character of a commit, and the malformed bytes that it takes along. -/
structure Piece where
  char : Bytes
  rest : Bytes
  deriving DecidableEq, Repr

def Piece.text (p : Piece) : Bytes := p.char ++ p.rest

/-- The characters of a commit; what is left belongs to the last one. -/
def pieces (s : Bytes) : List Piece :=
  match (characters s).getLast? with
  | none => []
  | some last => (characters s).dropLast.map (⟨·, []⟩) ++ [⟨last, malformedRest s⟩]

structure Piece.Sound (p : Piece) : Prop where
  char : IsCharacter p.char
  rest : utf8Len p.rest 0 = 0

theorem sound_of_mem_pieces {s : Bytes} {p : Piece} (h : p ∈ pieces s) : p.Sound := by
  unfold pieces at h
  split at h
  · cases h
  · next last hlast =>
      rcases List.mem_append.mp h with hfront | hend
      · obtain ⟨c, hc, rfl⟩ := List.mem_map.mp hfront
        exact ⟨isCharacter_of_mem_characters (List.dropLast_subset _ hc), rfl⟩
      · obtain rfl := List.mem_singleton.mp hend
        exact ⟨isCharacter_of_mem_characters (List.mem_of_getLast? hlast),
          utf8Len_malformedRest s⟩

/-- The texts of the tokens are those of the pieces. -/
theorem tokenTexts_eq (s : Bytes) : tokenTexts s = (pieces s).map Piece.text := by
  obtain ⟨chs, rest, rfl, hchs, hrest⟩ := exists_characters s
  rw [pieces, characters_flatten hchs hrest, malformedRest_flatten hchs hrest]
  rcases List.eq_nil_or_concat' chs with rfl | ⟨front, last, rfl⟩
  · rw [tokenTexts, charOffsets, scan_flatten hchs hrest]
    rfl
  · rw [tokenTexts_flatten hchs hrest, List.getLast?_concat, List.dropLast_concat]
    simp [Piece.text, Function.comp_def]

/-! ### Spans -/

/-- Two or three consecutive pieces of chained commits. -/
def pieceSpans (chrono : Sorter earlier) (cfg : DiscoveryConfig) (entries : List HistoryEntry) :
    List (List Piece) :=
  (chains chrono cfg entries).flatMap fun run =>
    spans cfg (run.flatMap fun e => pieces e.committedText)

/-- What a span spells. -/
def spelled (w : List Piece) : Bytes := w.flatMap Piece.text

/-- How often a text is spelled. -/
def timesSpelled (chrono : Sorter earlier) (cfg : DiscoveryConfig) (entries : List HistoryEntry)
    (text : Bytes) : Nat :=
  ((pieceSpans chrono cfg entries).map spelled).count text

section

variable {chrono : Sorter earlier} {cfg : DiscoveryConfig} {entries : List HistoryEntry}

/-- The windows that are counted have the texts of the spans, token by token. -/
theorem map_ch_grams :
    ((chains chrono cfg entries).flatMap fun run => grams cfg (runTokens run)).map
        (List.map Token.ch) =
      (pieceSpans chrono cfg entries).map (List.map Piece.text) := by
  rw [pieceSpans, List.map_flatMap, List.map_flatMap]
  refine List.flatMap_congr fun run _ => ?_
  have htexts : (runTokens run).map Token.ch =
      (run.flatMap fun e => pieces e.committedText).map Piece.text := by
    rw [runTokens, List.map_flatMap, List.map_flatMap]
    refine List.flatMap_congr fun e _ => ?_
    rw [entryToTokens, List.map_map, ← tokenTexts_eq]
    exact List.map_id _
  rw [grams_eq_spans, ← spans_map, htexts, spans_map]

/-- What is counted is what the spans spell. -/
theorem map_windowText_grams :
    ((chains chrono cfg entries).flatMap fun run => grams cfg (runTokens run)).map windowText =
      (pieceSpans chrono cfg entries).map spelled := by
  have hflat := congrArg (List.map List.flatten) (@map_ch_grams chrono cfg entries)
  rw [List.map_map, List.map_map] at hflat
  have hwindow : windowText = List.flatten ∘ List.map Token.ch :=
    funext fun w => List.flatMap_def ..
  have hspelled : spelled = List.flatten ∘ List.map Piece.text :=
    funext fun w => List.flatMap_def ..
  rw [hwindow, hspelled, hflat]

theorem sound_of_mem_pieceSpans {w : List Piece} (h : w ∈ pieceSpans chrono cfg entries)
    {p : Piece} (hp : p ∈ w) : p.Sound := by
  obtain ⟨run, -, hspan⟩ := List.mem_flatMap.mp h
  obtain ⟨n, -, hwindow⟩ := windows_of_mem_spans hspan
  obtain ⟨e, -, hpiece⟩ := List.mem_flatMap.mp (mem_of_mem_windows hwindow hp)
  exact sound_of_mem_pieces hpiece

theorem length_windowsOf (text : Bytes) :
    (windowsOf chrono cfg entries text).length = timesSpelled chrono cfg entries text := by
  rw [timesSpelled, ← map_windowText_grams, List.count, List.countP_map,
    List.countP_eq_length_filter, windowsOf]
  congr 2
  funext w
  exact (Bool.beq_eq_decide_eq _ _).symm

/-- A word is reported if its text is spelled often enough and is not noise. -/
theorem exists_word_iff (ranking : Sorter ranksBefore) (hash : Visit) (history : HistoryStore)
    (text : Bytes) : (∃ w ∈ discover chrono ranking hash history cfg, w.text = text) ↔
      let times := timesSpelled chrono cfg (history.recentEntries cfg.scanMaxEntries) text
      0 < times ∧ cfg.minFrequency ≤ UInt32.ofNat times ∧
        looksLikeRealCandidate text = true := by
  dsimp only
  rw [← length_windowsOf, List.length_pos_iff, ← tallied_count]
  constructor
  · rintro ⟨w, hw, htext⟩
    obtain ⟨text', hspelled, hword⟩ := mem_discover_iff.mp hw
    obtain ⟨hoften, hreal, rfl⟩ := wordOf_eq_some.mp hword
    obtain rfl : text' = text := htext
    exact ⟨hspelled, hoften, hreal⟩
  · rintro ⟨hspelled, hoften, hreal⟩
    exact ⟨_, mem_discover_iff.mpr ⟨text, hspelled, wordOf_eq_some.mpr ⟨hoften, hreal, rfl⟩⟩, rfl⟩

end

/-! ### Malformed words -/

/-- What comes behind malformed bytes in a word does not make them whole. -/
theorem malformedRest_spelled {w : List Piece} (hsound : ∀ p ∈ w, p.Sound)
    (hrest : ∃ p ∈ w, p.rest ≠ []) : malformedRest (spelled w) ≠ [] := by
  induction w with
  | nil => simp at hrest
  | cons p w ih =>
      obtain ⟨hp, hw⟩ := List.forall_mem_cons.mp hsound
      have hspelled : spelled (p :: w) = p.char ++ (p.rest ++ spelled w) :=
        List.append_assoc ..
      rw [hspelled, malformedRest_append hp.char]
      by_cases hnil : p.rest = []
      · rw [hnil, List.nil_append]
        refine ih hw ?_
        obtain ⟨q, hq, hne⟩ := hrest
        rcases List.mem_cons.mp hq with rfl | hq
        · exact absurd hnil hne
        · exact ⟨q, hq, hne⟩
      · have hnext : spelled w = [] ∨ utf8Len (spelled w) 0 ≠ 0 := by
          cases w with
          | nil => exact .inl rfl
          | cons q w =>
              have hchar := (hw q (by simp)).char
              have hlong : spelled (q :: w) = q.char ++ (q.rest ++ spelled w) :=
                List.append_assoc ..
              rw [hlong, hchar.utf8Len_append]
              exact .inr (List.length_pos_of_ne_nil hchar.1).ne'
        -- so the walk stops behind the character
        have hstop := utf8Len_malformed_append hnil hp.rest hnext
        have hall := @malformedRest_flatten [] (by simp) _ hstop
        rw [List.flatten_nil, List.nil_append] at hall
        rw [hall]
        simp [hnil]

/-- Two or three characters, as `Utf8Len` recognises them. -/
def IsShortWord (text : Bytes) : Prop :=
  ∃ chs : List Bytes, (chs.length = 2 ∨ chs.length = 3) ∧ (∀ c ∈ chs, IsCharacter c) ∧
    text = chs.flatten

theorem IsShortWord.malformedRest {text : Bytes} (h : IsShortWord text) :
    malformedRest text = [] := by
  obtain ⟨chs, -, hchs, rfl⟩ := h
  have hnone := @malformedRest_flatten chs hchs [] rfl
  rwa [List.append_nil] at hnone

/-- Without malformed bytes a span spells its characters. -/
theorem isShortWord_spelled {chrono : Sorter earlier} {cfg : DiscoveryConfig}
    {entries : List HistoryEntry} {w : List Piece} (hw : w ∈ pieceSpans chrono cfg entries)
    (hrest : ∀ p ∈ w, p.rest = []) : IsShortWord (spelled w) := by
  obtain ⟨run, -, hspan⟩ := List.mem_flatMap.mp hw
  refine ⟨w.map Piece.char, ?_, ?_, ?_⟩
  · obtain ⟨n, hn, hwindow⟩ := windows_of_mem_spans hspan
    rwa [List.length_map, length_of_mem_windows hwindow]
  · intro c hc
    obtain ⟨p, hp, rfl⟩ := List.mem_map.mp hc
    exact (sound_of_mem_pieceSpans hw hp).char
  · rw [spelled, List.flatMap_def]
    refine congrArg List.flatten (List.map_congr_left fun p hp => ?_)
    rw [Piece.text, hrest p hp, List.append_nil]

/-! ### The noise filter on malformed words -/

theorem isRepeat_malformed {text : Bytes} (h : malformedRest text ≠ []) :
    isRepeat text = false := by
  obtain ⟨chs, rest, rfl, hchs, hrest⟩ := exists_characters text
  rw [malformedRest_flatten hchs hrest] at h
  rw [isRepeat, charOffsets, scan_flatten hchs hrest]
  rcases chs with _ | ⟨a, _ | ⟨b, _ | ⟨c, more⟩⟩⟩
  · rfl
  · rfl
  · rfl
  · -- the last of the tokens is longer than a character
    obtain ⟨front, last, hfront⟩ : ∃ front last, b :: c :: more = front ++ [last] :=
      ⟨_, _, (List.dropLast_concat_getLast (by simp)).symm⟩
    rw [hfront] at hchs ⊢
    have hall : ∀ d ∈ (a :: front) ++ [last], IsCharacter d := hchs
    have htokens := tokenTexts_flatten hall hrest
    rw [List.cons_append] at htokens
    have hsecond : ((a :: (front ++ [last])).flatten ++ rest).take (0 + a.length) = a := by
      rw [Nat.zero_add, List.flatten_cons, List.append_assoc, List.take_left]
    have hlast : (last ++ rest == a) = false := by
      rw [beq_eq_false_iff_ne]
      rintro rfl
      have hlong := (hchs (last ++ rest) (by simp)).2
      rw [(hchs last (by simp)).utf8Len_append, List.length_append] at hlong
      exact h (List.length_eq_zero_iff.mp (by omega))
    rw [← hfront, cuts, cuts, cuts, hfront]
    simp only [List.map_cons]
    rw [htokens, hsecond]
    simp [hlast]

/-- Only white space keeps a malformed text from being a word. -/
theorem looksLikeRealCandidate_malformed {text : Bytes} (h : malformedRest text ≠ []) :
    looksLikeRealCandidate text = true ↔ text.any isSpace = false := by
  have hne : text ≠ [] := by
    rintro rfl
    exact h rfl
  have hascii : text.all (· < 0x80) = false := by
    have hstop := utf8Len_malformedRest text
    obtain ⟨b, rest, hrest⟩ := List.exists_cons_of_ne_nil h
    have hmem : b ∈ text := by
      rw [← characters_append_malformedRest text, hrest]
      simp
    -- an ASCII byte would have been a character
    refine List.all_eq_false.mpr ⟨b, hmem, fun hlt => ?_⟩
    rw [hrest, utf8Len_cons, needed_ascii (of_decide_eq_true hlt)] at hstop
    simp at hstop
  rw [looksLikeRealCandidate, if_neg hne, hascii, isRepeat_malformed h]
  cases text.any isSpace <;> decide

/-! ### What is discovered -/

/-- Discovered words are words, and only a commit of a single character is treated as one
(`single_char` of `entry_to_tokens`). -/
structure WordsAreWords (chrono : Sorter earlier) (ranking : Sorter ranksBefore) (hash : Visit)
    (history : HistoryStore) (cfg : DiscoveryConfig) : Prop where
  words : ∀ w ∈ discover chrono ranking hash history cfg, IsShortWord w.text
  single : ∀ e ∈ history.recentEntries cfg.scanMaxEntries,
    (charOffsets e.committedText).length = 1 → IsCharacter e.committedText

/-- A commit that counts as a single character is one, unless something malformed follows. -/
theorem single_iff (s : Bytes) : ((charOffsets s).length = 1 → IsCharacter s) ↔
    ((characters s).length = 1 → malformedRest s = []) := by
  rw [length_charOffsets]
  refine forall_congr' fun hone => ?_
  obtain ⟨c, hc⟩ := List.length_eq_one_iff.mp hone
  have hchar := isCharacter_of_mem_characters (s := s) (c := c) (by simp [hc])
  have hs := characters_append_malformedRest s
  rw [hc, List.flatten_singleton] at hs
  constructor
  · intro hwhole
    have hlen := hwhole.2
    rw [← hs, hchar.utf8Len_append, List.length_append] at hlen
    exact List.length_eq_zero_iff.mp (by omega)
  · intro hnone
    rw [hnone, List.append_nil] at hs
    rwa [← hs]

/-- **Discovered words are words** if and only if no scanned commit is one character with
malformed bytes behind it, and what malformed bytes are spelled with contains white space or
is too rare. -/
theorem words_are_words_iff (chrono : Sorter earlier) (ranking : Sorter ranksBefore)
    (hash : Visit) (history : HistoryStore) (cfg : DiscoveryConfig) :
    WordsAreWords chrono ranking hash history cfg ↔
      (∀ e ∈ history.recentEntries cfg.scanMaxEntries,
        (characters e.committedText).length = 1 → malformedRest e.committedText = []) ∧
      ∀ w ∈ pieceSpans chrono cfg (history.recentEntries cfg.scanMaxEntries),
        (∃ p ∈ w, p.rest ≠ []) → (spelled w).any isSpace = true ∨
          UInt32.ofNat (timesSpelled chrono cfg (history.recentEntries cfg.scanMaxEntries)
            (spelled w)) < cfg.minFrequency := by
  have hspelled : ∀ {text : Bytes},
      0 < timesSpelled chrono cfg (history.recentEntries cfg.scanMaxEntries) text ↔
        ∃ w ∈ pieceSpans chrono cfg (history.recentEntries cfg.scanMaxEntries),
          spelled w = text := by
    intro text
    rw [timesSpelled, List.count_pos_iff, List.mem_map]
  constructor
  · intro h
    refine ⟨fun e he => (single_iff _).mp (h.single e he), fun w hw hrest => ?_⟩
    have hmalformed := malformedRest_spelled (fun p => sound_of_mem_pieceSpans hw) hrest
    -- otherwise it would be reported
    by_contra hword
    rw [not_or, Bool.not_eq_true, UInt32.not_lt] at hword
    obtain ⟨word, hmem, htext⟩ := (exists_word_iff ranking hash history (spelled w)).mpr
      ⟨hspelled.mpr ⟨w, hw, rfl⟩, hword.2,
        (looksLikeRealCandidate_malformed hmalformed).mpr hword.1⟩
    have hshort := (h.words word hmem).malformedRest
    rw [htext] at hshort
    exact hmalformed hshort
  · rintro ⟨hsingle, hmalformed⟩
    refine ⟨fun word hword => ?_, fun e he => (single_iff _).mpr (hsingle e he)⟩
    obtain ⟨htimes, hoften, hreal⟩ := (exists_word_iff ranking hash history word.text).mp
      ⟨word, hword, rfl⟩
    obtain ⟨w, hw, htext⟩ := hspelled.mp htimes
    rw [← htext] at hoften hreal ⊢
    refine isShortWord_spelled hw fun p hp => ?_
    by_contra hrest
    rcases hmalformed w hw ⟨p, hp, hrest⟩ with hspace | hrare
    · have hnone := (looksLikeRealCandidate_malformed
        (malformedRest_spelled (fun p => sound_of_mem_pieceSpans hw) ⟨p, hp, hrest⟩)).mp hreal
      rw [hspace] at hnone
      cases hnone
    · exact UInt32.not_lt.mpr hoften hrare

/-- Three times 弹 and 窗 one after the other, with a stray byte behind 窗. -/
def strayBytes : HistoryStore where
  recentEntries _ := (List.range 3).flatMap fun i => [
    { tsUs := UInt64.ofNat (10000000 * i + 1000000), code := ascii "pw",
      committedText := Utf8.encodeText ['窗'] ++ [0xFF] },
    { tsUs := UInt64.ofNat (10000000 * i), code := ascii "xu",
      committedText := Utf8.encodeText ['弹'] }]
  count := 6

/-- The stray byte becomes part of a word, and the word has the codes of both. -/
theorem stray_byte_in_word :
    ¬ ∀ chrono ranking hash history cfg, WordsAreWords chrono ranking hash history cfg := by
  intro h
  have hmem : (⟨Utf8.encodeText ['弹', '窗'] ++ [0xFF], ascii "xupw", 3, 0, 20000000⟩ :
      DiscoveredWord) ∈ discover byTime byRank .stored strayBytes {} := by decide
  have hshort := ((h byTime byRank .stored strayBytes {}).words _ hmem).malformedRest
  revert hshort
  decide

end Dafeng.Learning
