import Mathlib.Data.List.MinMax
import Mathlib.Order.Bounds.Basic
import Dafeng.Learning.NewWord

/-!
# Dafeng.Learning.Discovery

What `Discover` reports of a history of well-formed texts. The statement speaks
of typed characters: a word is a sequence of two or three characters that occurs
often enough within the chained runs.
-/

namespace Dafeng.Learning

open Dafeng.Utf8

/-! ### Occurrences -/

/-- A character the user committed, with the code attributed to it. -/
structure Typed where
  char : Char
  code : Bytes
  ts : UInt64
  deriving DecidableEq, Repr

def Typed.token (t : Typed) : Token := ⟨encodeChar t.char, t.code, t.ts⟩

/-- The characters of an entry; only an entry of one character gives its code. -/
def typed (chars : HistoryEntry → List Char) (e : HistoryEntry) : List Typed :=
  (chars e).map fun c => ⟨c, if (chars e).length = 1 then e.code else [], e.tsUs⟩

/-- The chained runs of typed characters. -/
def typedRuns (chars : HistoryEntry → List Char) (chrono : Sorter earlier) (cfg : DiscoveryConfig)
    (entries : List HistoryEntry) : List (List Typed) :=
  (chains chrono cfg entries).map (·.flatMap (typed chars))

/-- Where a sequence of characters stands in the runs. -/
def occurrences (runs : List (List Typed)) (gram : List Char) : List (List Typed) :=
  runs.flatMap fun run => (windows gram.length run).filter fun w => w.map Typed.char = gram

/-- When an occurrence was typed: the time of its first character. -/
def startTime (w : List Typed) : UInt64 := (w.head?.map Typed.ts).getD 0

/-- The codes of the occurrences whose characters all have one. -/
def attributedCodes (ws : List (List Typed)) : List Bytes :=
  (ws.filter fun w => w.all fun t => t.code != []).map fun w => w.flatMap Typed.code

/-- A word that the runs support, and how it is reported. -/
structure IsWord (cfg : DiscoveryConfig) (runs : List (List Typed)) (gram : List Char)
    (w : DiscoveredWord) : Prop where
  span : gram.length = 2 ∧ cfg.includeBigrams ∨ gram.length = 3 ∧ cfg.includeTrigrams
  often : max 1 cfg.minFrequency.toNat ≤ (occurrences runs gram).length
  noSpace : ∀ c ∈ gram, c ≠ ' ' ∧ c ≠ '\t' ∧ c ≠ '\n' ∧ c ≠ '\r'
  notAscii : ∃ c ∈ gram, 128 ≤ c.toNat
  noRepeat : ∀ c, gram ≠ [c, c, c]
  text : w.text = encodeText gram
  frequency : w.frequency.toNat = (occurrences runs gram).length
  firstSeen : IsLeast {t | ∃ o ∈ occurrences runs gram, startTime o = t} w.firstSeenUs
  lastSeen : IsGreatest {t | ∃ o ∈ occurrences runs gram, startTime o = t} w.lastSeenUs
  code : w.code = ((attributedCodes (occurrences runs gram)).argmax List.length).getD []

/-! ### Tokens of well-formed text -/

theorem windowText_token (w : List Typed) :
    windowText (w.map Typed.token) = encodeText (w.map Typed.char) := by
  simp [windowText, encodeText, List.flatMap_map, Typed.token]

theorem entryToTokens_eq {chars : HistoryEntry → List Char} {e : HistoryEntry}
    (h : encodeText (chars e) = e.committedText) :
    entryToTokens e = (typed chars e).map Typed.token := by
  rw [entryToTokens, ← h, tokenTexts_encodeText, charOffsets_length, typed, List.map_map,
    List.map_map]
  refine List.map_congr_left fun c _ => ?_
  simp [Typed.token]

section Runs

variable {chars : HistoryEntry → List Char} {chrono : Sorter earlier} {cfg : DiscoveryConfig}
  {entries : List HistoryEntry}

theorem flatten_chains_perm : (chains chrono cfg entries).flatten.Perm entries := by
  unfold chains phrases
  split_ifs
  · rw [← List.flatMap_def]
    simp
  · rw [List.flatten_splitBy]
    exact chrono.perm entries

theorem mem_of_mem_chain {run : List HistoryEntry} (hrun : run ∈ chains chrono cfg entries)
    {e : HistoryEntry} (he : e ∈ run) : e ∈ entries :=
  flatten_chains_perm.mem_iff.mp (List.mem_flatten.mpr ⟨run, hrun, he⟩)

theorem runTokens_eq {run : List HistoryEntry}
    (h : ∀ e ∈ run, encodeText (chars e) = e.committedText) :
    runTokens run = (run.flatMap (typed chars)).map Typed.token := by
  rw [runTokens, List.map_flatMap]
  exact List.flatMap_congr fun e he => entryToTokens_eq (h e he)

/-- The characters of the runs are those of the entries. -/
theorem length_typedRuns : ((typedRuns chars chrono cfg entries).map List.length).sum =
    (entries.map fun e => (chars e).length).sum := by
  have hflat : (typedRuns chars chrono cfg entries).flatten =
      (chains chrono cfg entries).flatten.flatMap (typed chars) := by
    have hid : (chains chrono cfg entries).flatten = (chains chrono cfg entries).flatMap id :=
      List.flatMap_id.symm
    rw [typedRuns, ← List.flatMap_def, hid, List.flatMap_assoc]
    rfl
  rw [← List.length_flatten, hflat, List.length_flatMap]
  have hperm := (@flatten_chains_perm chrono cfg entries).map
    fun e => (typed chars e).length
  simpa [typed] using hperm.sum_nat

theorem length_occurrences_le (runs : List (List Typed)) (gram : List Char) :
    (occurrences runs gram).length ≤ (runs.map List.length).sum := by
  induction runs with
  | nil => simp [occurrences]
  | cons run runs ih =>
      have hfilter := List.length_filter_le (fun w => decide (w.map Typed.char = gram))
        (windows gram.length run)
      have hwindows := windows_length_le gram.length run
      simp only [occurrences, List.flatMap_cons, List.length_append, List.map_cons,
        List.sum_cons] at ih ⊢
      omega

end Runs

/-! ### The windows of one text -/

/-- Among the windows of one span, those with the text of `gram`. -/
theorem filter_windows (n : Nat) (run : List Typed) (gram : List Char) :
    (windows n (run.map Typed.token)).filter (fun w => windowText w = encodeText gram) =
      if gram.length = n then
        ((windows gram.length run).filter fun w => w.map Typed.char = gram).map (·.map Typed.token)
      else [] := by
  have htext : ∀ w : List Typed, windowText (w.map Typed.token) = encodeText gram ↔
      w.map Typed.char = gram := fun w => by
    rw [windowText_token]
    exact ⟨encodeText_injective, fun h => by rw [h]⟩
  rw [windows_map, List.filter_map]
  split_ifs with hn
  · rw [hn]
    refine congrArg _ (List.filter_congr fun w _ => ?_)
    simp only [Function.comp_apply, htext]
  · rw [List.map_eq_nil_iff, List.filter_eq_nil_iff]
    intro w hw
    have hlen := length_of_mem_windows hw
    simp only [Function.comp_apply, htext, decide_eq_true_eq]
    rintro rfl
    exact hn (by simpa using hlen)

/-- The windows that are counted under the text of `gram`. -/
theorem filter_grams (cfg : DiscoveryConfig) (runs : List (List Typed)) (gram : List Char) :
    (runs.flatMap fun run => grams cfg (run.map Typed.token)).filter
        (fun w => windowText w = encodeText gram) =
      if gram.length = 2 ∧ cfg.includeBigrams ∨ gram.length = 3 ∧ cfg.includeTrigrams then
        (occurrences runs gram).map (·.map Typed.token)
      else [] := by
  have hrun : ∀ run : List Typed, (grams cfg (run.map Typed.token)).filter
      (fun w => windowText w = encodeText gram) =
      if gram.length = 2 ∧ cfg.includeBigrams ∨ gram.length = 3 ∧ cfg.includeTrigrams then
        ((windows gram.length run).filter fun w => w.map Typed.char = gram).map (·.map Typed.token)
      else [] := fun run => by
    rw [grams, List.filter_append]
    cases cfg.includeBigrams <;> cases cfg.includeTrigrams <;>
      simp only [if_true, if_false, Bool.false_eq_true, List.filter_nil, filter_windows,
        List.append_nil, List.nil_append, and_true, and_false, or_false, false_or]
    by_cases htwo : gram.length = 2
    · simp [htwo]
    · simp [htwo]
  rw [List.filter_flatMap]
  simp only [hrun, occurrences]
  split_ifs
  · rw [List.map_flatMap]
  · simp

/-! ### The counter of one text -/

section Counters

variable (c : Counter) (ws : List (List Typed))

/-- What is counted for the occurrences `ws` of a text. -/
def counted : Counter := (ws.map (·.map Typed.token)).foldl Counter.add c

theorem counted_cons (w : List Typed) :
    counted c (w :: ws) = counted (c.add (w.map Typed.token)) ws := rfl

theorem counted_count : (counted c ws).count = c.count + UInt32.ofNat ws.length := by
  rw [counted, Counter.count_foldl_add, List.length_map]

theorem counted_firstUs_eq :
    (counted c ws).firstUs = ws.foldl (fun t w => min t (startTime w)) c.firstUs := by
  induction ws generalizing c with
  | nil => rfl
  | cons w ws ih =>
      rw [counted_cons, ih, List.foldl_cons]
      cases w <;> rfl

theorem counted_lastUs_eq :
    (counted c ws).lastUs = ws.foldl (fun t w => max t (startTime w)) c.lastUs := by
  induction ws generalizing c with
  | nil => rfl
  | cons w ws ih =>
      rw [counted_cons, ih, List.foldl_cons]
      cases w <;> rfl

theorem counted_firstUs :
    ((counted c ws).firstUs = c.firstUs ∨ ∃ w ∈ ws, startTime w = (counted c ws).firstUs) ∧
      (counted c ws).firstUs ≤ c.firstUs ∧ ∀ w ∈ ws, (counted c ws).firstUs ≤ startTime w := by
  rw [counted_firstUs_eq]
  refine foldl_select (r := (· ≤ ·)) startTime UInt64.le_refl
    (fun _ _ _ => UInt64.le_trans) ?_ ?_ ws c.firstUs
  · intro a b
    rw [UInt64.min_def]
    split_ifs
    · exact .inl rfl
    · exact .inr rfl
  · intro a b
    simp only [UInt64.le_iff_toNat_le, UInt64.toNat_min]
    omega

theorem counted_lastUs :
    ((counted c ws).lastUs = c.lastUs ∨ ∃ w ∈ ws, startTime w = (counted c ws).lastUs) ∧
      c.lastUs ≤ (counted c ws).lastUs ∧ ∀ w ∈ ws, startTime w ≤ (counted c ws).lastUs := by
  have hdef : ∀ a b : UInt64, max a b = if a ≤ b then b else a := fun _ _ => rfl
  rw [counted_lastUs_eq]
  refine foldl_select (r := (· ≥ ·)) startTime UInt64.le_refl
    (fun _ _ _ hab hbc => UInt64.le_trans hbc hab) ?_ ?_ ws c.lastUs
  · intro a b
    rw [hdef]
    split_ifs
    · exact .inr rfl
    · exact .inl rfl
  · intro a b
    rw [hdef]
    simp only [ge_iff_le, UInt64.le_iff_toNat_le]
    split_ifs <;> omega

end Counters

/-- The first and the last occurrence, counted from a fresh counter. -/
theorem counted_times {ws : List (List Typed)} (h : ws ≠ []) :
    IsLeast {t | ∃ o ∈ ws, startTime o = t} (counted {} ws).firstUs ∧
      IsGreatest {t | ∃ o ∈ ws, startTime o = t} (counted {} ws).lastUs := by
  obtain ⟨w, hw⟩ := List.exists_mem_of_ne_nil ws h
  obtain ⟨hfirst, -, hle⟩ := counted_firstUs {} ws
  obtain ⟨hlast, -, hge⟩ := counted_lastUs {} ws
  refine ⟨⟨?_, ?_⟩, ⟨?_, ?_⟩⟩
  · refine hfirst.elim (fun heq => ⟨w, hw, ?_⟩) id
    -- nothing is later than the initial value
    have hbound := hle w hw
    rw [heq] at hbound ⊢
    have := (startTime w).toNat_lt
    rw [UInt64.le_iff_toNat_le] at hbound
    exact UInt64.toNat_inj.mp (by simp at hbound ⊢; omega)
  · rintro t ⟨o, ho, rfl⟩
    exact hle o ho
  · refine hlast.elim (fun heq => ⟨w, hw, ?_⟩) id
    have hbound := hge w hw
    rw [heq] at hbound ⊢
    rw [UInt64.le_iff_toNat_le] at hbound
    exact UInt64.toNat_inj.mp (by simp at hbound ⊢; omega)
  · rintro t ⟨o, ho, rfl⟩
    exact hge o ho

theorem windowCode_token (w : List Typed) : windowCode (w.map Typed.token) =
    if w.all (fun t => t.code != []) then some (w.flatMap Typed.code) else none := by
  simp [windowCode, Typed.token, List.all_map, List.flatMap_map, Function.comp_def]

theorem counted_code_eq (c : Counter) (ws : List (List Typed)) :
    (counted c ws).code = (attributedCodes ws).foldl longer c.code := by
  induction ws generalizing c with
  | nil => rfl
  | cons w ws ih =>
      rw [counted_cons, ih, Counter.add]
      dsimp only
      rw [windowCode_token, attributedCodes, attributedCodes, List.filter_cons]
      by_cases hw : w.all (fun t => t.code != []) = true
      · rw [if_pos hw, if_pos hw]
        rfl
      · rw [if_neg hw, if_neg hw]

/-- The first of the longest codes stays. -/
theorem counted_code (ws : List (List Typed)) :
    (counted {} ws).code = ((attributedCodes ws).argmax List.length).getD [] := by
  rw [counted_code_eq]
  exact foldl_longer _

/-! ### The noise filter -/

theorem charOffsets_encodeText (cs : List Char) :
    charOffsets (encodeText cs) = (places 0 cs).map Prod.fst := by
  rw [charOffsets, scan_encodeText]

/-- Only three equal characters or more are a repeat. -/
theorem isRepeat_encodeText (gram : List Char) : isRepeat (encodeText gram) = true ↔
    3 ≤ gram.length ∧ ∃ c, ∀ d ∈ gram, d = c := by
  rw [isRepeat, charOffsets_encodeText, tokenTexts_encodeText]
  match gram with
  | [] => simp [places]
  | [a] => simp [places]
  | [a, b] => simp [places]
  | a :: b :: c :: rest =>
      have htake : (encodeText (a :: b :: c :: rest)).take (0 + (encodeChar a).length) =
          encodeChar a := by
        rw [Nat.zero_add, encodeText_cons, List.take_left]
      simp only [places, List.map_cons, List.tail_cons, htake]
      rw [← List.map_cons, ← List.map_cons, List.all_map, List.all_eq_true]
      constructor
      · intro hall
        refine ⟨by simp, a, fun d hd => ?_⟩
        rcases List.mem_cons.mp hd with rfl | hd
        · rfl
        · exact encodeChar_injective (beq_iff_eq.mp (hall d hd))
      · intro h d hd
        obtain ⟨-, x, hx⟩ := h
        obtain rfl := hx a (by simp)
        exact beq_iff_eq.mpr (by rw [hx d (List.mem_cons_of_mem _ hd)])

theorem isSpace_iff (b : UInt8) : isSpace b = true ↔
    b = UInt8.ofNat ' '.toNat ∨ b = UInt8.ofNat '\t'.toNat ∨ b = UInt8.ofNat '\n'.toNat ∨
      b = UInt8.ofNat '\r'.toNat := by
  simp [isSpace, or_assoc]

theorem looksLikeRealCandidate_encodeText (gram : List Char) :
    looksLikeRealCandidate (encodeText gram) = true ↔
      (∀ c ∈ gram, c ≠ ' ' ∧ c ≠ '\t' ∧ c ≠ '\n' ∧ c ≠ '\r') ∧ (∃ c ∈ gram, 128 ≤ c.toNat) ∧
        ¬ isRepeat (encodeText gram) = true := by
  have hspace : (encodeText gram).any isSpace = true ↔
      ' ' ∈ gram ∨ '\t' ∈ gram ∨ '\n' ∈ gram ∨ '\r' ∈ gram := by
    rw [List.any_eq_true, ← mem_encodeText_ascii (c := ' ') (by decide),
      ← mem_encodeText_ascii (c := '\t') (by decide),
      ← mem_encodeText_ascii (c := '\n') (by decide),
      ← mem_encodeText_ascii (c := '\r') (by decide)]
    simp only [isSpace_iff]
    constructor
    · rintro ⟨b, hb, rfl | rfl | rfl | rfl⟩
      exacts [.inl hb, .inr (.inl hb), .inr (.inr (.inl hb)), .inr (.inr (.inr hb))]
    · rintro (h | h | h | h) <;> exact ⟨_, h, by simp⟩
  have hascii : (encodeText gram).all (· < 0x80) = true ↔ ¬ ∃ c ∈ gram, 128 ≤ c.toNat := by
    have hlt : ∀ b : UInt8, b < 0x80 ↔ b.toNat < 128 := fun b => UInt8.lt_iff_toNat_lt
    simp only [List.all_eq_true, decide_eq_true_eq, hlt, forall_mem_encodeText_ascii]
    simp
  unfold looksLikeRealCandidate
  split_ifs with hnil hany hall
  · have hempty : gram = [] := @encodeText_injective gram [] hnil
    simp [hempty]
  · rw [hspace] at hany
    constructor
    · simp
    · intro h
      obtain ⟨hno, -⟩ := h
      rcases hany with h | h | h | h <;> simpa using hno _ h
  · rw [hascii] at hall
    simp only [hall, false_and, and_false]
  · rw [hspace] at hany
    rw [hascii, not_not] at hall
    have hno : ∀ c ∈ gram, c ≠ ' ' ∧ c ≠ '\t' ∧ c ≠ '\n' ∧ c ≠ '\r' := by
      intro c hc
      refine ⟨?_, ?_, ?_, ?_⟩ <;> rintro rfl <;> simp [hc] at hany
    exact ⟨fun h => ⟨hno, hall, by simpa using h⟩, fun h => by simpa using h.2.2⟩

/-- The counter of a text that is often enough and no noise gives a word. -/
theorem isWord_counted {cfg : DiscoveryConfig} {runs : List (List Typed)} {gram : List Char}
    (hspan : gram.length = 2 ∧ cfg.includeBigrams ∨ gram.length = 3 ∧ cfg.includeTrigrams)
    (hoften : max 1 cfg.minFrequency.toNat ≤ (occurrences runs gram).length)
    (hreal : looksLikeRealCandidate (encodeText gram) = true)
    (hcount : (counted {} (occurrences runs gram)).count.toNat = (occurrences runs gram).length) :
    IsWord cfg runs gram {
      text := encodeText gram
      code := (counted {} (occurrences runs gram)).code
      frequency := (counted {} (occurrences runs gram)).count
      firstSeenUs := (counted {} (occurrences runs gram)).firstUs
      lastSeenUs := (counted {} (occurrences runs gram)).lastUs } := by
  obtain ⟨hspace, hascii, hrepeat⟩ := (looksLikeRealCandidate_encodeText gram).mp hreal
  have hne : occurrences runs gram ≠ [] := List.ne_nil_of_length_pos (by omega)
  obtain ⟨hfirst, hlast⟩ := counted_times hne
  refine ⟨hspan, hoften, hspace, hascii, ?_, rfl, hcount, hfirst, hlast, counted_code _⟩
  rintro x rfl
  exact hrepeat ((isRepeat_encodeText _).mpr ⟨by simp, x, by simp⟩)

/-! ### The report -/

section Report

variable {chars : HistoryEntry → List Char} {chrono : Sorter earlier} {cfg : DiscoveryConfig}
  {entries : List HistoryEntry}

/-- Under the text of each sequence of characters stands what was counted for
its occurrences, and nothing else is in the table. -/
theorem lookup_countNgrams (h : ∀ e ∈ entries, encodeText (chars e) = e.committedText)
    {text : Bytes} {c : Counter} :
    (countNgrams chrono cfg entries).lookup text = some c ↔
      ∃ gram, (gram.length = 2 ∧ cfg.includeBigrams ∨ gram.length = 3 ∧ cfg.includeTrigrams) ∧
        occurrences (typedRuns chars chrono cfg entries) gram ≠ [] ∧ text = encodeText gram ∧
        c = counted {} (occurrences (typedRuns chars chrono cfg entries) gram) := by
  have hwindows : ((chains chrono cfg entries).flatMap fun run => grams cfg (runTokens run)) =
      (typedRuns chars chrono cfg entries).flatMap fun run => grams cfg (run.map Typed.token) := by
    rw [typedRuns, List.flatMap_map]
    refine List.flatMap_congr fun run hrun => ?_
    rw [runTokens_eq fun e he => h e (mem_of_mem_chain hrun he)]
  rw [countNgrams_eq, hwindows, emitAll, Table.lookup_tally]
  constructor
  · intro hlookup
    split_ifs at hlookup with hnil
    · simp at hlookup
    · obtain ⟨w, hw⟩ := List.exists_mem_of_ne_nil _ hnil
      obtain ⟨hmem, htext⟩ := List.mem_filter.mp hw
      obtain ⟨run, -, hgram⟩ := List.mem_flatMap.mp hmem
      obtain ⟨w', rfl⟩ : ∃ w' : List Typed, w = w'.map Typed.token := by
        rw [grams, windows_map, windows_map] at hgram
        rcases List.mem_append.mp hgram with hgram | hgram <;> split_ifs at hgram <;>
          first
          | obtain ⟨w', -, rfl⟩ := List.mem_map.mp hgram
            exact ⟨w', rfl⟩
          | simp at hgram
      obtain rfl : encodeText (w'.map Typed.char) = text := by
        rw [← windowText_token]
        exact of_decide_eq_true htext
      rw [filter_grams] at hnil hlookup
      split_ifs at hnil hlookup with hspan
      · refine ⟨_, hspan, by simpa using hnil, rfl, (Option.some.inj hlookup).symm⟩
      · simp at hnil
  · rintro ⟨gram, hspan, hne, rfl, rfl⟩
    rw [filter_grams, if_pos hspan, if_neg (by simpa using hne)]
    rfl

/-- With fewer than 2^32 characters no counter wraps. -/
theorem counted_toNat (hfew : (entries.map fun e => (chars e).length).sum < 2 ^ 32)
    (gram : List Char) :
    (counted {} (occurrences (typedRuns chars chrono cfg entries) gram)).count.toNat =
      (occurrences (typedRuns chars chrono cfg entries) gram).length := by
  have hle := length_occurrences_le (typedRuns chars chrono cfg entries) gram
  rw [length_typedRuns] at hle
  rw [counted_count, UInt32.zero_add, UInt32.toNat_ofNat', Nat.mod_eq_of_lt (by omega)]

variable (chars chrono cfg)

/-- No two words have one text, and the report is in order. -/
theorem discover_ordered (ranking : Sorter ranksBefore) (hash : Visit) (history : HistoryStore) :
    ((discover chrono ranking hash history cfg).map DiscoveredWord.text).Nodup ∧
      (discover chrono ranking hash history cfg).Pairwise fun a b =>
        b.frequency < a.frequency ∨ a.frequency = b.frequency ∧ a.text < b.text := by
  unfold discover
  dsimp only
  have hdistinct : ∀ counts : Table Bytes Counter,
      ((hash.visit counts.entries).filterMap fun kv => wordOf cfg kv.1 kv.2).Pairwise
        fun a b => a.text ≠ b.text := by
    intro counts
    have hkeys : ((hash.visit counts.entries).map Sigma.fst).Nodup :=
      (((hash.perm _).map _).nodup_iff).mpr counts.nodupKeys
    refine List.Pairwise.filterMap _ ?_ (List.pairwise_map.mp hkeys)
    intro x y hxy a ha b hb
    have htext : ∀ {kv : (_ : Bytes) × Counter} {w : DiscoveredWord},
        wordOf cfg kv.1 kv.2 = some w → w.text = kv.1 := by
      intro kv w hw
      obtain ⟨-, -, rfl⟩ := wordOf_eq_some.mp hw
      rfl
    rw [htext ha, htext hb]
    exact hxy
  set words := (hash.visit (countNgrams chrono cfg
    (history.recentEntries cfg.scanMaxEntries)).entries).filterMap fun kv => wordOf cfg kv.1 kv.2
  have hne : (ranking.sort words).Pairwise fun a b => a.text ≠ b.text :=
    (ranking.perm words).symm.pairwise (hdistinct _) fun hab => Ne.symm hab
  refine ⟨List.pairwise_map.mpr hne, (hne.and (ranking.sorted words)).imp fun {a b} hab => ?_⟩
  obtain ⟨htext, hrank⟩ := hab
  rcases ranksBefore_eq_false.mp hrank with hfreq | ⟨hfreq, hle⟩
  · exact .inl (UInt32.lt_iff_toNat_lt.mpr hfreq)
  · exact .inr ⟨UInt32.toNat_inj.mp hfreq, Std.lt_of_le_of_ne hle htext⟩

/-- The words of the report are what the counters of the sequences give. -/
theorem mem_discover_counted (ranking : Sorter ranksBefore) (hash : Visit) (history : HistoryStore)
    (hchars : ∀ e ∈ history.recentEntries cfg.scanMaxEntries,
      encodeText (chars e) = e.committedText)
    (w : DiscoveredWord) : w ∈ discover chrono ranking hash history cfg ↔
      ∃ gram, (gram.length = 2 ∧ cfg.includeBigrams ∨ gram.length = 3 ∧ cfg.includeTrigrams) ∧
        occurrences
          (typedRuns chars chrono cfg (history.recentEntries cfg.scanMaxEntries)) gram ≠ [] ∧
        wordOf cfg (encodeText gram) (counted {} (occurrences
          (typedRuns chars chrono cfg (history.recentEntries cfg.scanMaxEntries)) gram)) =
            some w := by
  rw [mem_discover_lookup]
  constructor
  · intro h
    obtain ⟨text, c, hlookup, hword⟩ := h
    obtain ⟨gram, hspan, hne, rfl, rfl⟩ := (lookup_countNgrams hchars).mp hlookup
    exact ⟨gram, hspan, hne, hword⟩
  · intro h
    obtain ⟨gram, hspan, hne, hword⟩ := h
    exact ⟨_, _, (lookup_countNgrams hchars).mpr ⟨gram, hspan, hne, rfl, rfl⟩, hword⟩

/-- A sequence that is counted, often enough and no noise is reported; the counter
has 32 bits. -/
theorem mem_discover_of_often (ranking : Sorter ranksBefore) (hash : Visit)
    (history : HistoryStore)
    (hchars : ∀ e ∈ history.recentEntries cfg.scanMaxEntries,
      encodeText (chars e) = e.committedText)
    {gram : List Char} {occ : List (List Typed)}
    (hocc : occ = occurrences
      (typedRuns chars chrono cfg (history.recentEntries cfg.scanMaxEntries)) gram)
    (hspan : gram.length = 2 ∧ cfg.includeBigrams ∨ gram.length = 3 ∧ cfg.includeTrigrams)
    (hne : occ ≠ []) (hoften : cfg.minFrequency.toNat ≤ occ.length % 2 ^ 32)
    (hreal : looksLikeRealCandidate (encodeText gram) = true) :
    ∃ w ∈ discover chrono ranking hash history cfg,
      w.text = encodeText gram ∧ w.frequency = UInt32.ofNat occ.length := by
  have hcount : (counted {} occ).count = UInt32.ofNat occ.length := by
    rw [counted_count, UInt32.zero_add]
  have henough : cfg.minFrequency ≤ (counted {} occ).count := by
    rw [hcount, UInt32.le_iff_toNat_le, UInt32.toNat_ofNat']
    exact hoften
  let w : DiscoveredWord := ⟨encodeText gram, (counted {} occ).code, (counted {} occ).count,
    (counted {} occ).firstUs, (counted {} occ).lastUs⟩
  have hword : wordOf cfg (encodeText gram) (counted {} occ) = some w :=
    wordOf_eq_some.mpr ⟨henough, hreal, rfl⟩
  exact ⟨w, (mem_discover_counted chars chrono cfg ranking hash history hchars w).mpr
    ⟨gram, hspan, hocc ▸ hne, hocc ▸ hword⟩, rfl, hcount⟩

/-- The words of the report are those that the runs support. -/
theorem mem_discover (ranking : Sorter ranksBefore) (hash : Visit) (history : HistoryStore)
    (hchars : ∀ e ∈ history.recentEntries cfg.scanMaxEntries,
      encodeText (chars e) = e.committedText)
    (hfew :
      ((history.recentEntries cfg.scanMaxEntries).map fun e => (chars e).length).sum < 2 ^ 32)
    (w : DiscoveredWord) : w ∈ discover chrono ranking hash history cfg ↔ ∃ gram, IsWord cfg
      (typedRuns chars chrono cfg (history.recentEntries cfg.scanMaxEntries)) gram w := by
  rw [mem_discover_counted chars chrono cfg ranking hash history hchars]
  set runs := typedRuns chars chrono cfg (history.recentEntries cfg.scanMaxEntries)
  have hcount : ∀ gram, (counted {} (occurrences runs gram)).count.toNat =
      (occurrences runs gram).length := counted_toNat hfew
  constructor
  · intro h
    obtain ⟨gram, hspan, hne, hword⟩ := h
    obtain ⟨hoften, hreal, rfl⟩ := wordOf_eq_some.mp hword
    have hpos : 0 < (occurrences runs gram).length := List.length_pos_of_ne_nil hne
    rw [UInt32.le_iff_toNat_le, hcount] at hoften
    exact ⟨gram, isWord_counted hspan (by omega) hreal (hcount gram)⟩
  · intro h
    obtain ⟨gram, hw⟩ := h
    have hoften := hw.often
    have hne : occurrences runs gram ≠ [] := by
      intro hnil
      rw [hnil] at hoften
      simp at hoften
    refine ⟨gram, hw.span, hne, ?_⟩
    have hreal : looksLikeRealCandidate (encodeText gram) = true := by
      refine (looksLikeRealCandidate_encodeText gram).mpr ⟨hw.noSpace, hw.notAscii, fun hrep => ?_⟩
      obtain ⟨hthree, x, hx⟩ := (isRepeat_encodeText gram).mp hrep
      have hlen : gram.length = 3 := by
        rcases hw.span with ⟨h, -⟩ | ⟨h, -⟩ <;> omega
      have hall : gram = List.replicate 3 x := List.eq_replicate_iff.mpr ⟨hlen, hx⟩
      exact hw.noRepeat x hall
    obtain ⟨hfirst, hlast⟩ := counted_times hne
    have henough : cfg.minFrequency ≤ (counted {} (occurrences runs gram)).count := by
      rw [UInt32.le_iff_toNat_le, hcount]
      omega
    refine wordOf_eq_some.mpr ⟨henough, hreal, ?_⟩
    obtain ⟨text, code, frequency, firstSeenUs, lastSeenUs⟩ := w
    simp only [DiscoveredWord.mk.injEq]
    refine ⟨hw.text, ?_, ?_, ?_, ?_⟩
    · exact hw.code.trans (counted_code _).symm
    · exact UInt32.toNat_inj.mp (hw.frequency.trans (hcount gram).symm)
    · exact UInt64.le_antisymm (hw.firstSeen.2 hfirst.1) (hfirst.2 hw.firstSeen.1)
    · exact UInt64.le_antisymm (hlast.2 hw.lastSeen.1) (hw.lastSeen.2 hlast.1)

/-- **What `Discover` reports.** For well-formed texts of fewer than 2^32
characters in all, the report has each word once, in order, and its words are
just those that the runs support. -/
theorem discover_words (ranking : Sorter ranksBefore) (hash : Visit) (history : HistoryStore)
    (hchars : ∀ e ∈ history.recentEntries cfg.scanMaxEntries,
      encodeText (chars e) = e.committedText)
    (hfew :
      ((history.recentEntries cfg.scanMaxEntries).map fun e => (chars e).length).sum < 2 ^ 32) :
    ((discover chrono ranking hash history cfg).map DiscoveredWord.text).Nodup ∧
    ((discover chrono ranking hash history cfg).Pairwise fun a b =>
      b.frequency < a.frequency ∨ a.frequency = b.frequency ∧ a.text < b.text) ∧
    ∀ w, w ∈ discover chrono ranking hash history cfg ↔ ∃ gram, IsWord cfg
      (typedRuns chars chrono cfg (history.recentEntries cfg.scanMaxEntries)) gram w := by
  obtain ⟨hnodup, hsorted⟩ := discover_ordered chrono cfg ranking hash history
  exact ⟨hnodup, hsorted, mem_discover chars chrono cfg ranking hash history hchars hfew⟩

end Report

/-- Two characters that were typed one by one, twice. -/
def splitTyped : HistoryStore where
  recentEntries _ := [
    { id := 4, tsUs := 1300000, code := ascii "pw", committedText := encodeText ['窗'] },
    { id := 3, tsUs := 1200000, code := ascii "xu", committedText := encodeText ['弹'] },
    { id := 2, tsUs := 1100000, code := ascii "pw", committedText := encodeText ['窗'] },
    { id := 1, tsUs := 1000000, code := ascii "xu", committedText := encodeText ['弹'] }]
  count := 4

/-- Their word is reported with the code of both. -/
theorem discover_words_splitTyped : ∃ gram, IsWord { minFrequency := 2 }
    (typedRuns (fun e => if e.code = ascii "xu" then ['弹'] else ['窗']) byTime
      { minFrequency := 2 } (splitTyped.recentEntries 5000)) gram
    ⟨encodeText ['弹', '窗'], ascii "xupw", 2, 1000000, 1200000⟩ := by
  have hwords := discover_words (fun e => if e.code = ascii "xu" then ['弹'] else ['窗']) byTime
    { minFrequency := 2 } byRank .stored splitTyped (by decide) (by decide)
  exact (hwords.2.2 _).mp (by decide)

end Dafeng.Learning
