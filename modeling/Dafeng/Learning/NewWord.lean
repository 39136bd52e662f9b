import Dafeng.Learning.Characters
import Dafeng.Learning.History
import Dafeng.Library.Windows

/-!
# Dafeng.Learning.NewWord

The discovery of new words (`src/daemon/new_word.cc`): the runs of tokens, the
table of counters, and the filter and the order of what is reported.
-/

namespace Dafeng.Learning

/-- `DiscoveredWord`. -/
structure DiscoveredWord where
  text : Bytes
  code : Bytes
  frequency : UInt32 := 0
  firstSeenUs : UInt64 := 0
  lastSeenUs : UInt64 := 0
  deriving DecidableEq, Repr

/-- `DiscoveryConfig`. -/
structure DiscoveryConfig where
  minFrequency : UInt32 := 3
  scanMaxEntries : UInt64 := 5000
  includeBigrams : Bool := true
  includeTrigrams : Bool := true
  chainMaxGapUs : UInt64 := 2000000
  deriving DecidableEq, Repr

/-- The bytes of a space, a tab and the two line ends. -/
def isSpace (c : UInt8) : Bool := c == 0x20 || c == 0x09 || c == 0x0A || c == 0x0D

/-- Whether a text is the same character three times or more. -/
def isRepeat (text : Bytes) : Bool :=
  match charOffsets text with
  | _ :: second :: _ :: _ => (tokenTexts text).tail.all (· == text.take second)
  | _ => false

/-- `LooksLikeRealCandidate`. -/
def looksLikeRealCandidate (text : Bytes) : Bool :=
  if text = [] then false
  else if text.any isSpace then false
  else if text.all (· < 0x80) then false
  else !isRepeat text

/-- `Token`: a character and the code it was committed with. -/
structure Token where
  ch : Bytes
  code : Bytes
  ts : UInt64
  deriving DecidableEq, Repr

/-- `entry_to_tokens`. A code is attributed to a single character only. -/
def entryToTokens (e : HistoryEntry) : List Token :=
  let singleChar := (charOffsets e.committedText).length == 1
  (tokenTexts e.committedText).map fun ch =>
    { ch, code := if singleChar then e.code else [], ts := e.tsUs }

/-- `Counter`. -/
structure Counter where
  count : UInt32 := 0
  firstUs : UInt64 := 0xFFFFFFFFFFFFFFFF
  lastUs : UInt64 := 0
  code : Bytes := []
  deriving DecidableEq, Repr

/-- The text of a window of tokens. -/
def windowText (w : List Token) : Bytes := w.flatMap Token.ch

/-- The code of a window, where every token has one. -/
def windowCode (w : List Token) : Option Bytes :=
  if w.all fun t => t.code != [] then some (w.flatMap Token.code) else none

/-- Count a window: its time is that of its first token, and of the codes the
longest stays. -/
def Counter.add (c : Counter) (w : List Token) : Counter :=
  let ts0 := (w.head?.map Token.ts).getD 0
  { count := c.count + 1
    firstUs := min c.firstUs ts0
    lastUs := max c.lastUs ts0
    code :=
      match windowCode w with
      | none => c.code
      | some code => if c.code.length < code.length then code else c.code }

theorem Counter.count_foldl_add (c : Counter) (ws : List (List Token)) :
    (ws.foldl Counter.add c).count = c.count + UInt32.ofNat ws.length := by
  induction ws generalizing c with
  | nil => simp
  | cons w ws ih =>
      rw [List.foldl_cons, ih, List.length_cons, Nat.add_comm ws.length, UInt32.ofNat_add,
        ← UInt32.add_assoc]
      rfl

/-- `emit`. -/
def emit (counts : Table Bytes Counter) (w : List Token) : Table Bytes Counter :=
  counts.modify (windowText w) {} (·.add w)

/-- The two loops of `emit_token_ngrams` over the windows of a run. -/
def emitTokenNgrams (cfg : DiscoveryConfig) (counts : Table Bytes Counter) (toks : List Token) :
    Table Bytes Counter :=
  let counts :=
    if cfg.includeBigrams then
      (List.range (toks.length - 1)).foldl
        (fun counts i => emit counts ((toks.drop i).take 2)) counts
    else counts
  if cfg.includeTrigrams then
    (List.range (toks.length - 2)).foldl
      (fun counts i => emit counts ((toks.drop i).take 3)) counts
  else counts

/-- The variables of the loop that chains the entries. -/
structure Chaining where
  run : List Token := []
  prevTs : UInt64 := 0
  counts : Table Bytes Counter := ∅

/-- An entry of the chaining loop. -/
def Chaining.entry (cfg : DiscoveryConfig) (st : Chaining) (e : HistoryEntry) : Chaining :=
  let st :=
    if st.run ≠ [] ∧ cfg.chainMaxGapUs < e.tsUs - st.prevTs then
      { st with run := [], counts := emitTokenNgrams cfg st.counts st.run }
    else st
  { st with run := st.run ++ entryToTokens e, prevTs := e.tsUs }

/-- The counters of the n-grams in the entries. -/
def countNgrams (chrono : Sorter earlier) (cfg : DiscoveryConfig) (entries : List HistoryEntry) :
    Table Bytes Counter :=
  if cfg.chainMaxGapUs = 0 then
    entries.foldl (fun counts e => emitTokenNgrams cfg counts (entryToTokens e)) ∅
  else
    let st := (chrono.sort entries).foldl (Chaining.entry cfg) {}
    if st.run ≠ [] then emitTokenNgrams cfg st.counts st.run else st.counts

/-- The word that is reported for a counter. -/
def wordOf (cfg : DiscoveryConfig) (text : Bytes) (c : Counter) : Option DiscoveredWord :=
  if c.count < cfg.minFrequency then none
  else if !looksLikeRealCandidate text then none
  else some {
    text
    code := c.code
    frequency := c.count
    firstSeenUs := c.firstUs
    lastSeenUs := c.lastUs }

theorem wordOf_eq_some {cfg : DiscoveryConfig} {text : Bytes} {c : Counter} {w : DiscoveredWord} :
    wordOf cfg text c = some w ↔ cfg.minFrequency ≤ c.count ∧ looksLikeRealCandidate text = true ∧
      w = ⟨text, c.code, c.count, c.firstUs, c.lastUs⟩ := by
  unfold wordOf
  split_ifs with hrare hreal
  · simp [UInt32.not_le.mpr hrare]
  · simp [show looksLikeRealCandidate text = false by simpa using hreal]
  · simp [UInt32.not_lt.mp hrare, show looksLikeRealCandidate text = true by simpa using hreal,
      eq_comm]

/-- The order of the report: frequency first, then the text. -/
def ranksBefore (a b : DiscoveredWord) : Bool :=
  if a.frequency ≠ b.frequency then b.frequency < a.frequency else a.text < b.text

theorem ranksBefore_eq_false {a b : DiscoveredWord} : ranksBefore b a = false ↔
    b.frequency.toNat < a.frequency.toNat ∨
      a.frequency.toNat = b.frequency.toNat ∧ ¬ b.text < a.text := by
  unfold ranksBefore
  split_ifs with h
  · have hne : b.frequency.toNat ≠ a.frequency.toNat := fun heq => h (UInt32.toNat_inj.mp heq)
    rw [decide_eq_false_iff_not, UInt32.lt_iff_toNat_lt]
    omega
  · rw [decide_eq_false_iff_not, not_not.mp h]
    simp

/-- The stable sort by this order. -/
def byRank : Sorter ranksBefore :=
  .insertion _
    (fun a b => by
      rw [ranksBefore_eq_false, ranksBefore_eq_false]
      rcases Nat.lt_trichotomy a.frequency.toNat b.frequency.toNat with h | h | h
      · exact .inr (.inl h)
      · by_cases hlt : b.text < a.text
        · exact .inr (.inr ⟨h.symm, List.lt_asymm hlt⟩)
        · exact .inl (.inr ⟨h, hlt⟩)
      · exact .inl (.inl h))
    fun a b c => by
      rw [ranksBefore_eq_false, ranksBefore_eq_false, ranksBefore_eq_false]
      rintro (hab | ⟨hab, htext⟩) (hbc | ⟨hbc, htext'⟩)
      · exact .inl (by omega)
      · exact .inl (by omega)
      · exact .inl (by omega)
      · have hle := Std.le_trans (Std.not_lt.mp htext) (Std.not_lt.mp htext')
        exact .inr ⟨by omega, Std.not_lt.mpr hle⟩

/-- `FrequencyDiscovery::Discover`. -/
def discover (chrono : Sorter earlier) (ranking : Sorter ranksBefore) (hash : Visit)
    (history : HistoryStore) (cfg : DiscoveryConfig) : List DiscoveredWord :=
  let entries := history.recentEntries cfg.scanMaxEntries
  let counts := countNgrams chrono cfg entries
  ranking.sort ((hash.visit counts.entries).filterMap fun kv => wordOf cfg kv.1 kv.2)

/-! ### What is counted -/

/-- The runs of entries that are chained. -/
def chains (chrono : Sorter earlier) (cfg : DiscoveryConfig) (entries : List HistoryEntry) :
    List (List HistoryEntry) :=
  if cfg.chainMaxGapUs = 0 then entries.map fun e => [e]
  else phrases cfg.chainMaxGapUs (chrono.sort entries)

/-- The windows that are counted in a run. -/
def grams (cfg : DiscoveryConfig) (toks : List Token) : List (List Token) :=
  (if cfg.includeBigrams then windows 2 toks else []) ++
    (if cfg.includeTrigrams then windows 3 toks else [])

/-- Two or three things in a row, as the configuration has it. -/
def spans {α : Type} (cfg : DiscoveryConfig) (xs : List α) : List (List α) :=
  (if cfg.includeBigrams then windows 2 xs else []) ++
    (if cfg.includeTrigrams then windows 3 xs else [])

theorem grams_eq_spans (cfg : DiscoveryConfig) (toks : List Token) :
    grams cfg toks = spans cfg toks := rfl

theorem spans_map {α β : Type} (cfg : DiscoveryConfig) (f : α → β) (xs : List α) :
    spans cfg (xs.map f) = (spans cfg xs).map (List.map f) := by
  rw [spans, spans, windows_map, windows_map]
  split_ifs <;> simp

theorem windows_of_mem_spans {α : Type} {cfg : DiscoveryConfig} {xs w : List α}
    (h : w ∈ spans cfg xs) : ∃ n, (n = 2 ∨ n = 3) ∧ w ∈ windows n xs := by
  rcases List.mem_append.mp h with htwo | hthree
  · split_ifs at htwo
    · exact ⟨2, .inl rfl, htwo⟩
    · cases htwo
  · split_ifs at hthree
    · exact ⟨3, .inr rfl, hthree⟩
    · cases hthree

/-- Count windows one after another. -/
def emitAll (counts : Table Bytes Counter) (ws : List (List Token)) : Table Bytes Counter :=
  Table.tally windowText {} Counter.add counts ws

theorem emitTokenNgrams_eq (cfg : DiscoveryConfig) (counts : Table Bytes Counter)
    (toks : List Token) : emitTokenNgrams cfg counts toks = emitAll counts (grams cfg toks) := by
  have hloop : ∀ (n : Nat) (counts : Table Bytes Counter),
      (List.range (toks.length - n)).foldl
        (fun counts i => emit counts ((toks.drop i).take (n + 1))) counts =
      emitAll counts (windows (n + 1) toks) := fun n counts => by
    rw [windows_eq_map_range, emitAll, Table.tally, List.foldl_map]
    rfl
  rw [emitTokenNgrams, grams, emitAll, Table.tally_append]
  cases cfg.includeBigrams <;> cases cfg.includeTrigrams <;>
    simp only [if_true, if_false, Bool.false_eq_true, hloop] <;> rfl

theorem emitAll_append (counts : Table Bytes Counter) (ws ws' : List (List Token)) :
    emitAll counts (ws ++ ws') = emitAll (emitAll counts ws) ws' :=
  Table.tally_append counts ws ws'

/-- The tokens of the entries of a run. -/
def runTokens (run : List HistoryEntry) : List Token := run.flatMap entryToTokens

theorem emitAll_grams_nil (cfg : DiscoveryConfig) (counts : Table Bytes Counter) :
    emitAll counts (grams cfg []) = counts := by
  cases h₂ : cfg.includeBigrams <;> cases h₃ : cfg.includeTrigrams <;>
    simp [grams, h₂, h₃, windows, emitAll, Table.tally]

/-- What the chaining loop ends with: the run it collects is counted too. -/
def Chaining.flush (cfg : DiscoveryConfig) (st : Chaining) : Table Bytes Counter :=
  emitAll st.counts (grams cfg st.run)

namespace Chaining

variable {cfg : DiscoveryConfig} {counts : Table Bytes Counter} {st : Chaining}
  {closed : List (List HistoryEntry)} {cur : List HistoryEntry} {e : HistoryEntry}

/-- A loop that counted the runs `closed` and collects the run `cur`. -/
def Walked (cfg : DiscoveryConfig) (counts : Table Bytes Counter) (st : Chaining)
    (closed : List (List HistoryEntry)) (cur : List HistoryEntry) : Prop :=
  st.run = runTokens cur ∧
    st.counts = emitAll counts (closed.flatMap fun run => grams cfg (runTokens run)) ∧
    ∀ hne : cur ≠ [], st.prevTs = (cur.getLast hne).tsUs

theorem Walked.flush (h : Walked cfg counts st closed cur) : st.flush cfg =
    emitAll counts ((closed ++ [cur]).flatMap fun run => grams cfg (runTokens run)) := by
  rw [List.flatMap_append, List.flatMap_singleton, emitAll_append, ← h.2.1, ← h.1]
  rfl

theorem Walked.near (h : Walked cfg counts st closed cur)
    (hgap : ¬ cfg.chainMaxGapUs < e.tsUs - st.prevTs) :
    Walked cfg counts (Chaining.entry cfg st e) closed (cur ++ [e]) := by
  rw [Chaining.entry, if_neg fun hcut => hgap hcut.2]
  refine ⟨?_, h.2.1, fun _ => by simp⟩
  rw [h.1, runTokens, runTokens, List.flatMap_append, List.flatMap_singleton]

theorem Walked.far (h : Walked cfg counts st closed cur)
    (hgap : cfg.chainMaxGapUs < e.tsUs - st.prevTs) :
    Walked cfg counts (Chaining.entry cfg st e) (closed ++ [cur]) [e] := by
  -- an empty run is counted or not, to the same effect
  have hentry : Chaining.entry cfg st e =
      { run := entryToTokens e, prevTs := e.tsUs, counts := st.flush cfg } := by
    rw [Chaining.entry]
    split_ifs with hcut
    · rw [emitTokenNgrams_eq]
      rfl
    · have hnil : st.run = [] := by
        by_contra hrunne
        exact hcut ⟨hrunne, hgap⟩
      rw [Chaining.flush, hnil, emitAll_grams_nil]
      rfl
  rw [hentry, h.flush]
  exact ⟨by simp [runTokens], rfl, fun _ => rfl⟩

/-- The chaining loop over the entries from the first one on. -/
theorem entries_flush {es : List HistoryEntry}
    (hsorted : (e :: es).Pairwise fun a b => a.tsUs.toNat ≤ b.tsUs.toNat) :
    ((e :: es).foldl (Chaining.entry cfg) {}).flush cfg = emitAll ∅
      ((phrases cfg.chainMaxGapUs (e :: es)).flatMap fun run => grams cfg (runTokens run)) := by
  have hfirst : Walked cfg ∅ (Chaining.entry cfg {} e) [] [e] := by
    rw [Chaining.entry, if_neg (by simp)]
    exact ⟨by simp [runTokens], rfl, fun _ => rfl⟩
  have hnear : ∀ (st : Chaining) closed cur (hne : cur ≠ []) (e : HistoryEntry),
      Walked cfg ∅ st closed cur → (cur.getLast hne).tsUs.toNat ≤ e.tsUs.toNat →
      close cfg.chainMaxGapUs (cur.getLast hne) e = true →
      Walked cfg ∅ (Chaining.entry cfg st e) closed (cur ++ [e]) := by
    intro st closed cur hne e h hle hclose
    refine h.near ?_
    rw [h.2.2 hne, gap_lt_sub_iff hle, hclose]
    exact Bool.noConfusion
  have hfar : ∀ (st : Chaining) closed cur (hne : cur ≠ []) (e : HistoryEntry),
      Walked cfg ∅ st closed cur → (cur.getLast hne).tsUs.toNat ≤ e.tsUs.toNat →
      close cfg.chainMaxGapUs (cur.getLast hne) e = false →
      Walked cfg ∅ (Chaining.entry cfg st e) (closed ++ [cur]) [e] := by
    intro st closed cur hne e h hle hclose
    refine h.far ?_
    rw [h.2.2 hne, gap_lt_sub_iff hle, hclose]
  obtain ⟨closed, last, heq, hwalked⟩ := foldl_splitBy (close cfg.chainMaxGapUs)
    (Chaining.entry cfg) hnear hfar hfirst (by simp) (List.isChain_singleton e) es hsorted
  rw [List.nil_append] at heq
  rw [List.foldl_cons, hwalked.flush, heq]
  rfl

end Chaining

/-- The windows of the chained runs are counted, run after run. -/
theorem countNgrams_eq (chrono : Sorter earlier) (cfg : DiscoveryConfig)
    (entries : List HistoryEntry) : countNgrams chrono cfg entries =
      emitAll ∅ ((chains chrono cfg entries).flatMap fun run => grams cfg (runTokens run)) := by
  unfold countNgrams chains
  split_ifs with hgap
  · have hfold : ∀ counts, entries.foldl
        (fun counts e => emitTokenNgrams cfg counts (entryToTokens e)) counts =
        emitAll counts
          ((entries.map fun e => [e]).flatMap fun run => grams cfg (runTokens run)) := by
      intro counts
      induction entries generalizing counts with
      | nil => rfl
      | cons e es ih =>
          rw [List.foldl_cons, ih, emitTokenNgrams_eq, List.map_cons, List.flatMap_cons,
            emitAll_append]
          simp [runTokens]
    exact hfold ∅
  · have hflush : ((chrono.sort entries).foldl (Chaining.entry cfg) {}).flush cfg = emitAll ∅
        ((phrases cfg.chainMaxGapUs (chrono.sort entries)).flatMap
          fun run => grams cfg (runTokens run)) := by
      have hsorted := (chrono.sorted entries).imp fun h => earlier_eq_false.mp h
      cases hes : chrono.sort entries with
      | nil => exact emitAll_grams_nil cfg ∅
      | cons e es =>
          rw [hes] at hsorted
          exact Chaining.entries_flush hsorted
    rw [← hflush, Chaining.flush]
    dsimp only
    split_ifs with hrun
    · rw [emitTokenNgrams_eq]
    · rw [not_not.mp hrun, emitAll_grams_nil]

/-- The reported words are those of the counters in the table. -/
theorem mem_discover_lookup {chrono : Sorter earlier} {ranking : Sorter ranksBefore} {hash : Visit}
    {history : HistoryStore} {cfg : DiscoveryConfig} {w : DiscoveredWord} :
    w ∈ discover chrono ranking hash history cfg ↔ ∃ text c,
      (countNgrams chrono cfg (history.recentEntries cfg.scanMaxEntries)).lookup text = some c ∧
        wordOf cfg text c = some w := by
  unfold discover
  dsimp only
  simp only [ranking.mem_sort, List.mem_filterMap, (hash.perm _).mem_iff, Sigma.exists,
    ← AList.mem_lookup_iff, Option.mem_def]

end Dafeng.Learning
