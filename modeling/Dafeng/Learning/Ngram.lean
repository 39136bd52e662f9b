import Dafeng.Learning.Characters
import Dafeng.Learning.History
import Dafeng.Library.Windows

/-!
# Dafeng.Learning.Ngram

The table of bigram counts (`src/daemon/ngram.cc`) and the walk that fills it
from the history.
-/

namespace Dafeng.Learning

/-- `NgramTable`: for a character, its followers with their counts. -/
abbrev NgramTable := Table Bytes (Table Bytes UInt32)

namespace NgramTable

/-- `IncrementBigram`. -/
def incrementBigram (table : NgramTable) (a b : Bytes) : NgramTable :=
  if a = [] ∨ b = [] then table
  else table.modify a ∅ fun inner => inner.modify b 0 (· + 1)

/-- `BigramCount`. -/
def bigramCount (table : NgramTable) (a b : Bytes) : UInt32 :=
  match table.lookup a with
  | none => 0
  | some inner => (inner.lookup b).getD 0

/-- `Size`. -/
def size (table : NgramTable) : Nat := (table.entries.map fun outer => outer.2.entries.length).sum

end NgramTable

/-! ### The walk -/

/-- The gap between two commits up to which they belong to one phrase. -/
def kChainGapUs : UInt64 := 2000000

/-- The variables of `UpdateBigramsFromHistory`. -/
structure Walk where
  table : NgramTable
  increments : UInt64 := 0
  prevChar : Bytes := []
  prevTs : UInt64 := 0

namespace Walk

/-- A character of an entry. -/
def character (w : Walk) (ch : Bytes) : Walk :=
  if w.prevChar ≠ [] then
    { w with
      table := w.table.incrementBigram w.prevChar ch
      increments := w.increments + 1
      prevChar := ch }
  else { w with prevChar := ch }

/-- An entry. -/
def entry (w : Walk) (e : HistoryEntry) : Walk :=
  let w := if w.prevChar ≠ [] ∧ kChainGapUs < e.tsUs - w.prevTs then { w with prevChar := [] }
    else w
  { (characters e.committedText).foldl character w with prevTs := e.tsUs }

end Walk

/-- `UpdateBigramsFromHistory`: the table, and the number of increments. -/
def updateBigramsFromHistory (chrono : Sorter earlier) (history : HistoryStore)
    (table : NgramTable) (maxEntries : UInt64) : NgramTable × UInt64 :=
  let entries := chrono.sort (history.recentEntries maxEntries)
  let w := entries.foldl Walk.entry { table }
  (w.table, w.increments)

/-! ### Counting pairs -/

namespace NgramTable

/-- Count pairs one after another. -/
def addBigrams (table : NgramTable) (pairs : List (Bytes × Bytes)) : NgramTable :=
  pairs.foldl (fun table p => table.incrementBigram p.1 p.2) table

theorem addBigrams_append (table : NgramTable) (ps qs : List (Bytes × Bytes)) :
    table.addBigrams (ps ++ qs) = (table.addBigrams ps).addBigrams qs := by
  simp [addBigrams]

theorem bigramCount_incrementBigram (table : NgramTable) {a b : Bytes} (ha : a ≠ []) (hb : b ≠ [])
    (c d : Bytes) : (table.incrementBigram a b).bigramCount c d =
      if (a, b) = (c, d) then table.bigramCount c d + 1 else table.bigramCount c d := by
  rw [incrementBigram, if_neg (by simp [ha, hb]), bigramCount, Table.lookup_modify]
  by_cases hac : c = a
  · subst hac
    rw [if_pos rfl]
    dsimp only
    rw [Table.lookup_modify]
    by_cases hbd : d = b
    · subst hbd
      rw [if_pos rfl, if_pos rfl, bigramCount]
      cases table.lookup c <;> simp
    · rw [if_neg hbd, if_neg (by simpa using Ne.symm hbd), bigramCount]
      cases table.lookup c <;> simp
  · rw [if_neg hac, if_neg (by simp [Ne.symm hac])]
    rfl

/-- Every pair is counted as often as it stands in the list. -/
theorem bigramCount_addBigrams (table : NgramTable) {pairs : List (Bytes × Bytes)}
    (h : ∀ p ∈ pairs, p.1 ≠ [] ∧ p.2 ≠ []) (a b : Bytes) :
    (table.addBigrams pairs).bigramCount a b =
      table.bigramCount a b + UInt32.ofNat (pairs.count (a, b)) := by
  induction pairs generalizing table with
  | nil => simp [addBigrams]
  | cons p ps ih =>
      obtain ⟨hfst, hsnd⟩ := h p (by simp)
      have hstep : table.addBigrams (p :: ps) = (table.incrementBigram p.1 p.2).addBigrams ps := rfl
      rw [hstep, ih _ fun q hq => h q (by simp [hq]), bigramCount_incrementBigram _ hfst hsnd,
        List.count_cons]
      by_cases hp : p = (a, b)
      · rw [if_pos hp, if_pos (by simp [hp]), UInt32.ofNat_add, UInt32.add_assoc,
          UInt32.add_comm 1]
        rfl
      · rw [if_neg hp, if_neg (by simpa using hp)]
        rfl

end NgramTable

/-! ### What the walk counts -/

/-- The characters of the entries of a phrase. -/
def phraseCharacters (phrase : List HistoryEntry) : List Bytes :=
  phrase.flatMap fun e => characters e.committedText

/-- The pairs of adjacent characters in the phrases of the entries. -/
def bigrams (entries : List HistoryEntry) : List (Bytes × Bytes) :=
  (phrases kChainGapUs entries).flatMap fun phrase => neighbours (phraseCharacters phrase)

/-- A walk that counted the pairs `ps` since `w`, with `last` as the previous
character. -/
def Walk.Counted (w w' : Walk) (ps : List (Bytes × Bytes)) (last : Option Bytes) : Prop :=
  w'.table = w.table.addBigrams ps ∧ w'.increments = w.increments + UInt64.ofNat ps.length ∧
    w'.prevChar = last.getD []

namespace Walk

theorem Counted.trans {w w' w'' : Walk} {ps qs : List (Bytes × Bytes)} {l l' : Option Bytes}
    (h : w.Counted w' ps l) (h' : w'.Counted w'' qs l') : w.Counted w'' (ps ++ qs) l' := by
  obtain ⟨htable, hinc, -⟩ := h
  obtain ⟨htable', hinc', hprev'⟩ := h'
  refine ⟨?_, ?_, hprev'⟩
  · rw [htable', htable, NgramTable.addBigrams_append]
  · rw [hinc', hinc, List.length_append, UInt64.ofNat_add, UInt64.add_assoc]

/-- The characters of a text are paired with each other and with the last
character before. -/
theorem characters_counted (w : Walk) (last : Option Bytes) {chs : List Bytes}
    (hlast : w.prevChar = last.getD []) (hne : ∀ ch ∈ last, ch ≠ []) (hchs : ∀ ch ∈ chs, ch ≠ []) :
    w.Counted (chs.foldl character w) (neighbours (last.toList ++ chs))
      (last.toList ++ chs).getLast? := by
  induction chs generalizing w last with
  | nil => cases last <;> simp [Counted, neighbours, NgramTable.addBigrams, hlast]
  | cons ch chs ih =>
      have hprev : (w.character ch).prevChar = (some ch).getD [] := by
        unfold character
        split <;> rfl
      have hrest := ih (w.character ch) (some ch) hprev (by simpa using hchs ch (by simp))
        fun c hc => hchs c (by simp [hc])
      cases last with
      | none =>
          have hchar : w.Counted (w.character ch) [] (some ch) := by
            rw [character, if_neg (by simp [hlast])]
            exact ⟨rfl, by simp, rfl⟩
          exact hchar.trans hrest
      | some p =>
          have hp : w.prevChar = p := hlast
          have hchar : w.Counted (w.character ch) [(p, ch)] (some ch) := by
            rw [character, if_pos (by rw [hp]; exact hne p rfl), hp]
            exact ⟨rfl, rfl, rfl⟩
          exact hchar.trans hrest

theorem ne_nil_of_mem_characters {s ch : Bytes} (h : ch ∈ characters s) : ch ≠ [] :=
  List.ne_nil_of_length_pos (length_of_mem_characters h).1

theorem ne_nil_of_mem_phraseCharacters {phrase : List HistoryEntry} {ch : Bytes}
    (h : ch ∈ phraseCharacters phrase) : ch ≠ [] := by
  obtain ⟨e, -, he⟩ := List.mem_flatMap.mp h
  exact ne_nil_of_mem_characters he

/-- An entry that continues the phrase `chunk`. -/
theorem entry_close {w : Walk} {chunk : List HistoryEntry} {e : HistoryEntry}
    (hprev : w.prevChar = (phraseCharacters chunk).getLast?.getD [])
    (hclose : ¬ kChainGapUs < e.tsUs - w.prevTs) :
    w.Counted (w.entry e) (neighbours ((phraseCharacters chunk).getLast?.toList ++
      characters e.committedText)) (phraseCharacters (chunk ++ [e])).getLast? := by
  have hsame : w.entry e =
      { (characters e.committedText).foldl character w with prevTs := e.tsUs } := by
    rw [entry, if_neg fun h => hclose h.2]
  have hchs := w.characters_counted _ hprev
    (fun ch hch => ne_nil_of_mem_phraseCharacters (List.mem_of_getLast? hch))
    (fun ch hch => ne_nil_of_mem_characters (s := e.committedText) hch)
  have hlast : ((phraseCharacters chunk).getLast?.toList ++ characters e.committedText).getLast? =
      (phraseCharacters (chunk ++ [e])).getLast? := by
    simp only [phraseCharacters, List.flatMap_append, List.flatMap_singleton, List.getLast?_append]
    cases (List.flatMap (fun e => characters e.committedText) chunk).getLast? <;> rfl
  rw [hsame, ← hlast]
  exact hchs

/-- An entry after a pause, or the first one. -/
theorem entry_fresh {w : Walk} {e : HistoryEntry}
    (h : w.prevChar = [] ∨ kChainGapUs < e.tsUs - w.prevTs) :
    w.Counted (w.entry e) (neighbours (characters e.committedText))
      (phraseCharacters [e]).getLast? := by
  have hsame : w.entry e =
      { (characters e.committedText).foldl character { w with prevChar := [] } with
        prevTs := e.tsUs } := by
    rw [entry]
    split_ifs with hgap
    · rfl
    · have hnil : w.prevChar = [] := by
        by_contra hne
        exact hgap ⟨hne, h.resolve_left hne⟩
      rw [show ({ w with prevChar := [] } : Walk) = w by rw [← hnil]]
  have hchs := characters_counted { w with prevChar := [] } none rfl (by simp)
    (fun ch hch => ne_nil_of_mem_characters (s := e.committedText) hch)
  rw [hsame, phraseCharacters, List.flatMap_singleton]
  exact hchs

/-- A walk that counted the phrases `closed`, and what there is of the phrase `cur`. -/
def Walked (start w : Walk) (closed : List (List HistoryEntry)) (cur : List HistoryEntry) : Prop :=
  start.Counted w ((closed ++ [cur]).flatMap fun phrase => neighbours (phraseCharacters phrase))
      (phraseCharacters cur).getLast? ∧
    ∀ hne : cur ≠ [], w.prevTs = (cur.getLast hne).tsUs

variable {start w : Walk} {closed : List (List HistoryEntry)} {cur : List HistoryEntry}
  {e : HistoryEntry}

theorem Walked.near (h : start.Walked w closed cur) (hgap : ¬ kChainGapUs < e.tsUs - w.prevTs) :
    start.Walked (w.entry e) closed (cur ++ [e]) := by
  refine ⟨?_, fun _ => by simp [entry]⟩
  have hpairs : ((closed ++ [cur ++ [e]]).flatMap fun phrase =>
        neighbours (phraseCharacters phrase)) =
      ((closed ++ [cur]).flatMap fun phrase => neighbours (phraseCharacters phrase)) ++
        neighbours ((phraseCharacters cur).getLast?.toList ++ characters e.committedText) := by
    simp only [List.flatMap_append, List.flatMap_singleton, List.append_assoc]
    rw [← neighbours_append, phraseCharacters, phraseCharacters, List.flatMap_append,
      List.flatMap_singleton]
  rw [hpairs]
  exact h.1.trans (entry_close h.1.2.2 hgap)

theorem Walked.far (h : start.Walked w closed cur) (hgap : kChainGapUs < e.tsUs - w.prevTs) :
    start.Walked (w.entry e) (closed ++ [cur]) [e] := by
  refine ⟨?_, fun _ => by simp [entry]⟩
  rw [List.flatMap_append, List.flatMap_singleton, phraseCharacters, List.flatMap_singleton]
  have hcounted := h.1.trans (entry_fresh (.inr hgap))
  rwa [phraseCharacters, List.flatMap_singleton] at hcounted

/-- The walk over the entries from the first one on. -/
theorem entries_walked (table : NgramTable) {es : List HistoryEntry}
    (hsorted : (e :: es).Pairwise fun a b => a.tsUs.toNat ≤ b.tsUs.toNat) :
    ∃ last,
      ({ table } : Walk).Counted ((e :: es).foldl entry { table }) (bigrams (e :: es)) last := by
  have hfirst : ({ table } : Walk).Walked (entry { table } e) [] [e] := by
    refine ⟨?_, fun _ => by simp [entry]⟩
    rw [List.nil_append, List.flatMap_singleton, phraseCharacters, List.flatMap_singleton]
    have hcounted := entry_fresh (w := { table }) (e := e) (.inl rfl)
    rwa [phraseCharacters, List.flatMap_singleton] at hcounted
  have hnear : ∀ (w : Walk) closed cur (hne : cur ≠ []) (e : HistoryEntry),
      Walked { table } w closed cur → (cur.getLast hne).tsUs.toNat ≤ e.tsUs.toNat →
      close kChainGapUs (cur.getLast hne) e = true →
      Walked { table } (w.entry e) closed (cur ++ [e]) := by
    intro w closed cur hne e h hle hclose
    refine h.near ?_
    rw [h.2 hne, gap_lt_sub_iff hle, hclose]
    exact Bool.noConfusion
  have hfar : ∀ (w : Walk) closed cur (hne : cur ≠ []) (e : HistoryEntry),
      Walked { table } w closed cur → (cur.getLast hne).tsUs.toNat ≤ e.tsUs.toNat →
      close kChainGapUs (cur.getLast hne) e = false →
      Walked { table } (w.entry e) (closed ++ [cur]) [e] := by
    intro w closed cur hne e h hle hclose
    refine h.far ?_
    rw [h.2 hne, gap_lt_sub_iff hle, hclose]
  obtain ⟨closed, last, heq, hwalked, -⟩ := foldl_splitBy (close kChainGapUs) entry
    hnear hfar hfirst (by simp) (List.isChain_singleton e) es hsorted
  rw [List.nil_append] at heq
  rw [heq] at hwalked
  exact ⟨_, hwalked⟩

end Walk

/-- `UpdateBigramsFromHistory` counts the adjacent pairs in the phrases of the
entries it read, each once. -/
theorem updateBigramsFromHistory_eq (chrono : Sorter earlier) (history : HistoryStore)
    (table : NgramTable) (maxEntries : UInt64) :
    updateBigramsFromHistory chrono history table maxEntries =
      (table.addBigrams (bigrams (chrono.sort (history.recentEntries maxEntries))),
        UInt64.ofNat (bigrams (chrono.sort (history.recentEntries maxEntries))).length) := by
  have hsorted := (chrono.sorted (history.recentEntries maxEntries)).imp fun h =>
    earlier_eq_false.mp h
  unfold updateBigramsFromHistory
  cases hes : chrono.sort (history.recentEntries maxEntries) with
  | nil => rfl
  | cons e es =>
      rw [hes] at hsorted
      obtain ⟨last, htable, hinc, -⟩ := Walk.entries_walked table hsorted
      dsimp only
      rw [htable, hinc, UInt64.zero_add]

/-- The two of a pair are characters. -/
theorem mem_characters_of_mem_bigrams {entries : List HistoryEntry} {p : Bytes × Bytes}
    (h : p ∈ bigrams entries) :
    (∃ s : Bytes, p.1 ∈ characters s) ∧ ∃ s : Bytes, p.2 ∈ characters s := by
  obtain ⟨phrase, -, hmem⟩ := List.mem_flatMap.mp h
  obtain ⟨hfst, hsnd⟩ := List.of_mem_zip hmem
  obtain ⟨e, -, he⟩ := List.mem_flatMap.mp hfst
  obtain ⟨e', -, he'⟩ := List.mem_flatMap.mp (List.mem_of_mem_tail hsnd)
  exact ⟨⟨_, he⟩, _, he'⟩

theorem bigrams_ne_nil (entries : List HistoryEntry) :
    ∀ p ∈ bigrams entries, p.1 ≠ [] ∧ p.2 ≠ [] := by
  intro p hp
  obtain ⟨⟨_, hfst⟩, _, hsnd⟩ := mem_characters_of_mem_bigrams hp
  exact ⟨Walk.ne_nil_of_mem_characters hfst, Walk.ne_nil_of_mem_characters hsnd⟩

end Dafeng.Learning
