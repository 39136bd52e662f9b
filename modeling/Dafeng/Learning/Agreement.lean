import Mathlib.Algebra.BigOperators.Group.List.Lemmas
import Mathlib.Algebra.Order.BigOperators.Group.List
import Mathlib.Algebra.Order.Group.Nat
import Dafeng.Learning.Discovery
import Dafeng.Learning.NgramFile

/-!
# Dafeng.Learning.Agreement

The walk that counts bigrams and the walk that discovers words break at the same
places: on the same entries they count the same pairs.
-/

namespace Dafeng.Learning

open Dafeng.Utf8

/-- The sum of all counts of a table. -/
def NgramTable.total (table : NgramTable) : Nat :=
  ((table.records .stored).map fun r => r.2.toNat).sum

/-- A table that was empty holds every increment. -/
theorem total_addBigrams {pairs : List (Bytes × Bytes)} (h : ∀ p ∈ pairs, p.1 ≠ [] ∧ p.2 ≠ [])
    (hfew : pairs.length < 2 ^ 32) : (NgramTable.addBigrams ∅ pairs).total = pairs.length := by
  set table := NgramTable.addBigrams ∅ pairs with htable
  have hcount : ∀ r ∈ table.records .stored, r.2.toNat = pairs.count r.1 := by
    intro x hr
    obtain ⟨⟨a, b⟩, cnt⟩ := x
    have hfind := (NgramTable.mem_records .stored table).mp hr
    have hbigram := NgramTable.bigramCount_addBigrams ∅ h a b
    rw [← htable, NgramTable.bigramCount_eq, hfind] at hbigram
    have hle := List.count_le_length (a := (a, b)) (l := pairs)
    rw [Option.getD_some] at hbigram
    have hzero : NgramTable.bigramCount ∅ a b = 0 := rfl
    rw [hbigram, hzero, UInt32.zero_add, UInt32.toNat_ofNat', Nat.mod_eq_of_lt (by omega)]
  have hkeys : ((table.records .stored).map Prod.fst).Perm pairs.dedup := by
    refine (List.perm_ext_iff_of_nodup (NgramTable.nodup_records .stored table)
      (List.nodup_dedup pairs)).mpr fun p => ?_
    have hfind : table.find p.1 p.2 ≠ none ↔ p ∈ pairs := by
      rw [htable, NgramTable.find_addBigrams ∅ h]
      exact or_iff_right fun hne => hne rfl
    rw [List.mem_dedup, ← hfind, Option.ne_none_iff_exists', List.mem_map]
    constructor
    · rintro ⟨r, hr, rfl⟩
      exact ⟨r.2, (NgramTable.mem_records .stored table).mp hr⟩
    · intro h
      obtain ⟨cnt, hcnt⟩ := h
      exact ⟨(p, cnt), (NgramTable.mem_records .stored table).mpr hcnt, rfl⟩
  calc table.total
      = (((table.records .stored).map Prod.fst).map fun p => pairs.count p).sum := by
        rw [NgramTable.total, List.map_map]
        exact congrArg List.sum (List.map_congr_left hcount)
    _ = (pairs.dedup.map fun p => pairs.count p).sum := (hkeys.map _).sum_nat
    _ = pairs.length := by
        -- the two sides count by two instances of `BEq`
        rw [← List.sum_map_count_dedup_eq_length pairs]
        refine congrArg List.sum (List.map_congr_left fun p _ => ?_)
        exact List.countP_congr fun q _ => by simp

section Walks

variable {chars : HistoryEntry → List Char} {chrono : Sorter earlier} {cfg : DiscoveryConfig}
  {entries : List HistoryEntry}

/-- The pairs that the table counts, in typed characters. -/
theorem bigrams_eq (h : ∀ e ∈ entries, encodeText (chars e) = e.committedText)
    (hgap : cfg.chainMaxGapUs = kChainGapUs) : bigrams (chrono.sort entries) =
      (typedRuns chars chrono cfg entries).flatMap fun run =>
        (neighbours run).map fun p => (encodeChar p.1.char, encodeChar p.2.char) := by
  have hchains : chains chrono cfg entries = phrases kChainGapUs (chrono.sort entries) := by
    rw [chains, if_neg (by rw [hgap]; decide), hgap]
  rw [bigrams, typedRuns, hchains, List.flatMap_map]
  refine List.flatMap_congr fun run hrun => ?_
  have hchars : phraseCharacters run =
      (run.flatMap (typed chars)).map fun t => encodeChar t.char := by
    rw [phraseCharacters, List.map_flatMap]
    refine List.flatMap_congr fun e he => ?_
    rw [← hchains] at hrun
    rw [← h e (mem_of_mem_chain hrun he), characters_encodeText, typed, List.map_map]
    rfl
  rw [hchars, neighbours, neighbours, ← List.map_tail, List.zip_map]
  rfl

/-- A pair is counted as often as it occurs. -/
theorem count_bigrams (h : ∀ e ∈ entries, encodeText (chars e) = e.committedText)
    (hgap : cfg.chainMaxGapUs = kChainGapUs) (a b : Char) :
    (bigrams (chrono.sort entries)).count (encodeChar a, encodeChar b) =
      (occurrences (typedRuns chars chrono cfg entries) [a, b]).length := by
  rw [bigrams_eq h hgap, occurrences, List.count_flatMap, List.length_flatMap]
  refine congrArg List.sum (List.map_congr_left fun run _ => ?_)
  rw [Function.comp_apply, List.count, List.countP_map, List.length_cons, List.length_singleton,
    ← List.countP_eq_length_filter, windows_two, List.countP_map]
  refine List.countP_congr fun p _ => ?_
  simp only [Function.comp_apply, beq_iff_eq, Prod.mk.injEq, decide_eq_true_eq, List.map_cons,
    List.map_nil, List.cons.injEq, and_true]
  exact ⟨fun hp => ⟨encodeChar_injective hp.1, encodeChar_injective hp.2⟩,
    fun hp => ⟨by rw [hp.1], by rw [hp.2]⟩⟩

theorem length_neighbours_le {α : Type} (xs : List α) : (neighbours xs).length ≤ xs.length := by
  rw [neighbours, List.length_zip]
  omega

theorem length_bigrams_le (h : ∀ e ∈ entries, encodeText (chars e) = e.committedText)
    (hgap : cfg.chainMaxGapUs = kChainGapUs) : (bigrams (chrono.sort entries)).length ≤
      (entries.map fun e => (chars e).length).sum := by
  rw [bigrams_eq h hgap, ← @length_typedRuns chars chrono cfg entries, List.length_flatMap]
  refine List.sum_le_sum fun run _ => ?_
  rw [List.length_map]
  exact length_neighbours_le run

variable (chars chrono cfg)

/-- The count of a pair of characters, for fewer than 2^32 of them. -/
theorem bigramCount_toNat (history : HistoryStore) (a b : Bytes)
    (hchars : ∀ e ∈ history.recentEntries cfg.scanMaxEntries,
      encodeText (chars e) = e.committedText)
    (hfew : ((history.recentEntries cfg.scanMaxEntries).map fun e => (chars e).length).sum < 2 ^ 32)
    (hgap : cfg.chainMaxGapUs = kChainGapUs) :
    ((updateBigramsFromHistory chrono history ∅ cfg.scanMaxEntries).1.bigramCount a b).toNat =
      (bigrams (chrono.sort (history.recentEntries cfg.scanMaxEntries))).count (a, b) := by
  have hlen := @length_bigrams_le chars chrono cfg _ hchars hgap
  have hle := List.count_le_length (a := (a, b))
    (l := bigrams (chrono.sort (history.recentEntries cfg.scanMaxEntries)))
  have hzero : NgramTable.bigramCount ∅ a b = 0 := rfl
  rw [updateBigramsFromHistory_eq, NgramTable.bigramCount_addBigrams _ (bigrams_ne_nil _), hzero,
    UInt32.zero_add, UInt32.toNat_ofNat', Nat.mod_eq_of_lt (by omega)]

/-- **The two walks agree.** On the same entries, with the default gap, a word of
two characters has the frequency that the table counts for the pair; a pair that
is counted often enough, and at all, is reported unless it is noise; and the
walk returns the sum of the counts. -/
theorem walks_agree (ranking : Sorter ranksBefore) (hash : Visit) (history : HistoryStore)
    (hchars : ∀ e ∈ history.recentEntries cfg.scanMaxEntries,
      encodeText (chars e) = e.committedText)
    (hfew : ((history.recentEntries cfg.scanMaxEntries).map fun e => (chars e).length).sum < 2 ^ 32)
    (hbigrams : cfg.includeBigrams = true)
    (hgap : cfg.chainMaxGapUs = ({} : DiscoveryConfig).chainMaxGapUs) :
    (∀ w ∈ discover chrono ranking hash history cfg, ∀ a b : Char,
      w.text = encodeChar a ++ encodeChar b → w.frequency =
        (updateBigramsFromHistory chrono history ∅ cfg.scanMaxEntries).1.bigramCount
          (encodeChar a) (encodeChar b)) ∧
    (∀ a b : Bytes, max 1 cfg.minFrequency.toNat ≤
        ((updateBigramsFromHistory chrono history ∅ cfg.scanMaxEntries).1.bigramCount a b).toNat →
      looksLikeRealCandidate (a ++ b) = true →
        ∃ w ∈ discover chrono ranking hash history cfg, w.text = a ++ b) ∧
    (updateBigramsFromHistory chrono history ∅ cfg.scanMaxEntries).2.toNat =
      (updateBigramsFromHistory chrono history ∅ cfg.scanMaxEntries).1.total := by
  have hwords := mem_discover chars chrono cfg ranking hash history hchars hfew
  have hcount := fun a b => bigramCount_toNat chars chrono cfg history a b hchars hfew hgap
  refine ⟨?_, ?_, ?_⟩
  · intro w hw a b htext
    obtain ⟨gram, hgram⟩ := (hwords w).mp hw
    have hab : gram = [a, b] := by
      refine encodeText_injective ?_
      rw [← hgram.text, htext]
      simp
    have hfreq := hgram.frequency
    rw [hab, ← count_bigrams hchars hgap a b, ← hcount] at hfreq
    exact UInt32.toNat_inj.mp hfreq
  · intro a b hoften hreal
    rw [hcount] at hoften
    have hmem : (a, b) ∈ bigrams (chrono.sort (history.recentEntries cfg.scanMaxEntries)) :=
      List.count_pos_iff.mp (by omega)
    rw [bigrams_eq hchars hgap] at hmem
    obtain ⟨run, -, hpair⟩ := List.mem_flatMap.mp hmem
    obtain ⟨⟨x, y⟩, -, hxy⟩ := List.mem_map.mp hpair
    obtain ⟨rfl, rfl⟩ := Prod.mk.inj hxy
    dsimp only at hoften hreal ⊢
    rw [count_bigrams hchars hgap] at hoften
    have htext : encodeChar x.char ++ encodeChar y.char = encodeText [x.char, y.char] := by simp
    rw [htext] at hreal ⊢
    have hword := isWord_counted (.inl ⟨rfl, hbigrams⟩) hoften hreal (counted_toNat hfew _)
    exact ⟨_, (hwords _).mpr ⟨_, hword⟩, rfl⟩
  · have hlen := @length_bigrams_le chars chrono cfg _ hchars hgap
    rw [updateBigramsFromHistory_eq, total_addBigrams (bigrams_ne_nil _) (by omega),
      UInt64.toNat_ofNat', Nat.mod_eq_of_lt (by omega)]

end Walks

/-- Two characters typed one by one, twice: their word has the count of the pair. -/
theorem walks_agree_splitTyped :
    ∃ w ∈ discover byTime byRank .stored splitTyped { minFrequency := 2 },
      w.text = encodeChar '弹' ++ encodeChar '窗' ∧ w.frequency =
        (updateBigramsFromHistory byTime splitTyped ∅ 5000).1.bigramCount (encodeChar '弹')
          (encodeChar '窗') := by
  have hagree := walks_agree (fun e => if e.code = ascii "xu" then ['弹'] else ['窗']) byTime
    { minFrequency := 2 } byRank .stored splitTyped (by decide) (by decide) rfl rfl
  have hmem : ⟨encodeText ['弹', '窗'], ascii "xupw", 2, 1000000, 1200000⟩ ∈
      discover byTime byRank .stored splitTyped { minFrequency := 2 } := by decide
  exact ⟨_, hmem, rfl, hagree.1 _ hmem '弹' '窗' rfl⟩

/-- With a threshold of zero a pair that never occurred is frequent enough, and is
not reported. -/
theorem unseen_pair_unreported :
    ¬ ∀ (history : HistoryStore) (cfg : DiscoveryConfig) (a b : Bytes),
      cfg.includeBigrams = true → cfg.chainMaxGapUs = ({} : DiscoveryConfig).chainMaxGapUs →
      cfg.minFrequency ≤
        (updateBigramsFromHistory byTime history ∅ cfg.scanMaxEntries).1.bigramCount a b →
      looksLikeRealCandidate (a ++ b) = true →
        ∃ w ∈ discover byTime byRank .stored history cfg, w.text = a ++ b := by
  intro hall
  obtain ⟨w, hw, -⟩ := hall ⟨fun _ => [], 0⟩ { minFrequency := 0 } (encodeChar '弹')
    (encodeChar '窗') rfl rfl (by decide) (by decide)
  have hnone : discover byTime byRank .stored ⟨fun _ => [], 0⟩ { minFrequency := 0 } = [] := by
    decide
  rw [hnone] at hw
  exact absurd hw List.not_mem_nil

end Dafeng.Learning
