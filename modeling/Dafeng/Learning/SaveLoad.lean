import Mathlib.Data.List.Dedup
import Dafeng.Learning.NgramFile

/-!
# Dafeng.Learning.SaveLoad

`NgramTable::Save` and `NgramTable::Load` on a table that is in use: what a file
gives back, what a table holds after a file that breaks off, and which saved files
can be loaded.
-/

namespace Dafeng.Learning

namespace NgramTable

/-- `map_.clear()`. -/
def clear (_ : NgramTable) : NgramTable := ∅

/-- `Load` on a table: its result, and the table afterwards. -/
def loadInto (table : NgramTable) (file : Option Bytes) : Bool × NgramTable :=
  let table := table.clear
  match file.bind readHeader with
  | none => (false, table)
  | some (pairCount, bs) => loadRecords pairCount bs table

/-- `Save` where the loops come to the pairs in the order `rs`: its result, and the
file afterwards. -/
def saveIn (rs : List ((Bytes × Bytes) × UInt32)) (written : Bool) (table : NgramTable)
    (file : Option Bytes) : Bool × Option Bytes :=
  if written then (true, some (table.written rs)) else (false, file)

/-- Nothing of what the table held is left. -/
theorem loadInto_eq (table : NgramTable) (file : Option Bytes) : table.loadInto file = load file :=
  rfl

/-! ### The round trip -/

theorem size_eq_of_find {t t' : NgramTable} (h : ∀ a b, t.find a b = t'.find a b) :
    t.size = t'.size := by
  have hle : ∀ t t' : NgramTable, (∀ a b, t.find a b = t'.find a b) → t.size ≤ t'.size := by
    intro t t' h
    rw [← length_pairs t']
    refine size_le t fun a b hfind => ?_
    rw [mem_pairs, ← h]
    exact hfind
  exact Nat.le_antisymm (hle t t' h) (hle t' t fun a b => (h a b).symm)

/-- **The round trip.** The file of a table whose keys fit gives back every count and
the size, in whatever order the pairs were written and whatever the table held that
loads it. The tables that are counted from a history have such keys. -/
theorem load_saved {table : NgramTable} (hstorable : table.Storable) (hsize : table.size < 2 ^ 32)
    {rs : List ((Bytes × Bytes) × UInt32)} (hrs : table.Iterates rs) (prior : NgramTable) :
    (prior.loadInto (some (table.written rs))).1 = true ∧
    (∀ a b, (prior.loadInto (some (table.written rs))).2.bigramCount a b =
      table.bigramCount a b) ∧
    (prior.loadInto (some (table.written rs))).2.size = table.size ∧
    ∀ (chrono : Sorter earlier) (history : HistoryStore) (maxEntries : UInt64) (a b : Bytes),
      (updateBigramsFromHistory chrono history ∅ maxEntries).1.find a b ≠ none →
        a ≠ [] ∧ b ≠ [] ∧ Fits (a, b) := by
  have hfind := hrs.find_assignAll
  rw [loadInto_eq, load_written table hstorable hsize hrs]
  refine ⟨rfl, fun a b => ?_, size_eq_of_find hfind, fun chrono history maxEntries a b h => ?_⟩
  · rw [bigramCount_eq, hfind, ← bigramCount_eq]
  · rw [updateBigramsFromHistory_eq, find_addBigrams _ (bigrams_ne_nil _)] at h
    have hmem := h.resolve_left fun hempty => hempty rfl
    obtain ⟨hfst, hsnd⟩ := bigrams_ne_nil _ _ hmem
    exact ⟨hfst, hsnd, storable_empty.addBigrams _ a b
      ((find_addBigrams _ (bigrams_ne_nil _)).mpr (.inr hmem))⟩

theorem storable_of_fits {calls : List (Bytes × Bytes)} (hne : ∀ p ∈ calls, p.1 ≠ [] ∧ p.2 ≠ [])
    (hfits : ∀ p ∈ calls, Fits p) : (addBigrams ∅ calls).Storable := by
  intro a b hfind
  have hmem := ((find_addBigrams ∅ hne).mp hfind).resolve_left fun hempty => hempty rfl
  exact hfits (a, b) hmem

/-- A character with two followers, one of them counted twice. -/
def followed : List (Bytes × Bytes) :=
  [(ascii "a", ascii "b"), (ascii "a", ascii "c"), (ascii "a", ascii "b")]

/-- Their table comes back into one that held another pair. -/
theorem load_saved_followed :
    ((incrementBigram ∅ (ascii "x") (ascii "y")).loadInto
      (some ((addBigrams ∅ followed).written
        ((addBigrams ∅ followed).records .stored).reverse))).2.size = 2 :=
  (load_saved (storable_of_fits (by decide) (by decide)) (by decide) (List.reverse_perm _) _).2.2.1

/-! ### Files that break off -/

/-- A file that breaks off in a record behind the first: fewer records than the header
says, but one at least, stand before bytes that begin with none. -/
def BreaksOff (file : Option Bytes) : Prop :=
  ∃ (pairCount : Nat) (rs : List ((Bytes × Bytes) × UInt32)) (tail : Bytes),
    file = some (fileHeader pairCount ++ (recordsBytes rs ++ tail)) ∧ pairCount < 2 ^ 32 ∧
      (∀ r ∈ rs, Fits r.1) ∧ rs ≠ [] ∧ rs.length < pairCount ∧
        ∀ a b cnt, Fits (a, b) → ¬ record a b cnt <+: tail

theorem readRecord_eq_none_iff {bs : Bytes} :
    readRecord bs = none ↔ ∀ a b cnt, Fits (a, b) → ¬ record a b cnt <+: bs := by
  constructor
  · intro hnone a b cnt hfits hpre
    obtain ⟨rest, rfl⟩ := hpre
    rw [readRecord_eq_some_iff.mpr ⟨hfits, rfl⟩] at hnone
    cases hnone
  · intro h
    rw [Option.eq_none_iff_forall_ne_some]
    intro r hr
    obtain ⟨⟨a, b, cnt⟩, rest⟩ := r
    obtain ⟨hfits, rfl⟩ := readRecord_eq_some_iff.mp hr
    exact h a b cnt hfits (List.prefix_append _ _)

/-- What the loop of `Load` does: it assigns the complete records up to the number
that the header says, and fails where one is missing. -/
theorem loadRecords_spec (n : Nat) (bs : Bytes) (t : NgramTable) :
    ∃ (rs : List ((Bytes × Bytes) × UInt32)) (tail : Bytes),
      (∀ r ∈ rs, Fits r.1) ∧ bs = recordsBytes rs ++ tail ∧ rs.length ≤ n ∧
        loadRecords n bs t = (decide (rs.length = n), t.assignAll rs) ∧
          (rs.length < n → readRecord tail = none) := by
  induction n generalizing bs t with
  | zero => exact ⟨[], bs, by simp, rfl, Nat.le_refl _, rfl, fun h => absurd h (by simp)⟩
  | succ n ih =>
      cases hread : readRecord bs with
      | none =>
          refine ⟨[], bs, by simp, rfl, Nat.zero_le _, ?_, fun _ => hread⟩
          rw [loadRecords, hread]
          rfl
      | some p =>
          obtain ⟨⟨a, b, cnt⟩, rest⟩ := p
          obtain ⟨hfits, hbs⟩ := readRecord_eq_some_iff.mp hread
          obtain ⟨rs, tail, hrs, htail, hle, hload, hstop⟩ := ih rest (t.assign a b cnt)
          refine ⟨((a, b), cnt) :: rs, tail, List.forall_mem_cons.mpr ⟨hfits, hrs⟩, ?_, ?_, ?_, ?_⟩
          · rw [hbs, htail, recordsBytes, recordsBytes, List.flatMap_cons, List.append_assoc]
          · rw [List.length_cons]
            exact Nat.succ_le_succ hle
          · rw [loadRecords, hread]
            dsimp only
            rw [hload, List.length_cons]
            simp only [Nat.add_right_cancel_iff]
            rfl
          · rw [List.length_cons]
            exact fun h => hstop (Nat.lt_of_succ_lt_succ h)

theorem size_assignAll_pos {rs : List ((Bytes × Bytes) × UInt32)} (h : rs ≠ []) (t : NgramTable) :
    (t.assignAll rs).size ≠ 0 := by
  obtain ⟨rs', r, rfl⟩ := List.eq_nil_or_concat rs |>.resolve_left h
  obtain ⟨⟨a, b⟩, cnt⟩ := r
  have hfind : (t.assignAll (rs'.concat ((a, b), cnt))).find a b = some cnt := by
    rw [List.concat_eq_append, assignAll, List.foldl_append]
    exact (find_assign _ a b a b cnt).trans (if_pos rfl)
  have hmem := (mem_pairs _).mpr (show (t.assignAll _).find a b ≠ none by rw [hfind]; simp)
  rw [← length_pairs]
  exact List.length_eq_zero_iff.not.mpr (List.ne_nil_of_mem hmem)

/-- **A failed load.** It leaves an empty table exactly where the file does not break
off behind a complete record: those before are kept. -/
theorem failed_load_empties_iff (table : NgramTable) (file : Option Bytes) :
    ((table.loadInto file).1 = false → (table.loadInto file).2.size = 0 ∧
      ∀ a b, (table.loadInto file).2.bigramCount a b = 0) ↔ ¬ BreaksOff file := by
  rw [loadInto_eq]
  constructor
  · intro hempty hbreaks
    obtain ⟨n, rs, tail, rfl, hn, hrs, hne, hlt, htail⟩ := hbreaks
    obtain ⟨k, rfl⟩ := Nat.exists_eq_add_of_lt hlt
    have hload : load (some (fileHeader (rs.length + k + 1) ++ (recordsBytes rs ++ tail))) =
        (false, assignAll ∅ rs) := by
      rw [load_header hn, Nat.add_assoc, loadRecords_append hrs, loadRecords,
        readRecord_eq_none_iff.mpr htail]
    rw [hload] at hempty
    exact size_assignAll_pos hne ∅ (hempty rfl).1
  · intro hwhole hfailed
    unfold load at hfailed ⊢
    cases hheader : file.bind readHeader with
    | none => exact ⟨rfl, fun _ _ => rfl⟩
    | some p =>
        obtain ⟨n, bs⟩ := p
        obtain ⟨bytes, rfl, hbytes⟩ := Option.bind_eq_some_iff.mp hheader
        obtain ⟨hn, rfl⟩ := readHeader_eq_some_iff.mp hbytes
        obtain ⟨rs, tail, hrs, rfl, hle, hload, hstop⟩ := loadRecords_spec n bs ∅
        rw [hheader] at hfailed
        dsimp only at hfailed ⊢
        rw [hload] at hfailed ⊢
        have hlt := Nat.lt_of_le_of_ne hle (of_decide_eq_false hfailed)
        -- a record before the end would make the file one that breaks off
        have hnil : rs = [] := by
          by_contra hne
          exact hwhole ⟨n, rs, tail, rfl, hn, hrs, hne, hlt, readRecord_eq_none_iff.mp (hstop hlt)⟩
        subst hnil
        exact ⟨rfl, fun _ _ => rfl⟩

/-- A file that promises two records and ends in the second. -/
def truncatedFile : Bytes :=
  fileHeader 2 ++ (record (ascii "a") (ascii "b") 1 ++ [1, 0])

/-- The first of them is in the table after the load has failed. -/
theorem failed_load_keeps : ¬ ∀ (table : NgramTable) (file : Option Bytes),
    (table.loadInto file).1 = false → (table.loadInto file).2.size = 0 ∧
      ∀ a b, (table.loadInto file).2.bigramCount a b = 0 := by
  intro hall
  have hfailed : (loadInto ∅ (some truncatedFile)).1 = false := by decide
  have hsize : (loadInto ∅ (some truncatedFile)).2.size = 1 := by decide
  have hzero := (hall ∅ (some truncatedFile) hfailed).1
  omega

/-! ### Files that are saved -/

/-- The pairs that a sequence of `IncrementBigram` calls counts, each once. -/
def distinctPairs (calls : List (Bytes × Bytes)) : List (Bytes × Bytes) :=
  (calls.filter fun p => p.1 ≠ [] ∧ p.2 ≠ []).dedup

theorem addBigrams_filter (t : NgramTable) (calls : List (Bytes × Bytes)) :
    t.addBigrams (calls.filter fun p => p.1 ≠ [] ∧ p.2 ≠ []) = t.addBigrams calls := by
  induction calls generalizing t with
  | nil => rfl
  | cons p calls ih =>
      have hstep : t.addBigrams (p :: calls) = (t.incrementBigram p.1 p.2).addBigrams calls := rfl
      rw [List.filter_cons, hstep]
      split_ifs with hkeys
      · exact ih _
      · -- a call with an empty string counts nothing
        have hsame : t.incrementBigram p.1 p.2 = t := by
          rw [incrementBigram, if_pos]
          by_contra hne
          exact hkeys (by simpa [not_or] using hne)
        rw [hsame, ih]

section Saved

variable {calls : List (Bytes × Bytes)} {rs : List ((Bytes × Bytes) × UInt32)}

theorem find_addBigrams_empty {a b : Bytes} :
    (addBigrams ∅ calls).find a b ≠ none ↔ (a, b) ∈ distinctPairs calls := by
  have hne : ∀ p ∈ calls.filter fun p => p.1 ≠ [] ∧ p.2 ≠ [], p.1 ≠ [] ∧ p.2 ≠ [] := fun p hp =>
    of_decide_eq_true (List.mem_filter.mp hp).2
  have hempty : ¬ find ∅ a b ≠ none := fun h => h rfl
  rw [← addBigrams_filter, find_addBigrams ∅ hne, distinctPairs, List.mem_dedup]
  exact or_iff_right hempty

theorem Iterates.perm_distinctPairs (h : (addBigrams ∅ calls).Iterates rs) :
    (rs.map Prod.fst).Perm (distinctPairs calls) := by
  refine (List.perm_ext_iff_of_nodup h.nodup (List.nodup_dedup _)).mpr fun p => ?_
  obtain ⟨a, b⟩ := p
  refine Iff.trans ?_ find_addBigrams_empty
  rw [List.mem_map, Option.ne_none_iff_exists']
  constructor
  · intro h
    obtain ⟨⟨p, cnt⟩, hr, rfl⟩ := h
    exact ⟨cnt, h.mem.mp hr⟩
  · intro hfind
    obtain ⟨cnt, hcnt⟩ := hfind
    exact ⟨((a, b), cnt), h.mem.mpr hcnt, rfl⟩

/-- A pair whose keys do not fit leaves no bytes. -/
theorem recordsBytes_filter (rs : List ((Bytes × Bytes) × UInt32)) :
    recordsBytes (rs.filter fun r => Fits r.1) = recordsBytes rs := by
  induction rs with
  | nil => rfl
  | cons r rs ih =>
      have hcons : ∀ rs', recordsBytes (r :: rs') = record r.1.1 r.1.2 r.2 ++ recordsBytes rs' :=
        fun _ => List.flatMap_cons
      rw [List.filter_cons]
      split_ifs with hfits
      · rw [hcons, hcons, ih]
      · have hnone : record r.1.1 r.1.2 r.2 = [] := by
          have hlong : ¬ Fits r.1 := by simpa using hfits
          rw [Fits] at hlong
          exact if_pos (by omega)
        rw [ih, hcons, hnone, List.nil_append]

/-- The loop of `Load` gets as far as there are records. -/
theorem loadRecords_fst (h : ∀ r ∈ rs, Fits r.1) (n : Nat) (t : NgramTable) :
    (loadRecords n (recordsBytes rs) t).1 = decide (n ≤ rs.length) := by
  by_cases hle : n ≤ rs.length
  · have hfits : ∀ r ∈ rs.take n, Fits r.1 := fun r hr => h r (List.mem_of_mem_take hr)
    have htake := loadRecords_append hfits 0 (recordsBytes (rs.drop n)) t
    have hsplit : recordsBytes (rs.take n) ++ recordsBytes (rs.drop n) = recordsBytes rs := by
      rw [recordsBytes, recordsBytes, ← List.flatMap_append, List.take_append_drop, recordsBytes]
    rw [hsplit, List.length_take_of_le hle, Nat.add_zero] at htake
    rw [htake, decide_eq_true hle]
    rfl
  · obtain ⟨k, rfl⟩ := Nat.exists_eq_add_of_lt (Nat.lt_of_not_le hle)
    have hall := loadRecords_append h (k + 1) [] t
    rw [List.append_nil, ← Nat.add_assoc] at hall
    rw [hall, decide_eq_false hle]
    rfl

theorem load_written_fst (table : NgramTable) :
    (load (some (table.written rs))).1 =
      decide (table.size % 2 ^ 32 ≤ (rs.filter fun r => Fits r.1).length) := by
  have hlt : table.size % 2 ^ 32 < 2 ^ 32 := Nat.mod_lt _ (by decide)
  have hfits : ∀ r ∈ rs.filter fun r => Fits r.1, Fits r.1 := fun r hr =>
    of_decide_eq_true (List.mem_filter.mp hr).2
  rw [written, UInt32.toNat_ofNat', load_header hlt, ← recordsBytes_filter, loadRecords_fst hfits]

theorem load_saveIn_iff (h : (addBigrams ∅ calls).Iterates rs) (prior : NgramTable)
    (file : Option Bytes) :
    (prior.loadInto ((addBigrams ∅ calls).saveIn rs true file).2).1 = true ↔
      (distinctPairs calls).length % 2 ^ 32 ≤
        ((distinctPairs calls).filter fun p => Fits p).length := by
  have hperm := h.perm_distinctPairs
  have hsize : (addBigrams ∅ calls).size = (distinctPairs calls).length := by
    rw [← h.length, ← hperm.length_eq, List.length_map]
  have hkept : (rs.filter fun r => Fits r.1).length =
      ((distinctPairs calls).filter fun p => Fits p).length := by
    rw [← (hperm.filter _).length_eq, List.filter_map, List.length_map]
    rfl
  rw [loadInto_eq]
  show (load (some (written _ rs))).1 = true ↔ _
  rw [load_written_fst, decide_eq_true_iff, hsize, hkept]

/-- **What is saved can be loaded** exactly where the header promises no more records
than there are pairs with keys that fit; the number in the header is a `uint32_t`. -/
theorem save_loads_iff (h : (addBigrams ∅ calls).Iterates rs) :
    (∀ (prior : NgramTable) (written : Bool) (file : Option Bytes),
      ((addBigrams ∅ calls).saveIn rs written file).1 = true →
        (prior.loadInto ((addBigrams ∅ calls).saveIn rs written file).2).1 = true) ↔
    (distinctPairs calls).length % 2 ^ 32 ≤
      ((distinctPairs calls).filter fun p => Fits p).length := by
  constructor
  · intro hall
    exact (load_saveIn_iff h ∅ none).mp (hall ∅ true none rfl)
  · intro hcond prior written file hsaved
    cases written with
    | true => exact (load_saveIn_iff h prior file).mpr hcond
    | false => cases hsaved

/-- With fewer than `2 ^ 32` pairs that is: all keys fit. -/
theorem all_fit_iff (hroom : (distinctPairs calls).length < 2 ^ 32) :
    (distinctPairs calls).length % 2 ^ 32 ≤
        ((distinctPairs calls).filter fun p => Fits p).length ↔
      ∀ p ∈ distinctPairs calls, Fits p := by
  have hle := List.length_filter_le (fun p => decide (Fits p)) (distinctPairs calls)
  have hall : (∀ p ∈ distinctPairs calls, decide (Fits p) = true) ↔
      ∀ p ∈ distinctPairs calls, Fits p := by
    simp only [decide_eq_true_eq]
  rw [Nat.mod_eq_of_lt hroom, ← hall, ← List.length_filter_eq_length_iff]
  constructor
  · intro h
    exact Nat.le_antisymm hle h
  · intro h
    exact Nat.le_of_eq h.symm

end Saved

/-- Short keys come back. -/
theorem save_loads_iff_followed :
    ((∅ : NgramTable).loadInto ((addBigrams ∅ followed).saveIn
      ((addBigrams ∅ followed).records .stored) true none).2).1 = true :=
  (save_loads_iff (.refl _)).mpr ((all_fit_iff (by decide)).mpr (by decide)) ∅ true none rfl

/-- A pair with a key that is one byte too long. -/
def oversized : List (Bytes × Bytes) := [(List.replicate (uint16Max + 1) 97, ascii "b")]

/-- Its file promises a record and has none. -/
theorem save_not_loaded : ¬ ∀ (calls : List (Bytes × Bytes))
    (rs : List ((Bytes × Bytes) × UInt32)), (addBigrams ∅ calls).Iterates rs →
      ∀ (prior : NgramTable) (written : Bool) (file : Option Bytes),
        ((addBigrams ∅ calls).saveIn rs written file).1 = true →
          (prior.loadInto ((addBigrams ∅ calls).saveIn rs written file).2).1 = true := by
  intro hall
  have hrs : (addBigrams ∅ oversized).Iterates ((addBigrams ∅ oversized).records .stored) := .refl _
  have hloaded := (load_saveIn_iff hrs ∅ none).mp (hall oversized _ hrs ∅ true none rfl)
  have hdistinct : distinctPairs oversized = oversized := by
    simp [distinctPairs, oversized, ascii]
  rw [hdistinct, oversized] at hloaded
  simp [Fits] at hloaded

end NgramTable

end Dafeng.Learning
