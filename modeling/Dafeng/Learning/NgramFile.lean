import Mathlib.Data.List.Nodup
import Dafeng.Learning.Ngram

/-!
# Dafeng.Learning.NgramFile

`NgramTable::Save` and `NgramTable::Load`: the bytes of `personal_ngram.bin`, and
what of a table comes back from its file.
-/

namespace Dafeng.Learning

/-- `kMagic`. -/
def kMagic : Bytes := ascii "DAFNGRAM"

/-- `kVersion`. -/
def kVersion : UInt32 := 1

/-- `UINT16_MAX`. -/
def uint16Max : Nat := 65535

namespace NgramTable

/-! ### Save -/

/-- A record of the file; a pair with a key that is too long has none. -/
def record (a b : Bytes) (cnt : UInt32) : Bytes :=
  if uint16Max < a.length ∨ uint16Max < b.length then []
  else [leBytes 2 a.length, a, leBytes 2 b.length, b, leBytes 4 cnt.toNat].flatten

/-- The pairs in the order the loops over the two tables visit them. -/
def records (hash : Visit) (table : NgramTable) : List ((Bytes × Bytes) × UInt32) :=
  (hash.visit table.entries).flatMap fun outer =>
    (hash.visit outer.2.entries).map fun inner => ((outer.1, inner.1), inner.2)

/-- The bytes that `Save` writes. `pair_count` is a `uint32_t`. -/
def contents (hash : Visit) (table : NgramTable) : Bytes :=
  [kMagic, leBytes 4 kVersion.toNat, leBytes 4 (UInt32.ofNat table.size).toNat,
    (table.records hash).flatMap fun r => record r.1.1 r.1.2 r.2].flatten

/-! ### Load -/

/-- `map_[a][b] = cnt`. -/
def assign (table : NgramTable) (a b : Bytes) (cnt : UInt32) : NgramTable :=
  table.modify a ∅ fun inner => inner.insert b cnt

/-- A string behind its length. -/
def readString (bs : Bytes) : Option (Bytes × Bytes) := do
  let (len, bs) ← takeBytes 2 bs
  takeBytes (leValue len) bs

def readRecord (bs : Bytes) : Option ((Bytes × Bytes × UInt32) × Bytes) := do
  let (a, bs) ← readString bs
  let (b, bs) ← readString bs
  let (cnt, bs) ← takeBytes 4 bs
  some ((a, b, UInt32.ofNat (leValue cnt)), bs)

/-- The loop of `Load`. What it has read before it fails stays in the table. -/
def loadRecords : Nat → Bytes → NgramTable → Bool × NgramTable
  | 0, _, table => (true, table)
  | n + 1, bs, table =>
    match readRecord bs with
    | none => (false, table)
    | some ((a, b, cnt), bs) => loadRecords n bs (table.assign a b cnt)

/-- The magic, the version and the number of pairs. -/
def readHeader (bs : Bytes) : Option (Nat × Bytes) := do
  let (magic, bs) ← takeBytes 8 bs
  let (version, bs) ← takeBytes 4 bs
  let (pairCount, bs) ← takeBytes 4 bs
  if magic = kMagic ∧ leValue version = kVersion.toNat then some (leValue pairCount, bs) else none

/-- `Load`: its result and the table it leaves. -/
def load (file : Option Bytes) : Bool × NgramTable :=
  match file.bind readHeader with
  | none => (false, ∅)
  | some (pairCount, bs) => loadRecords pairCount bs ∅

/-! ### Entries -/

/-- The counter of a pair, if it has one. -/
def find (table : NgramTable) (a b : Bytes) : Option UInt32 :=
  (table.lookup a).bind fun inner => inner.lookup b

theorem bigramCount_eq (table : NgramTable) (a b : Bytes) :
    table.bigramCount a b = (table.find a b).getD 0 := by
  unfold bigramCount find
  cases table.lookup a <;> rfl

theorem find_assign (table : NgramTable) (a b c d : Bytes) (cnt : UInt32) :
    (table.assign a b cnt).find c d = if (c, d) = (a, b) then some cnt else table.find c d := by
  rw [find, assign, Table.lookup_modify]
  by_cases hca : c = a
  · subst hca
    rw [if_pos rfl, Option.bind_some]
    by_cases hdb : d = b
    · subst hdb
      rw [AList.lookup_insert, if_pos rfl]
    · rw [AList.lookup_insert_ne hdb, if_neg (by simpa using hdb), find]
      cases table.lookup c <;> rfl
  · rw [if_neg hca, if_neg (by simp [hca])]
    rfl

theorem find_incrementBigram (table : NgramTable) {a b : Bytes} (ha : a ≠ []) (hb : b ≠ [])
    (c d : Bytes) : (table.incrementBigram a b).find c d =
      if (c, d) = (a, b) then some (table.bigramCount a b + 1) else table.find c d := by
  rw [incrementBigram, if_neg (by simp [ha, hb]), find, Table.lookup_modify]
  by_cases hca : c = a
  · subst hca
    rw [if_pos rfl, Option.bind_some, Table.lookup_modify]
    by_cases hdb : d = b
    · subst hdb
      rw [if_pos rfl, if_pos rfl, bigramCount]
      cases table.lookup c <;> simp
    · rw [if_neg hdb, if_neg (by simpa using hdb), find]
      cases table.lookup c <;> simp
  · rw [if_neg hca, if_neg (by simp [hca])]
    rfl

variable (hash : Visit) (table : NgramTable)

theorem mem_records {a b : Bytes} {cnt : UInt32} :
    ((a, b), cnt) ∈ table.records hash ↔ table.find a b = some cnt := by
  simp only [records, List.mem_flatMap, List.mem_map, (hash.perm _).mem_iff, find,
    Option.bind_eq_some_iff]
  constructor
  · intro h
    obtain ⟨⟨a', inner⟩, houter, ⟨b', cnt'⟩, hinner, heq⟩ := h
    obtain ⟨⟨rfl, rfl⟩, rfl⟩ := by simpa using heq
    exact ⟨inner, AList.mem_lookup_iff.mpr houter, AList.mem_lookup_iff.mpr hinner⟩
  · intro h
    obtain ⟨inner, houter, hinner⟩ := h
    exact ⟨⟨a, inner⟩, AList.mem_lookup_iff.mp houter, ⟨b, cnt⟩,
      AList.mem_lookup_iff.mp hinner, rfl⟩

theorem nodup_records : ((table.records hash).map Prod.fst).Nodup := by
  rw [records, List.map_flatMap, List.nodup_flatMap]
  refine ⟨fun outer _ => ?_, ?_⟩
  · rw [List.map_map]
    have hkeys : ((hash.visit outer.2.entries).map Sigma.fst).Nodup :=
      (((hash.perm _).map _).nodup_iff).mpr outer.2.nodupKeys
    refine List.Nodup.of_map Prod.snd ?_
    rw [List.map_map]
    exact hkeys
  · have hkeys : ((hash.visit table.entries).map Sigma.fst).Nodup :=
      (((hash.perm _).map _).nodup_iff).mpr table.nodupKeys
    refine (List.pairwise_map.mp hkeys).imp fun {x y} hne => ?_
    intro p hx hy
    obtain ⟨r, hr, rfl⟩ := List.mem_map.mp hx
    obtain ⟨r', hr', heq⟩ := List.mem_map.mp hy
    obtain ⟨i, -, rfl⟩ := List.mem_map.mp hr
    obtain ⟨i', -, rfl⟩ := List.mem_map.mp hr'
    exact hne (Prod.mk.inj heq).1.symm

theorem length_records : (table.records hash).length = table.size := by
  rw [records, List.length_flatMap, size]
  have hlen : ∀ outer : (_ : Bytes) × Table Bytes UInt32,
      ((hash.visit outer.2.entries).map fun inner => ((outer.1, inner.1), inner.2)).length =
        outer.2.entries.length := fun outer => by
    rw [List.length_map, (hash.perm _).length_eq]
  simp only [hlen]
  exact ((hash.perm _).map _).sum_nat

/-- A table is no larger than a list that has all its pairs. -/
theorem size_le {pairs : List (Bytes × Bytes)}
    (h : ∀ a b, table.find a b ≠ none → (a, b) ∈ pairs) : table.size ≤ pairs.length := by
  have hsub : ((table.records .stored).map Prod.fst) ⊆ pairs := by
    intro p hp
    obtain ⟨⟨⟨a, b⟩, cnt⟩, hr, rfl⟩ := List.mem_map.mp hp
    exact h a b (by simp [(mem_records _ _).mp hr])
  have hle := (List.subperm_of_subset (nodup_records .stored table) hsub).length_le
  rwa [List.length_map, length_records] at hle

/-! ### Any order of the pairs -/

/-- An order in which the loops over the nested maps can come to the pairs. -/
def Iterates (table : NgramTable) (rs : List ((Bytes × Bytes) × UInt32)) : Prop :=
  rs.Perm (table.records .stored)

/-- The records that `Save` writes for the pairs. -/
def recordsBytes (rs : List ((Bytes × Bytes) × UInt32)) : Bytes :=
  rs.flatMap fun r => record r.1.1 r.1.2 r.2

/-- The bytes before the records. -/
def fileHeader (pairCount : Nat) : Bytes :=
  [kMagic, leBytes 4 kVersion.toNat, leBytes 4 pairCount].flatten

/-- The bytes that `Save` writes where it comes to the pairs in the order `rs`. -/
def written (table : NgramTable) (rs : List ((Bytes × Bytes) × UInt32)) : Bytes :=
  fileHeader (UInt32.ofNat table.size).toNat ++ recordsBytes rs

theorem contents_eq : table.contents hash = table.written (table.records hash) := by
  simp [contents, written, fileHeader, recordsBytes]

theorem iterates_records : table.Iterates (table.records hash) := by
  refine (List.perm_ext_iff_of_nodup (.of_map _ (nodup_records hash table))
    (.of_map _ (nodup_records .stored table))).mpr fun r => ?_
  obtain ⟨⟨a, b⟩, cnt⟩ := r
  rw [mem_records, mem_records]

section Order

variable {table} {rs : List ((Bytes × Bytes) × UInt32)}

theorem Iterates.mem (h : table.Iterates rs) {a b : Bytes} {cnt : UInt32} :
    ((a, b), cnt) ∈ rs ↔ table.find a b = some cnt :=
  (List.Perm.mem_iff h).trans (mem_records .stored table)

theorem Iterates.nodup (h : table.Iterates rs) : (rs.map Prod.fst).Nodup :=
  ((List.Perm.map Prod.fst h).nodup_iff).mpr (nodup_records .stored table)

theorem Iterates.length (h : table.Iterates rs) : rs.length = table.size :=
  (List.Perm.length_eq h).trans (length_records .stored table)

end Order

/-! ### What comes back -/

/-- A pair whose keys are short enough for the file. -/
def Fits (p : Bytes × Bytes) : Prop := p.1.length ≤ uint16Max ∧ p.2.length ≤ uint16Max

instance : DecidablePred Fits := fun p =>
  inferInstanceAs (Decidable (p.1.length ≤ uint16Max ∧ p.2.length ≤ uint16Max))

/-- All keys are short enough for the file. -/
def Storable (table : NgramTable) : Prop :=
  ∀ a b, table.find a b ≠ none → a.length ≤ uint16Max ∧ b.length ≤ uint16Max

theorem readString_eq_some_iff {bs a rest : Bytes} : readString bs = some (a, rest) ↔
    a.length ≤ uint16Max ∧ bs = leBytes 2 a.length ++ (a ++ rest) := by
  constructor
  · intro h
    rw [readString, Option.bind_eq_bind, Option.bind_eq_some_iff] at h
    obtain ⟨⟨len, bs'⟩, hlen, h⟩ := h
    obtain ⟨rfl, htwo⟩ := takeBytes_eq_some hlen
    obtain ⟨rfl, hlength⟩ := takeBytes_eq_some h
    have hlt := leValue_lt len
    rw [htwo] at hlt
    refine ⟨?_, ?_⟩
    · rw [hlength, uint16Max]
      omega
    · rw [hlength, ← htwo, leBytes_leValue]
  · intro h
    obtain ⟨hshort, rfl⟩ := h
    have hvalue : leValue (leBytes 2 a.length) = a.length :=
      leValue_leBytes (Nat.lt_of_le_of_lt hshort (by decide))
    rw [readString, takeBytes_append (by simp)]
    simp only [Option.bind_eq_bind, Option.bind_some]
    rw [takeBytes_append hvalue.symm]

/-- The loop of `Load` reads the records that `Save` writes, and no others. -/
theorem readRecord_eq_some_iff {bs a b rest : Bytes} {cnt : UInt32} :
    readRecord bs = some ((a, b, cnt), rest) ↔ Fits (a, b) ∧ bs = record a b cnt ++ rest := by
  constructor
  · intro h
    simp only [readRecord, Option.bind_eq_bind, Option.bind_eq_some_iff, Option.some.injEq,
      Prod.mk.injEq, Prod.exists] at h
    obtain ⟨a', bs₁, ha, b', bs₂, hb, low, bs₃, hlow, ⟨rfl, rfl, rfl⟩, rfl⟩ := h
    obtain ⟨hshort, rfl⟩ := readString_eq_some_iff.mp ha
    obtain ⟨hshort', rfl⟩ := readString_eq_some_iff.mp hb
    obtain ⟨rfl, hfour⟩ := takeBytes_eq_some hlow
    have hlt := leValue_lt low
    rw [hfour] at hlt
    have hcnt : leBytes 4 (UInt32.ofNat (leValue low)).toNat = low := by
      rw [UInt32.toNat_ofNat', Nat.mod_eq_of_lt (by omega), ← hfour, leBytes_leValue]
    refine ⟨⟨hshort, hshort'⟩, ?_⟩
    rw [record, if_neg (by omega), hcnt]
    simp
  · intro h
    obtain ⟨⟨ha, hb⟩, rfl⟩ := h
    dsimp only at ha hb
    have hcnt : UInt32.ofNat (leValue (leBytes 4 cnt.toNat)) = cnt := by
      rw [leValue_leBytes cnt.toNat_lt]
      simp
    have hfirst : ∀ tail, readString (leBytes 2 a.length ++ (a ++ tail)) = some (a, tail) :=
      fun _ => readString_eq_some_iff.mpr ⟨ha, rfl⟩
    have hsecond : ∀ tail, readString (leBytes 2 b.length ++ (b ++ tail)) = some (b, tail) :=
      fun _ => readString_eq_some_iff.mpr ⟨hb, rfl⟩
    rw [record, if_neg (by omega)]
    simp only [List.flatten_cons, List.flatten_nil, List.append_nil, List.append_assoc, readRecord,
      hfirst, hsecond, Option.bind_eq_bind, Option.bind_some]
    rw [takeBytes_append (by simp)]
    simp only [Option.bind_some, hcnt]

theorem readHeader_eq_some_iff {bs rest : Bytes} {pairCount : Nat} :
    readHeader bs = some (pairCount, rest) ↔
      pairCount < 2 ^ 32 ∧ bs = fileHeader pairCount ++ rest := by
  constructor
  · intro h
    simp only [readHeader, Option.bind_eq_bind, Option.bind_eq_some_iff, Prod.exists] at h
    obtain ⟨magic, bs₁, hmagic, version, bs₂, hversion, count, bs₃, hcount, h⟩ := h
    obtain ⟨⟨rfl, hone⟩, heq⟩ := Option.ite_none_right_eq_some.mp h
    obtain ⟨rfl, rfl⟩ := Prod.mk.inj (Option.some.inj heq)
    obtain ⟨rfl, -⟩ := takeBytes_eq_some hmagic
    obtain ⟨rfl, hfour⟩ := takeBytes_eq_some hversion
    obtain ⟨rfl, hfour'⟩ := takeBytes_eq_some hcount
    have hlt := leValue_lt count
    rw [hfour'] at hlt
    refine ⟨by omega, ?_⟩
    rw [fileHeader, ← hone, ← hfour, leBytes_leValue, hfour, ← hfour', leBytes_leValue]
    simp
  · intro h
    obtain ⟨hlt, rfl⟩ := h
    simp only [fileHeader, List.flatten_cons, List.flatten_nil, List.append_nil, List.append_assoc,
      readHeader]
    rw [takeBytes_append (by rfl)]
    simp only [Option.bind_eq_bind, Option.bind_some]
    rw [takeBytes_append (by simp)]
    simp only [Option.bind_some]
    rw [takeBytes_append (by simp)]
    simp only [Option.bind_some]
    rw [leValue_leBytes (by decide), leValue_leBytes (by omega)]
    rfl

/-- Assign counts one after another. -/
def assignAll (table : NgramTable) (rs : List ((Bytes × Bytes) × UInt32)) : NgramTable :=
  rs.foldl (fun t r => t.assign r.1.1 r.1.2 r.2) table

theorem loadRecords_append {rs : List ((Bytes × Bytes) × UInt32)} (h : ∀ r ∈ rs, Fits r.1)
    (k : Nat) (rest : Bytes) (t : NgramTable) :
    loadRecords (rs.length + k) (recordsBytes rs ++ rest) t =
      loadRecords k rest (t.assignAll rs) := by
  induction rs generalizing t with
  | nil =>
      rw [List.length_nil, Nat.zero_add]
      rfl
  | cons r rs ih =>
      obtain ⟨hr, hrs⟩ := List.forall_mem_cons.mp h
      have hread : readRecord (recordsBytes (r :: rs) ++ rest) =
          some ((r.1.1, r.1.2, r.2), recordsBytes rs ++ rest) := by
        rw [readRecord_eq_some_iff, recordsBytes, List.flatMap_cons, List.append_assoc]
        exact ⟨hr, rfl⟩
      rw [List.length_cons, Nat.add_right_comm, loadRecords, hread]
      exact ih hrs _

theorem find_assignAll {rs : List ((Bytes × Bytes) × UInt32)} (h : (rs.map Prod.fst).Nodup)
    (t : NgramTable) (a b : Bytes) :
    (∀ cnt, ((a, b), cnt) ∈ rs → (t.assignAll rs).find a b = some cnt) ∧
    ((a, b) ∉ rs.map Prod.fst → (t.assignAll rs).find a b = t.find a b) := by
  induction rs generalizing t with
  | nil => exact ⟨fun _ hr => absurd hr List.not_mem_nil, fun _ => rfl⟩
  | cons r rs ih =>
      obtain ⟨hnot, hnodup⟩ := List.nodup_cons.mp h
      obtain ⟨hmem, hout⟩ := ih hnodup (t.assign r.1.1 r.1.2 r.2)
      have hstep : t.assignAll (r :: rs) = (t.assign r.1.1 r.1.2 r.2).assignAll rs := rfl
      rw [hstep]
      constructor
      · intro cnt hr
        rcases List.mem_cons.mp hr with rfl | hr
        · rw [hout hnot, find_assign, if_pos rfl]
        · exact hmem cnt hr
      · intro hr
        rw [List.map_cons, List.mem_cons, not_or] at hr
        rw [hout hr.2, find_assign, if_neg hr.1]

theorem Iterates.find_assignAll {table : NgramTable} {rs : List ((Bytes × Bytes) × UInt32)}
    (h : table.Iterates rs) (a b : Bytes) :
    (assignAll ∅ rs).find a b = table.find a b := by
  obtain ⟨hmem, hout⟩ := NgramTable.find_assignAll h.nodup ∅ a b
  cases hfind : table.find a b with
  | some cnt => exact hmem cnt (h.mem.mpr hfind)
  | none =>
      rw [hout]
      · rfl
      · intro hp
        obtain ⟨⟨p, cnt⟩, hr, rfl⟩ := List.mem_map.mp hp
        rw [h.mem.mp hr] at hfind
        cases hfind

theorem load_header {pairCount : Nat} (h : pairCount < 2 ^ 32) (rest : Bytes) :
    load (some (fileHeader pairCount ++ rest)) = loadRecords pairCount rest ∅ := by
  rw [load, Option.bind_some, readHeader_eq_some_iff.mpr ⟨h, rfl⟩]

/-- **What is saved comes back**, whatever the order in which the tables are
visited. -/
theorem load_written (hstorable : table.Storable) (hsize : table.size < 2 ^ 32)
    {rs : List ((Bytes × Bytes) × UInt32)} (hrs : table.Iterates rs) :
    load (some (table.written rs)) = (true, assignAll ∅ rs) := by
  have hfits : ∀ r ∈ rs, Fits r.1 := fun r hr => hstorable r.1.1 r.1.2 (by simp [hrs.mem.mp hr])
  have hread := loadRecords_append hfits 0 [] ∅
  rw [List.append_nil, Nat.add_zero, hrs.length] at hread
  rw [written, UInt32.toNat_ofNat', Nat.mod_eq_of_lt hsize, load_header hsize, hread]
  rfl

theorem load_contents (hstorable : table.Storable) (hsize : table.size < 2 ^ 32) :
    (load (some (table.contents hash))).1 = true ∧
      ∀ a b, (load (some (table.contents hash))).2.find a b = table.find a b := by
  have hrs := iterates_records hash table
  rw [contents_eq, load_written table hstorable hsize hrs]
  exact ⟨rfl, hrs.find_assignAll⟩

/-! ### What a file holds -/

theorem storable_empty : Storable ∅ := fun _ _ h => absurd rfl h

theorem Storable.assign {t : NgramTable} (h : t.Storable) {a b : Bytes}
    (ha : a.length ≤ uint16Max) (hb : b.length ≤ uint16Max) (cnt : UInt32) :
    (t.assign a b cnt).Storable := by
  intro c d hfind
  rw [find_assign] at hfind
  split_ifs at hfind with heq
  · obtain ⟨rfl, rfl⟩ := Prod.mk.inj heq
    exact ⟨ha, hb⟩
  · exact h c d hfind

theorem storable_loadRecords {n : Nat} {bs : Bytes} {t : NgramTable} (h : t.Storable) :
    (loadRecords n bs t).2.Storable := by
  induction n generalizing bs t with
  | zero => exact h
  | succ n ih =>
      rw [loadRecords]
      cases hr : readRecord bs with
      | none => exact h
      | some r =>
          obtain ⟨⟨a, b, cnt⟩, rest⟩ := r
          obtain ⟨⟨ha, hb⟩, -⟩ := readRecord_eq_some_iff.mp hr
          exact ih (h.assign ha hb cnt)

/-- A table that was read from a file can be written again. -/
theorem storable_load (file : Option Bytes) : (load file).2.Storable := by
  unfold load
  cases file.bind readHeader with
  | none => exact storable_empty
  | some p => exact storable_loadRecords storable_empty

/-! ### Tables that grow -/

/-- The pairs of a table that counted further pairs. -/
theorem find_addBigrams {pairs : List (Bytes × Bytes)} (h : ∀ p ∈ pairs, p.1 ≠ [] ∧ p.2 ≠ [])
    {a b : Bytes} :
    (table.addBigrams pairs).find a b ≠ none ↔ table.find a b ≠ none ∨ (a, b) ∈ pairs := by
  induction pairs generalizing table with
  | nil => simp [addBigrams]
  | cons p ps ih =>
      obtain ⟨hfst, hsnd⟩ := h p (by simp)
      have hstep : table.addBigrams (p :: ps) = (table.incrementBigram p.1 p.2).addBigrams ps := rfl
      rw [hstep, ih _ fun q hq => h q (by simp [hq]), find_incrementBigram _ hfst hsnd,
        List.mem_cons]
      by_cases hp : (a, b) = p
      · subst hp
        simp
      · rw [if_neg hp]
        simp [hp]

/-- A table with short keys can still be written after it counted pairs of
characters. -/
theorem Storable.addBigrams {t : NgramTable} (h : t.Storable) (entries : List HistoryEntry) :
    (t.addBigrams (bigrams entries)).Storable := by
  intro a b hfind
  rcases (find_addBigrams t (bigrams_ne_nil entries)).mp hfind with hfind | hmem
  · exact h a b hfind
  · obtain ⟨⟨_, ha⟩, _, hb⟩ := mem_characters_of_mem_bigrams hmem
    have := (length_of_mem_characters ha).2
    have := (length_of_mem_characters hb).2
    rw [uint16Max]
    dsimp only at *
    omega

/-- The pairs of a table. -/
def pairs (table : NgramTable) : List (Bytes × Bytes) := (table.records .stored).map Prod.fst

theorem mem_pairs {a b : Bytes} : (a, b) ∈ table.pairs ↔ table.find a b ≠ none := by
  rw [pairs, List.mem_map, Option.ne_none_iff_exists']
  constructor
  · rintro ⟨⟨p, cnt⟩, hr, rfl⟩
    exact ⟨cnt, (mem_records _ _).mp hr⟩
  · intro h
    obtain ⟨cnt, hcnt⟩ := h
    exact ⟨((a, b), cnt), (mem_records _ _).mpr hcnt, rfl⟩

theorem length_pairs : table.pairs.length = table.size := by
  rw [pairs, List.length_map, length_records]

theorem size_assign_le (a b : Bytes) (cnt : UInt32) :
    (table.assign a b cnt).size ≤ table.size + 1 := by
  rw [← length_pairs table]
  refine @size_le _ ((a, b) :: table.pairs) fun c d hfind => ?_
  rw [find_assign] at hfind
  split_ifs at hfind with heq
  · rw [heq]
    exact List.mem_cons_self
  · exact List.mem_cons_of_mem _ ((mem_pairs table).mpr hfind)

theorem size_loadRecords_le (n : Nat) (bs : Bytes) (t : NgramTable) :
    (loadRecords n bs t).2.size ≤ t.size + n := by
  induction n generalizing bs t with
  | zero => simp [loadRecords]
  | succ n ih =>
      rw [loadRecords]
      cases readRecord bs with
      | none => simp
      | some r =>
          obtain ⟨⟨a, b, cnt⟩, rest⟩ := r
          have hrest := ih rest (t.assign a b cnt)
          have hone := size_assign_le t a b cnt
          dsimp only
          omega

/-- The number of pairs in a file is a `uint32_t`. -/
theorem size_load_lt (file : Option Bytes) : (load file).2.size < 2 ^ 32 := by
  unfold load
  cases hheader : file.bind readHeader with
  | none => decide
  | some p =>
      obtain ⟨pairCount, bs⟩ := p
      obtain ⟨bytes, -, hbytes⟩ := Option.bind_eq_some_iff.mp hheader
      have hlt := (readHeader_eq_some_iff.mp hbytes).1
      have hle := size_loadRecords_le pairCount bs ∅
      have hempty : size ∅ = 0 := rfl
      dsimp only
      omega

end NgramTable

end Dafeng.Learning
