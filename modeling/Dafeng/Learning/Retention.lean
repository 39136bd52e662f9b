import Mathlib.Data.List.Perm.Subperm
import Dafeng.Learning.History

/-!
# Dafeng.Learning.Retention

What leaves the history store (`SqliteHistoryStore::Prune` of
`src/daemon/history_store.cc`). The cutoff is computed modulo 2^64 and handed to
SQLite as a signed integer, so that it can come out in the future.
-/

namespace Dafeng.Learning

open Dafeng.Protocol

namespace SqliteHistoryStore

/-- `id INTEGER PRIMARY KEY AUTOINCREMENT`: every row has a positive signed id of
its own, and a new row gets one above all that were ever given out. -/
structure Keyed (db : SqliteHistoryStore) : Prop where
  increasing : db.rows.Pairwise fun a b => a.id < b.id
  positive : ∀ e ∈ db.rows, 0 < e.id
  below : ∀ e ∈ db.rows, e.id < db.nextId
  nextId : 0 < db.nextId ∧ db.nextId.toNat ≤ 2 ^ 63

/-- `Insert`, which fails when the ids are used up. -/
def insertRow (db : SqliteHistoryStore) (nowUs : UInt64) (ev : CommitEvent) :
    Option SqliteHistoryStore :=
  if db.nextId.toNat < 2 ^ 63 then some (db.insert nowUs ev) else none

/-- `DELETE FROM commits WHERE`: the rows that stay, and how many went. -/
def deleteWhere (db : SqliteHistoryStore) (p : HistoryEntry → Bool) : SqliteHistoryStore × Nat :=
  ({ db with rows := db.rows.filter fun e => !p e }, db.rows.countP p)

/-- `cutoff_us`, as the statement gets it. -/
def cutoffUs (nowUs : UInt64) (olderThan : Int64) : Int64 :=
  (nowUs - olderThan.toUInt64 * 1000000).toInt64

/-- `ts_us < ?`. -/
def expired (cutoff : Int64) (e : HistoryEntry) : Bool := e.tsUs.toInt64 < cutoff

/-- `Prune` at the time `nowUs`; the parameter is `sqlite3_changes`, whose answer is
an `int`. -/
def prune (changes : Nat → Int32) (db : SqliteHistoryStore) (nowUs : UInt64)
    (olderThan : Int64) : SqliteHistoryStore × UInt64 :=
  let (db', deleted) := db.deleteWhere (expired (cutoffUs nowUs olderThan))
  (db', (changes deleted).toInt64.toUInt64)

variable {db : SqliteHistoryStore}

/-! ### The key -/

theorem Keyed.empty : Keyed {} := ⟨.nil, by simp, by simp, by decide⟩

theorem Keyed.insertRow {nowUs : UInt64} {ev : CommitEvent} {db' : SqliteHistoryStore}
    (h : db.Keyed) (hinsert : db.insertRow nowUs ev = some db') : db'.Keyed := by
  unfold SqliteHistoryStore.insertRow at hinsert
  split at hinsert
  case isFalse => cases hinsert
  case isTrue hroom =>
    cases hinsert
    have hnext : (db.nextId + 1).toNat = db.nextId.toNat + 1 := by
      rw [UInt64.toNat_add, UInt64.toNat_one, Nat.mod_eq_of_lt (by omega)]
    have hlt : db.nextId < db.nextId + 1 := by
      rw [UInt64.lt_iff_toNat_lt, hnext]
      omega
    have hpos := h.nextId.1
    refine ⟨?_, ?_, ?_, ?_⟩
    · refine List.pairwise_append.mpr ⟨h.increasing, List.pairwise_singleton _ _, ?_⟩
      intro a ha b hb
      rw [List.mem_singleton.mp hb]
      exact h.below a ha
    · intro e he
      rcases List.mem_append.mp he with he | he
      · exact h.positive e he
      · rw [List.mem_singleton.mp he]
        exact hpos
    · intro e he
      rcases List.mem_append.mp he with he | he
      · exact UInt64.lt_trans (h.below e he) hlt
      · rw [List.mem_singleton.mp he]
        exact hlt
    · refine ⟨UInt64.lt_trans hpos hlt, ?_⟩
      change (db.nextId + 1).toNat ≤ 2 ^ 63
      omega

theorem length_insertRow {nowUs : UInt64} {ev : CommitEvent} {db' : SqliteHistoryStore}
    (h : db.insertRow nowUs ev = some db') : db'.rows.length = db.rows.length + 1 := by
  unfold insertRow at h
  split at h
  case isFalse => cases h
  case isTrue =>
    cases h
    simp [insert]

theorem Keyed.deleteWhere (h : db.Keyed) (p : HistoryEntry → Bool) :
    (db.deleteWhere p).1.Keyed where
  increasing := h.increasing.sublist List.filter_sublist
  positive e he := h.positive e (List.mem_filter.mp he).1
  below e he := h.below e (List.mem_filter.mp he).1
  nextId := h.nextId

/-- The ids bound the number of rows. -/
theorem Keyed.length_lt (h : db.Keyed) : db.rows.length < 2 ^ 63 := by
  have hnodup : (db.rows.map fun e => e.id.toNat).Nodup := by
    refine List.pairwise_map.mpr (h.increasing.imp fun hlt => ?_)
    rw [UInt64.lt_iff_toNat_lt] at hlt
    omega
  have hsub : db.rows.map (fun e => e.id.toNat) ⊆ List.range' 1 (2 ^ 63 - 1) := by
    intro i hi
    obtain ⟨e, he, rfl⟩ := List.mem_map.mp hi
    have hpos := UInt64.lt_iff_toNat_lt.mp (h.positive e he)
    have hbelow := UInt64.lt_iff_toNat_lt.mp (h.below e he)
    have hnext := h.nextId.2
    rw [UInt64.toNat_zero] at hpos
    exact List.mem_range'_1.mpr ⟨hpos, by omega⟩
  have hlen := (List.subperm_of_subset hnodup hsub).length_le
  rw [List.length_map, List.length_range'] at hlen
  omega

theorem length_deleteWhere (db : SqliteHistoryStore) (p : HistoryEntry → Bool) :
    (db.deleteWhere p).1.rows.length + (db.deleteWhere p).2 = db.rows.length := by
  have := List.length_eq_countP_add_countP p (l := db.rows)
  simp only [deleteWhere, ← List.countP_eq_length_filter]
  simp only [Bool.not_eq_true, Bool.decide_eq_false] at this
  omega

/-! ### Ages -/

/-- How long ago an entry was written, in microseconds. -/
def age (nowUs : UInt64) (e : HistoryEntry) : Int :=
  nowUs.toInt64.toInt - e.tsUs.toInt64.toInt

/-- An entry that `Prune(older_than)` is meant to delete. -/
def tooOld (nowUs : UInt64) (olderThan : Int64) (e : HistoryEntry) : Bool :=
  olderThan.toInt * 1000000 < age nowUs e

/-- `Prune` deletes what is too old, and nothing else, and says how much that was. -/
def PrunesTooOld (changes : Nat → Int32) (db : SqliteHistoryStore) (nowUs : UInt64)
    (olderThan : Int64) : Prop :=
  (db.prune changes nowUs olderThan).1 =
      { db with rows := db.rows.filter fun e => !tooOld nowUs olderThan e } ∧
    (db.prune changes nowUs olderThan).2.toNat = db.rows.countP (tooOld nowUs olderThan)

/-- The cutoff is the moment that it should be, modulo 2^64. -/
theorem toInt_cutoffUs (nowUs : UInt64) (olderThan : Int64) :
    (cutoffUs nowUs olderThan).toInt =
      (nowUs.toInt64.toInt - olderThan.toInt * 1000000).bmod (2 ^ 64) := by
  have hmillion : (1000000 : UInt64).toInt64.toInt = 1000000 := by decide
  rw [cutoffUs, UInt64.toInt64_sub, UInt64.toInt64_mul, Int64.toInt64_toUInt64 olderThan,
    Int64.toInt_sub, Int64.toInt_mul, hmillion, Int.sub_bmod_bmod]

theorem expired_iff {nowUs : UInt64} {olderThan : Int64} {e : HistoryEntry} :
    expired (cutoffUs nowUs olderThan) e = true ↔
      e.tsUs.toInt64.toInt <
        (nowUs.toInt64.toInt - olderThan.toInt * 1000000).bmod (2 ^ 64) := by
  rw [expired, decide_eq_true_iff, Int64.lt_iff_toInt_lt, toInt_cutoffUs]

theorem tooOld_iff {nowUs : UInt64} {olderThan : Int64} {e : HistoryEntry} :
    tooOld nowUs olderThan e = true ↔
      e.tsUs.toInt64.toInt < nowUs.toInt64.toInt - olderThan.toInt * 1000000 := by
  rw [tooOld, decide_eq_true_iff, age]
  omega

/-- No time stamp is before the beginning of signed time. -/
theorem tooOld_eq_false_of_wrap {nowUs : UInt64} {olderThan : Int64}
    (hwrap : nowUs.toInt64.toInt + 2 ^ 63 < olderThan.toInt * 1000000) (e : HistoryEntry) :
    tooOld nowUs olderThan e = false := by
  have := e.tsUs.toInt64.le_toInt
  rw [← Bool.not_eq_true, tooOld_iff]
  omega

/-- A cutoff that does not wrap selects what is too old. -/
theorem expired_eq_tooOld {nowUs : UInt64} {olderThan : Int64} (hpos : 0 ≤ olderThan.toInt)
    (hnowrap : olderThan.toInt * 1000000 ≤ nowUs.toInt64.toInt + 2 ^ 63) (e : HistoryEntry) :
    expired (cutoffUs nowUs olderThan) e = tooOld nowUs olderThan e := by
  have hnow := nowUs.toInt64.toInt_lt
  have hcutoff : (nowUs.toInt64.toInt - olderThan.toInt * 1000000).bmod (2 ^ 64) =
      nowUs.toInt64.toInt - olderThan.toInt * 1000000 :=
    Int.bmod_eq_of_le (by omega) (by omega)
  rw [Bool.eq_iff_iff, expired_iff, tooOld_iff, hcutoff]

/-- The rows that stay are the right ones exactly when the condition agrees on all. -/
theorem filter_not_eq_iff {α : Type*} {p q : α → Bool} {l : List α} :
    (l.filter fun a => !p a) = (l.filter fun a => !q a) ↔ ∀ a ∈ l, p a = q a := by
  constructor
  · intro h a ha
    have hmem : a ∈ (l.filter fun a => !p a) ↔ a ∈ (l.filter fun a => !q a) := by rw [h]
    simpa [ha] using hmem
  · intro h
    exact List.filter_congr fun a ha => by rw [h a ha]

/-- The rows that go are the right ones when the cutoff does not wrap, or wraps to a
moment before all of them. -/
theorem rows_prune_iff {nowUs : UInt64} {olderThan : Int64} (hpos : 0 ≤ olderThan.toInt) :
    (∀ e ∈ db.rows, expired (cutoffUs nowUs olderThan) e = tooOld nowUs olderThan e) ↔
      olderThan.toInt * 1000000 ≤ nowUs.toInt64.toInt + 2 ^ 63 ∨
        ∀ e ∈ db.rows, (nowUs.toInt64.toInt - olderThan.toInt * 1000000).bmod (2 ^ 64) ≤
          e.tsUs.toInt64.toInt := by
  by_cases hwrap : olderThan.toInt * 1000000 ≤ nowUs.toInt64.toInt + 2 ^ 63
  · exact iff_of_true (fun e _ => expired_eq_tooOld hpos hwrap e) (.inl hwrap)
  · -- nothing can be that old, so that nothing may go
    simp only [hwrap, false_or, tooOld_eq_false_of_wrap (Int.not_le.mp hwrap)]
    refine forall₂_congr fun e _ => ?_
    rw [← Bool.not_eq_true, expired_iff, Int.not_lt]

/-- The answer has room for 2^31 rows. -/
theorem toNat_changes_iff {changes : Nat → Int32}
    (hchanges : ∀ n, n < 2 ^ 31 → (changes n).toInt = n) {n : Nat} (hn : n < 2 ^ 63) :
    (changes n).toInt64.toUInt64.toNat = n ↔ n < 2 ^ 31 := by
  have hlt := (changes n).toInt64.toUInt64.toNat_lt
  have hsign : (changes n).toInt =
      ((changes n).toInt64.toUInt64.toNat : Int).bmod (2 ^ 64) := by
    rw [← Int32.toInt_toInt64]
    exact BitVec.toInt_eq_toNat_bmod _
  constructor
  · intro heq
    -- a number that was not negative as an `int` has 31 bits
    have hint := (changes n).toInt_lt
    rw [hsign, heq, Int.bmod_eq_of_le (by omega) (by omega)] at hint
    omega
  · intro hlow
    rw [hchanges n hlow, Int.bmod_def] at hsign
    omega

/-- When `Prune` keeps its contract. The cutoff must not wrap past the beginning of
signed time, or must then lie before all that is stored; and the number of rows must
fit the answer of `sqlite3_changes`, which documents nothing above that. -/
theorem prune_tooOld_iff (changes : Nat → Int32)
    (hchanges : ∀ n, n < 2 ^ 31 → (changes n).toInt = n) (db : SqliteHistoryStore)
    (hkeyed : db.Keyed) (nowUs : UInt64) (olderThan : Int64) (hpos : 0 ≤ olderThan.toInt) :
    db.PrunesTooOld changes nowUs olderThan ↔
      (olderThan.toInt * 1000000 ≤ nowUs.toInt64.toInt + 2 ^ 63 ∨
        ∀ e ∈ db.rows, (nowUs.toInt64.toInt - olderThan.toInt * 1000000).bmod (2 ^ 64) ≤
          e.tsUs.toInt64.toInt) ∧
      db.rows.countP (tooOld nowUs olderThan) < 2 ^ 31 := by
  have hrows : (db.prune changes nowUs olderThan).1 =
      { db with rows := db.rows.filter fun e => !tooOld nowUs olderThan e } ↔
      ∀ e ∈ db.rows, expired (cutoffUs nowUs olderThan) e = tooOld nowUs olderThan e := by
    rw [← filter_not_eq_iff]
    simp [prune, deleteWhere]
  have hcount : db.rows.countP (tooOld nowUs olderThan) < 2 ^ 63 :=
    Nat.lt_of_le_of_lt List.countP_le_length hkeyed.length_lt
  rw [PrunesTooOld, hrows, ← rows_prune_iff hpos]
  refine and_congr_right fun hagree => ?_
  -- the rows that go are counted
  have hdeleted : (db.prune changes nowUs olderThan).2 =
      (changes (db.rows.countP (tooOld nowUs olderThan))).toInt64.toUInt64 := by
    have hcountP := List.countP_congr fun e he =>
      iff_of_eq (congrArg (· = true) (hagree e he))
    rw [← hcountP]
    rfl
  rw [hdeleted, toNat_changes_iff hchanges hcount]

/-- Ninety days on a store with an old and a new entry. -/
theorem prune_tooOld_iff_ninetyDays :
    SqliteHistoryStore.PrunesTooOld Int32.ofNat
      { rows := [{ id := 1, tsUs := 1600000000000000 }, { id := 2, tsUs := 1700000000000000 }]
        nextId := 3 } 1700000001000000 7776000 := by
  refine (prune_tooOld_iff Int32.ofNat ?_ _ ⟨?_, ?_, ?_, ?_⟩ _ _ ?_).mpr ⟨.inl ?_, ?_⟩
  · intro n hn
    exact Int32.toInt_ofNat_of_lt hn
  all_goals decide

/-- With the longest duration, "keep forever", the cutoff wraps into the future, and an
entry of one second ago is deleted. -/
theorem prune_forever_deletes :
    ¬ SqliteHistoryStore.PrunesTooOld Int32.ofNat
      { rows := [{ id := 1, tsUs := 1700000000000000 }], nextId := 2 } 1700000001000000
      Int64.maxValue := by
  intro h
  exact absurd (congrArg SqliteHistoryStore.rows h.1) (by decide)

end SqliteHistoryStore

end Dafeng.Learning
