import Dafeng.Library.Containers
import Dafeng.Protocol.Types

/-!
# Dafeng.Learning.History

The history of committed input (`src/daemon/history_store.cc`): the rows of the
table `commits`, and what the learners read of it.
-/

namespace Dafeng.Learning

open Dafeng.Protocol

/-- `HistoryEntry`. -/
structure HistoryEntry where
  id : UInt64 := 0
  tsUs : UInt64 := 0
  code : Bytes := []
  committedText : Bytes := []
  contextBefore : Bytes := []
  deriving DecidableEq, Repr

/-- The comparison of the two `std::sort` calls that arrange entries by time. -/
def earlier (a b : HistoryEntry) : Bool := a.tsUs < b.tsUs

/-- `ORDER BY ts_us DESC`; the column holds a signed integer. -/
def newer (a b : HistoryEntry) : Bool := b.tsUs.toInt64 < a.tsUs.toInt64

/-- The stable sorts by these comparisons. -/
def byTime : Sorter earlier :=
  .insertion _
    (fun a b => by simp only [earlier, decide_eq_false_iff_not, UInt64.lt_iff_toNat_lt]; omega)
    fun a b c => by simp only [earlier, decide_eq_false_iff_not, UInt64.lt_iff_toNat_lt]; omega

def newestFirst : Sorter newer :=
  .insertion _
    (fun a b => by simp only [newer, decide_eq_false_iff_not, Int64.lt_iff_toInt_lt]; omega)
    fun a b c => by simp only [newer, decide_eq_false_iff_not, Int64.lt_iff_toInt_lt]; omega

/-- The part of `IHistoryStore` that the learners read, at one moment. -/
structure HistoryStore where
  recentEntries : UInt64 → List HistoryEntry
  count : UInt64

/-- `SqliteHistoryStore`: the rows in the order they were inserted, and the id
that the next one gets. -/
structure SqliteHistoryStore where
  rows : List HistoryEntry := []
  nextId : UInt64 := 1
  deriving DecidableEq, Repr

namespace SqliteHistoryStore

/-- `Insert` at the time `nowUs`. -/
def insert (db : SqliteHistoryStore) (nowUs : UInt64) (ev : CommitEvent) : SqliteHistoryStore where
  rows := db.rows ++ [{
    id := db.nextId
    tsUs := nowUs
    code := ev.code
    committedText := ev.committedText
    contextBefore := ev.contextBefore }]
  nextId := db.nextId + 1

/-- `Count`. -/
def count (db : SqliteHistoryStore) : UInt64 := UInt64.ofNat db.rows.length

/-- `RecentEntries`. A negative `LIMIT` is no limit. -/
def recentEntries (orderBy : Sorter newer) (db : SqliteHistoryStore) (limit : UInt64) :
    List HistoryEntry :=
  let found := orderBy.sort db.rows
  if limit.toInt64 < 0 then found else found.take limit.toNat

/-- The store as an `IHistoryStore`. -/
def store (orderBy : Sorter newer) (db : SqliteHistoryStore) : HistoryStore where
  recentEntries := db.recentEntries orderBy
  count := db.count

variable {orderBy : Sorter newer} {db : SqliteHistoryStore}

theorem mem_of_mem_recentEntries {limit : UInt64} {e : HistoryEntry}
    (h : e ∈ db.recentEntries orderBy limit) : e ∈ db.rows := by
  unfold recentEntries at h
  dsimp only at h
  split at h
  · exact orderBy.mem_sort.mp h
  · exact orderBy.mem_sort.mp (List.mem_of_mem_take h)

/-- Within the limit all rows are read. -/
theorem recentEntries_perm {limit : UInt64} (h : db.rows.length ≤ limit.toNat) :
    (db.recentEntries orderBy limit).Perm db.rows := by
  have hlen : (orderBy.sort db.rows).length ≤ limit.toNat := by
    rwa [(orderBy.perm _).length_eq]
  unfold recentEntries
  dsimp only
  split
  · exact orderBy.perm _
  · rw [List.take_of_length_le hlen]
    exact orderBy.perm _

end SqliteHistoryStore

/-! ### Phrases -/

/-- Whether an entry follows another one without a pause longer than `gapUs`. -/
def close (gapUs : UInt64) (a b : HistoryEntry) : Bool :=
  b.tsUs.toNat ≤ a.tsUs.toNat + gapUs.toNat

/-- Entries in the order of time, cut at the pauses. -/
def phrases (gapUs : UInt64) (entries : List HistoryEntry) : List (List HistoryEntry) :=
  entries.splitBy (close gapUs)

theorem earlier_eq_false {a b : HistoryEntry} :
    earlier b a = false ↔ a.tsUs.toNat ≤ b.tsUs.toNat := by
  rw [earlier, decide_eq_false_iff_not, UInt64.lt_iff_toNat_lt]
  omega

/-- In the order of time the difference of two time stamps does not wrap. -/
theorem gap_lt_sub_iff {gapUs : UInt64} {a b : HistoryEntry} (h : a.tsUs.toNat ≤ b.tsUs.toNat) :
    gapUs < b.tsUs - a.tsUs ↔ close gapUs a b = false := by
  rw [close, decide_eq_false_iff_not, UInt64.lt_iff_toNat_lt,
    UInt64.toNat_sub_of_le _ _ (UInt64.le_iff_toNat_le.mpr h)]
  omega

end Dafeng.Learning
