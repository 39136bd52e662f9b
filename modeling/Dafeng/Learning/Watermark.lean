import Dafeng.Learning.AutoLearn

/-!
# Dafeng.Learning.Watermark

The runner decides by the number of rows whether there is something new. It takes
that number when a round is over; a commit that came after a scan of the round is
in the number, and was not read.
-/

namespace Dafeng.Learning

open Dafeng.Protocol Dafeng.Utf8
open Runner (Label)

/-! ### The rows of the store -/

/-- A store from which nothing was deleted: the ids count the rows. -/
structure SqliteHistoryStore.Numbered (db : SqliteHistoryStore) : Prop where
  nextId : db.nextId.toNat = db.rows.length + 1
  below : ∀ e ∈ db.rows, e.id.toNat < db.nextId.toNat
  nodup : db.rows.Nodup

namespace SqliteHistoryStore

variable {db : SqliteHistoryStore}

theorem Numbered.insert (h : db.Numbered) (hfew : db.rows.length < 5000) (nowUs : UInt64)
    (ev : CommitEvent) : (db.insert nowUs ev).Numbered := by
  have hid := h.nextId
  have hnext : (db.nextId + 1).toNat = db.nextId.toNat + 1 := by
    rw [UInt64.toNat_add, UInt64.toNat_one, Nat.mod_eq_of_lt (by omega)]
  refine ⟨?_, ?_, ?_⟩
  · simp [SqliteHistoryStore.insert, hnext, hid]
  · intro e he
    change e.id.toNat < (db.nextId + 1).toNat
    rcases List.mem_append.mp he with he | he
    · have := h.below e he
      omega
    · rw [List.mem_singleton.mp he]
      dsimp only
      omega
  · refine List.nodup_append.mpr ⟨h.nodup, List.nodup_singleton _, fun e he e' he' heq => ?_⟩
    -- the new row has an id of its own
    have := h.below e he
    rw [heq, List.mem_singleton.mp he'] at this
    exact absurd this (Nat.lt_irrefl _)

theorem toNat_count (h : db.rows.length ≤ 5000) : db.count.toNat = db.rows.length := by
  rw [count, UInt64.toNat_ofNat', Nat.mod_eq_of_lt (by omega)]

/-- A row that stands behind the first `n` is none of them. -/
theorem Numbered.exists_late_iff (h : db.Numbered) {start n : Nat} (hstart : start ≤ n)
    (hn : n ≤ db.rows.length) :
    (∃ e ∈ db.rows.drop start, e ∉ db.rows.take n) ↔ n ≠ db.rows.length := by
  constructor
  · rintro ⟨e, he, hlate⟩ rfl
    exact hlate (by rw [List.take_length]; exact List.mem_of_mem_drop he)
  · intro hne
    have hlt : n < db.rows.length := by omega
    refine ⟨db.rows[n], ?_, fun htake => ?_⟩
    · have hdrop : db.rows[n] ∈ db.rows.drop n := by
        rw [List.drop_eq_getElem_cons hlt]
        exact List.mem_cons_self
      exact List.drop_subset_drop_left db.rows hstart hdrop
    · obtain ⟨i, hi, heq⟩ := List.mem_iff_getElem.mp htake
      rw [List.getElem_take] at heq
      have hin : i = n := (List.Nodup.getElem_inj_iff h.nodup).mp heq
      rw [List.length_take] at hi
      omega

end SqliteHistoryStore

/-! ### The invariant -/

/-- The scan is behind the round when the round does this next. -/
def Scan.done : Scan → Stage → Bool
  | _, .count => false
  | _, .bigrams => false
  | .bigrams, _ => true
  | .words, .words => false
  | .words, _ => true

/-- A reading had all rows that there were. -/
structure Reading.Whole (r : Reading) (db : SqliteHistoryStore) : Prop where
  rows_le : r.rows ≤ db.rows.length
  perm : r.entries.Perm (db.rows.take r.rows)

/-- What holds while nothing is deleted and the rows are within the limit. -/
structure Runner.Inv (s : Runner) : Prop where
  numbered : s.db.Numbered
  few : s.db.rows.length ≤ 5000
  counted : s.lastRoundEntryCount.toNat ≤ s.db.rows.length
  /-- A round runs only where the gate was open. -/
  fresh : s.round ≠ none → s.lastRoundEntryCount.toNat < s.db.rows.length
  start_le : ∀ row ∈ s.startRow, row ≤ s.db.rows.length
  running : s.round ≠ none → s.started = true
  begun : s.started = true → s.startRow ≠ none
  whole : ∀ scan, (s.reading.of scan).Whole s.db
  /-- Its scans came behind `Start`. -/
  since : ∀ scan, ∀ r ∈ s.round, scan.done r.1 = true → ∀ row ∈ s.startRow,
    row ≤ (s.reading.of scan).rows

/-- The entries that were inserted after `Start`. -/
def Runner.sinceStart (s : Runner) : List HistoryEntry :=
  match s.startRow with
  | some row => s.db.rows.drop row
  | none => []

/-- With no round in progress: where an entry since `Start` was not read by the
scan of the last completed round, the gate for new entries is open. -/
def Runner.Noticed (scan : Scan) (s : Runner) : Prop :=
  s.round = none → (∃ e ∈ s.sinceStart, e ∉ (s.scanned.of scan).entries) →
    s.lastRoundEntryCount < s.db.count

/-- No row was inserted between the scan and the final count. -/
def Runner.InTime (scan : Scan) (s : Runner) : Label → Prop
  | .finish _ _ => (s.reading.of scan).rows = s.db.rows.length
  | _ => True

/-- The steps that keep the rows within the limit of the scans. -/
def withinLimit (s : Runner) : Label → Bool
  | .insert _ _ => s.db.rows.length < 5000
  | _ => true

namespace Reading

variable {db : SqliteHistoryStore}

theorem Whole.insert {r : Reading} (h : r.Whole db) (nowUs : UInt64) (ev : CommitEvent) :
    r.Whole (db.insert nowUs ev) := by
  have hle := h.rows_le
  refine ⟨?_, ?_⟩
  · simp only [SqliteHistoryStore.insert, List.length_append]
    omega
  · rw [SqliteHistoryStore.insert, List.take_append_of_le_length hle]
    exact h.perm

end Reading

/-- A scan reads all rows. -/
theorem Runner.read_whole (p : Platform) {s : Runner} (h : s.db.rows.length ≤ 5000) :
    (s.read p 5000).Whole s.db := by
  refine ⟨Nat.le_refl _, ?_⟩
  rw [Runner.read, List.take_length]
  exact @SqliteHistoryStore.recentEntries_perm p.orderBy s.db 5000 h

/-- The invariant holds of a new runner. -/
theorem inv_init (p : Platform) (cfg : AutoLearnConfig) (steady : Int) (file : Option Bytes) :
    (autoLearner p cfg steady file).init.Inv where
  numbered := ⟨rfl, by simp [autoLearner], by simp [autoLearner]⟩
  few := by simp [autoLearner]
  counted := by simp [autoLearner]
  fresh h := absurd rfl h
  start_le := by simp [autoLearner]
  running h := absurd rfl h
  begun := by simp [autoLearner]
  whole scan := by cases scan <;> exact ⟨Nat.le_refl _, .refl _⟩
  since := by simp [autoLearner]

section Step

variable {p : Platform} {cfg : AutoLearnConfig} {s s' : Runner} {l : Label}

/-- A step within a round. -/
theorem Runner.Inv.advance (h : s.Inv) {stage stage' : Stage} {r r' : Round}
    (hround : s.round = some (stage, r)) {reading : Readings} (file : Option Bytes)
    (hwhole : ∀ scan, (reading.of scan).Whole s.db)
    (hsince : ∀ scan, scan.done stage' = true → ∀ row ∈ s.startRow,
      row ≤ (reading.of scan).rows) :
    ({ s with round := some (stage', r'), reading, file } : Runner).Inv := by
  have hne : s.round ≠ none := by simp [hround]
  exact { h with
    fresh := fun _ => h.fresh hne
    running := fun _ => h.running hne
    whole := hwhole
    since := fun scan r hr hdone => by
      obtain rfl := Option.some.inj hr
      exact hsince scan hdone }

/-- Every step keeps the invariant. -/
theorem Runner.Inv.step (h : s.Inv) (hl : withinLimit s l = true)
    (hs : Runner.step p cfg s l = some s') : s'.Inv := by
  cases l with
  | insert nowUs ev =>
      obtain rfl := Option.some.inj hs
      have hfew : s.db.rows.length < 5000 := by simpa [withinLimit] using hl
      have hlen : (s.db.insert nowUs ev).rows.length = s.db.rows.length + 1 := by
        simp [SqliteHistoryStore.insert]
      exact { h with
        numbered := h.numbered.insert hfew nowUs ev
        few := by rw [hlen]; omega
        counted := by rw [hlen]; exact Nat.le_succ_of_le h.counted
        fresh := fun hround => by rw [hlen]; exact Nat.lt_succ_of_lt (h.fresh hround)
        start_le := fun row hrow => by rw [hlen]; exact Nat.le_succ_of_le (h.start_le row hrow)
        whole := fun scan => (h.whole scan).insert nowUs ev }
  | start steady =>
      obtain rfl := Option.some.inj hs
      split_ifs with hstarted
      · exact h
      · have hround : s.round = none := by
          by_contra hne
          exact hstarted (h.running hne)
        exact { h with
          counted := Nat.le_of_eq (SqliteHistoryStore.toNat_count h.few)
          fresh := fun hne => absurd hround hne
          start_le := fun row hrow => by simp [Runner.start] at hrow ⊢; omega
          running := fun _ => rfl
          begun := fun _ => by simp [Runner.start]
          since := fun scan r hr => by simp [Runner.start, hround] at hr }
  | stop =>
      simp only [Runner.step, Option.ite_none_right_eq_some] at hs
      obtain ⟨hround, hs⟩ := hs
      obtain rfl := Option.some.inj hs
      exact { h with
        running := fun hne => absurd hround hne
        begun := fun hfalse => by simp at hfalse }
  | tick now =>
      simp only [Runner.step, Option.ite_none_right_eq_some] at hs
      obtain ⟨⟨hstarted, -⟩, hs⟩ := hs
      split_ifs at hs with hrun
      · obtain rfl := Option.some.inj hs
        have hgate := (shouldRun_iff.mp hrun).1
        rw [UInt64.lt_iff_toNat_lt, SqliteHistoryStore.toNat_count h.few] at hgate
        exact { h with
          fresh := fun _ => hgate
          running := fun _ => hstarted
          since := fun scan r hr hdone => by
            obtain rfl := Option.some.inj hr
            cases scan <;> exact absurd hdone (by decide) }
      · obtain rfl := Option.some.inj hs
        exact h
  | count =>
      obtain ⟨r, hr, rfl⟩ := Option.map_eq_some_iff.mp hs
      rw [Runner.before_eq_some] at hr
      exact h.advance hr s.file h.whole fun scan hdone => by
        cases scan <;> exact absurd hdone (by decide)
  | scanBigrams =>
      obtain ⟨r, hr, rfl⟩ := Option.map_eq_some_iff.mp hs
      rw [Runner.before_eq_some] at hr
      refine h.advance hr s.file (fun scan => ?_) fun scan hdone row hrow => ?_
      · cases scan with
        | bigrams => exact Runner.read_whole p h.few
        | words => exact h.whole .words
      · cases scan with
        | bigrams => exact h.start_le row hrow
        | words => exact absurd hdone (by decide)
  | scanWords =>
      obtain ⟨r, hr, rfl⟩ := Option.map_eq_some_iff.mp hs
      rw [Runner.before_eq_some] at hr
      refine h.advance hr s.file (fun scan => ?_) fun scan hdone row hrow => ?_
      · cases scan with
        | bigrams => exact h.whole .bigrams
        | words => exact Runner.read_whole p h.few
      · cases scan with
        | bigrams => exact h.since .bigrams _ hr rfl row hrow
        | words => exact h.start_le row hrow
  | write w =>
      obtain ⟨r, hr, rfl⟩ := Option.map_eq_some_iff.mp hs
      rw [Runner.before_eq_some] at hr
      refine h.advance hr _ h.whole fun scan hdone row hrow => ?_
      cases scan with
      | bigrams => exact h.since .bigrams _ hr rfl row hrow
      | words => exact h.since .words _ hr rfl row hrow
  | throw steady =>
      obtain ⟨r, hr, rfl⟩ := Option.map_eq_some_iff.mp hs
      exact { h with
        fresh := fun hne => absurd rfl hne
        running := fun hne => absurd rfl hne
        since := fun scan r hr => by simp at hr }
  | finish steady deployed =>
      obtain ⟨r, hr, rfl⟩ := Option.map_eq_some_iff.mp hs
      exact { h with
        counted := Nat.le_of_eq (SqliteHistoryStore.toNat_count h.few)
        fresh := fun hne => absurd rfl hne
        running := fun hne => absurd rfl hne
        since := fun scan r hr => by simp [Runner.finish] at hr }

/-- After the final count the runner has noticed everything exactly if nothing was
inserted since the scan. -/
theorem Runner.Inv.finish_noticed_iff (h : s.Inv) (scan : Scan) {r : Round} (steady : Int)
    (deployed : Bool) (hr : s.round = some (.finish, r)) :
    (s.finish r steady deployed).Noticed scan ↔
      (s.reading.of scan).rows = s.db.rows.length := by
  obtain ⟨row, hrow⟩ := Option.ne_none_iff_exists'.mp
    (h.begun (h.running (by simp [hr])))
  have hread := h.whole scan
  have hlate := h.numbered.exists_late_iff (h.since scan _ hr (by cases scan <;> rfl) row hrow)
    hread.rows_le
  have hentries : (∃ e ∈ (s.finish r steady deployed).sinceStart,
      e ∉ ((s.finish r steady deployed).scanned.of scan).entries) ↔
      (s.reading.of scan).rows ≠ s.db.rows.length := by
    rw [← hlate]
    simp only [Runner.sinceStart, Runner.finish, hrow, hread.perm.mem_iff]
  have hclosed : ¬ (s.finish r steady deployed).lastRoundEntryCount <
      (s.finish r steady deployed).db.count := UInt64.lt_irrefl _
  constructor
  · intro hnoticed
    by_contra hne
    exact hclosed (hnoticed rfl (hentries.mpr hne))
  · intro heq _ hsome
    exact absurd heq (hentries.mp hsome)

/-- The step lemma: only the final count can make the runner overlook an entry. -/
theorem Runner.Inv.noticed_iff (h : s.Inv) {scan : Scan} (hnoticed : s.Noticed scan)
    (hl : withinLimit s l = true) (hs : Runner.step p cfg s l = some s') :
    s'.Noticed scan ↔ s.InTime scan l := by
  have hinv := h.step hl hs
  cases l with
  | insert nowUs ev =>
      obtain rfl := Option.some.inj hs
      refine iff_of_true (fun _ _ => ?_) trivial
      have hcounted := h.counted
      rw [UInt64.lt_iff_toNat_lt, SqliteHistoryStore.toNat_count hinv.few]
      simp only [SqliteHistoryStore.insert, List.length_append, List.length_singleton]
      omega
  | start steady =>
      obtain rfl := Option.some.inj hs
      refine iff_of_true ?_ trivial
      split_ifs
      · exact hnoticed
      · intro _ h
        obtain ⟨e, he, -⟩ := h
        simp [Runner.start, Runner.sinceStart] at he
  | stop =>
      simp only [Runner.step, Option.ite_none_right_eq_some] at hs
      obtain rfl := Option.some.inj hs.2
      exact iff_of_true hnoticed trivial
  | tick now =>
      simp only [Runner.step, Option.ite_none_right_eq_some] at hs
      obtain ⟨-, hs⟩ := hs
      split_ifs at hs with hrun
      · obtain rfl := Option.some.inj hs
        exact iff_of_true (fun hnone => by simp at hnone) trivial
      · obtain rfl := Option.some.inj hs
        exact iff_of_true hnoticed trivial
  | count =>
      obtain ⟨r, -, rfl⟩ := Option.map_eq_some_iff.mp hs
      exact iff_of_true (fun hnone => by simp at hnone) trivial
  | scanBigrams =>
      obtain ⟨r, -, rfl⟩ := Option.map_eq_some_iff.mp hs
      exact iff_of_true (fun hnone => by simp [Runner.scanBigrams] at hnone) trivial
  | scanWords =>
      obtain ⟨r, -, rfl⟩ := Option.map_eq_some_iff.mp hs
      exact iff_of_true (fun hnone => by simp [Runner.scanWords] at hnone) trivial
  | write w =>
      obtain ⟨r, -, rfl⟩ := Option.map_eq_some_iff.mp hs
      exact iff_of_true (fun hnone => by simp [Runner.write] at hnone) trivial
  | throw steady =>
      obtain ⟨r, hr, rfl⟩ := Option.map_eq_some_iff.mp hs
      -- the round that threw had found the gate open
      refine iff_of_true (fun _ _ => ?_) trivial
      rw [UInt64.lt_iff_toNat_lt, SqliteHistoryStore.toNat_count h.few]
      exact h.fresh (by simp [hr])
  | finish steady deployed =>
      obtain ⟨r, hr, rfl⟩ := Option.map_eq_some_iff.mp hs
      exact h.finish_noticed_iff scan steady deployed (Runner.before_eq_some.mp hr)

end Step

/-! ### Runs -/

variable (p : Platform) (cfg : AutoLearnConfig) (steady : Int) (file : Option Bytes)

/-- **No commit is overlooked**, in a run without deletions and within the limit of
the scans, exactly if no commit is inserted between a scan and the final count of
its round. -/
theorem autoLearner_noticed_iff (scan : Scan) (labels : List Label) (s : Runner)
    (hrun : ((autoLearner p cfg steady file).restrict withinLimit).run labels = some s) :
    (∀ labels' s', labels' <+: labels →
      ((autoLearner p cfg steady file).restrict withinLimit).run labels' = some s' →
        s'.Noticed scan) ↔
    ((autoLearner p cfg steady file).restrict withinLimit).each (Runner.InTime scan)
      ((autoLearner p cfg steady file).restrict withinLimit).init labels := by
  refine System.forall_reached_iff_each ?_ ?_ (inv_init p cfg steady file) ?_ hrun
  · intro s l s' h hs
    obtain ⟨hl, hs⟩ := System.restrict_step.mp hs
    exact h.step hl hs
  · intro s l s' h hnoticed hs
    obtain ⟨hl, hs⟩ := System.restrict_step.mp hs
    exact h.noticed_iff hnoticed hl hs
  · intro _ h
    obtain ⟨e, he, -⟩ := h
    simp [System.restrict, autoLearner, Runner.sinceStart] at he

/-- A commit, and a round that reads it. -/
def firstRound : List Label :=
  [.start 0, .insert 1000000 { committedText := encodeText ['弹'] }, .tick ⟨400000000, 400000000⟩,
    .count, .scanBigrams, .scanWords, .write {}, .finish 401000000 false]

theorem autoLearner_noticed_firstRound : ∃ s,
    ((autoLearner .stable {} 0 none).restrict withinLimit).run firstRound = some s ∧
      s.Noticed .words := by
  refine ⟨_, rfl, (autoLearner_noticed_iff .stable {} 0 none .words firstRound _ rfl).mpr ?_
    firstRound _ (List.prefix_refl _) rfl⟩
  exact (System.each_cons _ rfl).mpr ⟨trivial, (System.each_cons _ rfl).mpr ⟨trivial,
    (System.each_cons _ rfl).mpr ⟨trivial, (System.each_cons _ rfl).mpr ⟨trivial,
    (System.each_cons _ rfl).mpr ⟨trivial, (System.each_cons _ rfl).mpr ⟨trivial,
    (System.each_cons _ rfl).mpr ⟨trivial,
    (System.each_cons _ rfl).mpr ⟨by exact rfl, trivial⟩⟩⟩⟩⟩⟩⟩⟩

/-- A second commit, which comes while the files of the round are written. -/
def lateCommit : List Label :=
  [.start 0, .insert 1000000 { committedText := encodeText ['弹'] }, .tick ⟨400000000, 400000000⟩,
    .count, .scanBigrams, .scanWords, .insert 401000000 { committedText := encodeText ['窗'] },
    .write {}, .finish 402000000 false]

/-- No scan has read it, and the gate is closed. -/
theorem late_commit_overlooked : ¬ ∀ (scan : Scan) (labels : List Label) (s : Runner),
    ((autoLearner .stable {} 0 none).restrict withinLimit).run labels = some s →
      s.Noticed scan := by
  intro hall
  have hopen := hall .words lateCommit _ rfl rfl ⟨{
    id := 2, tsUs := 401000000, committedText := encodeText ['窗'] }, by decide, by decide⟩
  revert hopen
  decide

end Dafeng.Learning
