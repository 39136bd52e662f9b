import Dafeng.Learning.AutoLearn
import Dafeng.Learning.Retention

/-!
# Dafeng.Learning.Backlog

What the runner knows of the entries that it has not learned yet. It compares two
numbers of rows: rows that were deleted meanwhile hide as many new ones, and a round
that could not write its files takes its entries for learned.
-/

namespace Dafeng.Learning

open Dafeng.Protocol

/-! ### Whole ticks -/

/-- How a round goes: it throws, before its writes or behind them, or it returns. -/
inductive RoundEnd where
  | throws (wrote : Option Writes)
  | returns (w : Writes) (deployed : Bool)
  deriving DecidableEq, Repr

namespace Runner

/-- The round on the store as it is. -/
def learn (p : Platform) (cfg : AutoLearnConfig) (s : Runner) (w : Writes) :
    LearningRoundResult × Option Bytes :=
  runOneRound p s.db cfg.minNewWordFreq w s.file

/-- `RunOneRoundLocked`, with nothing in between. -/
def runOneRoundLocked (p : Platform) (cfg : AutoLearnConfig) (s : Runner) (steady : Int) :
    RoundEnd → Runner
  | .throws wrote =>
    { s with file := wrote.elim s.file fun w => (s.learn p cfg w).2, lastRoundAt := steady }
  | .returns w deployed =>
    let (result, file) := s.learn p cfg w
    { s with file }.finish { table := ∅, result } steady deployed

/-- `TickForTesting`, or one turn of `Loop`. -/
def wholeTick (p : Platform) (cfg : AutoLearnConfig) (s : Runner) (now : Clocks) (steady : Int)
    (e : RoundEnd) : Runner :=
  if shouldRun p cfg s now then s.runOneRoundLocked p cfg steady e else s

/-- The gates of `ShouldRunLocked` behind the first one: the interval and the pause. -/
def GatesOpen (p : Platform) (cfg : AutoLearnConfig) (s : Runner) (now : Clocks) : Prop :=
  (0 < cfg.minRoundInterval → cfg.minRoundInterval * 1000000 ≤ now.steady - s.lastRoundAt) ∧
    (0 < cfg.idleThreshold → ∀ latest ∈ latestCommitTimestamp p s.db,
      cfg.idleThreshold * 1000000 ≤ now.wall - latest)

/-- A whole tick is a run of the steps of the runner, in which nothing else comes. -/
theorem runFrom_wholeTick (p : Platform) (cfg : AutoLearnConfig) (steady : Int)
    (initial : Option Bytes) {s : Runner} {now : Clocks} (steady' : Int) (w : Writes)
    (deployed : Bool) (hstarted : s.started = true) (hround : s.round = none)
    (hrun : shouldRun p cfg s now = true) :
    ∃ reading, (autoLearner p cfg steady initial).runFrom s
      [.tick now, .count, .scanBigrams, .scanWords, .write w, .finish steady' deployed] =
        some { s.wholeTick p cfg now steady' (.returns w deployed) with
          reading, scanned := reading } := by
  have htick : (autoLearner p cfg steady initial).step s (.tick now) =
      some { s with round := some (.count, { table := ∅ }) } := by
    simp [autoLearner, Runner.step, hstarted, hround, hrun]
  rw [wholeTick, if_pos hrun]
  exact ⟨_, by rw [System.runFrom, htick]; rfl⟩

end Runner

/-! ### The backlog -/

/-- A runner that was started. The last three fields only record: how many entries were
inserted and how many rows were deleted since the last round that came to its end, or
since `Start`, and whether the latest round failed. -/
structure Backlog where
  runner : Runner
  inserted : Nat := 0
  deleted : Nat := 0
  failed : Bool := false
  deriving DecidableEq

inductive Backlog.Label where
  | insert (nowUs : UInt64) (ev : CommitEvent)
  | prune (nowUs : UInt64) (olderThan : Int64)
  | delete (ids : List UInt64)
  | tick (now : Clocks) (steady : Int) (e : RoundEnd)
  deriving DecidableEq

namespace Backlog

/-- Rows go. -/
def withDb (s : Backlog) (db : SqliteHistoryStore) : Backlog :=
  { s with
    runner := { s.runner with db }
    deleted := s.deleted + (s.runner.db.rows.length - db.rows.length) }

/-- A round goes to its end, or throws. -/
def afterRound (p : Platform) (cfg : AutoLearnConfig) (s : Backlog) (steady : Int)
    (e : RoundEnd) : Backlog :=
  let runner := s.runner.runOneRoundLocked p cfg steady e
  match e with
  | .throws _ => { s with runner, failed := true }
  | .returns w _ => { runner, failed := !(s.runner.learn p cfg w).1.ok }

/-- The step function. -/
def step (p : Platform) (cfg : AutoLearnConfig) (changes : Nat → Int32) (s : Backlog) :
    Label → Option Backlog
  | .insert nowUs ev =>
    match s.runner.db.insertRow nowUs ev with
    | some db => some { s with runner := { s.runner with db }, inserted := s.inserted + 1 }
    | none => some s
  | .prune nowUs olderThan => some (s.withDb (s.runner.db.prune changes nowUs olderThan).1)
  | .delete ids => some (s.withDb (s.runner.db.deleteWhere fun e => ids.contains e.id).1)
  | .tick now steady e =>
    some (if shouldRun p cfg s.runner now then s.afterRound p cfg steady e else s)

end Backlog

/-- A runner that is started on a store. -/
def backlog (p : Platform) (cfg : AutoLearnConfig) (changes : Nat → Int32)
    (db : SqliteHistoryStore) (file : Option Bytes) (steady : Int) :
    System Backlog Backlog.Label where
  init := { runner := ({ db, file } : Runner).start steady }
  step := Backlog.step p cfg changes

namespace Backlog

/-! ### The first gate -/

/-- The rows, and what the runner takes for known. -/
structure Inv (s : Backlog) : Prop where
  keyed : s.runner.db.Keyed
  balance : s.runner.lastRoundEntryCount.toNat + s.inserted =
    s.runner.db.rows.length + s.deleted

variable {p : Platform} {cfg : AutoLearnConfig} {changes : Nat → Int32} {s s' : Backlog}

theorem toNat_count {db : SqliteHistoryStore} (h : db.Keyed) :
    db.count.toNat = db.rows.length := by
  have := h.length_lt
  rw [SqliteHistoryStore.count, UInt64.toNat_ofNat', Nat.mod_eq_of_lt (by omega)]

theorem Inv.start {db : SqliteHistoryStore} (h : db.Keyed) (file : Option Bytes) (steady : Int) :
    Inv { runner := ({ db, file } : Runner).start steady } :=
  ⟨h, congrArg (· + 0) (toNat_count h)⟩

theorem Inv.withDb (h : s.Inv) {p : HistoryEntry → Bool} :
    (s.withDb (s.runner.db.deleteWhere p).1).Inv := by
  refine ⟨h.keyed.deleteWhere p, ?_⟩
  have hlen := SqliteHistoryStore.length_deleteWhere s.runner.db p
  have hbalance := h.balance
  simp only [Backlog.withDb]
  omega

theorem Inv.afterRound (h : s.Inv) (steady : Int) (e : RoundEnd) :
    (s.afterRound p cfg steady e).Inv := by
  cases e with
  | throws wrote => exact ⟨h.keyed, h.balance⟩
  | returns w deployed => exact ⟨h.keyed, congrArg (· + 0) (toNat_count h.keyed)⟩

/-- The step lemma. -/
theorem Inv.step (h : s.Inv) {l : Label} (hs : Backlog.step p cfg changes s l = some s') :
    s'.Inv := by
  cases l with
  | insert nowUs ev =>
      simp only [Backlog.step] at hs
      cases hinsert : s.runner.db.insertRow nowUs ev with
      | none =>
          -- the ids are used up
          rw [hinsert] at hs
          obtain rfl := Option.some.inj hs
          exact h
      | some db =>
          rw [hinsert] at hs
          obtain rfl := Option.some.inj hs
          refine ⟨h.keyed.insertRow hinsert, ?_⟩
          have hlen := SqliteHistoryStore.length_insertRow hinsert
          have hbalance := h.balance
          dsimp only
          omega
  | prune nowUs olderThan =>
      obtain rfl := Option.some.inj hs
      exact h.withDb
  | delete ids =>
      obtain rfl := Option.some.inj hs
      exact h.withDb
  | tick now steady e =>
      obtain rfl := Option.some.inj hs
      split
      · exact h.afterRound steady e
      · exact h

/-- The first gate is open when fewer rows were deleted than inserted. -/
theorem Inv.gate_iff (h : s.Inv) :
    s.runner.lastRoundEntryCount < s.runner.db.count ↔ s.deleted < s.inserted := by
  have hbalance := h.balance
  rw [UInt64.lt_iff_toNat_lt, toNat_count h.keyed]
  omega

theorem shouldRun_iff_gates {s : Runner} {now : Clocks} : shouldRun p cfg s now = true ↔
    s.lastRoundEntryCount < s.db.count ∧ s.GatesOpen p cfg now := shouldRun_iff

/-! ### New entries -/

/-- A tick with open gates runs a round just when an entry was inserted. -/
def RunsWhenNew (p : Platform) (cfg : AutoLearnConfig) (s : Backlog) : Label → Prop
  | .tick now _ _ => s.runner.GatesOpen p cfg now →
    (shouldRun p cfg s.runner now = true ↔ 0 < s.inserted)
  | _ => True

/-- At a tick with open gates nothing was inserted, or fewer rows were deleted than
inserted. -/
def NotOutnumbered (p : Platform) (cfg : AutoLearnConfig) (s : Backlog) : Label → Prop
  | .tick now _ _ => s.runner.GatesOpen p cfg now → s.inserted = 0 ∨ s.deleted < s.inserted
  | _ => True

theorem Inv.runsWhenNew_iff (h : s.Inv) (l : Label) :
    RunsWhenNew p cfg s l ↔ NotOutnumbered p cfg s l := by
  cases l with
  | tick now steady e =>
      refine forall_congr' fun hopen => ?_
      rw [shouldRun_iff_gates, and_iff_left hopen, h.gate_iff]
      omega
  | _ => exact Iff.rfl

/-- **New entries are noticed** at every tick of a run exactly if at none of them as many
rows were deleted as entries inserted, since the last round that came to its end or since
`Start`. -/
theorem ticks_run_when_new_iff (p : Platform) (cfg : AutoLearnConfig) (changes : Nat → Int32)
    (db : SqliteHistoryStore) (hkeyed : db.Keyed) (file : Option Bytes) (steady : Int)
    (labels : List Label) :
    (backlog p cfg changes db file steady).each (RunsWhenNew p cfg)
        (backlog p cfg changes db file steady).init labels ↔
      (backlog p cfg changes db file steady).each (NotOutnumbered p cfg)
        (backlog p cfg changes db file steady).init labels := by
  have hinit : Inv (backlog p cfg changes db file steady).init := Inv.start hkeyed file steady
  refine System.each_congr (I := Inv) ?_ ?_ hinit labels
  · intro s l s' h hs
    exact h.step hs
  · intro s l h
    exact h.runsWhenNew_iff l

/-- One entry in the store at `Start`. -/
def oneEntry : SqliteHistoryStore where
  rows := [{ id := 1, tsUs := 1000000 }]
  nextId := 2

theorem keyed_oneEntry : oneEntry.Keyed :=
  ⟨List.pairwise_singleton _ _, by decide, by decide, by decide⟩

/-- Two entries come, one goes, and the tick runs a round. -/
theorem ticks_run_when_new_iff_typed :
    (backlog .stable {} Int32.ofNat oneEntry none 0).each (RunsWhenNew .stable {})
      (backlog .stable {} Int32.ofNat oneEntry none 0).init
      [.insert 2000000 {}, .insert 3000000 {}, .delete [1],
        .tick ⟨400000000, 400000000⟩ 401000000 (.returns {} false)] := by
  refine (ticks_run_when_new_iff .stable {} Int32.ofNat oneEntry keyed_oneEntry none 0 _).mpr ?_
  rw [System.each_cons _ rfl, System.each_cons _ rfl, System.each_cons _ rfl,
    System.each_cons _ rfl]
  exact ⟨trivial, trivial, trivial, fun _ => .inr (by decide), trivial⟩

/-- One entry goes and one comes: the tick sees as many rows as before. -/
theorem new_entry_missed : ¬ (backlog .stable {} Int32.ofNat oneEntry none 0).each
    (RunsWhenNew .stable {}) (backlog .stable {} Int32.ofNat oneEntry none 0).init
    [.delete [1], .insert 2000000 {},
      .tick ⟨400000000, 400000000⟩ 401000000 (.returns {} false)] := by
  intro h
  rw [System.each_cons _ rfl, System.each_cons _ rfl, System.each_cons _ rfl] at h
  have hrun := h.2.2.1 ⟨by decide, by decide⟩
  exact absurd (hrun.mpr (by decide)) (by decide)

/-! ### Failed rounds -/

/-- After a failed round the first gate is open, so that the next tick whose other gates
are open runs again. -/
def Pending (p : Platform) (cfg : AutoLearnConfig) (s : Backlog) : Prop :=
  s.failed = true → s.runner.lastRoundEntryCount < s.runner.db.count ∧
    ∀ now, s.runner.GatesOpen p cfg now → shouldRun p cfg s.runner now = true

theorem pending_iff : s.Pending p cfg ↔
    (s.failed = true → s.runner.lastRoundEntryCount < s.runner.db.count) := by
  refine forall_congr' fun _ => and_iff_left_of_imp fun hgate now hopen => ?_
  exact shouldRun_iff_gates.mpr ⟨hgate, hopen⟩

/-- The label of an insert or of a tick. -/
def Label.types : Label → Bool
  | .insert .. => true
  | .tick .. => true
  | _ => false

/-- A round that returns has written both of its files. -/
def EndsWell : RoundEnd → Prop
  | .throws _ => True
  | .returns w _ => w.userDict = true ∧ w.ngram = true

/-- If a tick runs a round, then that does not return without its files. -/
def WritesFiles (p : Platform) (cfg : AutoLearnConfig) (s : Backlog) : Label → Prop
  | .tick now _ e => shouldRun p cfg s.runner now = true → EndsWell e
  | _ => True

theorem ok_learn {s : Runner} {w : Writes} :
    (s.learn p cfg w).1.ok = true ↔ w.userDict = true ∧ w.ngram = true := by
  rw [← Bool.and_eq_true]
  obtain ⟨userDict, ngram⟩ := w
  cases ngram <;> rfl

theorem pending_afterRound {steady : Int} {e : RoundEnd}
    (hgate : s.runner.lastRoundEntryCount < s.runner.db.count) :
    (s.afterRound p cfg steady e).Pending p cfg ↔ EndsWell e := by
  rw [pending_iff]
  cases e with
  | throws wrote => exact iff_of_true (fun _ => hgate) trivial
  | returns w deployed =>
      have hfailed : (s.afterRound p cfg steady (.returns w deployed)).failed =
          !(s.runner.learn p cfg w).1.ok := rfl
      -- the number of rows was taken
      have hclosed : ¬ ((s.afterRound p cfg steady (.returns w deployed)).runner.lastRoundEntryCount
          < (s.afterRound p cfg steady (.returns w deployed)).runner.db.count) :=
        UInt64.lt_irrefl _
      rw [hfailed, Bool.not_eq_true', EndsWell, ← @ok_learn p cfg s.runner]
      constructor
      · intro hpending
        exact Bool.eq_true_of_not_eq_false fun hbad => hclosed (hpending hbad)
      · intro hok hbad
        rw [hok] at hbad
        cases hbad

/-- The step lemma: what was pending still is, unless a round returns without its
files. -/
theorem Inv.pending_iff_writesFiles (h : s.Inv) (hpending : s.Pending p cfg) {l : Label}
    (htypes : l.types = true) (hs : Backlog.step p cfg changes s l = some s') :
    s'.Pending p cfg ↔ WritesFiles p cfg s l := by
  cases l with
  | insert nowUs ev =>
      refine iff_of_true ?_ trivial
      rw [pending_iff] at hpending ⊢
      simp only [Backlog.step] at hs
      cases hinsert : s.runner.db.insertRow nowUs ev with
      | none =>
          rw [hinsert] at hs
          obtain rfl := Option.some.inj hs
          exact hpending
      | some db =>
          rw [hinsert] at hs
          obtain rfl := Option.some.inj hs
          intro hfailed
          have hgate := hpending hfailed
          have hlen := SqliteHistoryStore.length_insertRow hinsert
          rw [UInt64.lt_iff_toNat_lt, toNat_count h.keyed] at hgate
          rw [UInt64.lt_iff_toNat_lt, toNat_count (h.keyed.insertRow hinsert), hlen]
          exact Nat.lt_succ_of_lt hgate
  | tick now steady e =>
      obtain rfl := Option.some.inj hs
      by_cases hrun : shouldRun p cfg s.runner now = true
      · rw [if_pos hrun, pending_afterRound (shouldRun_iff_gates.mp hrun).1]
        exact (true_imp_iff.symm.trans (imp_congr_left (iff_of_true trivial hrun)))
      · rw [if_neg hrun]
        exact iff_of_true hpending fun hrun' => absurd hrun' hrun
  | prune nowUs olderThan => cases htypes
  | delete ids => cases htypes

/-- The user only types: nothing is deleted. -/
def typing (p : Platform) (cfg : AutoLearnConfig) (changes : Nat → Int32)
    (db : SqliteHistoryStore) (file : Option Bytes) (steady : Int) :
    System Backlog Backlog.Label :=
  (backlog p cfg changes db file steady).restrict fun _ l => l.types

/-- **Failed rounds are made up for** along a run of inserts and ticks, whose rounds may
throw, fail or succeed, exactly if no round of the run returns without its files: then the
first gate is open after every failed round. -/
theorem failed_round_pending_iff (p : Platform) (cfg : AutoLearnConfig) (changes : Nat → Int32)
    (db : SqliteHistoryStore) (hkeyed : db.Keyed) (file : Option Bytes) (steady : Int)
    (labels : List Label) (t : Backlog)
    (hrun : (typing p cfg changes db file steady).run labels = some t) :
    (∀ ls s, ls <+: labels → (typing p cfg changes db file steady).run ls = some s →
        s.Pending p cfg) ↔
      (typing p cfg changes db file steady).each (WritesFiles p cfg)
        (typing p cfg changes db file steady).init labels := by
  have hinit : Inv (typing p cfg changes db file steady).init := Inv.start hkeyed file steady
  have hpending : Pending p cfg (typing p cfg changes db file steady).init :=
    fun hfailed => by cases hfailed
  refine System.forall_reached_iff_each (I := Inv) ?_ ?_ hinit hpending hrun
  · intro s l s' h hs
    exact h.step (System.restrict_step.mp hs).2
  · intro s l s' h hpending hs
    obtain ⟨htypes, hstep⟩ := System.restrict_step.mp hs
    exact h.pending_iff_writesFiles hpending htypes hstep

/-- An entry comes, and a round throws. -/
def roundThrown : List Label :=
  [.insert 2000000 {}, .tick ⟨400000000, 400000000⟩ 401000000 (.throws none)]

/-- The next tick runs again. -/
theorem failed_round_pending_iff_thrown : ∃ s,
    (typing .stable {} Int32.ofNat oneEntry none 0).run roundThrown = some s ∧
      s.failed = true ∧ s.Pending .stable {} := by
  have hmap : ((typing .stable {} Int32.ofNat oneEntry none 0).run roundThrown).map failed =
      some true := by decide
  obtain ⟨s, hrun, hfailed⟩ := Option.map_eq_some_iff.mp hmap
  refine ⟨s, hrun, hfailed, ?_⟩
  refine (failed_round_pending_iff .stable {} Int32.ofNat oneEntry keyed_oneEntry none 0
    roundThrown s hrun).mpr ?_ roundThrown s List.prefix_rfl hrun
  rw [roundThrown, System.each_cons _ rfl, System.each_cons _ rfl]
  exact ⟨trivial, fun _ => trivial, trivial⟩

/-- A round that could not write the user dictionary returns. The next tick, whose other
gates are open, does not run again. -/
theorem failed_round_forgotten : ¬ ∀ ls s, ls <+:
      [.insert 2000000 {},
        .tick ⟨400000000, 400000000⟩ 401000000 (.returns { userDict := false } false)] →
    (typing .stable {} Int32.ofNat oneEntry none 0).run ls = some s → s.Pending .stable {} := by
  intro h
  exact absurd (h _ _ List.prefix_rfl rfl (by decide)).1 (by decide)

end Backlog

end Dafeng.Learning
