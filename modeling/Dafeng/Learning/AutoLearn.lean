import Dafeng.Learning.Round
import Dafeng.Library.Transition

/-!
# Dafeng.Learning.AutoLearn

The thread that learns in the background (`src/daemon/auto_learn.cc`), and the
history store that the server threads fill meanwhile. The store takes its mutex
for one operation only, so that an `Insert` can come between any two steps of a
round.
-/

namespace Dafeng.Learning

open Dafeng.Protocol

/-- `AutoLearnRunner::Config`, where it says when and what to learn; the times are
seconds. -/
structure AutoLearnConfig where
  idleThreshold : Int := 30
  minRoundInterval : Int := 300
  minNewWordFreq : UInt32 := 2
  deriving DecidableEq, Repr

/-- The configuration of a round of the runner. -/
def AutoLearnConfig.round (cfg : AutoLearnConfig) : LearningRoundConfig where
  minNewWordFreq := cfg.minNewWordFreq

/-- The steady clock and the wall clock, in microseconds. -/
structure Clocks where
  steady : Int
  wall : Int
  deriving DecidableEq, Repr

/-! ### The state -/

/-- The two scans of a round. -/
inductive Scan where
  | bigrams
  | words
  deriving DecidableEq, Repr

/-- What a scan read, and how many rows there were. -/
structure Reading where
  entries : List HistoryEntry := []
  rows : Nat := 0
  deriving DecidableEq, Repr

structure Readings where
  bigrams : Reading := {}
  words : Reading := {}
  deriving DecidableEq, Repr

def Readings.of (r : Readings) : Scan → Reading
  | .bigrams => r.bigrams
  | .words => r.words

/-- What a round does next. -/
inductive Stage where
  | count
  | bigrams
  | words
  | write
  | finish
  deriving DecidableEq, Repr

/-- The runner, the store and the file. The last three fields only record: the
number of rows at the last `Start`, what the scans of the latest round read, and
what those of the last completed one did. -/
structure Runner where
  db : SqliteHistoryStore := {}
  file : Option Bytes
  started : Bool := false
  lastRoundEntryCount : UInt64 := 0
  lastRoundAt : Int := 0
  totalRuns : UInt64 := 0
  totalWordsLearned : UInt64 := 0
  notified : List UInt64 := []
  round : Option (Stage × Round) := none
  startRow : Option Nat := none
  reading : Readings := {}
  scanned : Readings := {}
  deriving DecidableEq

/-! ### Steps -/

/-- `LatestCommitTimestamp`, in microseconds. -/
def latestCommitTimestamp (p : Platform) (db : SqliteHistoryStore) : Option Int :=
  (db.recentEntries p.orderBy 1).head?.map fun e => e.tsUs.toInt64.toInt

/-- `ShouldRunLocked`. The store only grows, so that its two readings amount to
one at the moment of the second. -/
def shouldRun (p : Platform) (cfg : AutoLearnConfig) (s : Runner) (now : Clocks) : Bool :=
  if s.db.count ≤ s.lastRoundEntryCount then false
  else if 0 < cfg.minRoundInterval ∧
      now.steady - s.lastRoundAt < cfg.minRoundInterval * 1000000 then false
  else if 0 < cfg.idleThreshold then
    match latestCommitTimestamp p s.db with
    | some latest => ¬ now.wall - latest < cfg.idleThreshold * 1000000
    | none => true
  else true

namespace Runner

/-- `Start`, behind the check that the runner is not started. -/
def start (s : Runner) (steady : Int) : Runner :=
  { s with
    started := true
    lastRoundAt := steady
    lastRoundEntryCount := s.db.count
    startRow := some s.db.rows.length }

/-- The round, if this is what it does next. -/
def before (s : Runner) (stage : Stage) : Option Round :=
  s.round.bind fun r => if r.1 = stage then some r.2 else none

theorem before_eq_some {s : Runner} {stage : Stage} {r : Round} :
    s.before stage = some r ↔ s.round = some (stage, r) := by
  unfold before
  cases s.round with
  | none => simp
  | some round =>
      obtain ⟨stage', r'⟩ := round
      simp

/-- What a scan reads now. -/
def read (p : Platform) (limit : UInt64) (s : Runner) : Reading where
  entries := s.db.recentEntries p.orderBy limit
  rows := s.db.rows.length

/-- The first scan. -/
def scanBigrams (p : Platform) (cfg : AutoLearnConfig) (s : Runner) (r : Round) : Runner :=
  { s with
    round := some (.words, r.updateBigrams p cfg.round (s.db.store p.orderBy))
    reading := { s.reading with bigrams := s.read p cfg.round.ngramScanMaxEntries } }

/-- The second scan. -/
def scanWords (p : Platform) (cfg : AutoLearnConfig) (s : Runner) (r : Round) : Runner :=
  { s with
    round := some (.write, r.discoverWords p cfg.round (s.db.store p.orderBy))
    reading := { s.reading with words := s.read p cfg.round.discovery.scanMaxEntries } }

/-- The writes. -/
def write (p : Platform) (w : Writes) (s : Runner) (r : Round) : Runner :=
  let (r, file) := r.writeFiles p w s.file
  { s with round := some (.finish, r), file }

/-- `RunOneRoundLocked` behind `RunLearningRound`; `deployed` is the answer of the
redeploy hook. A round that failed, or found no word, returns before the hook. -/
def finish (s : Runner) (r : Round) (steady : Int) (deployed : Bool) : Runner :=
  let words := r.result.wordsDiscovered
  let toPush := r.result.ok && words != 0 && r.result.wroteUserDict
  { s with
    totalRuns := s.totalRuns + 1
    lastRoundAt := steady
    lastRoundEntryCount := s.db.count
    totalWordsLearned := if toPush then s.totalWordsLearned + words else s.totalWordsLearned
    notified := if toPush && deployed then s.notified ++ [words] else s.notified
    round := none
    scanned := s.reading }

end Runner

inductive Runner.Label where
  | insert (nowUs : UInt64) (ev : CommitEvent)
  | start (steady : Int)
  | stop
  | tick (now : Clocks)
  | count
  | scanBigrams
  | scanWords
  | write (w : Writes)
  | throw (steady : Int)
  | finish (steady : Int) (deployed : Bool)
  deriving DecidableEq, Repr

open Runner (Label)

/-- The step function. -/
def Runner.step (p : Platform) (cfg : AutoLearnConfig) (s : Runner) : Label → Option Runner
  | .insert nowUs ev => some { s with db := s.db.insert nowUs ev }
  | .start steady => some (if s.started then s else s.start steady)
  | .stop =>
    -- `Stop` joins the thread, which ends between two rounds
    if s.round = none then some { s with started := false } else none
  | .tick now =>
    if s.started ∧ s.round = none then
      if shouldRun p cfg s now then some { s with round := some (.count, { table := ∅ }) }
      else some s
    else none
  | .count => (s.before .count).map fun r =>
      { s with round := some (.bigrams, r.countEntries (s.db.store p.orderBy)) }
  | .scanBigrams => (s.before .bigrams).map (s.scanBigrams p cfg)
  | .scanWords => (s.before .words).map (s.scanWords p cfg)
  | .write w => (s.before .write).map (s.write p w)
  | .throw steady => s.round.map fun _ => { s with round := none, lastRoundAt := steady }
  | .finish steady deployed => (s.before .finish).map (s.finish · steady deployed)

/-- A runner that was just built, on an empty store. The constructor sets the last
round to one day before. -/
def autoLearner (p : Platform) (cfg : AutoLearnConfig) (steady : Int) (file : Option Bytes) :
    System Runner Label where
  init := { file, lastRoundAt := steady - 86400000000 }
  step := Runner.step p cfg

/-! ### One round alone -/

theorem shouldRun_iff {p : Platform} {cfg : AutoLearnConfig} {s : Runner} {now : Clocks} :
    shouldRun p cfg s now = true ↔ s.lastRoundEntryCount < s.db.count ∧
      (0 < cfg.minRoundInterval → cfg.minRoundInterval * 1000000 ≤ now.steady - s.lastRoundAt) ∧
      (0 < cfg.idleThreshold → ∀ latest ∈ latestCommitTimestamp p s.db,
        cfg.idleThreshold * 1000000 ≤ now.wall - latest) := by
  unfold shouldRun
  split_ifs with hcount hinterval hidle
  · simp [UInt64.not_lt.mpr hcount]
  · refine iff_of_false (by simp) fun h => ?_
    have := h.2.1 hinterval.1
    omega
  · have hlong : 0 < cfg.minRoundInterval →
        cfg.minRoundInterval * 1000000 ≤ now.steady - s.lastRoundAt := by omega
    rw [UInt64.not_le] at hcount
    cases latestCommitTimestamp p s.db with
    | none => exact iff_of_true rfl ⟨hcount, hlong, by simp⟩
    | some latest => simpa [hcount, hidle] using fun _ => hlong
  · rw [UInt64.not_le] at hcount
    exact iff_of_true rfl ⟨hcount, by omega, fun h => absurd h hidle⟩

/-- A round that nothing interrupts is the round on the store as it is. -/
theorem round_uninterrupted (p : Platform) (cfg : AutoLearnConfig) (steady : Int)
    (initial : Option Bytes) {s : Runner} {now : Clocks} (w : Writes) (steady' : Int)
    (deployed : Bool) (hstarted : s.started = true) (hround : s.round = none)
    (hrun : shouldRun p cfg s now = true) :
    ∃ s', (autoLearner p cfg steady initial).runFrom s
      [.tick now, .count, .scanBigrams, .scanWords, .write w, .finish steady' deployed] = some s' ∧
      s'.round = none ∧ s'.db = s.db ∧ s'.lastRoundEntryCount = s.db.count ∧
      s'.file = (runOneRound p s.db cfg.minNewWordFreq w s.file).2 := by
  have htick : (autoLearner p cfg steady initial).step s (.tick now) =
      some { s with round := some (.count, { table := ∅ }) } := by
    simp [autoLearner, Runner.step, hstarted, hround, hrun]
  refine ⟨_, by rw [System.runFrom, htick]; rfl, ?_⟩
  exact ⟨rfl, rfl, rfl, rfl⟩

end Dafeng.Learning
