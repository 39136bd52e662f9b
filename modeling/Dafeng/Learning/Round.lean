import Dafeng.Learning.NewWord
import Dafeng.Learning.NgramFile

/-!
# Dafeng.Learning.Round

A learning round (`src/daemon/learning_round.cc`) and what runs it: the command
`dafeng-cli learn` (`src/cli/main.cc`), which goes on from the saved table, and
the daemon (`src/daemon/auto_learn.cc`), which starts from an empty one.
-/

namespace Dafeng.Learning

/-- The orders that the sorts and the hash tables of a build leave open. -/
structure Platform where
  orderBy : Sorter newer
  chrono : Sorter earlier
  ranking : Sorter ranksBefore
  hash : Visit

/-- Stable sorts, and tables that are visited as they are stored. -/
def Platform.stable : Platform := ⟨newestFirst, byTime, byRank, .stored⟩

/-- `LearningRoundConfig`, where it says what is learned. -/
structure LearningRoundConfig where
  minNewWordFreq : UInt32 := 3
  scanMaxEntries : UInt64 := 5000
  ngramScanMaxEntries : UInt64 := 5000
  includeBigrams : Bool := true
  includeTrigrams : Bool := true
  deriving DecidableEq, Repr

/-- The configuration of the discovery in a round. -/
def LearningRoundConfig.discovery (cfg : LearningRoundConfig) : DiscoveryConfig where
  minFrequency := cfg.minNewWordFreq
  scanMaxEntries := cfg.scanMaxEntries
  includeBigrams := cfg.includeBigrams
  includeTrigrams := cfg.includeTrigrams

/-- `LearningRoundResult`, without the redeploy flag, the commit and the time. -/
structure LearningRoundResult where
  ok : Bool := false
  entriesScanned : UInt64 := 0
  bigramIncrements : UInt64 := 0
  wordsDiscovered : UInt64 := 0
  wroteUserDict : Bool := false
  wroteNgram : Bool := false
  deriving DecidableEq, Repr

/-- Which writes of a round the file system lets succeed. -/
structure Writes where
  userDict : Bool := true
  ngram : Bool := true
  deriving DecidableEq, Repr

/-- `NgramTable::Save`: its result, and the file afterwards. -/
def NgramTable.save (hash : Visit) (written : Bool) (table : NgramTable) (file : Option Bytes) :
    Bool × Option Bytes :=
  if written then (true, some (table.contents hash)) else (false, file)

/-! ### The round -/

/-- The variables of `RunLearningRound`. -/
structure Round where
  table : NgramTable
  result : LearningRoundResult := {}
  deriving DecidableEq

namespace Round

def countEntries (history : HistoryStore) (r : Round) : Round :=
  { r with result := { r.result with entriesScanned := history.count } }

/-- Step 1: bigrams. -/
def updateBigrams (p : Platform) (cfg : LearningRoundConfig) (history : HistoryStore) (r : Round) :
    Round :=
  let (table, increments) :=
    updateBigramsFromHistory p.chrono history r.table cfg.ngramScanMaxEntries
  { table, result := { r.result with bigramIncrements := increments } }

/-- Step 2: new-word discovery. -/
def discoverWords (p : Platform) (cfg : LearningRoundConfig) (history : HistoryStore) (r : Round) :
    Round :=
  let words := discover p.chrono p.ranking p.hash history cfg.discovery
  { r with result := { r.result with wordsDiscovered := UInt64.ofNat words.length } }

/-- Step 3: the two files, each as well as it can be written. -/
def writeFiles (p : Platform) (w : Writes) (r : Round) (file : Option Bytes) :
    Round × Option Bytes :=
  let (wroteNgram, file) := r.table.save p.hash w.ngram file
  let ok := w.userDict && wroteNgram
  ({ r with result := { r.result with wroteUserDict := w.userDict, wroteNgram, ok } }, file)

end Round

/-- `RunLearningRound` on a table and the file `personal_ngram.bin`. -/
def runLearningRound (p : Platform) (cfg : LearningRoundConfig) (history : HistoryStore)
    (table : NgramTable) (w : Writes) (file : Option Bytes) :
    LearningRoundResult × Option Bytes :=
  let r : Round := { table }
  let r := r.countEntries history
  let r := r.updateBigrams p cfg history
  let r := r.discoverWords p cfg history
  let (r, file) := r.writeFiles p w file
  (r.result, file)

/-- `CmdLearn`: the exit status, and the file afterwards. The result of `Load` is
not looked at. -/
def cmdLearn (p : Platform) (db : SqliteHistoryStore) (minFreq : UInt32) (dryRun : Bool)
    (w : Writes) (file : Option Bytes) : Nat × Option Bytes :=
  let (_, table) := NgramTable.load file
  if dryRun then (0, file)
  else
    let cfg : LearningRoundConfig := { minNewWordFreq := minFreq }
    let (r, file) := runLearningRound p cfg (db.store p.orderBy) table w file
    (if r.ok then 0 else 1, file)

/-- The round of `RunOneRoundLocked`. -/
def runOneRound (p : Platform) (db : SqliteHistoryStore) (minNewWordFreq : UInt32) (w : Writes)
    (file : Option Bytes) : LearningRoundResult × Option Bytes :=
  runLearningRound p { minNewWordFreq } (db.store p.orderBy) ∅ w file

/-! ### What is saved -/

/-- The pairs that a round counts: those of adjacent characters in the phrases of
the newest commits. -/
def windowBigrams (p : Platform) (db : SqliteHistoryStore) : List (Bytes × Bytes) :=
  bigrams (p.chrono.sort (db.recentEntries p.orderBy 5000))

theorem runLearningRound_file (p : Platform) (db : SqliteHistoryStore) (minFreq : UInt32)
    (table : NgramTable) (w : Writes) (file : Option Bytes) :
    (runLearningRound p { minNewWordFreq := minFreq } (db.store p.orderBy) table w file).2 =
      if w.ngram then some ((table.addBigrams (windowBigrams p db)).contents p.hash) else file := by
  have htable : ((({ table } : Round).countEntries (db.store p.orderBy)).updateBigrams p
      { minNewWordFreq := minFreq } (db.store p.orderBy)).table =
      table.addBigrams (windowBigrams p db) := by
    rw [Round.updateBigrams, updateBigramsFromHistory_eq]
    rfl
  unfold runLearningRound Round.writeFiles Round.discoverWords NgramTable.save
  rw [← htable]
  cases w.ngram <;> rfl

/-- The count of a pair in the file. -/
def savedCount (file : Option Bytes) (a b : Bytes) : UInt32 :=
  (NgramTable.load file).2.bigramCount a b

/-- The pairs in the file. -/
def savedPairs (file : Option Bytes) : List (Bytes × Bytes) := (NgramTable.load file).2.pairs

theorem length_savedPairs_lt (file : Option Bytes) : (savedPairs file).length < 2 ^ 32 := by
  rw [savedPairs, NgramTable.length_pairs]
  exact NgramTable.size_load_lt file

/-- What a round saves that counted on from a table: as many pairs as there are
in `room`. -/
theorem saved_addBigrams (p : Platform) (db : SqliteHistoryStore) {table : NgramTable}
    {room : List (Bytes × Bytes)} (hstorable : table.Storable) (htable : table.pairs ⊆ room)
    (hwindow : windowBigrams p db ⊆ room) (hroom : room.length < 2 ^ 32) :
    savedPairs (some ((table.addBigrams (windowBigrams p db)).contents p.hash)) ⊆ room ∧
    ∀ a b, savedCount (some ((table.addBigrams (windowBigrams p db)).contents p.hash)) a b =
      table.bigramCount a b + UInt32.ofNat ((windowBigrams p db).count (a, b)) := by
  set learned := table.addBigrams (windowBigrams p db)
  have hin : ∀ a b, learned.find a b ≠ none → (a, b) ∈ room := by
    intro a b hfind
    rcases (NgramTable.find_addBigrams table (bigrams_ne_nil _)).mp hfind with hfind | hmem
    · exact htable ((NgramTable.mem_pairs table).mpr hfind)
    · exact hwindow hmem
  have hsize := Nat.lt_of_le_of_lt (NgramTable.size_le learned hin) hroom
  obtain ⟨-, hload⟩ := NgramTable.load_contents p.hash learned (hstorable.addBigrams _) hsize
  constructor
  · intro x hmem
    obtain ⟨a, b⟩ := x
    rw [savedPairs, NgramTable.mem_pairs, hload] at hmem
    exact hin a b hmem
  · intro a b
    rw [savedCount, NgramTable.bigramCount_eq, hload, ← NgramTable.bigramCount_eq]
    exact NgramTable.bigramCount_addBigrams table (bigrams_ne_nil _) a b

end Dafeng.Learning
