import Mathlib.Logic.Function.Iterate
import Dafeng.Learning.Round
import Dafeng.Library.Transition

/-!
# Dafeng.Learning.Accumulation

What happens to the counts in `personal_ngram.bin` when rounds follow each other.
The command `dafeng-cli learn` adds what is in the window to what was saved; the
daemon replaces what was saved by what is in the window.
-/

namespace Dafeng.Learning

open Dafeng.Protocol Dafeng.Utf8

section Rounds

variable (p : Platform) (db : SqliteHistoryStore) (minFreq : UInt32)

/-- The file after `dafeng-cli learn`, where the writes succeed. -/
def learn (file : Option Bytes) : Option Bytes := (cmdLearn p db minFreq false {} file).2

/-- The file after a round of the daemon, where the writes succeed. -/
def autoLearn (file : Option Bytes) : Option Bytes := (runOneRound p db minFreq {} file).2

theorem learn_eq (file : Option Bytes) : learn p db minFreq file =
    some (((NgramTable.load file).2.addBigrams (windowBigrams p db)).contents p.hash) :=
  runLearningRound_file p db minFreq _ {} file

theorem autoLearn_eq (file : Option Bytes) : autoLearn p db minFreq file =
    some ((NgramTable.addBigrams ∅ (windowBigrams p db)).contents p.hash) :=
  runLearningRound_file p db minFreq ∅ {} file

/-- `dafeng-cli learn` adds the window to the saved counts. -/
theorem savedCount_learn {file : Option Bytes} {room : List (Bytes × Bytes)}
    (hfile : savedPairs file ⊆ room) (hwindow : windowBigrams p db ⊆ room)
    (hroom : room.length < 2 ^ 32) :
    savedPairs (learn p db minFreq file) ⊆ room ∧
    ∀ a b, savedCount (learn p db minFreq file) a b =
      savedCount file a b + UInt32.ofNat ((windowBigrams p db).count (a, b)) := by
  rw [learn_eq]
  exact saved_addBigrams p db (NgramTable.storable_load file) hfile hwindow hroom

/-- The daemon saves the counts of the window. -/
theorem savedCount_autoLearn (file : Option Bytes) (hroom : (windowBigrams p db).length < 2 ^ 32)
    (a b : Bytes) : (savedCount (autoLearn p db minFreq file) a b).toNat =
      (windowBigrams p db).count (a, b) := by
  have hle := List.count_le_length (a := (a, b)) (l := windowBigrams p db)
  have hsaved := (saved_addBigrams p db NgramTable.storable_empty (List.nil_subset _)
    (List.Subset.refl _) hroom).2 a b
  have hzero : NgramTable.bigramCount ∅ a b = 0 := rfl
  rw [autoLearn_eq, hsaved, hzero, UInt32.zero_add, UInt32.toNat_ofNat',
    Nat.mod_eq_of_lt (by omega)]

/-! ### The same window again -/

theorem savedCount_iterate_learn (hnone : windowBigrams p db = []) (file : Option Bytes) (k : Nat)
    (a b : Bytes) : savedCount ((learn p db minFreq)^[k] file) a b = savedCount file a b := by
  induction k generalizing file with
  | zero => rfl
  | succ k ih =>
      have hlearn := (savedCount_learn p db minFreq (List.Subset.refl (savedPairs file))
        (by simp [hnone]) (length_savedPairs_lt file)).2 a b
      rw [Function.iterate_succ_apply, ih, hlearn, hnone]
      exact UInt32.add_zero _

/-- **Learning again.** With nothing typed in between, any number of runs of
`dafeng-cli learn` leaves the counts of one run exactly where the window has no
pair to count. Where it has one, the second run counts it again; this needs that
the pairs fit the file. -/
theorem learn_again_iff (file : Option Bytes) (hroom : windowBigrams p db ≠ [] →
      (savedPairs file).length + (windowBigrams p db).length < 2 ^ 32) :
    (∀ k, 1 ≤ k → ∀ a b, savedCount ((learn p db minFreq)^[k] file) a b =
      savedCount (learn p db minFreq file) a b) ↔ windowBigrams p db = [] := by
  constructor
  · intro hsame
    by_contra hne
    obtain ⟨⟨a, b⟩, hmem⟩ := List.exists_mem_of_ne_nil _ hne
    have hlen : (savedPairs file ++ windowBigrams p db).length < 2 ^ 32 := by
      rw [List.length_append]
      exact hroom hne
    have hwindow := List.subset_append_right (savedPairs file) (windowBigrams p db)
    obtain ⟨hfile, -⟩ := savedCount_learn p db minFreq
      (List.subset_append_left (savedPairs file) (windowBigrams p db)) hwindow hlen
    have htwice : savedCount (learn p db minFreq (learn p db minFreq file)) a b =
        savedCount (learn p db minFreq file) a b := hsame 2 (by omega) a b
    rw [(savedCount_learn p db minFreq hfile hwindow hlen).2, UInt32.add_eq_left,
      ← UInt32.toNat_inj, UInt32.toNat_ofNat', Nat.mod_eq_of_lt] at htwice
    · have hpos := List.count_pos_iff.mpr hmem
      exact absurd htwice (by simp; omega)
    · have hle := List.count_le_length (a := (a, b)) (l := windowBigrams p db)
      rw [List.length_append] at hlen
      omega
  · intro hnone k _ a b
    rw [savedCount_iterate_learn p db minFreq hnone]
    exact (savedCount_iterate_learn p db minFreq hnone file 1 a b).symm

end Rounds

/-- The database after two characters of one phrase were typed one by one. -/
def oneWord : SqliteHistoryStore :=
  ((({} : SqliteHistoryStore).insert 1000000
    { code := ascii "xu", committedText := encodeText ['弹'] }).insert 1200000
    { code := ascii "pw", committedText := encodeText ['窗'] })

/-- The same two characters, three seconds apart. -/
def twoPhrases : SqliteHistoryStore :=
  ((({} : SqliteHistoryStore).insert 1000000
    { code := ascii "xu", committedText := encodeText ['弹'] }).insert 4000000
    { code := ascii "pw", committedText := encodeText ['窗'] })

/-- The counts of a file stay under two phrases of one character, and grow under the word. -/
theorem learn_again_iff_saved :
    (∀ k, 1 ≤ k → ∀ a b,
      savedCount ((learn .stable twoPhrases 3)^[k] (learn .stable oneWord 3 none)) a b =
        savedCount (learn .stable twoPhrases 3 (learn .stable oneWord 3 none)) a b) ∧
    ¬ ∀ k, 1 ≤ k → ∀ a b,
      savedCount ((learn .stable oneWord 3)^[k] (learn .stable oneWord 3 none)) a b =
        savedCount (learn .stable oneWord 3 (learn .stable oneWord 3 none)) a b :=
  ⟨(learn_again_iff .stable twoPhrases 3 (learn .stable oneWord 3 none)
      fun hne => absurd (by decide) hne).mpr (by decide),
    fun hsame => absurd ((learn_again_iff .stable oneWord 3 (learn .stable oneWord 3 none)
      fun _ => by decide).mp hsame) (by decide)⟩

/-- The word is counted once by the first run, and twice after the second. -/
theorem learn_counts_again : ¬ ∀ (db : SqliteHistoryStore) (file : Option Bytes) (k : Nat),
    1 ≤ k → ∀ a b, savedCount ((learn .stable db 3)^[k] file) a b =
      savedCount (learn .stable db 3 file) a b := by
  intro hall
  have hone : savedCount (learn .stable oneWord 3 none) (encodeChar '弹') (encodeChar '窗') = 1 := by
    decide
  have htwo : savedCount ((learn .stable oneWord 3)^[2] none) (encodeChar '弹') (encodeChar '窗') =
      2 := by
    decide
  have hsame := hall oneWord none 2 (by omega) (encodeChar '弹') (encodeChar '窗')
  rw [hone, htwo] at hsame
  exact absurd hsame (by decide)

/-! ### Rounds of both kinds -/

/-- The database and the file, and the files that earlier rounds left. -/
structure Knowledge where
  db : SqliteHistoryStore
  file : Option Bytes
  earlier : List (Option Bytes) := []

/-- What happens to them. -/
inductive Round.Event where
  | commit (nowUs : UInt64) (ev : CommitEvent)
  | learn (minFreq : UInt32)
  | autoLearn (minFreq : UInt32)
  deriving DecidableEq, Repr

open Round (Event)

variable (p : Platform)

/-- Commits, runs of `dafeng-cli learn` and rounds of the daemon in any order, all
of which succeed. -/
def rounds (db : SqliteHistoryStore) (file : Option Bytes) : System Knowledge Event where
  init := { db, file }
  step s
    | .commit nowUs ev => some { s with db := s.db.insert nowUs ev }
    | .learn minFreq => some { s with
        file := Learning.learn p s.db minFreq s.file
        earlier := s.earlier ++ [s.file] }
    | .autoLearn minFreq => some { s with
        file := Learning.autoLearn p s.db minFreq s.file
        earlier := s.earlier ++ [s.file] }

/-- No count is smaller in the second file. -/
def NoneLost (older newer : Option Bytes) : Prop :=
  ∀ a b, savedCount older a b ≤ savedCount newer a b

/-- The files in the order they were saved. -/
def Knowledge.files (s : Knowledge) : List (Option Bytes) := s.earlier ++ [s.file]

/-- The pairs of a round fit the file. -/
def Fits (s : Knowledge) : Event → Prop
  | .commit _ _ => True
  | .learn _ => (savedPairs s.file).length + (windowBigrams p s.db).length < 2 ^ 32
  | .autoLearn _ => (windowBigrams p s.db).length < 2 ^ 32

/-- The window has every pair as often as the file, where the daemon runs a round;
`dafeng-cli learn` needs only that the sums are below 2^32. -/
def Covered (s : Knowledge) : Event → Prop
  | .commit _ _ => True
  | .learn _ => ∀ a b,
      (savedCount s.file a b).toNat + (windowBigrams p s.db).count (a, b) < 2 ^ 32
  | .autoLearn _ => ∀ a b, (savedCount s.file a b).toNat ≤ (windowBigrams p s.db).count (a, b)

theorem NoneLost.trans {f g h : Option Bytes} (hfg : NoneLost f g) (hgh : NoneLost g h) :
    NoneLost f h := fun a b => UInt32.le_trans (hfg a b) (hgh a b)

theorem noneLost_learn_iff (db : SqliteHistoryStore) (minFreq : UInt32) (file : Option Bytes)
    (hfits : (savedPairs file).length + (windowBigrams p db).length < 2 ^ 32) :
    NoneLost file (learn p db minFreq file) ↔
      ∀ a b, (savedCount file a b).toNat + (windowBigrams p db).count (a, b) < 2 ^ 32 := by
  have hlearn := (savedCount_learn p db minFreq
    (List.subset_append_left (savedPairs file) (windowBigrams p db))
    (List.subset_append_right _ _) (by rwa [List.length_append])).2
  refine forall_congr' fun a => forall_congr' fun b => ?_
  have hle := List.count_le_length (a := (a, b)) (l := windowBigrams p db)
  have hlt := (savedCount file a b).toNat_lt
  rw [hlearn, UInt32.le_iff_toNat_le, UInt32.toNat_add, UInt32.toNat_ofNat',
    Nat.mod_eq_of_lt (a := (windowBigrams p db).count (a, b)) (by omega)]
  omega

theorem noneLost_autoLearn_iff (db : SqliteHistoryStore) (minFreq : UInt32) (file : Option Bytes)
    (hfits : (windowBigrams p db).length < 2 ^ 32) :
    NoneLost file (autoLearn p db minFreq file) ↔
      ∀ a b, (savedCount file a b).toNat ≤ (windowBigrams p db).count (a, b) := by
  refine forall_congr' fun a => forall_congr' fun b => ?_
  rw [UInt32.le_iff_toNat_le, savedCount_autoLearn p db minFreq file hfits]

/-- A further file after files of which none lost a count. -/
theorem pairwise_noneLost_append {files : List (Option Bytes)} {file file' : Option Bytes} :
    (files ++ [file] ++ [file']).Pairwise NoneLost ↔
      (files ++ [file]).Pairwise NoneLost ∧ NoneLost file file' := by
  rw [List.pairwise_append]
  constructor
  · intro h
    obtain ⟨hfiles, -, hlast⟩ := h
    exact ⟨hfiles, hlast file (by simp) file' (by simp)⟩
  · intro h
    obtain ⟨hfiles, hlast⟩ := h
    refine ⟨hfiles, List.pairwise_singleton _ _, fun f hf g hg => ?_⟩
    obtain rfl := List.mem_singleton.mp hg
    rcases List.mem_append.mp hf with hf | hf
    · exact ((List.pairwise_append.mp hfiles).2.2 f hf file (by simp)).trans hlast
    · rwa [List.mem_singleton.mp hf]

/-- **What is kept over the rounds.** In a run whose rounds fit the file, no round
leaves a smaller count than an earlier one exactly if the daemon runs its rounds
only where the window covers the file, and no sum overflows. -/
theorem rounds_noneLost_iff (db : SqliteHistoryStore) (file : Option Bytes) (events : List Event)
    (s : Knowledge) (hrun : (rounds p db file).run events = some s)
    (hfits : (rounds p db file).each (Fits p) (rounds p db file).init events) :
    s.files.Pairwise NoneLost ↔
      (rounds p db file).each (Covered p) (rounds p db file).init events := by
  have hstep : ∀ {s : Knowledge} {e : Event} {s' : Knowledge}, Fits p s e →
      (rounds p db file).step s e = some s' →
      (s'.files.Pairwise NoneLost ↔ s.files.Pairwise NoneLost ∧ Covered p s e) := by
    intro s e s' hfit hs
    cases e with
    | commit nowUs ev =>
        obtain rfl := Option.some.inj hs
        exact ⟨fun h => ⟨h, trivial⟩, And.left⟩
    | learn minFreq =>
        obtain rfl := Option.some.inj hs
        exact pairwise_noneLost_append.trans
          (and_congr_right fun _ => noneLost_learn_iff p s.db minFreq s.file hfit)
    | autoLearn minFreq =>
        obtain rfl := Option.some.inj hs
        exact pairwise_noneLost_append.trans
          (and_congr_right fun _ => noneLost_autoLearn_iff p s.db minFreq s.file hfit)
  rw [System.runFrom_iff_each hstep hrun hfits]
  exact and_iff_right (List.pairwise_singleton _ _)

/-- Another round over a word that the file has, and one after a third character. -/
def longerWord : List Event :=
  [.autoLearn 2, .commit 1400000 { committedText := encodeText ['好'] }, .autoLearn 2]

/-- Nothing is lost to them. -/
theorem rounds_noneLost_longerWord : ∃ s,
    (rounds .stable oneWord (autoLearn .stable oneWord 2 none)).run longerWord = some s ∧
      s.files.Pairwise NoneLost := by
  have hpairs : windowBigrams .stable oneWord = [(encodeChar '弹', encodeChar '窗')] := by decide
  have hlonger : windowBigrams .stable
      (oneWord.insert 1400000 { committedText := encodeText ['好'] }) =
        [(encodeChar '弹', encodeChar '窗'), (encodeChar '窗', encodeChar '好')] := by
    decide
  have hsaved := fun file => savedCount_autoLearn .stable oneWord 2 file (by simp [hpairs])
  have hfits : (windowBigrams .stable
      (oneWord.insert 1400000 { committedText := encodeText ['好'] })).length < 2 ^ 32 := by
    simp only [hlonger, List.length_cons, List.length_nil]
    omega
  have hcovered : ∀ file a b, (savedCount (autoLearn .stable oneWord 2 file) a b).toNat ≤
      (windowBigrams .stable
        (oneWord.insert 1400000 { committedText := encodeText ['好'] })).count (a, b) := by
    intro file a b
    rw [hsaved, hlonger, hpairs]
    exact (List.prefix_append [(encodeChar '弹', encodeChar '窗')] _).sublist.count_le _
  refine ⟨_, rfl, (rounds_noneLost_iff .stable oneWord _ longerWord _ rfl ?_).mpr ?_⟩
  · exact (System.each_cons _ rfl).mpr ⟨by simp [Fits, hpairs, rounds],
      (System.each_cons _ rfl).mpr ⟨trivial, (System.each_cons _ rfl).mpr
        ⟨by exact hfits, trivial⟩⟩⟩
  · exact (System.each_cons _ rfl).mpr ⟨fun a b => (hsaved none a b).le,
      (System.each_cons _ rfl).mpr ⟨trivial, (System.each_cons _ rfl).mpr
        ⟨by exact hcovered (autoLearn .stable oneWord 2 none), trivial⟩⟩⟩

/-- A daemon that was given a word by its file, and forgets it when it learns. -/
theorem rounds_loses : ¬ ∀ (db : SqliteHistoryStore) (file : Option Bytes) (events : List Event)
    (s : Knowledge), (rounds .stable db file).run events = some s → s.files.Pairwise NoneLost := by
  intro hall
  have hkept := hall {} (learn .stable oneWord 3 none)
    [.commit 1000000 { committedText := encodeText ['好'] }, .autoLearn 2] _ rfl
  have hlost := (List.pairwise_cons.mp hkept).1 _ (List.mem_singleton.mpr rfl) (encodeChar '弹')
    (encodeChar '窗')
  revert hlost
  decide

end Dafeng.Learning
