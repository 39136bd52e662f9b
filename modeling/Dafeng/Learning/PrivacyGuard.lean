import Dafeng.Library.Paths
import Dafeng.Protocol.Types

/-!
# Dafeng.Learning.PrivacyGuard

The guard in front of the history store (`MakeSqliteHistoryStore` of
`src/daemon/history_store.cc`): a database is opened below the data root only.
-/

namespace Dafeng.Learning

open Dafeng.Protocol

/-- What the guard asks `std::filesystem`. -/
structure PathLibrary where
  preferredSeparator : UInt8
  weaklyCanonical : Bytes → Option Bytes
  isAbsolute : Bytes → Bool
  parentPath : Bytes → Bytes

/-- `PathIsUnder`. -/
def pathIsUnder (fs : PathLibrary) (target root : Bytes) : Bool :=
  match fs.weaklyCanonical target, fs.weaklyCanonical root with
  | some t, some r =>
    if !fs.isAbsolute t || !fs.isAbsolute r then false
    else if t.length < r.length then false
    else if t.take r.length ≠ r then false
    else if t.length = r.length then true
    else t[r.length]? == some fs.preferredSeparator
  | _, _ => false

/-- What is done to the disk. -/
inductive StoreEffect where
  | createDirectories (path : Bytes)
  | openDb (path : Bytes)
  | chmod (path : Bytes)
  | applySchema (path : Bytes)
  deriving DecidableEq, Repr

/-- Whether the directories could be made, the database opened and its schema
applied. -/
structure StoreAnswers where
  mkdir : Bool
  opened : Bool
  schema : Bool
  deriving DecidableEq, Repr

/-- `MakeSqliteHistoryStore` behind the guard, and whether a store comes out. -/
def openHistoryStore (fs : PathLibrary) (answers : StoreAnswers) (dbPath : Bytes) :
    List StoreEffect × Bool :=
  if !answers.mkdir then ([.createDirectories (fs.parentPath dbPath)], false)
  else if !answers.opened then
    ([.createDirectories (fs.parentPath dbPath), .openDb dbPath], false)
  else
    ([.createDirectories (fs.parentPath dbPath), .openDb dbPath, .chmod dbPath,
      .applySchema dbPath], answers.schema)

/-- `MakeSqliteHistoryStore`. -/
def makeSqliteHistoryStore (fs : PathLibrary) (answers : StoreAnswers) (dbPath dataRoot : Bytes) :
    List StoreEffect × Bool :=
  if !pathIsUnder fs dbPath dataRoot then ([], false) else openHistoryStore fs answers dbPath

/-! ### Containment -/

/-- `weakly_canonical` gives absolute paths in normal form. -/
structure PathLibrary.Normalizes (fs : PathLibrary)
    (canonical : Bytes → Option (AbsolutePath fs.preferredSeparator)) : Prop where
  text : ∀ p, fs.weaklyCanonical p = (canonical p).map (·.text)
  absolute : ∀ p c, canonical p = some c → fs.isAbsolute c.text = true

/-- A path is the root itself or lies inside it. -/
def Inside {sep : UInt8} (canonical : Bytes → Option (AbsolutePath sep)) (target root : Bytes) :
    Prop :=
  ∃ t r, canonical target = some t ∧ canonical root = some r ∧ r.components <+: t.components

/-- The comparison of the two texts. -/
theorem covers_iff {sep : UInt8} {r t : Bytes} :
    (if t.length < r.length then false
      else if t.take r.length ≠ r then false
      else if t.length = r.length then true
      else t[r.length]? == some sep) = true ↔ Covers sep r t := by
  constructor
  · intro h
    split_ifs at h with hlen hprefix heq
    · refine ⟨[], ?_, atSeparator_nil⟩
      rw [← heq, List.take_length] at hprefix
      rw [List.append_nil]
      exact not_not.mp hprefix
    · -- the byte behind the prefix decides
      have hsplit := List.take_append_drop r.length t
      rw [not_not.mp hprefix] at hsplit
      refine ⟨t.drop r.length, hsplit.symm, ?_⟩
      intro a ha
      rw [List.head?_drop] at ha
      rw [beq_iff_eq, ha] at h
      exact Option.some_inj.mp h
  · intro h
    obtain ⟨rest, rfl, hrest⟩ := h
    rw [if_neg (by simp), if_neg (by simp)]
    cases rest with
    | nil => simp
    | cons a rest => simpa using hrest a rfl

variable {fs : PathLibrary} {canonical : Bytes → Option (AbsolutePath fs.preferredSeparator)}

theorem pathIsUnder_eq (h : fs.Normalizes canonical) {target root : Bytes}
    {r : AbsolutePath fs.preferredSeparator} (hroot : canonical root = some r)
    (hne : r.names ≠ []) : pathIsUnder fs target root = true ↔ Inside canonical target root := by
  unfold pathIsUnder Inside
  rw [h.text, h.text, hroot]
  cases htarget : canonical target with
  | none => simp
  | some t =>
      -- both are absolute, so that only their texts are compared
      have hcovers := AbsolutePath.covers_text (t := t) hne
      simp only [Option.map_some, h.absolute target t htarget, h.absolute root r hroot]
      rw [← covers_iff] at hcovers
      simpa using hcovers

/-- A database that is opened lies inside the data root. -/
theorem inside_of_openDb {answers : StoreAnswers} (h : fs.Normalizes canonical)
    {dbPath dataRoot path : Bytes} {r : AbsolutePath fs.preferredSeparator}
    (hroot : canonical dataRoot = some r) (hne : r.names ≠ [])
    (hopen : .openDb path ∈ (makeSqliteHistoryStore fs answers dbPath dataRoot).1) :
    Inside canonical dbPath dataRoot := by
  rw [← pathIsUnder_eq h hroot hne]
  unfold makeSqliteHistoryStore at hopen
  split at hopen
  case isTrue => simp at hopen
  case isFalse hunder => simpa using hunder

/-- A directory beside the root whose name only begins like the root's is not inside. -/
theorem not_inside_sibling {dbPath dataRoot name more : Bytes} {parent rest : List Bytes}
    {t r : AbsolutePath fs.preferredSeparator} (htarget : canonical dbPath = some t)
    (hroot : canonical dataRoot = some r) (hr : r.names = parent ++ [name])
    (ht : t.names = parent ++ (name ++ more) :: rest) (hmore : more ≠ []) :
    ¬ Inside canonical dbPath dataRoot := by
  intro h
  obtain ⟨t', r', ht', hr', hprefix⟩ := h
  obtain rfl : t' = t := Option.some_inj.mp (ht'.symm.trans htarget)
  obtain rfl : r' = r := Option.some_inj.mp (hr'.symm.trans hroot)
  -- behind the parent the two differ in one component
  rw [AbsolutePath.components, AbsolutePath.components, List.cons_prefix_cons, hr, ht,
    List.prefix_append_right_inj, List.cons_prefix_cons] at hprefix
  exact hmore (by simpa using hprefix.2.1)

/-- The guard admits the descendants of the data root, and nothing else: below a root
that is not the root of the file system, containment is decided on the components; no
database is opened outside, in particular none in a sibling whose name begins with the
root's; and behind the guard nothing is rejected for its place, so that a store comes out
where the disk and SQLite answer. -/
theorem privacyGuard (fs : PathLibrary)
    (canonical : Bytes → Option (AbsolutePath fs.preferredSeparator))
    (hnormal : fs.Normalizes canonical) (target root : Bytes)
    (r : AbsolutePath fs.preferredSeparator) (hroot : canonical root = some r)
    (hne : r.names ≠ []) :
    (pathIsUnder fs target root = true ↔
      ∃ t, canonical target = some t ∧ r.components <+: t.components) ∧
    (∀ answers path, .openDb path ∈ (makeSqliteHistoryStore fs answers target root).1 →
      ∃ t, canonical target = some t ∧ r.components <+: t.components) ∧
    (∀ t parent name more rest, canonical target = some t → r.names = parent ++ [name] →
      t.names = parent ++ (name ++ more) :: rest → more ≠ [] →
      ∀ answers, makeSqliteHistoryStore fs answers target root = ([], false)) ∧
    (∀ t, canonical target = some t → r.components <+: t.components →
      (∀ answers, makeSqliteHistoryStore fs answers target root =
        openHistoryStore fs answers target) ∧
      .openDb target ∈ (makeSqliteHistoryStore fs ⟨true, true, true⟩ target root).1 ∧
      (makeSqliteHistoryStore fs ⟨true, true, true⟩ target root).2 = true) := by
  have hinside : Inside canonical target root ↔
      ∃ t, canonical target = some t ∧ r.components <+: t.components := by
    simp [Inside, hroot]
  have hunder : pathIsUnder fs target root = true ↔ Inside canonical target root :=
    pathIsUnder_eq hnormal hroot hne
  refine ⟨hunder.trans hinside, ?_, ?_, ?_⟩
  · intro answers path hopen
    exact hinside.mp (inside_of_openDb hnormal hroot hne hopen)
  · intro t parent name more rest ht hr htn hmore answers
    have hout := not_inside_sibling ht hroot hr htn hmore
    rw [← hunder, Bool.not_eq_true] at hout
    simp [makeSqliteHistoryStore, hout]
  · intro t ht hprefix
    have hin := hunder.mpr (hinside.mpr ⟨t, ht, hprefix⟩)
    have hopen : ∀ answers, makeSqliteHistoryStore fs answers target root =
        openHistoryStore fs answers target := fun answers => by
      simp [makeSqliteHistoryStore, hin]
    refine ⟨hopen, ?_⟩
    rw [hopen]
    simp [openHistoryStore]

/-- A disk without links that has `/d` and `/d/h`. -/
def twoPaths : PathLibrary where
  preferredSeparator := 47
  weaklyCanonical p := if p = [47, 100] ∨ p = [47, 100, 47, 104] then some p else none
  isAbsolute p := p.head? == some 47
  parentPath p := p.take 2

/-- `/d` as the root and `/d/h` as the database. -/
theorem privacyGuard_file :
    pathIsUnder twoPaths [47, 100, 47, 104] [47, 100] = true ∧
      .openDb [47, 100, 47, 104] ∈
        (makeSqliteHistoryStore twoPaths ⟨true, true, true⟩ [47, 100, 47, 104] [47, 100]).1 ∧
      (makeSqliteHistoryStore twoPaths ⟨true, true, true⟩ [47, 100, 47, 104] [47, 100]).2 =
        true := by
  let canonical : Bytes → Option (AbsolutePath (47 : UInt8)) := fun p =>
    if p = [47, 100] then some ⟨[], [[100]], by decide, by decide⟩
    else if p = [47, 100, 47, 104] then some ⟨[], [[100], [104]], by decide, by decide⟩
    else none
  have hnormal : twoPaths.Normalizes canonical := by
    constructor
    · intro p
      by_cases hroot : p = [47, 100]
      · rw [hroot]
        decide
      · by_cases hfile : p = [47, 100, 47, 104]
        · rw [hfile]
          decide
        · simp [twoPaths, canonical, hroot, hfile]
    · intro p c hc
      simp only [canonical] at hc
      split_ifs at hc
      all_goals
        cases hc
        decide
  obtain ⟨hunder, -, -, hopen⟩ := privacyGuard twoPaths canonical hnormal [47, 100, 47, 104]
    [47, 100] ⟨[], [[100]], by decide, by decide⟩ rfl (by decide)
  exact ⟨hunder.mpr ⟨⟨[], [[100], [104]], by decide, by decide⟩, rfl, by decide⟩,
    (hopen ⟨[], [[100], [104]], by decide, by decide⟩ rfl (by decide)).2⟩

end Dafeng.Learning
