import Mathlib.Data.List.Infix
import Dafeng.Inspector.Readback
import Dafeng.Learning.Learnable
import Dafeng.Library.Transition

/-!
# Dafeng.Inspector.ViewModel

The list of learned words in the Inspector
(`apps/inspector/Sources/DafengInspector/LearnedDictView.swift`), on one desktop
with the history and with the learning rounds, which rewrite the file that the
list was read from. A round reads the history some time before it writes; each
write replaces the whole file.
-/

namespace Dafeng.Inspector

open Dafeng.Utf8 Dafeng.Learning Dafeng.Protocol

/-! ### The view model -/

/-- `LearnedDictViewModel`, without the filter of the list and the texts of the
errors. -/
structure LearnedDictViewModel where
  header : List Char := []
  entries : List LearnedEntry := []
  error : Option LearnedDictError := none
  redeployHint : Bool := false
  deriving DecidableEq, Repr

namespace LearnedDictViewModel

/-- `refresh`, with what `load` gives. The header outlives an error. -/
def refresh (vm : LearnedDictViewModel) :
    Except LearnedDictError (List Char × List LearnedEntry) → LearnedDictViewModel
  | .ok (header, entries) => { vm with header, entries, error := none }
  | .error error => { vm with entries := [], error := some error }

/-- `delete`: the view model and the file afterwards. The file is not read again. -/
def delete (swift : Swift) (written : Bool) (vm : LearnedDictViewModel) (entry : LearnedEntry)
    (file : Option Bytes) : LearnedDictViewModel × Option Bytes :=
  let surviving := vm.entries.filter (· ≠ entry)
  match save swift written vm.header surviving file with
  | (none, file) => ({ vm with entries := surviving, redeployHint := true }, file)
  | (some error, file) => ({ vm with error := some error }, file)

end LearnedDictViewModel

/-! ### Learning rounds -/

/-- A learning round: its configuration, how many commits there were when it read the
history, and how it writes the dictionary. -/
structure LearningRun where
  cfg : LearningRoundConfig := {}
  rime : RimeConfig := {}
  rows : Nat
  rw : RimeWrite

namespace LearningRun

/-- The history that the round reads. -/
def history (r : LearningRun) (p : Platform) (db : SqliteHistoryStore) : HistoryStore :=
  ({ db with rows := db.rows.take r.rows } : SqliteHistoryStore).store p.orderBy

/-- The commits that it scans. -/
def entries (r : LearningRun) (p : Platform) (db : SqliteHistoryStore) : List HistoryEntry :=
  (r.history p db).recentEntries r.cfg.scanMaxEntries

def words (r : LearningRun) (p : Platform) (db : SqliteHistoryStore) : List DiscoveredWord :=
  learnedWords p r.cfg r.rime (r.history p db)

/-- Whether a text can be learned from these commits. -/
def learns (r : LearningRun) (p : Platform) (db : SqliteHistoryStore) (text : Bytes) : Bool :=
  learnable p r.cfg r.rime (r.entries p db) text

/-- Whether the round replaces the dictionary. -/
def writes (r : LearningRun) : Bool := r.rime.userDir && r.rw.written

end LearningRun

/-! ### The desktop -/

/-- The history, the dictionary and the Inspector. The last three fields only record:
the words that were deleted, each with the number of commits at the time; those that
a round wrote again without a new commit; and the deletions that changed more than
their row. -/
structure Desktop where
  db : SqliteHistoryStore := {}
  dict : Option Bytes := none
  view : LearnedDictViewModel := {}
  nextEntry : Nat := 0
  deleted : List (Bytes × Nat) := []
  returned : List Bytes := []
  lossy : List LearnedEntry := []
  deriving DecidableEq

inductive Desktop.Label where
  | commit (nowUs : UInt64) (ev : CommitEvent)
  | round (r : LearningRun)
  | refresh
  | delete (e : LearnedEntry) (written : Bool)

/-- The row of an entry in the file. -/
def LearnedEntry.row (e : LearnedEntry) : Bytes := rowBytes (columnBytes e.columns)

/-- The same header, and the same rows in any order but for one. -/
def keepsRest (row : Bytes) : Option Bytes → Option Bytes → Bool
  | some before, some after =>
    headRows after == headRows before && decide ((dataRows before).Perm (row :: dataRows after))
  | _, _ => false

namespace Desktop

/-- Whether the characters of a text were committed after the first `rows` commits. -/
def committedSince (s : Desktop) (rows : Nat) (text : Bytes) : Bool :=
  decide (text <:+: (s.db.rows.drop rows).flatMap HistoryEntry.committedText)

/-- The deleted words that were not committed since. -/
def pending (s : Desktop) : List Bytes :=
  (s.deleted.filter fun d => !s.committedSince d.2 d.1).map Prod.fst

/-- The dictionary after a round. -/
def dictAfter (p : Platform) (s : Desktop) (r : LearningRun) : Option Bytes :=
  writeDict r.rime r.rw (r.words p s.db) s.dict

/-- The Inspector shows the entries that it read last, and only these can be deleted. -/
def step (swift : Swift) (p : Platform) (s : Desktop) : Label → Option Desktop
  | .commit nowUs ev => some { s with db := s.db.insert nowUs ev }
  | .round r =>
    if r.rows ≤ s.db.rows.length then
      some { s with
        dict := s.dictAfter p r
        returned := s.returned ++
          if r.writes then s.pending.filter fun text => (dictTexts (s.dictAfter p r)).contains text
          else [] }
    else none
  | .refresh =>
    let view := s.view.refresh (load swift s.nextEntry s.dict)
    some { s with view, nextEntry := s.nextEntry + view.entries.length }
  | .delete e written =>
    if e ∈ s.view.entries then
      let (view, dict) := s.view.delete swift written e s.dict
      some { s with
        view
        dict
        deleted := s.deleted ++
          if written && !(dictTexts dict).contains (encodeText e.text) then
            [(encodeText e.text, s.db.rows.length)]
          else []
        lossy := s.lossy ++ if written && !keepsRest e.row s.dict dict then [e] else [] }
    else none

end Desktop

/-- An empty history, and no dictionary yet. -/
def desktop (swift : Swift) (p : Platform) : System Desktop Desktop.Label where
  init := {}
  step := Desktop.step swift p

/-! ### What the steps do -/

section Steps

variable {swift : Swift} {p : Platform} {s s' : Desktop}

theorem dictAfter_eq (s : Desktop) (r : LearningRun) : s.dictAfter p r =
    if r.writes then some (rimeDictYaml r.rw (r.words p s.db)) else s.dict :=
  writeDict_eq r.rime r.rw (r.words p s.db) s.dict

/-- The words of the dictionary after a round. -/
theorem mem_dictAfter (p : Platform) (s : Desktop) {r : LearningRun} (hwrites : r.writes = true)
    (text : Bytes) :
    (r.learns p s.db text = true → text ∈ dictTexts (s.dictAfter p r)) ∧
    ((∀ e ∈ r.entries p s.db, lineFeed ∉ e.code) →
      text ∈ dictTexts (s.dictAfter p r) → r.learns p s.db text = true) := by
  rw [dictAfter_eq, if_pos hwrites, dictTexts_rimeDictYaml]
  exact mem_rowTexts_learnedWords

/-- What a round scans was committed. -/
theorem mem_of_mem_entries {r : LearningRun} {e : HistoryEntry} (h : e ∈ r.entries p s.db) :
    e ∈ s.db.rows :=
  List.mem_of_mem_take (SqliteHistoryStore.mem_of_mem_recentEntries h)

theorem step_round {r : LearningRun} (h : Desktop.step swift p s (.round r) = some s') :
    r.rows ≤ s.db.rows.length ∧ s' = { s with
      dict := s.dictAfter p r
      returned := s.returned ++
        if r.writes then s.pending.filter fun text => (dictTexts (s.dictAfter p r)).contains text
        else [] } := by
  obtain ⟨hrows, hs⟩ := Option.ite_none_right_eq_some.mp h
  exact ⟨hrows, (Option.some.inj hs).symm⟩

theorem step_refresh {header : List Char} {entries : List LearnedEntry}
    (h : load swift s.nextEntry s.dict = .ok (header, entries)) :
    Desktop.step swift p s .refresh = some { s with
      view := { s.view with header, entries, error := none }
      nextEntry := s.nextEntry + entries.length } := by
  rw [Desktop.step, h]
  rfl

/-- What a deletion that is written puts into the file. -/
def savedAfter (swift : Swift) (s : Desktop) (e : LearnedEntry) : Bytes :=
  encodeText (saved swift s.view.header (s.view.entries.filter (· ≠ e)))

/-- A deletion that is not written changes nothing but the error. -/
theorem step_delete_failed {e : LearnedEntry}
    (h : Desktop.step swift p s (.delete e false) = some s') :
    s' = { s with view := { s.view with error := some .writeFailed } } := by
  obtain ⟨-, hs⟩ := Option.ite_none_right_eq_some.mp h
  obtain rfl := Option.some.inj hs
  simp only [Bool.false_and, Bool.false_eq_true, if_false, List.append_nil]

theorem step_delete {e : LearnedEntry} (h : Desktop.step swift p s (.delete e true) = some s') :
    e ∈ s.view.entries ∧ s' = { s with
      view := { s.view with entries := s.view.entries.filter (· ≠ e), redeployHint := true }
      dict := some (savedAfter swift s e)
      deleted := s.deleted ++
        if !(dictTexts (some (savedAfter swift s e))).contains (encodeText e.text) then
          [(encodeText e.text, s.db.rows.length)]
        else []
      lossy := s.lossy ++
        if !keepsRest e.row s.dict (some (savedAfter swift s e)) then [e] else [] } := by
  obtain ⟨hmem, hs⟩ := Option.ite_none_right_eq_some.mp h
  obtain rfl := Option.some.inj hs
  exact ⟨hmem, rfl⟩

end Steps

/-! ### The file and the list -/

theorem mem_makeEntries {next : Nat} {rows : List Columns} {e : LearnedEntry}
    (h : e ∈ makeEntries next rows) : e.columns ∈ rows := by
  rw [← map_columns_makeEntries next rows]
  exact List.mem_map_of_mem h

/-- No two entries have one id. -/
theorem nodup_makeEntries (next : Nat) (rows : List Columns) : (makeEntries next rows).Nodup := by
  have hids : (makeEntries next rows).map LearnedEntry.id = List.range' next rows.length := by
    rw [makeEntries, List.map_map, List.range'_eq_map_range, List.range_eq_range',
      ← List.zipIdx_map_snd 0 rows, List.map_map]
    rfl
  exact List.Nodup.of_map _ (hids ▸ List.nodup_range')

/-- The entries that are left, with the one that went. -/
theorem perm_filter_ne {entries : List LearnedEntry} (h : entries.Nodup) {e : LearnedEntry}
    (he : e ∈ entries) : entries.Perm (e :: entries.filter (· ≠ e)) := by
  have hfilter : entries.erase e = entries.filter (· ≠ e) := by
    rw [h.erase_eq_filter]
    exact List.filter_congr fun e' _ => Bool.eq_iff_iff.mpr (by simp)
  rw [← hfilter]
  exact List.perm_cons_erase he

/-- The file, if there is one, begins with a header of the daemon. So does the list
that was read from it; its entries are plain and distinct. -/
structure Desktop.Sound (swift : Swift) (s : Desktop) : Prop where
  file : ∀ contents, s.dict = some contents →
    ∃ generated version rows, contents = headerBytes generated version ++ unlines lineFeed rows
  header : s.view.entries ≠ [] → ∃ generated version, s.view.header = headerText generated version
  plain : ∀ e ∈ s.view.entries, Plain swift e.columns
  nodup : s.view.entries.Nodup

/-- The header of the daemon ends with a line feed. -/
theorem saved_headerText (swift : Swift) (generated version : IsoTimestamp)
    (entries : List LearnedEntry) :
    encodeText (saved swift (headerText generated version) entries) =
      headerBytes generated version ++
        unlines lineFeed ((swift.sorter.sort entries).map LearnedEntry.row) := by
  have hsuffix : hasNewlineSuffix (headerText generated version) = true := by
    have hreverse : (headerText generated version).reverse =
        '\n' :: '.' :: '.' :: '.' :: (unlines '\n' (rimeHeader generated version)).reverse := by
      rw [headerText, unlines_append, List.reverse_append]
      rfl
    rw [hasNewlineSuffix, hreverse]
    rfl
  rw [saved, if_pos hsuffix, encodeText_append, encodeText_headerText, encodeText_unlines,
    List.map_map]
  have hrows : (swift.sorter.sort entries).map (encodeText ∘ fun e => printLine e.columns) =
      (swift.sorter.sort entries).map LearnedEntry.row :=
    List.map_congr_left fun e _ => encodeText_printLine e.columns
  rw [hrows]

variable {swift : Swift} {p : Platform} {s s' : Desktop}

/-- The file after a deletion from a list with the daemon's header. -/
theorem savedAfter_eq {generated version : IsoTimestamp} {e : LearnedEntry}
    (h : s.view.header = headerText generated version) : savedAfter swift s e =
      headerBytes generated version ++ unlines lineFeed
        ((swift.sorter.sort (s.view.entries.filter (· ≠ e))).map LearnedEntry.row) := by
  rw [savedAfter, h, saved_headerText]

theorem Desktop.Sound.step {l : Desktop.Label} (h : s.Sound swift)
    (hs : Desktop.step swift p s l = some s') : s'.Sound swift := by
  cases l with
  | commit nowUs ev =>
      obtain rfl := Option.some.inj hs
      exact ⟨h.file, h.header, h.plain, h.nodup⟩
  | round r =>
      obtain ⟨-, rfl⟩ := step_round hs
      refine ⟨fun contents hcontents => ?_, h.header, h.plain, h.nodup⟩
      dsimp only at hcontents
      rw [dictAfter_eq] at hcontents
      split_ifs at hcontents
      · obtain rfl := Option.some.inj hcontents
        exact ⟨_, _, _, rimeDictYaml_eq r.rw (r.words p s.db)⟩
      · exact h.file contents hcontents
  | refresh =>
      obtain rfl := Option.some.inj hs
      cases hdict : s.dict with
      | none =>
          refine ⟨fun contents hcontents => ?_, fun hne => absurd rfl hne, ?_, List.nodup_nil⟩
          · cases hcontents
          · intro e he
            cases he
      | some contents =>
          obtain ⟨generated, version, rows, rfl⟩ := h.file contents hdict
          have hload := load_headerText swift s.nextEntry generated version (unlines lineFeed rows)
          cases hbody : decodeText (unlines lineFeed rows) with
          | none =>
              rw [hbody] at hload
              refine ⟨fun contents hcontents => h.file contents (hdict.trans hcontents), ?_, ?_, ?_⟩
              all_goals
                dsimp only
                rw [hload]
              · exact fun hne => absurd rfl hne
              · intro e he
                cases he
              · exact List.nodup_nil
          | some body =>
              rw [hbody] at hload
              refine ⟨fun contents hcontents => h.file contents (hdict.trans hcontents), ?_, ?_, ?_⟩
              all_goals
                dsimp only
                rw [hload]
              · exact fun _ => ⟨generated, version, rfl⟩
              · exact fun e he => plain_of_mem_parseBody (mem_makeEntries he)
              · exact nodup_makeEntries _ _
  | delete e written =>
      cases written with
      | false =>
          obtain rfl := step_delete_failed hs
          exact ⟨h.file, h.header, h.plain, h.nodup⟩
      | true =>
          obtain ⟨hmem, rfl⟩ := step_delete hs
          obtain ⟨generated, version, hheader⟩ := h.header (List.ne_nil_of_mem hmem)
          refine ⟨fun contents hcontents => ?_, fun _ => ⟨generated, version, hheader⟩,
            fun e' he' => h.plain e' (List.mem_filter.mp he').1, h.nodup.filter _⟩
          obtain rfl := Option.some.inj hcontents
          exact ⟨generated, version, _, savedAfter_eq hheader⟩

theorem sound_of_reachable (h : (desktop swift p).Reachable s) : s.Sound swift := by
  refine h.invariant ⟨?_, fun hne => absurd rfl hne, ?_, List.nodup_nil⟩ fun _ hsound hs =>
    hsound.step hs
  · intro contents hcontents
    cases hcontents
  · intro e he
    cases he

end Dafeng.Inspector
