import Dafeng.Inspector.ViewModel

/-!
# Dafeng.Inspector.LostUpdate

What a deletion in the Inspector does to the rest of the dictionary. It writes the
list in memory and does not read the file again, so that it keeps the rest exactly
if the list still is what stands in the file.
-/

namespace Dafeng.Inspector

open Dafeng.Utf8 Dafeng.Learning Dafeng.Protocol

/-! ### In sync -/

/-- Whether the list has the header and the rows of the file. -/
def Desktop.inSync (s : Desktop) : Bool :=
  match s.dict with
  | none => false
  | some contents =>
    headRows contents == getlines lineFeed (encodeText s.view.header) &&
      decide ((dataRows contents).Perm (s.view.entries.map LearnedEntry.row))

/-- A file whose rows are all read as they stand. -/
def PlainRows (swift : Swift) (contents : Bytes) : Prop :=
  ∀ row ∈ dataRows contents, ∃ columns, Plain swift columns ∧ rowBytes (columnBytes columns) = row

section InSync

variable {swift : Swift} {p : Platform} {s s' : Desktop}

theorem inSync_iff {contents : Bytes} (h : s.dict = some contents) : s.inSync = true ↔
    headRows contents = getlines lineFeed (encodeText s.view.header) ∧
      (dataRows contents).Perm (s.view.entries.map LearnedEntry.row) := by
  unfold Desktop.inSync
  rw [h]
  simp

theorem lineFeed_not_mem_row {e : LearnedEntry} (h : Plain swift e.columns) :
    lineFeed ∉ e.row := by
  rw [LearnedEntry.row, ← encodeText_printLine, lineFeed_mem_encodeText]
  intro hmem
  have hnewline := isNewline_printLine h '\n' hmem
  revert hnewline
  decide

/-- The lines of a header that the daemon wrote. -/
theorem getlines_headerText (generated version : IsoTimestamp) :
    getlines lineFeed (encodeText (headerText generated version)) =
      (rimeHeader generated version ++ [headerEnd]).map encodeText := by
  have hlines := getlines_headerBytes generated version []
  rw [List.append_nil, getlines_nil] at hlines
  rw [encodeText_headerText, hlines, List.map_append]
  rfl

/-- The file after a deletion has the header of the list, and its other rows. -/
theorem of_savedAfter (h : s.Sound swift) {e : LearnedEntry} (he : e ∈ s.view.entries) :
    headRows (savedAfter swift s e) = getlines lineFeed (encodeText s.view.header) ∧
      (dataRows (savedAfter swift s e)).Perm
        ((s.view.entries.filter (· ≠ e)).map LearnedEntry.row) := by
  obtain ⟨generated, version, hheader⟩ := h.header (List.ne_nil_of_mem he)
  rw [savedAfter_eq hheader, headRows_headerBytes, dataRows_headerBytes, hheader,
    getlines_headerText, getlines_unlines, flatMap_splitOn]
  · exact ⟨rfl, (swift.sorter.perm _).map _⟩
  · intro row hrow
    obtain ⟨e', he', rfl⟩ := List.mem_map.mp hrow
    have hmem := swift.sorter.mem_sort.mp he'
    exact lineFeed_not_mem_row (h.plain e' (List.mem_filter.mp hmem).1)

/-- The rows of a list without one of its entries. -/
theorem rows_perm (h : s.view.entries.Nodup) {e : LearnedEntry} (he : e ∈ s.view.entries) :
    (s.view.entries.map LearnedEntry.row).Perm
      (e.row :: (s.view.entries.filter (· ≠ e)).map LearnedEntry.row) :=
  (perm_filter_ne h he).map LearnedEntry.row

/-- A deletion keeps the rest of the file exactly if the list is what stands in it. -/
theorem keepsRest_eq (h : s.Sound swift) {e : LearnedEntry} (he : e ∈ s.view.entries) :
    keepsRest e.row s.dict (some (savedAfter swift s e)) = s.inSync := by
  obtain ⟨hhead, hrows⟩ := of_savedAfter h he
  have hentries := rows_perm h.nodup he
  cases hdict : s.dict with
  | none =>
      unfold Desktop.inSync
      rw [hdict]
      rfl
  | some contents =>
      rw [Bool.eq_iff_iff, inSync_iff hdict, keepsRest, Bool.and_eq_true, beq_iff_eq,
        decide_eq_true_eq, hhead]
      refine and_congr eq_comm ⟨fun hperm => ?_, fun hperm => ?_⟩
      · exact (hperm.trans (hrows.cons e.row)).trans hentries.symm
      · exact (hperm.trans hentries).trans (hrows.symm.cons e.row)

/-! ### How the list comes into sync, and stays there -/

/-- Plain rows are the lines of plain entries. -/
theorem exists_columns {lines : List Bytes}
    (h : ∀ row ∈ lines, ∃ columns, Plain swift columns ∧ rowBytes (columnBytes columns) = row) :
    ∃ columns : List Columns, (∀ c ∈ columns, Plain swift c) ∧
      lines = columns.map fun c => rowBytes (columnBytes c) := by
  induction lines with
  | nil => exact ⟨[], fun c hc => absurd hc List.not_mem_nil, rfl⟩
  | cons line lines ih =>
      obtain ⟨⟨c, hplain, hrow⟩, hlines⟩ := List.forall_mem_cons.mp h
      obtain ⟨columns, hall, hcolumns⟩ := ih hlines
      exact ⟨c :: columns, List.forall_mem_cons.mpr ⟨hplain, hall⟩,
        by rw [List.map_cons, hrow, ← hcolumns]⟩

/-- Reading plain rows brings the list into sync. -/
theorem refresh_inSync (h : s.Sound swift) {contents : Bytes} (hdict : s.dict = some contents)
    (hplain : PlainRows swift contents)
    (hs : Desktop.step swift p s .refresh = some s') : s'.inSync = true := by
  obtain ⟨generated, version, rows, rfl⟩ := h.file contents hdict
  unfold PlainRows at hplain
  rw [dataRows_headerBytes, getlines_unlines] at hplain
  obtain ⟨columns, hall, hrows⟩ := exists_columns hplain
  have hbody : unlines lineFeed rows = encodeText (unlines '\n' (columns.map printLine)) := by
    rw [← unlines_flatMap_splitOn, hrows, encodeText_unlines, List.map_map]
    exact congrArg (unlines lineFeed) (List.map_congr_left fun c _ => (encodeText_printLine c).symm)
  have hload : load swift s.nextEntry s.dict =
      .ok (headerText generated version, makeEntries s.nextEntry columns) := by
    rw [hdict, load_headerText, hbody, decodeText_encodeText]
    dsimp only
    rw [parseBody_unlines hall]
  have hdict' : s'.dict = some (headerBytes generated version ++ unlines lineFeed rows) := by
    obtain rfl := Option.some.inj hs
    exact hdict
  rw [inSync_iff hdict', headRows_headerBytes, dataRows_headerBytes, getlines_unlines, hrows]
  obtain rfl := Option.some.inj hs
  dsimp only
  rw [hload]
  refine ⟨(getlines_headerText generated version).symm, List.Perm.of_eq ?_⟩
  have hcolumns := map_columns_makeEntries s.nextEntry columns
  calc columns.map (fun c => rowBytes (columnBytes c))
      = ((makeEntries s.nextEntry columns).map LearnedEntry.columns).map
          fun c => rowBytes (columnBytes c) := by rw [hcolumns]
    _ = (makeEntries s.nextEntry columns).map LearnedEntry.row := List.map_map

/-- A list in sync was read from plain rows. -/
theorem plainRows_of_inSync (h : s.Sound swift) {contents : Bytes}
    (hdict : s.dict = some contents) (hsync : s.inSync = true) : PlainRows swift contents := by
  intro row hrow
  obtain ⟨-, hrows⟩ := (inSync_iff hdict).mp hsync
  obtain ⟨e, he, rfl⟩ := List.mem_map.mp (hrows.mem_iff.mp hrow)
  exact ⟨e.columns, h.plain e he, rfl⟩

/-- Whether a step is a round that replaces the dictionary. -/
def Desktop.Label.rewrites : Desktop.Label → Bool
  | .round r => r.writes
  | _ => false

/-- Only a round brings the list out of sync. -/
theorem step_inSync (h : s.Sound swift) (hsync : s.inSync = true) {l : Desktop.Label}
    (hl : l.rewrites = false) (hs : Desktop.step swift p s l = some s') : s'.inSync = true := by
  cases l with
  | commit nowUs ev =>
      obtain rfl := Option.some.inj hs
      exact hsync
  | round r =>
      obtain ⟨-, rfl⟩ := step_round hs
      have hdict : s.dictAfter p r = s.dict := by
        rw [dictAfter_eq, if_neg (by simpa [Desktop.Label.rewrites] using hl)]
      unfold Desktop.inSync at hsync ⊢
      dsimp only
      rwa [hdict]
  | refresh =>
      cases hdict : s.dict with
      | none =>
          unfold Desktop.inSync at hsync
          rw [hdict] at hsync
          cases hsync
      | some contents =>
          exact refresh_inSync h hdict (plainRows_of_inSync h hdict hsync) hs
  | delete e written =>
      cases written with
      | false =>
          obtain rfl := step_delete_failed hs
          exact hsync
      | true =>
          obtain ⟨he, rfl⟩ := step_delete hs
          exact (inSync_iff rfl).mpr (of_savedAfter h he)

theorem runFrom_inSync {labels : List Desktop.Label} (h : s.Sound swift) (hsync : s.inSync = true)
    (hlabels : ∀ l ∈ labels, l.rewrites = false)
    (hrun : (desktop swift p).runFrom s labels = some s') : s'.inSync = true := by
  induction labels generalizing s with
  | nil =>
      obtain rfl := Option.some.inj hrun
      exact hsync
  | cons l labels ih =>
      obtain ⟨s₁, hs, hrest⟩ := Option.bind_eq_some_iff.mp hrun
      obtain ⟨hl, hlabels⟩ := List.forall_mem_cons.mp hlabels
      exact ih (h.step hs) (step_inSync h hsync hl hs) hlabels hrest

/-! ### Runs -/

/-- The list is in sync at a deletion that is written. -/
def Desktop.SyncedDelete (s : Desktop) : Desktop.Label → Prop
  | .delete _ true => s.inSync = true
  | _ => True

/-- The step lemma: a deletion loses more than its row exactly if the list is out of
sync. -/
theorem lossy_iff (h : s.Sound swift) (hnone : s.lossy = []) {l : Desktop.Label}
    (hs : Desktop.step swift p s l = some s') : s'.lossy = [] ↔ s.SyncedDelete l := by
  cases l with
  | commit nowUs ev =>
      obtain rfl := Option.some.inj hs
      exact iff_of_true hnone trivial
  | round r =>
      obtain ⟨-, rfl⟩ := step_round hs
      exact iff_of_true hnone trivial
  | refresh =>
      obtain rfl := Option.some.inj hs
      exact iff_of_true hnone trivial
  | delete e written =>
      cases written with
      | false =>
          obtain rfl := step_delete_failed hs
          exact iff_of_true hnone trivial
      | true =>
          obtain ⟨he, rfl⟩ := step_delete hs
          dsimp only [Desktop.SyncedDelete]
          rw [hnone, keepsRest_eq h he]
          cases s.inSync <;> simp

end InSync

/-- **What a deletion keeps.** In every run, all deletions keep the rest of the file if
and only if the list is in sync at each. It is from a refresh that reads plain rows on,
until a round replaces the file. -/
theorem deletion_keeps_rest (swift : Swift) (p : Platform) :
    (∀ labels s, (desktop swift p).run labels = some s →
      ((∀ labels' s', labels' <+: labels → (desktop swift p).run labels' = some s' →
        s'.lossy = []) ↔
      (desktop swift p).each Desktop.SyncedDelete (desktop swift p).init labels)) ∧
    ∀ s s₁ s₂ contents labels, (desktop swift p).Reachable s → s.dict = some contents →
      PlainRows swift contents → (desktop swift p).step s .refresh = some s₁ →
      (∀ l ∈ labels, l.rewrites = false) → (desktop swift p).runFrom s₁ labels = some s₂ →
        s₂.inSync = true := by
  constructor
  · intro labels s hrun
    exact System.forall_reached_iff_each (I := Desktop.Sound swift) (fun h hs => h.step hs)
      (fun h hnone hs => lossy_iff h hnone hs) (sound_of_reachable .init) rfl hrun
  · intro s s₁ s₂ contents labels hs hdict hplain hrefresh hlabels hrun
    have hsound := sound_of_reachable hs
    have hstep : Desktop.step swift p s .refresh = some s₁ := hrefresh
    exact runFrom_inSync (hsound.step hstep) (refresh_inSync hsound hdict hplain hstep) hlabels hrun

/-! ### A word that is learned and listed -/

/-- Two words, each typed twice character by character. -/
def typedCommits : List (UInt64 × CommitEvent) := [
  (1000000, { code := ascii "xu", committedText := encodeText ['弹'] }),
  (1100000, { code := ascii "pw", committedText := encodeText ['窗'] }),
  (1200000, { code := ascii "xu", committedText := encodeText ['弹'] }),
  (1300000, { code := ascii "pw", committedText := encodeText ['窗'] }),
  (10000000, { code := ascii "vb", committedText := encodeText ['好'] }),
  (10100000, { code := ascii "qq", committedText := encodeText ['多'] }),
  (10200000, { code := ascii "vb", committedText := encodeText ['好'] }),
  (10300000, { code := ascii "qq", committedText := encodeText ['多'] })]

/-- A round that read the first `rows` commits. -/
def learnFrom (rows : Nat) : LearningRun where
  cfg := { minNewWordFreq := 2 }
  rows
  rw := { generated := someTime, version := someTime }

def firstWord : DiscoveredWord := ⟨encodeText ['弹', '窗'], ascii "xupw", 2, 1000000, 1200000⟩

/-- Its entry in the list. -/
def firstEntry : LearnedEntry := ⟨0, ['弹', '窗'], "xupw".toList, 2⟩

def typing : List Desktop.Label := typedCommits.map fun c => .commit c.1 c.2

/-- The desktop after the commits. -/
def typed : Desktop where
  db := typedCommits.foldl (fun db c => db.insert c.1 c.2) {}

theorem run_typing : (desktop .scalars .stable).run typing = some typed := rfl

/-- A round learns the first word. -/
def learned : Desktop :=
  { typed with dict := some (rimeDictYaml (learnFrom 4).rw [firstWord]) }

theorem step_learned :
    (desktop .scalars .stable).step typed (.round (learnFrom 4)) = some learned := by
  have hfirst : (learnFrom 4).words .stable typed.db = [firstWord] := by decide
  have hstep : (desktop .scalars .stable).step typed (.round (learnFrom 4)) = some { typed with
      dict := some (rimeDictYaml (learnFrom 4).rw ((learnFrom 4).words .stable typed.db)) } := rfl
  rw [hstep, hfirst]
  rfl

/-- The Inspector reads the dictionary. -/
def listed : Desktop :=
  { learned with
    view := { header := headerText someTime someTime, entries := [firstEntry] }
    nextEntry := 1 }

theorem plain_firstEntry : Plain .scalars firstEntry.columns :=
  ⟨forall_mem_of_all (by decide), forall_mem_of_all (by decide), ⟨'弹', rfl, by decide⟩, by decide,
    by decide⟩

theorem load_learned : load .scalars 0 learned.dict =
    .ok (headerText someTime someTime, [firstEntry]) := by
  have hbody : unlines lineFeed ([firstWord].filterMap wordRow) =
      encodeText (unlines '\n' ([firstEntry.columns].map printLine)) := by decide
  rw [learned, rimeDictYaml_eq, load_headerText, hbody, decodeText_encodeText]
  dsimp only
  rw [parseBody_unlines (List.forall_mem_singleton.mpr plain_firstEntry)]
  rfl

theorem step_listed : (desktop .scalars .stable).step learned .refresh = some listed :=
  step_refresh (p := .stable) load_learned

theorem run_listed :
    (desktop .scalars .stable).run (typing ++ [.round (learnFrom 4)] ++ [.refresh]) = some listed :=
  System.run_concat (System.run_concat run_typing step_learned) step_listed

theorem run_from_listed {labels : List Desktop.Label} {s : Desktop}
    (h : (desktop .scalars .stable).runFrom listed labels = some s) :
    (desktop .scalars .stable).run
      (typing ++ [.round (learnFrom 4)] ++ [.refresh] ++ labels) = some s := by
  rw [System.run_append, run_listed, Option.bind_some, h]

/-- A list that was just read is in sync at the deletion of its word. -/
theorem deletion_keeps_rest_listed : firstEntry ∈ listed.view.entries ∧ listed.inSync = true := by
  have hplain : PlainRows .scalars (rimeDictYaml (learnFrom 4).rw [firstWord]) := by
    intro row hrow
    have hrows : dataRows (rimeDictYaml (learnFrom 4).rw [firstWord]) = [firstEntry.row] := by
      rw [dataRows_rimeDictYaml]
      decide
    rw [hrows] at hrow
    exact ⟨firstEntry.columns, plain_firstEntry, (List.mem_singleton.mp hrow).symm⟩
  refine ⟨List.mem_singleton_self _, ?_⟩
  exact (deletion_keeps_rest .scalars .stable).2 learned listed listed _ []
    (.step (System.reachable_of_run run_typing) step_learned) rfl hplain step_listed (by simp) rfl

/-- A round writes a second word, and the list without it is written back. -/
theorem word_lost : ¬ ∀ labels s, (desktop .scalars .stable).run labels = some s →
    s.lossy = [] := by
  intro hall
  have hlost : ((desktop .scalars .stable).runFrom listed
      [.round (learnFrom 8), .delete firstEntry true]).map Desktop.lossy = some [firstEntry] := by
    decide
  obtain ⟨s, hrun, hlossy⟩ := Option.map_eq_some_iff.mp hlost
  have hnone := hall _ s (run_from_listed hrun)
  rw [hnone] at hlossy
  cases hlossy

end Dafeng.Inspector
