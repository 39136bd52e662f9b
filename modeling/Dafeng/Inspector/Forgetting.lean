import Dafeng.Inspector.LostUpdate

/-!
# Dafeng.Inspector.Forgetting

How long a learned word stays in the dictionary. Each round builds the dictionary
anew from the newest commits, so that a word stays for as long as the rounds can
learn it from these.
-/

namespace Dafeng.Inspector

open Dafeng.Utf8 Dafeng.Learning Dafeng.Protocol

/-! ### Between two rounds -/

/-- Whether a step leaves the dictionary as it is. -/
def Desktop.Label.keepsDict : Desktop.Label → Bool
  | .round r => !r.writes
  | .delete _ written => !written
  | _ => true

section Between

variable {swift : Swift} {p : Platform} {s s' : Desktop}

/-- Commits are added, and none is taken away. -/
theorem step_rows {l : Desktop.Label} (hs : Desktop.step swift p s l = some s') :
    s.db.rows <+: s'.db.rows := by
  cases l with
  | commit nowUs ev =>
      obtain rfl := Option.some.inj hs
      exact List.prefix_append _ _
  | round r =>
      obtain ⟨-, rfl⟩ := step_round hs
      exact List.prefix_refl _
  | refresh =>
      obtain rfl := Option.some.inj hs
      exact List.prefix_refl _
  | delete e written =>
      cases written with
      | false =>
          obtain rfl := step_delete_failed hs
          exact List.prefix_refl _
      | true =>
          obtain ⟨-, rfl⟩ := step_delete hs
          exact List.prefix_refl _

theorem step_dict {l : Desktop.Label} (hl : l.keepsDict = true)
    (hs : Desktop.step swift p s l = some s') : s'.dict = s.dict := by
  cases l with
  | commit nowUs ev =>
      obtain rfl := Option.some.inj hs
      rfl
  | round r =>
      obtain ⟨-, rfl⟩ := step_round hs
      dsimp only
      rw [dictAfter_eq, if_neg (by simpa [Desktop.Label.keepsDict] using hl)]
  | refresh =>
      obtain rfl := Option.some.inj hs
      rfl
  | delete e written =>
      cases written with
      | false =>
          obtain rfl := step_delete_failed hs
          rfl
      | true => cases hl

theorem runFrom_keeps {labels : List Desktop.Label} (hlabels : ∀ l ∈ labels, l.keepsDict = true)
    (hrun : (desktop swift p).runFrom s labels = some s') :
    s'.dict = s.dict ∧ s.db.rows <+: s'.db.rows := by
  induction labels generalizing s with
  | nil =>
      obtain rfl := Option.some.inj hrun
      exact ⟨rfl, List.prefix_refl _⟩
  | cons l labels ih =>
      obtain ⟨s₁, hs, hrest⟩ := Option.bind_eq_some_iff.mp hrun
      obtain ⟨hl, hlabels⟩ := List.forall_mem_cons.mp hlabels
      obtain ⟨hdict, hrows⟩ := ih hlabels hrest
      exact ⟨hdict.trans (step_dict hl hs), (step_rows hs).trans hrows⟩

/-- Later commits do not change what a round has read. -/
theorem entries_of_prefix (p : Platform) {db db' : SqliteHistoryStore} {r : LearningRun}
    (hrows : r.rows ≤ db.rows.length) (hpre : db.rows <+: db'.rows) :
    r.entries p db' = r.entries p db := by
  obtain ⟨more, hmore⟩ := hpre
  have htake : db'.rows.take r.rows = db.rows.take r.rows := by
    rw [← hmore, List.take_append_of_le_length hrows]
  show SqliteHistoryStore.recentEntries _ { db' with rows := db'.rows.take r.rows } _ =
    SqliteHistoryStore.recentEntries _ { db with rows := db.rows.take r.rows } _
  rw [SqliteHistoryStore.recentEntries, SqliteHistoryStore.recentEntries, htake]

end Between

/-- **What stays in the dictionary.** From a round that writes until the next write the
dictionary has every word that can be learned from the commits which the round read,
and, if no code of these has a line feed, no other word, whatever earlier rounds wrote. -/
theorem kept_iff_learnable (swift : Swift) (p : Platform) {labels labels' : List Desktop.Label}
    {r : LearningRun} {s : Desktop}
    (hrun : (desktop swift p).run (labels ++ .round r :: labels') = some s)
    (hwrites : r.writes = true) (hlater : ∀ l ∈ labels', l.keepsDict = true) (text : Bytes) :
    (r.learns p s.db text = true → text ∈ dictTexts s.dict) ∧
    ((∀ e ∈ r.entries p s.db, lineFeed ∉ e.code) →
      text ∈ dictTexts s.dict → r.learns p s.db text = true) := by
  rw [System.run_append] at hrun
  obtain ⟨s₀, -, hrun⟩ := Option.bind_eq_some_iff.mp hrun
  obtain ⟨s₁, hround, hrun⟩ := Option.bind_eq_some_iff.mp hrun
  have hstep : Desktop.step swift p s₀ (.round r) = some s₁ := hround
  obtain ⟨hrows, rfl⟩ := step_round hstep
  obtain ⟨hdict, hpre⟩ := runFrom_keeps hlater hrun
  have hentries : r.entries p s.db = r.entries p s₀.db := entries_of_prefix p hrows hpre
  rw [LearningRun.learns, hentries, hdict]
  exact mem_dictAfter p s₀ hwrites text

/-- The word that was listed is still there after another commit. -/
theorem kept_iff_learnable_typed : ∃ s, (desktop .scalars .stable).run
    (typing ++ .round (learnFrom 4) :: [.refresh, .commit 20000000 {}]) = some s ∧
      firstWord.text ∈ dictTexts s.dict := by
  have hrun : (desktop .scalars .stable).run
      (typing ++ .round (learnFrom 4) :: [.refresh, .commit 20000000 {}]) =
        some { listed with db := listed.db.insert 20000000 {} } := run_from_listed rfl
  exact ⟨_, hrun, (kept_iff_learnable .scalars .stable hrun rfl (by decide) firstWord.text).1
    (by decide)⟩

/-! ### A word that is forgotten -/

/-- A commit, or a round of the daemon that writes. -/
def Desktop.Label.learns : Desktop.Label → Bool
  | .commit _ _ => true
  | .round r => r.writes && r.cfg == { minNewWordFreq := 2 }
  | _ => false

theorem runFrom_commits (swift : Swift) (p : Platform) (s : Desktop)
    (commits : List (UInt64 × CommitEvent)) :
    (desktop swift p).runFrom s (commits.map fun c => .commit c.1 c.2) =
      some { s with db := commits.foldl (fun db c => db.insert c.1 c.2) s.db } := by
  induction commits generalizing s with
  | nil => rfl
  | cons c commits ih => exact ih { s with db := s.db.insert c.1 c.2 }

theorem rows_foldl_insert (db : SqliteHistoryStore) (commits : List (UInt64 × CommitEvent)) :
    ∃ new, (commits.foldl (fun db c => db.insert c.1 c.2) db).rows = db.rows ++ new ∧
      new.length = commits.length ∧ ∀ e ∈ new, ∃ c ∈ commits,
        e.tsUs = c.1 ∧ e.code = c.2.code ∧ e.committedText = c.2.committedText := by
  induction commits generalizing db with
  | nil => exact ⟨[], by simp, rfl, by simp⟩
  | cons c commits ih =>
      obtain ⟨new, hrows, hlength, hall⟩ := ih (db.insert c.1 c.2)
      obtain ⟨row, hrow, hfields⟩ : ∃ row, (db.insert c.1 c.2).rows = db.rows ++ [row] ∧
          row.tsUs = c.1 ∧ row.code = c.2.code ∧ row.committedText = c.2.committedText :=
        ⟨_, rfl, rfl, rfl, rfl⟩
      refine ⟨row :: new, ?_, congrArg (· + 1) hlength, List.forall_mem_cons.mpr ⟨?_, ?_⟩⟩
      · rw [List.foldl_cons, hrows, hrow, List.append_assoc]
        rfl
      · exact ⟨c, List.mem_cons_self, hfields⟩
      · intro e he
        obtain ⟨c', hc', heq⟩ := hall e he
        exact ⟨c', List.mem_cons_of_mem c hc', heq⟩

/-- One character, as many times as a round reads commits. -/
def manyCommits : List (UInt64 × CommitEvent) :=
  (List.range 5000).map fun i =>
    (UInt64.ofNat (20000000 + 1000000 * i),
      { code := ascii "r", committedText := encodeText ['的'] })

/-- Where one character is all that was committed, no other text can be learned. -/
theorem not_learnable {p : Platform} {cfg : LearningRoundConfig} {rime : RimeConfig}
    {entries : List HistoryEntry} {text : Bytes}
    (hentries : ∀ e ∈ entries, e.committedText = encodeText ['的'])
    (htext : text.head? ≠ some 0xE7) : learnable p cfg rime entries text = false := by
  have hnone : windowsOf p.chrono cfg.discovery entries text = [] := by
    refine List.eq_nil_iff_forall_not_mem.mpr fun w hw => htext ?_
    obtain ⟨hne, run, hrun, htokens⟩ := of_mem_windowsOf hw
    obtain ⟨t, rest, rfl⟩ := List.exists_cons_of_ne_nil hne
    have hch : t.ch = encodeText ['的'] := by
      obtain ⟨e, he, ht⟩ := List.mem_flatMap.mp (htokens t List.mem_cons_self)
      obtain ⟨ch, hch, rfl⟩ := List.mem_map.mp ht
      rw [hentries e (mem_of_mem_chain hrun he)] at hch
      rw [show tokenTexts (encodeText ['的']) = [encodeText ['的']] by decide] at hch
      exact List.mem_singleton.mp hch
    have hwindow := of_decide_eq_true (List.mem_filter.mp hw).2
    rw [← hwindow, windowText, List.flatMap_cons, hch]
    rfl
  rw [learnable, hnone]
  rfl

/-- The newest commits are these, if they are later than all others. -/
theorem mem_new_of_mem_entries {old new : List HistoryEntry} {db : SqliteHistoryStore}
    (hdb : db.rows = old ++ new) (hold : ∀ e ∈ old, e.tsUs.toInt64.toInt < 20000000)
    (hnew : ∀ e ∈ new, 20000000 ≤ e.tsUs.toInt64.toInt) (hlength : new.length = 5000)
    {e : HistoryEntry} (he : e ∈ (learnFrom db.rows.length).entries .stable db) : e ∈ new := by
  have htake : ({ db with rows := db.rows.take db.rows.length } : SqliteHistoryStore).rows =
      old ++ new := by rw [List.take_length, hdb]
  have he : e ∈ SqliteHistoryStore.recentEntries newestFirst
      { db with rows := db.rows.take db.rows.length } 5000 := he
  rw [SqliteHistoryStore.recentEntries, htake] at he
  rw [if_neg (by decide)] at he
  refine newestFirst.mem_of_mem_take_sort (fun a ha b hb => ?_) (fun a _ => ?_)
    (Nat.le_of_eq hlength.symm) he
  · have hab := Int.lt_of_lt_of_le (hold a ha) (hnew b hb)
    rw [newer, decide_eq_true_eq, Int64.lt_iff_toInt_lt]
    exact hab
  · simp [newer]

/-- A word that the daemon learned is gone after five thousand further commits. -/
theorem word_forgotten : ¬ ∀ labels labels' s s',
    (∀ l ∈ labels ++ labels', l.learns = true) → (desktop .scalars .stable).run labels = some s →
      (desktop .scalars .stable).runFrom s labels' = some s' →
        ∀ text ∈ dictTexts s.dict, text ∈ dictTexts s'.dict := by
  intro hall
  obtain ⟨new, hrows, hlength, hnew⟩ := rows_foldl_insert learned.db manyCommits
  generalize hdb : manyCommits.foldl (fun db c => db.insert c.1 c.2) learned.db = db at hrows
  have hmany : new.length = 5000 := by simpa [manyCommits] using hlength
  have hcommitted : ∀ e ∈ new, lineFeed ∉ e.code ∧ e.committedText = encodeText ['的'] ∧
      20000000 ≤ e.tsUs.toInt64.toInt := by
    intro e he
    obtain ⟨c, hc, hts, hcode, htext⟩ := hnew e he
    obtain ⟨i, hi, rfl⟩ := List.mem_map.mp hc
    have hlt := List.mem_range.mp hi
    refine ⟨?_, htext, ?_⟩
    · rw [hcode]
      show lineFeed ∉ ascii "r"
      decide
    · have htime : e.tsUs.toInt64 = Int64.ofNat (20000000 + 1000000 * i) := congrArg _ hts
      rw [htime, Int64.toInt_ofNat_of_lt (by omega)]
      omega
  have hscanned : ∀ e ∈ (learnFrom db.rows.length).entries .stable db, e ∈ new := fun e =>
    mem_new_of_mem_entries hrows (by decide) (fun e he => (hcommitted e he).2.2) hmany
  obtain ⟨s, hstep⟩ : ∃ s, (desktop .scalars .stable).step { learned with db }
      (.round (learnFrom db.rows.length)) = some s := ⟨_, if_pos (Nat.le_refl _)⟩
  have hrun : (desktop .scalars .stable).runFrom learned
      (manyCommits.map (fun c => .commit c.1 c.2) ++ [.round (learnFrom db.rows.length)]) =
        some s := by
    rw [System.runFrom_append, runFrom_commits, hdb, Option.bind_some, System.runFrom, hstep]
    rfl
  have hkept := hall (typing ++ [.round (learnFrom 4)]) _ learned s ?_
    (System.run_concat run_typing step_learned) hrun firstWord.text (by decide)
  · have hround : Desktop.step .scalars .stable { learned with db }
        (.round (learnFrom db.rows.length)) = some s := hstep
    obtain ⟨-, rfl⟩ := step_round hround
    have hlearns := (mem_dictAfter .stable { learned with db } rfl firstWord.text).2
      (fun e he => (hcommitted e (hscanned e he)).1) hkept
    rw [LearningRun.learns, not_learnable
      (fun e he => (hcommitted e (hscanned e he)).2.1) (by decide)] at hlearns
    cases hlearns
  · intro l hl
    rcases List.mem_append.mp hl with hl | hl
    · exact (by decide : ∀ l ∈ typing ++ [.round (learnFrom 4)], l.learns = true) l hl
    · rcases List.mem_append.mp hl with hl | hl
      · obtain ⟨c, -, rfl⟩ := List.mem_map.mp hl
        rfl
      · rw [List.mem_singleton.mp hl]
        rfl

end Dafeng.Inspector
