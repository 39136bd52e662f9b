import Dafeng.Inspector.LostUpdate

/-!
# Dafeng.Inspector.Deletion

What becomes of a word that was deleted in the Inspector. The deletion leaves the
history alone, so that the word is back after a round for which it still occurs
often enough.
-/

namespace Dafeng.Inspector

open Dafeng.Utf8 Dafeng.Learning Dafeng.Protocol

/-! ### Codes of one line -/

/-- The code of a commit has no line feed. -/
def Desktop.Label.plain : Desktop.Label → Bool
  | .commit _ ev => !ev.code.contains lineFeed
  | _ => true

def plainCode (_ : Desktop) (l : Desktop.Label) : Bool := l.plain

/-- No commit has a code with a line feed. -/
def PlainCodes (s : Desktop) : Prop := ∀ e ∈ s.db.rows, lineFeed ∉ e.code

section Rounds

variable {swift : Swift} {p : Platform} {s s' : Desktop}

theorem PlainCodes.step (h : PlainCodes s) {l : Desktop.Label} (hl : plainCode s l = true)
    (hs : Desktop.step swift p s l = some s') : PlainCodes s' := by
  cases l with
  | commit nowUs ev =>
      obtain rfl := Option.some.inj hs
      intro e he
      rcases List.mem_append.mp he with hold | hnew
      · exact h e hold
      · rw [List.mem_singleton.mp hnew]
        simpa [plainCode, Desktop.Label.plain] using hl
  | round r =>
      obtain ⟨-, rfl⟩ := step_round hs
      exact h
  | refresh =>
      obtain rfl := Option.some.inj hs
      exact h
  | delete e written =>
      cases written with
      | false =>
          obtain rfl := step_delete_failed hs
          exact h
      | true =>
          obtain ⟨-, rfl⟩ := step_delete hs
          exact h

/-- The words of the dictionary that a round writes are those it can learn. -/
theorem contains_dictAfter (h : PlainCodes s) {r : LearningRun} (hwrites : r.writes = true)
    (text : Bytes) : (dictTexts (s.dictAfter p r)).contains text = r.learns p s.db text := by
  rw [Bool.eq_iff_iff, List.contains_iff_mem]
  obtain ⟨hkept, honly⟩ := mem_dictAfter p s hwrites text
  exact ⟨honly fun e he => h e (mem_of_mem_entries he), hkept⟩

/-! ### Runs -/

/-- A round that writes can learn no deleted word that was not committed since. -/
def Desktop.StaysDeleted (p : Platform) (s : Desktop) : Desktop.Label → Prop
  | .round r => r.writes = true → ∀ text ∈ s.pending, r.learns p s.db text = false
  | _ => True

/-- The step lemma: only a round can bring a word back. -/
theorem returned_iff (h : PlainCodes s) (hnone : s.returned = []) {l : Desktop.Label}
    (hs : Desktop.step swift p s l = some s') : s'.returned = [] ↔ s.StaysDeleted p l := by
  cases l with
  | commit nowUs ev =>
      obtain rfl := Option.some.inj hs
      exact iff_of_true hnone trivial
  | round r =>
      obtain ⟨-, rfl⟩ := step_round hs
      dsimp only [Desktop.StaysDeleted]
      rw [hnone, List.nil_append]
      by_cases hwrites : r.writes = true
      · rw [if_pos hwrites, List.filter_eq_nil_iff]
        simp only [contains_dictAfter h hwrites, Bool.not_eq_true, hwrites, forall_const]
      · rw [if_neg hwrites]
        exact iff_of_true rfl fun hw => absurd hw hwrites
  | refresh =>
      obtain rfl := Option.some.inj hs
      exact iff_of_true hnone trivial
  | delete e written =>
      cases written with
      | false =>
          obtain rfl := step_delete_failed hs
          exact iff_of_true hnone trivial
      | true =>
          obtain ⟨-, rfl⟩ := step_delete hs
          exact iff_of_true hnone trivial

end Rounds

/-- **Deleted words stay deleted** in a run, whose codes are each on one line, if and
only if no round that writes can learn such a word again from the commits that it
scans. -/
theorem deleted_words_stay_iff (swift : Swift) (p : Platform) (labels : List Desktop.Label)
    (s : Desktop) (hrun : ((desktop swift p).restrict plainCode).run labels = some s) :
    (∀ labels' s', labels' <+: labels →
      ((desktop swift p).restrict plainCode).run labels' = some s' → s'.returned = []) ↔
    ((desktop swift p).restrict plainCode).each (Desktop.StaysDeleted p)
      ((desktop swift p).restrict plainCode).init labels := by
  refine System.forall_reached_iff_each (I := PlainCodes) ?_ ?_ ?_ rfl hrun
  · intro s l s' h hs
    obtain ⟨hl, hs⟩ := System.restrict_step.mp hs
    exact h.step hl hs
  · intro s l s' h hnone hs
    obtain ⟨hl, hs⟩ := System.restrict_step.mp hs
    exact returned_iff h hnone hs
  · intro e he
    cases he

/-- A round that asks for more occurrences than a word has. -/
def learnRare : LearningRun := { learnFrom 8 with cfg := { minNewWordFreq := 3 } }

/-- The word that was listed is deleted, and a round does not find it again. -/
def deletedRare : List Desktop.Label :=
  typing ++ [.round (learnFrom 4), .refresh, .delete firstEntry true, .round learnRare]

theorem deleted_words_stay_rare : ∃ s,
    ((desktop .scalars .stable).restrict plainCode).run deletedRare = some s ∧
      s.deleted = [(firstWord.text, 8)] ∧ s.returned = [] := by
  obtain ⟨s, hrun, hdeleted⟩ : ∃ s,
      ((desktop .scalars .stable).restrict plainCode).run deletedRare = some s ∧
        s.deleted = [(firstWord.text, 8)] := by
    have hrest : ((desktop .scalars .stable).runFrom listed
        [.delete firstEntry true, .round learnRare]).map Desktop.deleted =
          some [(firstWord.text, 8)] := by decide
    obtain ⟨s, hs, hdeleted⟩ := Option.map_eq_some_iff.mp hrest
    refine ⟨s, ?_, hdeleted⟩
    have hplain : ∀ l ∈ deletedRare, l.plain = true := by decide
    exact (System.run_restrict fun l hl _ => hplain l hl).trans (run_from_listed hs)
  refine ⟨s, hrun, hdeleted, ?_⟩
  refine (deleted_words_stay_iff .scalars .stable deletedRare s hrun).mpr ?_ deletedRare s
    (List.prefix_refl _) hrun
  refine (System.each_append _ (show _ = some typed from rfl)).mpr ⟨?_, ?_⟩
  · refine System.each_of_forall (fun l hl s => ?_) _
    obtain ⟨c, -, rfl⟩ := List.mem_map.mp hl
    trivial
  · refine (System.each_cons _ (System.restrict_step.mpr ⟨rfl, step_learned⟩)).mpr ⟨?_, ?_⟩
    · exact fun _ text htext => absurd htext List.not_mem_nil
    refine (System.each_cons _ (System.restrict_step.mpr ⟨rfl, step_listed⟩)).mpr ⟨trivial, ?_⟩
    refine (System.each_cons _ rfl).mpr ⟨trivial, (System.each_cons _ rfl).mpr ⟨?_, trivial⟩⟩
    show _ → ∀ text ∈ _, _
    decide

/-- With the usual frequency the next round writes the word again. -/
theorem deleted_word_returned : ¬ ∀ labels s, (desktop .scalars .stable).run labels = some s →
    s.returned = [] := by
  intro hall
  have hback : ((desktop .scalars .stable).runFrom listed
      [.delete firstEntry true, .round (learnFrom 8)]).map Desktop.returned =
        some [firstWord.text] := by decide
  obtain ⟨s, hrun, hreturned⟩ := Option.map_eq_some_iff.mp hback
  have hnone := hall _ s (run_from_listed hrun)
  rw [hnone] at hreturned
  cases hreturned

end Dafeng.Inspector
