import Dafeng.Learning.AutoLearn
import Dafeng.Learning.RimeDict
import Mathlib.Data.List.Dedup

/-!
# Dafeng.Learning.Notice

What the user is told about learned words (`src/daemon/auto_learn.cc`). The runner
tells how many words a round discovered, and looks neither at the dictionary that
the round wrote nor at the one before it. It tells the truth in a run where every
round that is told about wrote its words, all of them new.
-/

namespace Dafeng.Learning

open Dafeng.Protocol Dafeng.Utf8

/-! ### The words of a dictionary -/

/-- The words of a dictionary that another one has not. -/
def newTexts (before after : Option Bytes) : List Bytes :=
  ((dictTexts after).filter fun text => !(dictTexts before).contains text).dedup

/-! ### The runner with the dictionary -/

/-- What a completed round did: the dictionary before and after it, the words it
discovered, and whether it went on to the two hooks. -/
structure Report where
  before : Option Bytes
  after : Option Bytes
  texts : List Bytes
  redeployed : Bool
  notified : Option UInt64
  deriving DecidableEq, Repr

/-- The runner, and the words and the dictionary of its round. The other fields
only record: the dictionary before the latest write, whether the write succeeded,
and the completed rounds. -/
structure Learner where
  runner : Runner
  words : List DiscoveredWord := []
  dict : Option Bytes
  before : Option Bytes := none
  wrote : Bool := false
  reports : List Report := []

/-- Whether a round goes on to the redeploy hook. -/
def pushes (r : Round) : Bool :=
  r.result.ok && r.result.wordsDiscovered != 0 && r.result.wroteUserDict

/-- The report of a round that ends; `deployed` is the answer of the redeploy hook. -/
def Learner.report (s : Learner) (r : Round) (deployed : Bool) : Report where
  before := s.before
  after := s.dict
  texts := s.words.map DiscoveredWord.text
  redeployed := pushes r
  notified := if pushes r && deployed then some r.result.wordsDiscovered else none

/-- The step function. The words are encoded right behind the scan, and the
dictionary is written right behind the other files. -/
def Learner.step (p : Platform) (cfg : AutoLearnConfig) (rime : RimeConfig) (s : Learner)
    (l : Runner.Label × RimeWrite) : Option Learner :=
  (s.runner.step p cfg l.1).map fun runner =>
    match l.1 with
    | .scanWords =>
      { s with runner, words := learnedWords p cfg.round rime (s.runner.db.store p.orderBy) }
    | .write _ =>
      { s with
        runner
        before := s.dict
        wrote := rime.userDir && l.2.written
        dict := writeDict rime l.2 s.words s.dict }
    | .finish _ deployed =>
      { s with
        runner
        reports := s.reports ++ ((s.runner.before .finish).map (s.report · deployed)).toList }
    | _ => { s with runner }

def learner (p : Platform) (cfg : AutoLearnConfig) (rime : RimeConfig) (steady : Int)
    (file dict : Option Bytes) : System Learner (Runner.Label × RimeWrite) where
  init := { runner := (autoLearner p cfg steady file).init, dict }
  step := Learner.step p cfg rime

/-! ### The truth -/

/-- A round is told about with the number of its new words, and only with one. -/
structure Report.Truthful (r : Report) : Prop where
  redeployed : r.redeployed = true → newTexts r.before r.after ≠ []
  notified : ∀ n, r.notified = some n → newTexts r.before r.after ≠ [] ∧
    n = UInt64.ofNat (newTexts r.before r.after).length

/-- The words that `total_words_learned` counted. -/
def Learner.counted (s : Learner) : List Bytes :=
  s.reports.flatMap fun r => if r.redeployed then r.texts else []

/-- A round that goes on to the hooks wrote its words, each with a code and on a line
of its own; none was in the dictionary, and none was counted before. -/
def Learner.allNew (s : Learner) (l : Runner.Label × RimeWrite) : Bool :=
  match l.1, s.runner.before .finish with
  | .finish _ _, some r =>
    !pushes r || s.wrote && s.words.all fun w =>
      w.code != [] && !w.code.contains lineFeed && !(dictTexts s.before).contains w.text &&
        !s.counted.contains w.text
  | _, _ => true

/-! ### What holds between the steps -/

/-- What the recorded fields say of the round in progress, and what the hooks were
told of the completed ones. -/
structure Learner.Sound (s : Learner) : Prop where
  discovered : ∀ stage r, s.runner.round = some (stage, r) → stage = .write ∨ stage = .finish →
    r.result.wordsDiscovered = UInt64.ofNat s.words.length
  nodup : (s.words.map DiscoveredWord.text).Nodup
  plain : ∀ w ∈ s.words, tab ∉ w.text ∧ lineFeed ∉ w.text
  written : ∀ r, s.runner.round = some (.finish, r) →
    if s.wrote then ∃ rw, s.dict = some (rimeDictYaml rw s.words) else s.dict = s.before
  told : s.runner.notified = s.reports.filterMap Report.notified
  total : s.runner.totalWordsLearned = UInt64.ofNat s.counted.length

section Sound

variable {p : Platform} {cfg : AutoLearnConfig} {rime : RimeConfig} {s s' : Learner}

/-- A step that neither ends a round nor touches its words. -/
theorem Learner.Sound.of_same (h : s.Sound) {runner : Runner}
    (hround : ∀ stage r, runner.round = some (stage, r) → stage = .write ∨ stage = .finish →
      s.runner.round = some (stage, r))
    (hnotified : runner.notified = s.runner.notified)
    (htotal : runner.totalWordsLearned = s.runner.totalWordsLearned) :
    Learner.Sound { s with runner } where
  discovered stage r hr hstage := h.discovered stage r (hround stage r hr hstage) hstage
  nodup := h.nodup
  plain := h.plain
  written r hr := h.written r (hround .finish r hr (.inr rfl))
  told := hnotified.trans h.told
  total := htotal.trans h.total

/-- What a round that ends tells. -/
theorem finish_told (s : Learner) (r : Round) (steady : Int) (deployed : Bool) :
    (s.runner.finish r steady deployed).notified =
        s.runner.notified ++ (s.report r deployed).notified.toList ∧
      (s.runner.finish r steady deployed).totalWordsLearned =
        s.runner.totalWordsLearned + if pushes r then r.result.wordsDiscovered else 0 := by
  unfold Runner.finish Learner.report pushes
  dsimp only
  split_ifs <;> simp_all

theorem Learner.Sound.step {l : Runner.Label × RimeWrite} (h : s.Sound)
    (hs : Learner.step p cfg rime s l = some s') : s'.Sound := by
  obtain ⟨l, dw⟩ := l
  obtain ⟨runner, hrunner, rfl⟩ := Option.map_eq_some_iff.mp hs
  cases l with
  | insert nowUs ev =>
      obtain rfl := Option.some.inj hrunner
      exact h.of_same (fun _ _ hr _ => hr) rfl rfl
  | start steady =>
      obtain rfl := Option.some.inj hrunner
      refine h.of_same (fun _ _ hr _ => ?_) ?_ ?_
      · split_ifs at hr <;> exact hr
      · split_ifs <;> rfl
      · split_ifs <;> rfl
  | stop =>
      dsimp only [Runner.step] at hrunner
      split_ifs at hrunner
      obtain rfl := Option.some.inj hrunner
      exact h.of_same (fun _ _ hr _ => hr) rfl rfl
  | tick now =>
      dsimp only [Runner.step] at hrunner
      split_ifs at hrunner
      · obtain rfl := Option.some.inj hrunner
        refine h.of_same (fun stage r hr hstage => ?_) rfl rfl
        obtain ⟨rfl, -⟩ := Prod.mk.inj (Option.some.inj hr)
        simp at hstage
      · obtain rfl := Option.some.inj hrunner
        exact h.of_same (fun _ _ hr _ => hr) rfl rfl
  | count =>
      obtain ⟨r, -, rfl⟩ := Option.map_eq_some_iff.mp hrunner
      refine h.of_same (fun stage r hr hstage => ?_) rfl rfl
      obtain ⟨rfl, -⟩ := Prod.mk.inj (Option.some.inj hr)
      simp at hstage
  | scanBigrams =>
      obtain ⟨r, -, rfl⟩ := Option.map_eq_some_iff.mp hrunner
      refine h.of_same (fun stage r hr hstage => ?_) rfl rfl
      obtain ⟨rfl, -⟩ := Prod.mk.inj (Option.some.inj hr)
      simp at hstage
  | scanWords =>
      obtain ⟨r, -, rfl⟩ := Option.map_eq_some_iff.mp hrunner
      refine ⟨fun stage r' hr _ => ?_, nodup_learnedWords, fun w => plain_of_learnedWords,
        fun r' hr => ?_, h.told, h.total⟩
      · obtain ⟨-, rfl⟩ := Prod.mk.inj (Option.some.inj hr)
        rw [length_learnedWords]
        rfl
      · obtain ⟨hstage, -⟩ := Prod.mk.inj (Option.some.inj hr)
        cases hstage
  | write w =>
      obtain ⟨r, hr, rfl⟩ := Option.map_eq_some_iff.mp hrunner
      have hdiscovered := h.discovered .write r (Runner.before_eq_some.mp hr) (.inl rfl)
      refine ⟨fun stage r' hr' _ => ?_, h.nodup, h.plain, fun r' _ => ?_, h.told, h.total⟩
      · obtain ⟨-, rfl⟩ := Prod.mk.inj (Option.some.inj hr')
        exact hdiscovered
      · dsimp only
        rw [writeDict_eq]
        split_ifs with hwrote
        · exact ⟨dw, rfl⟩
        · rfl
  | throw steady =>
      obtain ⟨r, -, rfl⟩ := Option.map_eq_some_iff.mp hrunner
      exact h.of_same (fun _ _ hr _ => by cases hr) rfl rfl
  | finish steady deployed =>
      obtain ⟨r, hr, rfl⟩ := Option.map_eq_some_iff.mp hrunner
      obtain ⟨htold, htotal⟩ := finish_told s r steady deployed
      have hdiscovered := h.discovered .finish r (Runner.before_eq_some.mp hr) (.inr rfl)
      have hround : ∀ {round : Stage × Round},
          (s.runner.finish r steady deployed).round ≠ some round := by
        intro round hround
        cases hround
      refine ⟨fun _ _ hr' _ => absurd hr' hround, h.nodup, h.plain,
        fun _ hr' => absurd hr' hround, ?_, ?_⟩
      · dsimp only
        rw [htold, h.told, hr, Option.map_some, Option.toList_some, List.filterMap_append]
        cases hn : (s.report r deployed).notified <;> simp [hn]
      · dsimp only [Learner.counted]
        rw [htotal, h.total, hr, Option.map_some, Option.toList_some, List.flatMap_append,
          List.length_append, UInt64.ofNat_add, List.flatMap_singleton, hdiscovered]
        have htexts : (s.report r deployed).texts.length = s.words.length := List.length_map _
        have hpush : (s.report r deployed).redeployed = pushes r := rfl
        rw [hpush]
        cases pushes r
        · rfl
        · simp [htexts, Learner.counted]

/-- A round that ends leaves its report. -/
theorem Learner.finish_reports {steady : Int} {deployed : Bool} {dw : RimeWrite}
    (hs : Learner.step p cfg rime s (.finish steady deployed, dw) = some s') :
    ∃ r, s.runner.before .finish = some r ∧ s'.reports = s.reports ++ [s.report r deployed] := by
  obtain ⟨runner, hrunner, rfl⟩ := Option.map_eq_some_iff.mp hs
  obtain ⟨r, hr, -⟩ := Option.map_eq_some_iff.mp hrunner
  refine ⟨r, hr, ?_⟩
  dsimp only
  rw [hr]
  rfl

/-- No other step leaves one. -/
theorem Learner.step_reports {l : Runner.Label × RimeWrite}
    (hs : Learner.step p cfg rime s l = some s') :
    s'.reports = s.reports ∨ ∃ steady deployed, l.1 = .finish steady deployed := by
  obtain ⟨l, dw⟩ := l
  obtain ⟨runner, -, rfl⟩ := Option.map_eq_some_iff.mp hs
  cases l with
  | finish steady deployed => exact .inr ⟨steady, deployed, rfl⟩
  | _ => exact .inl rfl

/-! ### One round -/

/-- The words that a round put into the dictionary, if no row is split. -/
theorem Learner.Sound.dictTexts_dict (h : s.Sound) {r : Round}
    (hr : s.runner.round = some (.finish, r)) (hwrote : s.wrote = true)
    (hcode : ∀ w ∈ s.words, lineFeed ∉ w.code) :
    dictTexts s.dict = (s.words.filter fun w => w.code ≠ []).map DiscoveredWord.text := by
  have hwritten := h.written r hr
  rw [if_pos hwrote] at hwritten
  obtain ⟨dw, hdict⟩ := hwritten
  rw [hdict, dictTexts_rimeDictYaml, rowTexts_eq h.plain hcode]

/-- What the condition says of a round that goes on to the hooks. -/
theorem Learner.allNew_iff {r : Round} {steady : Int} {deployed : Bool} {dw : RimeWrite}
    (hr : s.runner.before .finish = some r) (hpush : pushes r = true) :
    s.allNew (.finish steady deployed, dw) = true ↔ s.wrote = true ∧ ∀ w ∈ s.words,
      w.code ≠ [] ∧ lineFeed ∉ w.code ∧ w.text ∉ dictTexts s.before ∧ w.text ∉ s.counted := by
  unfold Learner.allNew
  rw [hr]
  dsimp only
  rw [hpush]
  simp [and_assoc]

/-- A round that meets the condition is told about truthfully. -/
theorem Learner.Sound.truthful (h : s.Sound) {r : Round} (hr : s.runner.before .finish = some r)
    {steady : Int} {dw : RimeWrite} {deployed : Bool}
    (hnew : s.allNew (.finish steady deployed, dw) = true) : (s.report r deployed).Truthful := by
  have hround := Runner.before_eq_some.mp hr
  have htexts : pushes r = true → newTexts s.before s.dict = s.words.map DiscoveredWord.text ∧
      s.words ≠ [] := by
    intro hpush
    obtain ⟨hwrote, hall⟩ := (Learner.allNew_iff hr hpush).mp hnew
    have hcoded : s.words.filter (fun w => w.code ≠ []) = s.words :=
      List.filter_eq_self.mpr fun w hw => by simpa using (hall w hw).1
    have hdict := h.dictTexts_dict hround hwrote fun w hw => (hall w hw).2.1
    rw [hcoded] at hdict
    refine ⟨?_, ?_⟩
    · rw [newTexts, hdict, List.filter_eq_self.mpr, List.dedup_eq_self.mpr h.nodup]
      intro text htext
      obtain ⟨w, hw, rfl⟩ := List.mem_map.mp htext
      simpa using (hall w hw).2.2.1
    · intro hnil
      have hcount := h.discovered .finish r hround (.inr rfl)
      rw [hnil] at hcount
      simp [pushes, hcount] at hpush
  constructor
  · intro hpush
    obtain ⟨heq, hne⟩ := htexts hpush
    show newTexts s.before s.dict ≠ []
    rw [heq]
    exact fun hnil => hne (List.map_eq_nil_iff.mp hnil)
  · intro n hn
    dsimp only [Learner.report] at hn ⊢
    split_ifs at hn with hboth
    obtain ⟨hpush, -⟩ := Bool.and_eq_true_iff.mp hboth
    obtain ⟨heq, hne⟩ := htexts hpush
    rw [heq, ← Option.some.inj hn, List.length_map]
    exact ⟨fun hnil => hne (List.map_eq_nil_iff.mp hnil),
      h.discovered .finish r hround (.inr rfl)⟩

/-- As many new texts as words means that every word was written, and new. -/
theorem all_of_length_newTexts {words : List DiscoveredWord} {before after : Option Bytes}
    (hafter : dictTexts after = (words.filter fun w => w.code ≠ []).map DiscoveredWord.text)
    (hlength : (newTexts before after).length = words.length) :
    (∀ w ∈ words, w.code ≠ []) ∧ ∀ w ∈ words, w.text ∉ dictTexts before := by
  have hnew : (newTexts before after).length ≤ ((dictTexts after).filter fun text =>
      !(dictTexts before).contains text).length := (List.dedup_sublist _).length_le
  have hfilter := List.length_filter_le (fun text => !(dictTexts before).contains text)
    (dictTexts after)
  have hcount : (dictTexts after).length = (words.filter fun w => w.code ≠ []).length := by
    rw [hafter, List.length_map]
  have hwritten := List.length_filter_le (fun w => decide (w.code ≠ [])) words
  have hcoded : ∀ w ∈ words, w.code ≠ [] := by
    have hall := List.length_filter_eq_length_iff.mp
      (show (words.filter fun w => decide (w.code ≠ [])).length = words.length by omega)
    exact fun w hw => by simpa using hall w hw
  refine ⟨hcoded, fun w hw hmem => ?_⟩
  have hall := List.length_filter_eq_length_iff.mp
    (show ((dictTexts after).filter fun text => !(dictTexts before).contains text).length =
      (dictTexts after).length by omega)
  have htext : w.text ∈ dictTexts after := by
    rw [hafter]
    exact List.mem_map_of_mem (List.mem_filter.mpr ⟨hw, by simpa using hcoded w hw⟩)
  simpa [hmem] using hall _ htext

/-- A round that is told about truthfully wrote its words, all of them new. -/
theorem Learner.Sound.of_truthful (h : s.Sound) {r : Round}
    (hr : s.runner.before .finish = some r) (hpush : pushes r = true)
    (hfew : s.words.length < 2 ^ 64) (hcode : ∀ w ∈ s.words, lineFeed ∉ w.code)
    (htruth : (s.report r true).Truthful) : s.wrote = true ∧ ∀ w ∈ s.words,
      w.code ≠ [] ∧ w.text ∉ dictTexts s.before := by
  have hround := Runner.before_eq_some.mp hr
  have hn : (s.report r true).notified = some r.result.wordsDiscovered := by
    simp [Learner.report, hpush]
  obtain ⟨hne, hcount⟩ := htruth.notified _ hn
  dsimp only [Learner.report] at hne hcount
  have hwrote : s.wrote = true := by
    by_contra hnot
    have hwritten := h.written r hround
    rw [if_neg hnot] at hwritten
    apply hne
    rw [hwritten, newTexts, List.filter_eq_nil_iff.mpr (by simp)]
    rfl
  have hdict := h.dictTexts_dict hround hwrote hcode
  have hlength : (newTexts s.before s.dict).length = s.words.length := by
    have hle : (newTexts s.before s.dict).length ≤ s.words.length := by
      calc (newTexts s.before s.dict).length
          ≤ ((dictTexts s.dict).filter _).length := (List.dedup_sublist _).length_le
        _ ≤ (dictTexts s.dict).length := List.length_filter_le _ _
        _ = (s.words.filter fun w => w.code ≠ []).length := by rw [hdict, List.length_map]
        _ ≤ s.words.length := List.length_filter_le _ _
    have heq := congrArg UInt64.toNat
      (hcount.symm.trans (h.discovered .finish r hround (.inr rfl)))
    rwa [UInt64.toNat_ofNat_of_lt' (Nat.lt_of_le_of_lt hle hfew),
      UInt64.toNat_ofNat_of_lt' hfew] at heq
  obtain ⟨hcoded, hnew⟩ := all_of_length_newTexts hdict hlength
  exact ⟨hwrote, fun w hw => ⟨hcoded w hw, hnew w hw⟩⟩

end Sound

/-! ### Runs -/

variable (p : Platform) (cfg : AutoLearnConfig) (rime : RimeConfig) (steady : Int)
  (file dict : Option Bytes)

theorem sound_of_reachable {s : Learner}
    (h : (learner p cfg rime steady file dict).Reachable s) : s.Sound := by
  refine h.invariant ⟨fun _ _ hr _ => ?_, List.nodup_nil, ?_, fun _ hr => ?_, rfl, rfl⟩
    fun _ hsound hs => hsound.step hs
  · cases hr
  · intro w hw
    cases hw
  · cases hr

/-- What the reports of a run should say: each is truthful, and no word is counted
twice. -/
structure Learner.Honest (s : Learner) : Prop where
  truthful : ∀ r ∈ s.reports, r.Truthful
  once : s.counted.Nodup

/-- What a round that ends adds to the counted words. -/
theorem counted_finish {s s' : Learner} {r : Round} {deployed : Bool}
    (hreports : s'.reports = s.reports ++ [s.report r deployed]) : s'.counted =
      s.counted ++ if pushes r then s.words.map DiscoveredWord.text else [] := by
  rw [Learner.counted, hreports, List.flatMap_append, List.flatMap_singleton]
  rfl

/-- The step lemma: a round that meets the condition leaves the reports honest. -/
theorem Learner.Sound.honest {s s' : Learner} {l : Runner.Label × RimeWrite} (h : s.Sound)
    (hhonest : s.Honest) (hnew : s.allNew l = true)
    (hs : Learner.step p cfg rime s l = some s') : s'.Honest := by
  rcases Learner.step_reports hs with hsame | ⟨steady, deployed, hl⟩
  · have hcounted : s'.counted = s.counted := by rw [Learner.counted, hsame, Learner.counted]
    exact ⟨hsame ▸ hhonest.truthful, hcounted ▸ hhonest.once⟩
  obtain ⟨l, dw⟩ := l
  obtain rfl : l = .finish steady deployed := hl
  obtain ⟨r, hr, hreports⟩ := Learner.finish_reports hs
  constructor
  · intro r' hr'
    rw [hreports] at hr'
    rcases List.mem_append.mp hr' with hold | hlast
    · exact hhonest.truthful r' hold
    · rw [List.mem_singleton.mp hlast]
      exact h.truthful hr hnew
  · rw [counted_finish hreports]
    by_cases hpush : pushes r = true
    · rw [if_pos hpush]
      refine hhonest.once.append h.nodup fun text hcounted htext => ?_
      obtain ⟨w, hw, rfl⟩ := List.mem_map.mp htext
      exact (((Learner.allNew_iff hr hpush).mp hnew).2 w hw).2.2.2 hcounted
    · rw [if_neg hpush, List.append_nil]
      exact hhonest.once

/-- A round that RIME took over, and that leaves the reports honest, met the
condition. -/
theorem Learner.Sound.of_honest {s s' : Learner} {steady : Int} {dw : RimeWrite} (h : s.Sound)
    (hs : Learner.step p cfg rime s (.finish steady true, dw) = some s')
    (hfew : s.words.length < 2 ^ 64) (hcode : ∀ w ∈ s.words, lineFeed ∉ w.code)
    (hhonest : s'.Honest) : s.allNew (.finish steady true, dw) = true := by
  obtain ⟨r, hr, hreports⟩ := Learner.finish_reports hs
  by_cases hpush : pushes r = true
  · have htruth := hhonest.truthful (s.report r true) (by
      rw [hreports]
      exact List.mem_append_right _ (List.mem_singleton_self _))
    obtain ⟨hwrote, hall⟩ := h.of_truthful hr hpush hfew hcode htruth
    have honce := hhonest.once
    rw [counted_finish hreports, if_pos hpush] at honce
    refine (Learner.allNew_iff hr hpush).mpr ⟨hwrote, fun w hw => ?_⟩
    refine ⟨(hall w hw).1, hcode w hw, (hall w hw).2, fun hcounted => ?_⟩
    exact List.disjoint_of_nodup_append honce hcounted (List.mem_map_of_mem hw)
  · unfold Learner.allNew
    rw [hr]
    dsimp only
    rw [Bool.eq_false_iff.mpr hpush]
    rfl

/-- **The notices are truthful** in every run whose rounds, where they go on to the
hooks, wrote a dictionary and had only words with a code that were never seen
before. Conversely, a round that RIME took over, and whose codes are each on one
line, leaves all reports truthful and no word counted twice only if it was such a
round. -/
theorem notices_truthful :
    (∀ s, ((learner p cfg rime steady file dict).restrict Learner.allNew).Reachable s →
      (∀ r ∈ s.reports, r.Truthful) ∧
      (∀ r ∈ s.reports, newTexts r.before r.after = [] →
        r.redeployed = false ∧ r.notified = none) ∧
      s.runner.notified = s.reports.filterMap Report.notified ∧
      s.counted.Nodup ∧ s.runner.totalWordsLearned = UInt64.ofNat s.counted.length) ∧
    ∀ s s' steady' dw, (learner p cfg rime steady file dict).Reachable s →
      (learner p cfg rime steady file dict).step s (.finish steady' true, dw) = some s' →
      s.words.length < 2 ^ 64 → (∀ w ∈ s.words, lineFeed ∉ w.code) →
      (∀ r ∈ s'.reports, r.Truthful) → s'.counted.Nodup →
        s.allNew (.finish steady' true, dw) = true := by
  constructor
  · intro s hs
    have hsound := sound_of_reachable p cfg rime steady file dict hs.of_restrict
    have hhonest : s.Honest := by
      refine hs.invariant ⟨by simp [System.restrict, learner], List.nodup_nil⟩ ?_
      intro s l s' hs hhonest hl
      obtain ⟨hnew, hl⟩ := System.restrict_step.mp hl
      exact (sound_of_reachable p cfg rime steady file dict hs.of_restrict).honest p cfg rime
        hhonest hnew hl
    refine ⟨hhonest.truthful, fun r hr hnone => ⟨?_, ?_⟩, hsound.told, hhonest.once, hsound.total⟩
    · exact Bool.eq_false_iff.mpr fun hpush => (hhonest.truthful r hr).redeployed hpush hnone
    · rw [Option.eq_none_iff_forall_ne_some]
      intro n hn
      exact ((hhonest.truthful r hr).notified n hn).1 hnone
  · intro s s' steady' dw hs hl hfew hcode htruth honce
    exact (sound_of_reachable p cfg rime steady file dict hs).of_honest p cfg rime hl hfew hcode
      ⟨htruth, honce⟩

/-- Two characters, each typed twice, and a round that learns their word. -/
def typedTwice : List (Runner.Label × RimeWrite) :=
  ([.start 0, .insert 1000000 { code := ascii "xu", committedText := encodeText ['弹'] },
    .insert 1100000 { code := ascii "pw", committedText := encodeText ['窗'] },
    .insert 1200000 { code := ascii "xu", committedText := encodeText ['弹'] },
    .insert 1300000 { code := ascii "pw", committedText := encodeText ['窗'] },
    .tick ⟨400000000, 400000000⟩, .count, .scanBigrams, .scanWords, .write {},
    .finish 401000000 true] : List Runner.Label).map
      (·, { generated := someTime, version := someTime })

/-- The user is told about one word, which is new. -/
theorem notices_truthful_typedTwice : ∃ s,
    ((learner .stable {} {} 0 none none).restrict Learner.allNew).run typedTwice = some s ∧
      s.runner.notified = [1] ∧ s.runner.totalWordsLearned = 1 ∧ ∀ r ∈ s.reports, r.Truthful := by
  have hmap : (((learner .stable {} {} 0 none none).restrict Learner.allNew).run typedTwice).map
      (fun s => (s.runner.notified, s.runner.totalWordsLearned)) = some ([1], 1) := by decide
  obtain ⟨s, hrun, htold⟩ := Option.map_eq_some_iff.mp hmap
  obtain ⟨hnotified, htotal⟩ := Prod.mk.inj htold
  exact ⟨s, hrun, hnotified, htotal,
    ((notices_truthful .stable {} {} 0 none none).1 s (System.reachable_of_run hrun)).1⟩

/-- Another commit, and another round. -/
def typedLater : List (Runner.Label × RimeWrite) :=
  typedTwice ++ ([.insert 500000000 { code := ascii "vb", committedText := encodeText ['好'] },
    .tick ⟨800000000, 800000000⟩, .count, .scanBigrams, .scanWords, .write {},
    .finish 801000000 true] : List Runner.Label).map
      (·, { generated := someTime, version := someTime })

/-- The second round finds the word of the first one again, and tells about it. -/
theorem notice_repeated : ¬ ∀ s, (learner .stable {} {} 0 none none).Reachable s →
    ∀ r ∈ s.reports, r.Truthful := by
  intro hall
  have hmap : ((learner .stable {} {} 0 none none).run typedLater).map (fun s =>
      s.reports.map fun r => (r.redeployed, newTexts r.before r.after)) =
        some [(true, [encodeText ['弹', '窗']]), (true, [])] := by decide
  obtain ⟨s, hrun, hreports⟩ := Option.map_eq_some_iff.mp hmap
  obtain ⟨r, hr, hlast⟩ := List.mem_map.mp
    (hreports ▸ List.mem_cons_of_mem _ (List.mem_singleton_self (true, ([] : List Bytes))))
  obtain ⟨hpush, hnone⟩ := Prod.mk.inj hlast
  exact (hall s (System.reachable_of_run hrun) r hr).redeployed hpush hnone

end Dafeng.Learning
