import Dafeng.Learning.AutoLearn
import Dafeng.Library.Refinement

/-!
# Dafeng.Learning.Watcher

The thread under the runner that learns in the background: `Start`, `Stop` and `Loop` of
`src/daemon/auto_learn.cc`, with `stop_` and the wait on the condition variable. `Stop` first asks
and then joins, and the thread may be anywhere meanwhile.

`Runner.step` has `Stop` as one step between two rounds. The thread is a refinement of it, so that
what holds of the runs of the runner holds of it as well.
-/

namespace Dafeng.Learning

open Dafeng.Protocol Dafeng.Utf8

/-- Where the thread of the runner is. -/
inductive Thread
  | absent
  /-- in `wait_for` -/
  | waiting
  /-- past the check of `stop_` -/
  | awake
  /-- in `RunOneRoundLocked` -/
  | busy
  | ended
  deriving DecidableEq, Repr

/-- `AutoLearnRunner` with its thread; `stopping` says that a `Stop` waits in `join`. -/
structure Watcher where
  runner : Runner
  stop : Bool := false
  thread : Thread := .absent
  stopping : Bool := false

inductive Watcher.Label
  | insert (nowUs : UInt64) (ev : CommitEvent)
  | start (steady : Int)
  /-- `Stop` up to its `notify_all` -/
  | askStop
  /-- the wait ends, by time or by the notification -/
  | wake
  /-- `ShouldRunLocked` -/
  | decide (now : Clocks)
  /-- one step of a round -/
  | work (l : Runner.Label)
  /-- `Stop` behind `join` -/
  | joined
  deriving DecidableEq, Repr

/-- The steps of a round. -/
def Runner.Label.isWork : Runner.Label → Bool
  | .count | .scanBigrams | .scanWords | .write _ | .throw _ | .finish _ _ => true
  | .insert _ _ | .start _ | .stop | .tick _ => false

namespace Watcher

/-- The step function. Only one thread of the daemon calls `Stop`. -/
def step (p : Platform) (cfg : AutoLearnConfig) (w : Watcher) : Label → Option Watcher
  | .insert nowUs ev =>
    some { w with runner := { w.runner with db := w.runner.db.insert nowUs ev } }
  | .start steady =>
    if w.runner.started then some w
    else some { w with runner := w.runner.start steady, stop := false, thread := .waiting }
  | .askStop =>
    if !w.runner.started then some w
    else if w.stopping then none
    else some { w with stop := true, stopping := true }
  | .wake =>
    if w.thread = .waiting then some { w with thread := if w.stop then .ended else .awake }
    else none
  | .decide now =>
    if w.thread = .awake then
      if shouldRun p cfg w.runner now then
        some { w with
          runner := { w.runner with round := some (.count, { table := ∅ }) }
          thread := .busy }
      else some { w with thread := .waiting }
    else none
  | .work l =>
    if w.thread = .busy ∧ l.isWork then
      (w.runner.step p cfg l).map fun r =>
        { w with runner := r, thread := if r.round.isSome then .busy else .waiting }
    else none
  | .joined =>
    if w.stopping ∧ w.thread = .ended then
      some { w with
        runner := { w.runner with started := false }, thread := .absent, stopping := false }
    else none

/-- A runner that was just built, on an empty store, without its thread. -/
def watched (p : Platform) (cfg : AutoLearnConfig) (steady : Int) (file : Option Bytes) :
    System Watcher Label where
  init := { runner := (autoLearner p cfg steady file).init }
  step := step p cfg

/-! ### The thread refines the runner -/

/-- Where the thread is, and what the runner knows of it. -/
structure Inv (w : Watcher) : Prop where
  started : w.runner.started = (w.thread != .absent)
  round : w.runner.round.isSome = (w.thread == .busy)
  stopping : w.stopping → w.stop ∧ w.thread ≠ .absent
  ended : w.thread = .ended → w.stop

theorem Inv.round_eq_none {w : Watcher} (hw : Inv w) (h : w.thread ≠ .busy) :
    w.runner.round = none := by
  rw [← Option.not_isSome_iff_eq_none, hw.round]
  simpa using h

theorem Inv.init (p : Platform) (cfg : AutoLearnConfig) (steady : Int) (file : Option Bytes) :
    Inv (watched p cfg steady file).init :=
  ⟨rfl, rfl, nofun, nofun⟩

/-- The steps of a round leave whether the runner is started. -/
theorem started_of_isWork {p : Platform} {cfg : AutoLearnConfig} {s s' : Runner} {l : Runner.Label}
    (hl : l.isWork) (h : s.step p cfg l = some s') : s'.started = s.started := by
  cases l with
  | insert nowUs ev => cases hl
  | start steady => cases hl
  | stop => cases hl
  | tick now => cases hl
  | throw steady =>
      obtain ⟨r, -, rfl⟩ := Option.map_eq_some_iff.mp h
      rfl
  | _ =>
      obtain ⟨r, -, rfl⟩ := Option.map_eq_some_iff.mp h
      rfl

theorem Inv.step {p : Platform} {cfg : AutoLearnConfig} {w w' : Watcher} {l : Label} (hw : Inv w)
    (h : w.step p cfg l = some w') : Inv w' := by
  have hround := hw.round
  have hstarted := hw.started
  cases l with
  | insert nowUs ev =>
      obtain rfl := Option.some.inj h
      exact ⟨hw.started, hw.round, hw.stopping, hw.ended⟩
  | start steady =>
      simp only [Watcher.step] at h
      split_ifs at h with hon <;> obtain rfl := Option.some.inj h
      · exact hw
      · have habsent : w.thread = .absent := by simpa [hon] using hstarted
        have hidle : w.stopping = false :=
          Bool.eq_false_iff.mpr fun hs => (hw.stopping hs).2 habsent
        refine ⟨rfl, ?_, fun hs => absurd hs (by simp [hidle]), nofun⟩
        rw [habsent] at hround
        exact hround
  | askStop =>
      simp only [Watcher.step] at h
      split_ifs at h with hoff hstopping <;> obtain rfl := Option.some.inj h
      · exact hw
      · refine ⟨hstarted, hround, fun _ => ⟨rfl, fun habsent => ?_⟩, fun _ => rfl⟩
        rw [hstarted] at hoff
        exact hoff (by simpa using habsent)
  | wake =>
      simp only [Watcher.step] at h
      split_ifs at h with hwaiting hstop <;> obtain rfl := Option.some.inj h
      · rw [hwaiting] at hround hstarted
        exact ⟨hstarted, hround, fun hs => ⟨hstop, nofun⟩, fun _ => hstop⟩
      · rw [hwaiting] at hround hstarted
        exact ⟨hstarted, hround, fun hs => ⟨(hw.stopping hs).1, nofun⟩, nofun⟩
  | decide now =>
      simp only [Watcher.step] at h
      split_ifs at h with hawake hrun <;> obtain rfl := Option.some.inj h
      · rw [hawake] at hround hstarted
        exact ⟨hstarted, rfl, fun hs => ⟨(hw.stopping hs).1, nofun⟩, nofun⟩
      · rw [hawake] at hround hstarted
        exact ⟨hstarted, hround, fun hs => ⟨(hw.stopping hs).1, nofun⟩, nofun⟩
  | work l =>
      simp only [Watcher.step] at h
      split_ifs at h with hbusy
      obtain ⟨r, hr, rfl⟩ := Option.map_eq_some_iff.mp h
      have hon : r.started = w.runner.started := started_of_isWork hbusy.2 hr
      rw [hstarted, hbusy.1] at hon
      cases hsome : r.round.isSome with
      | false =>
          exact ⟨hon, hsome, fun hs => ⟨(hw.stopping hs).1, nofun⟩, nofun⟩
      | true =>
          exact ⟨hon, hsome, fun hs => ⟨(hw.stopping hs).1, nofun⟩, nofun⟩
  | joined =>
      simp only [Watcher.step] at h
      split_ifs at h with hended
      obtain rfl := Option.some.inj h
      rw [hended.2] at hround
      exact ⟨rfl, hround, nofun, nofun⟩

theorem Inv.reachable {p : Platform} {cfg : AutoLearnConfig} {steady : Int} {file : Option Bytes}
    {w : Watcher} (h : (watched p cfg steady file).Reachable w) : Inv w :=
  h.invariant (.init p cfg steady file) fun _ hw hl => hw.step hl

/-- What the runner does meanwhile. -/
def Label.erase : Label → Option Runner.Label
  | .insert nowUs ev => some (.insert nowUs ev)
  | .start steady => some (.start steady)
  | .askStop | .wake => none
  | .decide now => some (.tick now)
  | .work l => some l
  | .joined => some .stop

/-- The steps of the thread, and of the `Stop` that waits for it. -/
def Label.isOwn : Label → Bool
  | .wake | .decide _ | .work _ | .joined => true
  | .insert _ _ | .start _ | .askStop => false

def Label.isDecide : Label → Bool
  | .decide _ => true
  | _ => false

/-- How many steps are before the end of a round. -/
def stepsOf : Stage → Nat
  | .count => 5
  | .bigrams => 4
  | .words => 3
  | .write => 2
  | .finish => 1

/-- How many steps a thread makes at most once it was asked to stop, with the join. -/
def stepsLeft (w : Watcher) : Nat :=
  match w.thread with
  | .absent => 0
  | .ended => 1
  | .waiting => 2
  | .busy => 2 + (w.runner.round.map fun r => stepsOf r.1).getD 0
  | .awake => 8

theorem stepsLeft_le (w : Watcher) : w.stepsLeft ≤ 8 := by
  unfold stepsLeft
  cases w.thread with
  | busy =>
      cases w.runner.round with
      | none => simp
      | some r => obtain ⟨stage, r⟩ := r; cases stage <;> simp [stepsOf]
  | _ => simp

/-- A step of a round brings its end nearer. -/
theorem stepsOf_work {p : Platform} {cfg : AutoLearnConfig} {s s' : Runner} {l : Runner.Label}
    (hl : l.isWork) (h : s.step p cfg l = some s') :
    ∃ stage r, s.round = some (stage, r) ∧
      (s'.round.map fun r => stepsOf r.1).getD 0 < stepsOf stage := by
  cases l with
  | insert nowUs ev => cases hl
  | start steady => cases hl
  | stop => cases hl
  | tick now => cases hl
  | count =>
      obtain ⟨r, hr, rfl⟩ := Option.map_eq_some_iff.mp h
      exact ⟨.count, r, Runner.before_eq_some.mp hr, Nat.lt_succ_self 4⟩
  | scanBigrams =>
      obtain ⟨r, hr, rfl⟩ := Option.map_eq_some_iff.mp h
      exact ⟨.bigrams, r, Runner.before_eq_some.mp hr, Nat.lt_succ_self 3⟩
  | scanWords =>
      obtain ⟨r, hr, rfl⟩ := Option.map_eq_some_iff.mp h
      exact ⟨.words, r, Runner.before_eq_some.mp hr, Nat.lt_succ_self 2⟩
  | write w =>
      obtain ⟨r, hr, rfl⟩ := Option.map_eq_some_iff.mp h
      exact ⟨.write, r, Runner.before_eq_some.mp hr, Nat.lt_succ_self 1⟩
  | throw steady =>
      obtain ⟨⟨stage, r⟩, hr, rfl⟩ := Option.map_eq_some_iff.mp h
      exact ⟨stage, r, hr, by cases stage <;> exact Nat.succ_pos _⟩
  | finish steady deployed =>
      obtain ⟨r, hr, rfl⟩ := Option.map_eq_some_iff.mp h
      exact ⟨.finish, r, Runner.before_eq_some.mp hr, Nat.lt_succ_self 0⟩

/-- One step while a `Stop` waits. -/
theorem step_stopping {p : Platform} {cfg : AutoLearnConfig} {w w' : Watcher} {l : Label}
    (hw : Inv w) (hstopping : w.stopping) (hl : l ≠ .joined) (h : w.step p cfg l = some w') :
    w'.stopping ∧ (if l.isOwn then 1 else 0) + w'.stepsLeft ≤ w.stepsLeft ∧
      (if l.isDecide then 1 else 0) + (if w'.thread = .awake then 1 else 0) ≤
        if w.thread = .awake then 1 else 0 := by
  have hstop : w.stop = true := (hw.stopping hstopping).1
  have hon : w.runner.started = true := by
    rw [hw.started]
    simpa using (hw.stopping hstopping).2
  cases l with
  | insert nowUs ev =>
      obtain rfl := Option.some.inj h
      exact ⟨hstopping, by simp [Label.isOwn, stepsLeft], by simp [Label.isDecide]⟩
  | start steady =>
      simp only [Watcher.step, hon, if_true] at h
      obtain rfl := Option.some.inj h
      exact ⟨hstopping, by simp [Label.isOwn], by simp [Label.isDecide]⟩
  | askStop =>
      simp [Watcher.step, hon, hstopping] at h
  | wake =>
      simp only [Watcher.step, hstop, if_true] at h
      split_ifs at h with hwaiting
      obtain rfl := Option.some.inj h
      exact ⟨hstopping, by simp [Label.isOwn, stepsLeft, hwaiting], by simp [Label.isDecide]⟩
  | decide now =>
      simp only [Watcher.step] at h
      split_ifs at h with hawake hrun <;> obtain rfl := Option.some.inj h
      · exact ⟨hstopping, by simp [Label.isOwn, stepsLeft, stepsOf, hawake],
          by simp [Label.isDecide, hawake]⟩
      · exact ⟨hstopping, by simp [Label.isOwn, stepsLeft, hawake],
          by simp [Label.isDecide, hawake]⟩
  | work l =>
      simp only [Watcher.step] at h
      split_ifs at h with hbusy
      obtain ⟨r, hr, rfl⟩ := Option.map_eq_some_iff.mp h
      obtain ⟨stage, r', hr', hlt⟩ := stepsOf_work hbusy.2 hr
      refine ⟨hstopping, ?_, by split_ifs <;> simp_all [Label.isDecide]⟩
      cases hround : r.round with
      | none =>
          simp only [hround, Option.map_none, Option.getD_none] at hlt
          simp only [Label.isOwn, stepsLeft, hbusy.1, hr', Option.isSome_none, Option.map_some,
            Option.getD_some, if_true, Bool.false_eq_true, if_false]
          omega
      | some next =>
          simp only [hround, Option.map_some, Option.getD_some] at hlt
          simp only [Label.isOwn, stepsLeft, hbusy.1, hr', hround, Option.isSome_some,
            Option.map_some, Option.getD_some, if_true]
          omega
  | joined => exact absurd rfl hl

theorem runFrom_stopping {p : Platform} {cfg : AutoLearnConfig} {steady : Int}
    {file : Option Bytes} {w w' : Watcher} {ls : List Label} (hw : Inv w) (hstopping : w.stopping)
    (hrun : (watched p cfg steady file).runFrom w ls = some w') (hls : .joined ∉ ls) :
    Inv w' ∧ w'.stopping ∧ ls.countP Label.isOwn + w'.stepsLeft ≤ w.stepsLeft ∧
      ls.countP Label.isDecide + (if w'.thread = .awake then 1 else 0) ≤
        if w.thread = .awake then 1 else 0 := by
  induction ls generalizing w with
  | nil =>
      obtain rfl := Option.some.inj hrun
      exact ⟨hw, hstopping, by simp, by simp⟩
  | cons l ls ih =>
      obtain ⟨w₁, hl, hrest⟩ := Option.bind_eq_some_iff.mp hrun
      rw [List.mem_cons, not_or] at hls
      obtain ⟨hstopping', hleft, hdecide⟩ := step_stopping hw hstopping (Ne.symm hls.1) hl
      obtain ⟨hw', hstill, hlefts, hdecides⟩ := ih (hw.step hl) hstopping' hrest hls.2
      refine ⟨hw', hstill, ?_, ?_⟩
      · rw [List.countP_cons]
        omega
      · rw [List.countP_cons]
        omega

/-- A step that a round can make at a stage. -/
def nextWork : Stage → Runner.Label
  | .count => .count
  | .bigrams => .scanBigrams
  | .words => .scanWords
  | .write => .write {}
  | .finish => .finish 0 false

/-- A thread that a `Stop` waits for can go on, and the `Stop` with it. -/
theorem own_enabled (p : Platform) (cfg : AutoLearnConfig) {w : Watcher} (hw : Inv w)
    (hstopping : w.stopping) :
    1 ≤ w.stepsLeft ∧ ∃ l : Label, l.isOwn ∧ (w.step p cfg l).isSome := by
  unfold stepsLeft
  cases hthread : w.thread with
  | absent => exact absurd hthread (hw.stopping hstopping).2
  | waiting => exact ⟨by simp, .wake, rfl, by simp [Watcher.step, hthread]⟩
  | awake =>
      refine ⟨by simp, .decide ⟨0, 0⟩, rfl, ?_⟩
      simp only [Watcher.step, hthread, if_true]
      split_ifs <;> rfl
  | busy =>
      have hround := hw.round
      rw [hthread] at hround
      obtain ⟨⟨stage, r⟩, hsome⟩ := Option.isSome_iff_exists.mp hround
      refine ⟨by simp only; omega, .work (nextWork stage), rfl, ?_⟩
      have hbefore : w.runner.before stage = some r := Runner.before_eq_some.mpr hsome
      cases stage <;>
        simp [Watcher.step, hthread, nextWork, Runner.Label.isWork, Runner.step, hbefore]
  | ended => exact ⟨by simp, .joined, rfl, by simp [Watcher.step, hthread, hstopping]⟩

/-- **Stop.** Wherever the thread is when `Stop` asks it to end: until the join it decides at most
once more whether to start a round, it makes fewer than eight steps, and there is always one that
it can make; and where the runner is not started, there is no thread and no round. -/
theorem stop_ends {p : Platform} {cfg : AutoLearnConfig} {steady : Int} {file : Option Bytes}
    {w w' : Watcher} {ls : List Label} (hw : (watched p cfg steady file).Reachable w)
    (hstopping : w.stopping) (hrun : (watched p cfg steady file).runFrom w ls = some w')
    (hls : .joined ∉ ls) :
    ls.countP Label.isDecide ≤ 1 ∧ ls.countP Label.isOwn < 8 ∧
      (∃ l : Label, l.isOwn ∧ ((watched p cfg steady file).step w' l).isSome) ∧
      ∀ w'', (watched p cfg steady file).step w' .joined = some w'' →
        w''.runner.started = false ∧ w''.thread = .absent ∧ w''.runner.round = none := by
  obtain ⟨hw', hstill, hleft, hdecide⟩ := runFrom_stopping (.reachable hw) hstopping hrun hls
  obtain ⟨hpos, hnext⟩ := own_enabled p cfg hw' hstill
  have hmost : w.stepsLeft ≤ 8 := stepsLeft_le w
  refine ⟨?_, by omega, hnext, fun w'' hjoined => ?_⟩
  · split_ifs at hdecide <;> omega
  · simp only [watched, Watcher.step] at hjoined
    split_ifs at hjoined with hended
    obtain rfl := Option.some.inj hjoined
    exact ⟨rfl, rfl, hw'.round_eq_none (by simp [hended.2])⟩

/-- A commit, and the thread awake when `Stop` comes. -/
def askedAwake : List Label :=
  [.start 0, .insert 100000000 { code := ascii "xu", committedText := encodeText ['弹'] }, .wake,
    .askStop]

/-- The round that the thread still makes. -/
def lastRound : List Label :=
  [.decide ⟨400000000, 400000000⟩, .work .count, .work .scanBigrams, .work .scanWords,
    .work (.write {}), .work (.finish 401000000 true), .wake]

/-- One round is made behind the request to stop, in seven steps. -/
theorem stop_ends_awake : ∃ w w' w'',
    (watched .stable {} 0 none).run askedAwake = some w ∧
    (watched .stable {} 0 none).runFrom w lastRound = some w' ∧
    (watched .stable {} 0 none).step w' .joined = some w'' ∧
    lastRound.countP Label.isOwn < 8 ∧ w'.runner.totalRuns = 1 ∧ w''.runner.round = none := by
  have hmap : ∃ w w' w'', (watched .stable {} 0 none).run askedAwake = some w ∧
      (watched .stable {} 0 none).runFrom w lastRound = some w' ∧
      (watched .stable {} 0 none).step w' .joined = some w'' ∧ w.stopping = true ∧
      w'.runner.totalRuns = 1 :=
    ⟨_, _, _, rfl, rfl, rfl, rfl, rfl⟩
  obtain ⟨w, w', w'', hrun, hrun', hjoined, hstopping, htotal⟩ := hmap
  obtain ⟨-, hown, -, hafter⟩ :=
    stop_ends (System.reachable_of_run hrun) hstopping hrun' (by decide)
  exact ⟨w, w', w'', hrun, hrun', hjoined, hown, htotal, (hafter w'' hjoined).2.2⟩

end Watcher

end Dafeng.Learning
