import Dafeng.Learning.Watcher

/-!
# Dafeng.Learning.Pace

How often the runner learns, over whole runs: `min_round_interval`, and the check for new entries,
in `src/daemon/auto_learn.cc`. The steady clock does not go back.
-/

namespace Dafeng.Learning

open Dafeng.Utf8

/-! ### Times that keep a distance -/

namespace Runner

/-- The reading of the steady clock at a step. -/
def Label.steady : Label → Option Int
  | .start steady | .throw steady | .finish steady _ => some steady
  | .tick now => some now.steady
  | .insert _ _ | .stop | .count | .scanBigrams | .scanWords | .write _ => none

/-- The least distance of two rounds, in microseconds. -/
def interval (cfg : AutoLearnConfig) : Int := max 0 cfg.minRoundInterval * 1000000

/-- What the last reading of the clock says of the runner. -/
structure Paced (cfg : AutoLearnConfig) (s : Runner) (now : Int) : Prop where
  last : s.lastRoundAt ≤ now
  begun : s.round.isSome → s.started ∧ s.lastRoundAt + interval cfg ≤ now

/-- Later readings say no less. -/
theorem Paced.mono {cfg : AutoLearnConfig} {s : Runner} {now now' : Int} (hs : Paced cfg s now)
    (hle : now ≤ now') : Paced cfg s now' :=
  ⟨hs.last.trans hle, fun hround => ⟨(hs.begun hround).1, (hs.begun hround).2.trans hle⟩⟩

end Runner

/-! ### The thread -/

namespace Watcher

open Runner

end Watcher

end Dafeng.Learning
