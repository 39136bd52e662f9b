import Dafeng.Inspector.Stats

/-!
# Dafeng.Inspector.StatsPage

What `dafeng-cli stats` prints reads back, and what the page and the menu bar show of a daemon
whose threads all go on meanwhile.
-/

namespace Dafeng.Inspector

open Dafeng.Protocol Dafeng.Daemon

/-! ### Numbers and names -/

/-- The value of the line about the model. -/
def modelField (version : UInt8) : List Char :=
  (modelName version).toList ++ ' ' :: ("(v".toList ++ printUInt version.toNat ++ ")".toList)

/-- The lines of `CmdStats`, as labels and values. -/
def fields (stats : StatsResponse) : List (List Char) := [
  printField "daemon uptime    " (printUInt stats.uptimeSec.toNat ++ " s".toList),
  printField "rerank model     " (modelField stats.rerankModelVersion),
  printField "rerank requests  " (printUInt stats.rerankCount.toNat ++ []),
  printField "ping requests    " (printUInt stats.pingCount.toNat ++ []),
  printField "commit events    " (printUInt stats.commitCount.toNat ++ []),
  printField "errors           " (printUInt stats.errorCount.toNat ++ []),
  printField "rerank mean (us) " (printUInt (meanUs stats).toNat ++ []),
  printField "rerank max  (us) " (printUInt stats.rerankLatencyMaxUs.toNat ++ [])]

section Versions

open Counters

/-- The model version that a backend puts into all its answers. -/
def AnswersAs (reranker : RerankService) (version : UInt8) : Prop :=
  ∀ req latencyUs, (reranker.rerank req latencyUs).modelVersion = version

theorem answersAs_mockReverse : AnswersAs mockReverse 0 := fun _ _ => rfl

theorem answersAs_deterministic (greater : UInt32 → UInt32 → Bool)
    (scoreCandidate : Bytes → Bytes → UInt32) :
    AnswersAs (deterministic greater scoreCandidate) 1 := fun req _ => by
  by_cases h : req.candidates = [] <;> simp [deterministic, h, scoredResponse]

/-- The answer that a worker is counting. -/
def answerOf : Worker → Option RerankResponse
  | .outside => none
  | .addCount resp | .addSum resp | .loadMax resp | .exchange resp _ | .storeVersion resp =>
    some resp

/-- Whether a worker is in its update section. -/
def counting (k : Worker) : Bool := (answerOf k).isSome

/-- How many answers are counted to the end. -/
def finished (s : State) : Nat := s.handled.length - s.workers.countP counting

/-- What the sections say of the model version, where all answers carry `version`. -/
structure Versioned (version : UInt8) (s : State) : Prop where
  answers : ∀ k ∈ s.workers, ∀ resp ∈ answerOf k, resp.modelVersion = version
  sections : s.workers.countP counting ≤ s.handled.length
  shared : s.shared.rerankModelVersion = if 0 < finished s then version else 0

theorem Versioned.of_eq {version : UInt8} {s s' : State} (hs : Versioned version s)
    (hworkers : s'.workers.countP counting = s.workers.countP counting)
    (hanswers : ∀ k' ∈ s'.workers, ∃ k ∈ s.workers, answerOf k' = answerOf k)
    (hhandled : s'.handled = s.handled)
    (hshared : s'.shared.rerankModelVersion = s.shared.rerankModelVersion) :
    Versioned version s' := by
  constructor
  · intro k' hk' resp hresp
    obtain ⟨k, hk, heq⟩ := hanswers k' hk'
    exact hs.answers k hk resp (heq ▸ hresp)
  · rw [hworkers, hhandled]
    exact hs.sections
  · rw [hshared, hs.shared, finished, finished, hworkers, hhandled]

/-- A backend that answers as the model does which the menu bar calls the LLM. -/
def llama : RerankService := llamaCpp (fun _ _ => false) fun _ => none

end Versions

end Dafeng.Inspector
