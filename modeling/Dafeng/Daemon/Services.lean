import Dafeng.Protocol.Codec

/-!
# Dafeng.Daemon.Services

The rerank backends of `src/daemon`, as the server sees them.

A backend answers a request from the request alone; only the latency it reports
comes from the clock. Scores stay opaque 32-bit values: the score functions and
the comparison of two floats are parameters.
-/

namespace Dafeng.Daemon

open Dafeng.Protocol

/-- `IRerankService`. Every backend copies the request's id and lists no more
indices and scores than there are candidates. -/
structure RerankService where
  rerank : RerankRequest → UInt32 → RerankResponse
  rerank_requestId : ∀ req latencyUs, (rerank req latencyUs).requestId = req.requestId
  rerank_indices : ∀ req latencyUs,
    (rerank req latencyUs).reorderedIndices.length ≤ req.candidates.length
  rerank_scores : ∀ req latencyUs, (rerank req latencyUs).scores.length ≤ req.candidates.length

/-- The indices `0 .. n-1` as the responses carry them. -/
def indices (n : Nat) : List Int32 := (List.range n).map Int32.ofNat

/-- `MockReverseReranker`. -/
def mockReverse : RerankService where
  rerank req latencyUs :=
    { requestId := req.requestId
      reorderedIndices := (indices req.candidates.length).reverse
      latencyUs := latencyUs
      modelVersion := 0 }
  rerank_requestId _ _ := rfl
  rerank_indices req _ := by simp [indices]
  rerank_scores req _ := by simp

section Scored

variable (greater : UInt32 → UInt32 → Bool)

/-- `std::stable_sort` by score, highest first. -/
def sortByScore (scored : List (UInt32 × Int32)) : List (UInt32 × Int32) :=
  scored.mergeSort fun a b => !greater b.1 a.1

/-- The answer that both scoring backends build from the sorted scores. -/
def scoredResponse (modelVersion : UInt8) (score : Bytes → UInt32) (req : RerankRequest)
    (latencyUs : UInt32) : RerankResponse :=
  let scored := (req.candidates.map score).zip (indices req.candidates.length)
  { requestId := req.requestId
    reorderedIndices := (sortByScore greater scored).map Prod.snd
    scores := (sortByScore greater scored).map Prod.fst
    latencyUs := latencyUs
    modelVersion := modelVersion }

/-- `DeterministicReranker`; `scoreCandidate` scores a candidate against the
context. -/
def deterministic (scoreCandidate : Bytes → Bytes → UInt32) : RerankService where
  rerank req latencyUs :=
    if req.candidates = [] then { requestId := req.requestId, modelVersion := 1 }
    else
      scoredResponse greater 1 (fun cand => scoreCandidate cand req.contextBefore) req latencyUs
  rerank_requestId req _ := by
    split <;> rfl
  rerank_indices req _ := by
    split <;> simp [scoredResponse, sortByScore, indices]
  rerank_scores req _ := by
    split <;> simp [scoredResponse, sortByScore, indices]

/-- `LlamaCppReranker`; `scorer` scores the candidates of a request, unless the
model fails, and the order is then the original one. -/
def llamaCpp (scorer : RerankRequest → Option (Bytes → UInt32)) : RerankService where
  rerank req latencyUs :=
    if req.candidates = [] then { requestId := req.requestId, modelVersion := 3 }
    else
      match scorer req with
      | some score => scoredResponse greater 3 score req latencyUs
      | none =>
        { requestId := req.requestId
          reorderedIndices := indices req.candidates.length
          latencyUs := latencyUs
          modelVersion := 3 }
  rerank_requestId req _ := by
    split
    · rfl
    · split <;> rfl
  rerank_indices req _ := by
    split
    · exact Nat.zero_le _
    · split <;> simp [scoredResponse, sortByScore, indices]
  rerank_scores req _ := by
    split
    · exact Nat.zero_le _
    · split <;> simp [scoredResponse, sortByScore, indices]

end Scored

/-- `MLXReranker`: the fallback's answer under its own version and latency. -/
def mlx (fallback : RerankService) (ready : Bool) : RerankService where
  rerank req latencyUs :=
    { fallback.rerank req latencyUs with
      modelVersion := if ready then 2 else 1, latencyUs := latencyUs }
  rerank_requestId req latencyUs := fallback.rerank_requestId req latencyUs
  rerank_indices req latencyUs := fallback.rerank_indices req latencyUs
  rerank_scores req latencyUs := fallback.rerank_scores req latencyUs

end Dafeng.Daemon
