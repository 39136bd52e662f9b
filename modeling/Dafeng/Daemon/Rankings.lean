import Mathlib.Data.List.GetD
import Dafeng.Daemon.LlamaCpp

/-!
# Dafeng.Daemon.Rankings

The order in which the backends answer: the candidates by score, the best first,
and of equally good ones the one that came first.
-/

namespace Dafeng.Daemon

open Dafeng.Protocol

/-! ### Sorting scored candidates -/

/-- The stable sort by score puts the positions in the order of any keys that
compare as the scores do. -/
theorem sortByScore_ranks {greater : UInt32 → UInt32 → Bool} {score : Bytes → UInt32}
    {key : Bytes → Int} {cands : List Bytes}
    (hkey : ∀ a ∈ cands, ∀ b ∈ cands, greater (score a) (score b) = decide (key b < key a)) :
    ∃ order,
      Ranks cands.length (fun i j => key (cands.getD j []) < key (cands.getD i [])) order ∧
      sortByScore greater ((cands.map score).zip (indices cands.length)) =
        order.map fun i => (score (cands.getD i []), Int32.ofNat i) := by
  have hmem : ∀ i < cands.length, cands.getD i [] ∈ cands := by
    intro i hi
    rw [List.getD_eq_getElem _ _ hi]
    exact List.getElem_mem hi
  rw [scored_eq, sortByScore]
  refine exists_ranks_mergeSort fun i hi j hj => ?_
  rw [hkey _ (hmem j hj) _ (hmem i hi), ← decide_not]
  exact decide_eq_decide.mpr Int.not_lt

/-- Numbers compare as their places. -/
theorem greater_eq_place {score : Bytes → UInt32} {cands : List Bytes}
    (hnumeric : ∀ cand ∈ cands, Binary32.isNaN (score cand) = false) :
    ∀ a ∈ cands, ∀ b ∈ cands, Binary32.greater (score a) (score b) =
      decide (Binary32.place (score b) < Binary32.place (score a)) := by
  intro a ha b hb
  exact Binary32.greater_eq (hnumeric a ha) (hnumeric b hb)

/-- A response lists all candidates with their scores, none of which is greater than
one before it; candidates with equal scores stand in their original order. -/
def StablySorted (score : Bytes → UInt32) (cands : List Bytes) (resp : RerankResponse) : Prop :=
  ∃ order : List Nat, order.Perm (List.range cands.length) ∧
    resp.reorderedIndices = order.map Int32.ofNat ∧
    resp.scores = order.map (fun i => score (cands.getD i [])) ∧
    (resp.scores.Pairwise fun a b => Binary32.place b ≤ Binary32.place a) ∧
    order.Pairwise fun i j =>
      Binary32.place (score (cands.getD i [])) = Binary32.place (score (cands.getD j [])) → i < j

theorem stablySorted_of_none {score : Bytes → UInt32} {resp : RerankResponse}
    (hindices : resp.reorderedIndices = []) (hscores : resp.scores = []) :
    StablySorted score [] resp :=
  ⟨[], .refl _, hindices, hscores, by rw [hscores]; exact .nil, .nil⟩

theorem scoredResponse_stablySorted {score : Bytes → UInt32} {req : RerankRequest}
    (hnumeric : ∀ cand ∈ req.candidates, Binary32.isNaN (score cand) = false)
    (version : UInt8) (latencyUs : UInt32) :
    StablySorted score req.candidates
      (scoredResponse Binary32.greater version score req latencyUs) := by
  obtain ⟨order, hranks, hsort⟩ := sortByScore_ranks (greater_eq_place hnumeric)
  have hscores : (scoredResponse Binary32.greater version score req latencyUs).scores =
      order.map fun i => score (req.candidates.getD i []) := by
    simp only [scoredResponse, hsort, List.map_map]
    rfl
  refine ⟨order, hranks.perm, ?_, hscores, ?_, hranks.stable⟩
  · simp only [scoredResponse, hsort, List.map_map]
    rfl
  · rw [hscores, List.pairwise_map]
    exact hranks.nonincreasing

/-! ### The backends -/

theorem deterministic_stablySorted {scoreCandidate : Bytes → Bytes → UInt32} {req : RerankRequest}
    (hnumeric : ∀ cand ∈ req.candidates,
      Binary32.isNaN (scoreCandidate cand req.contextBefore) = false) (latencyUs : UInt32) :
    StablySorted (fun cand => scoreCandidate cand req.contextBefore) req.candidates
      ((deterministic Binary32.greater scoreCandidate).rerank req latencyUs) := by
  unfold deterministic
  dsimp only
  split_ifs with hnil
  · rw [hnil]
    exact stablySorted_of_none rfl rfl
  · exact scoredResponse_stablySorted hnumeric 1 latencyUs

theorem llama_stablySorted (llama : Llama) {req : RerankRequest} {logits : Int32 → UInt32}
    (hlogits : llama.nextLogits req.contextBefore = some logits)
    (hnumeric : ∀ cand ∈ req.candidates,
      Binary32.isNaN (llama.candidateScore logits cand) = false) (latencyUs : UInt32) :
    StablySorted (llama.candidateScore logits) req.candidates (llama.rerank req latencyUs) := by
  rw [llama.rerank_eq, llamaCpp]
  dsimp only
  split_ifs with hnil
  · rw [hnil]
    exact stablySorted_of_none rfl rfl
  · simp only [Llama.scorer, hlogits, Option.map_some]
    exact scoredResponse_stablySorted hnumeric 3 latencyUs

/-- Where the scoring fails, the answer is the original order. -/
theorem llama_identity (llama : Llama) {req : RerankRequest}
    (hfailed : llama.scoreCandidates req = []) (latencyUs : UInt32) :
    (llama.rerank req latencyUs).reorderedIndices = indices req.candidates.length ∧
      (llama.rerank req latencyUs).scores = [] := by
  unfold Llama.rerank
  dsimp only
  split_ifs with hnil hscored
  · rw [hnil]
    exact ⟨rfl, rfl⟩
  · exact absurd hfailed hscored
  · exact ⟨rfl, rfl⟩

/-- **Backends rank stably.** Each backend that scores answers with all candidates,
stably sorted by scores that are numbers, which for llama.cpp are the logits of their first
tokens; a model that fails leaves their order, and the mock reverses it. -/
theorem backends_rank_stably (req : RerankRequest) (latencyUs : UInt32) :
    (∀ scoreCandidate : Bytes → Bytes → UInt32,
      (∀ cand ∈ req.candidates, Binary32.isNaN (scoreCandidate cand req.contextBefore) = false) →
      StablySorted (fun cand => scoreCandidate cand req.contextBefore) req.candidates
          ((deterministic Binary32.greater scoreCandidate).rerank req latencyUs) ∧
        ∀ ready, StablySorted (fun cand => scoreCandidate cand req.contextBefore) req.candidates
          ((mlx (deterministic Binary32.greater scoreCandidate) ready).rerank req latencyUs)) ∧
    (∀ llama : Llama,
      (∀ logits, llama.nextLogits req.contextBefore = some logits →
        (∀ cand ∈ req.candidates, Binary32.isNaN (llama.candidateScore logits cand) = false) →
        StablySorted (llama.candidateScore logits) req.candidates (llama.rerank req latencyUs)) ∧
      (∀ tokens logits, llama.Tokenizes tokens →
        llama.nextLogits req.contextBefore = some logits →
        ∀ cand ∈ req.candidates, cand ≠ [] → cand.length < 2 ^ 31 →
          llama.candidateScore logits cand = ((tokens cand false).head?.filter fun first =>
            0 ≤ first ∧ first < llama.vocabSize).elim sinkScore logits) ∧
      (llama.scoreCandidates req = [] →
        (llama.rerank req latencyUs).reorderedIndices = indices req.candidates.length ∧
          (llama.rerank req latencyUs).scores = [])) ∧
    (mockReverse.rerank req latencyUs).reorderedIndices =
      (indices req.candidates.length).reverse := by
  refine ⟨fun scoreCandidate hnumeric => ?_,
    fun llama => ⟨fun logits hlogits hnumeric => ?_, fun tokens logits htokens hlogits => ?_, ?_⟩,
    rfl⟩
  · have hsorted := deterministic_stablySorted hnumeric latencyUs
    -- the wrapper changes the version and the latency only
    exact ⟨hsorted, fun _ => hsorted⟩
  · exact llama_stablySorted llama hlogits hnumeric latencyUs
  · intro cand _ hcand hlen
    exact Llama.candidateScore_eq htokens (Llama.hasVocab_of_nextLogits hlogits) logits hcand hlen
  · intro hfailed
    exact llama_identity llama hfailed latencyUs

/-- A vocabulary of two one-byte tokens. -/
def twoTokens : Llama where
  hasContext := true
  hasVocab := true
  tokenize s _ room _ :=
    if s.length ≤ room then (s.length, s.map fun b => b.toNat.toInt32) else (-s.length, [])
  bos := 2
  vocabSize := 3
  decode _ := 0
  logitsIth _ _ := some fun token => if token = 1 then 0x40000000 else 0x3F800000

theorem twoTokens_tokenizes :
    twoTokens.Tokenizes fun s _ => s.map fun b => b.toNat.toInt32 where
  written s _ room _ hfits := by
    rw [List.length_map] at hfits ⊢
    exact if_pos hfits
  counted s _ room _ hmany := by
    rw [List.length_map] at hmany ⊢
    exact congrArg Prod.fst (if_neg (Nat.not_le.mpr hmany))

/-- The second candidate comes first, by its logit; the last has a token that the
vocabulary has not. -/
theorem backends_rank_stably_few :
    StablySorted (fun cand => if cand = [1] then 0x40000000 else 0x3F800000) [[0], [1], [0], [9]]
        ((deterministic Binary32.greater fun cand _ =>
          if cand = [1] then 0x40000000 else 0x3F800000).rerank
            { candidates := [[0], [1], [0], [9]] } 0) ∧
      StablySorted (twoTokens.candidateScore fun token =>
          if token = 1 then 0x40000000 else 0x3F800000) [[0], [1], [0], [9]]
        (twoTokens.rerank { candidates := [[0], [1], [0], [9]] } 0) ∧
      twoTokens.candidateScore (fun token => if token = 1 then 0x40000000 else 0x3F800000) [1] =
        0x40000000 ∧
      twoTokens.candidateScore (fun token => if token = 1 then 0x40000000 else 0x3F800000) [9] =
        sinkScore := by
  obtain ⟨hrule, hllama, -⟩ := backends_rank_stably { candidates := [[0], [1], [0], [9]] } 0
  obtain ⟨hsorted, hlogit, -⟩ := hllama twoTokens
  exact ⟨(hrule _ (by decide)).1, hsorted _ rfl (by decide),
    hlogit _ _ twoTokens_tokenizes rfl [1] (by simp) (by simp) (by simp),
    hlogit _ _ twoTokens_tokenizes rfl [9] (by simp) (by simp) (by simp)⟩

end Dafeng.Daemon
