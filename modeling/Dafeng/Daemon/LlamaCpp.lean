import Dafeng.Daemon.Services
import Dafeng.Library.Ranking

/-!
# Dafeng.Daemon.LlamaCpp

The llama.cpp backend (`reranker_llamacpp.cc`): the prompt, one forward pass over
it, and the logit of each candidate's first token.

The library is a parameter. A call clears the library's memory before the pass, so
what the library answers depends on the tokens alone.
-/

namespace Dafeng.Daemon

open Dafeng.Protocol

/-- What the backend uses of llama.cpp and of its own state. -/
structure Llama where
  /-- `ctx_` is not null. -/
  hasContext : Bool
  /-- `vocab_` is not null. -/
  hasVocab : Bool
  /-- `llama_tokenize`, from the text, its length as an `int32_t`, the room for
  tokens and `add_special`: the value it returns and the tokens it writes. -/
  tokenize : Bytes → Int32 → Nat → Bool → Int × List Int32
  /-- `llama_vocab_bos`. -/
  bos : Int32
  /-- `llama_vocab_n_tokens`. -/
  vocabSize : Int32
  /-- `llama_decode` over a prompt. -/
  decode : List Int32 → Int
  /-- `llama_get_logits_ith` after the pass over a prompt; `none` is null. -/
  logitsIth : List Int32 → Nat → Option (Int32 → UInt32)

/-- `LLAMA_TOKEN_NULL`. -/
def llamaTokenNull : Int32 := -1

/-- `-1e9f`, the score of a candidate that has no token to look up. -/
def sinkScore : UInt32 := 0xCE6E6B28

namespace Llama

variable (llama : Llama)

/-- `Tokenize`. -/
def tokenizeText (s : Bytes) (addBos : Bool) : List Int32 :=
  if llama.hasVocab = false then []
  else if s = [] then []
  else
    -- First call: figure out the size we need.
    let needed := -(llama.tokenize s (Int32.ofNat s.length) 0 addBos).1
    if needed ≤ 0 then []
    else
      let call := llama.tokenize s (Int32.ofNat s.length) needed.toNat addBos
      let got := call.1
      if got < 0 then []
      else (call.2 ++ List.replicate got.toNat 0).take got.toNat

/-- The tokens of the prompt, at most the 256 most recent. -/
def promptTokens (contextBefore : Bytes) : List Int32 :=
  let tokens := llama.tokenizeText contextBefore true
  -- No context: a single BOS, where the vocabulary has one.
  let tokens :=
    if tokens = [] ∧ llama.bos ≠ llamaTokenNull then tokens ++ [llama.bos] else tokens
  if 256 < tokens.length then tokens.drop (tokens.length - 256) else tokens

/-- Steps 1 to 3 of `ScoreCandidates`: the logits after the prompt. -/
def nextLogits (contextBefore : Bytes) : Option (Int32 → UInt32) :=
  if llama.hasContext = false ∨ llama.hasVocab = false then none
  else
    let tokens := llama.promptTokens contextBefore
    if tokens = [] then none
    else if llama.decode tokens ≠ 0 then none
    else llama.logitsIth tokens (tokens.length - 1)

/-- Step 4 of `ScoreCandidates`, for one candidate. -/
def candidateScore (logits : Int32 → UInt32) (cand : Bytes) : UInt32 :=
  match llama.tokenizeText cand false with
  | [] => sinkScore
  | first :: _ => if first < 0 ∨ llama.vocabSize ≤ first then sinkScore else logits first

/-- `ScoreCandidates`; the empty list is a failure. -/
def scoreCandidates (req : RerankRequest) : List (UInt32 × Int32) :=
  match llama.nextLogits req.contextBefore with
  | none => []
  | some logits =>
    (List.range req.candidates.length).map fun i =>
      (llama.candidateScore logits (req.candidates.getD i []), Int32.ofNat i)

/-- `LlamaCppReranker::Rerank`. -/
def rerank (req : RerankRequest) (latencyUs : UInt32) : RerankResponse :=
  if req.candidates = [] then { requestId := req.requestId, modelVersion := 3 }
  else
    let scored := llama.scoreCandidates req
    if scored ≠ [] then
      let scored := sortByScore Binary32.greater scored
      { requestId := req.requestId
        reorderedIndices := scored.map Prod.snd
        scores := scored.map Prod.fst
        latencyUs := latencyUs
        modelVersion := 3 }
    else
      { requestId := req.requestId
        reorderedIndices := (List.range req.candidates.length).map Int32.ofNat
        latencyUs := latencyUs
        modelVersion := 3 }

/-- How the backend scores the candidates of a request, unless the model fails. -/
def scorer (req : RerankRequest) : Option (Bytes → UInt32) :=
  (llama.nextLogits req.contextBefore).map llama.candidateScore

/-! ### First tokens -/

/-- What llama.cpp documents of `llama_tokenize` on a text whose length is an `int32_t`:
the tokens are written where there is room for all, and else their number comes back
negated. -/
structure Tokenizes (tokens : Bytes → Bool → List Int32) : Prop where
  written : ∀ s addBos room, s.length < 2 ^ 31 → (tokens s addBos).length ≤ room →
    llama.tokenize s (Int32.ofNat s.length) room addBos =
      (((tokens s addBos).length : Int), tokens s addBos)
  counted : ∀ s addBos room, s.length < 2 ^ 31 → room < (tokens s addBos).length →
    (llama.tokenize s (Int32.ofNat s.length) room addBos).1 = -(tokens s addBos).length

variable {llama} {tokens : Bytes → Bool → List Int32}

theorem hasVocab_of_nextLogits {contextBefore : Bytes} {logits : Int32 → UInt32}
    (h : llama.nextLogits contextBefore = some logits) : llama.hasVocab = true := by
  unfold nextLogits at h
  split_ifs at h with hready
  simpa using (not_or.mp hready).2

/-- The two calls together give the tokens of the text. -/
theorem tokenizeText_eq (htokens : llama.Tokenizes tokens) (hvocab : llama.hasVocab = true)
    {s : Bytes} (hs : s ≠ []) (hlen : s.length < 2 ^ 31) (addBos : Bool) :
    llama.tokenizeText s addBos = tokens s addBos := by
  rw [tokenizeText, hvocab, if_neg (by simp), if_neg hs]
  dsimp only
  rcases Nat.eq_zero_or_pos (tokens s addBos).length with hnone | hpos
  · rw [htokens.written s addBos 0 hlen (by omega), hnone, if_pos (by simp)]
    exact (List.length_eq_zero_iff.mp hnone).symm
  · rw [htokens.counted s addBos 0 hlen hpos, neg_neg, Int.toNat_natCast,
      htokens.written s addBos _ hlen (Nat.le_refl _), if_neg (by omega), if_neg (by omega),
      Int.toNat_natCast, List.take_left]

/-- A candidate has the logit of its first token, where the vocabulary has that token. -/
theorem candidateScore_eq (htokens : llama.Tokenizes tokens) (hvocab : llama.hasVocab = true)
    (logits : Int32 → UInt32) {cand : Bytes} (hcand : cand ≠ []) (hlen : cand.length < 2 ^ 31) :
    llama.candidateScore logits cand =
      ((tokens cand false).head?.filter fun first => 0 ≤ first ∧ first < llama.vocabSize).elim
        sinkScore logits := by
  rw [candidateScore, tokenizeText_eq htokens hvocab hcand hlen]
  cases tokens cand false with
  | nil => rfl
  | cons first rest =>
      have hinside : (0 ≤ first ∧ first < llama.vocabSize) ↔
          ¬ (first < 0 ∨ llama.vocabSize ≤ first) := by
        rw [not_or, Int32.not_lt, Int32.not_le]
      rw [List.head?_cons, Option.filter_some]
      by_cases hout : first < 0 ∨ llama.vocabSize ≤ first
      · simp [hinside, hout]
      · simp [hinside, hout]

end Llama

/-- The scored candidates, by position. -/
theorem scored_eq (score : Bytes → UInt32) (cands : List Bytes) :
    (cands.map score).zip (indices cands.length) =
      (List.range cands.length).map fun i => (score (cands.getD i []), Int32.ofNat i) := by
  apply List.ext_getElem
  · simp [indices]
  · intro i h₁ h₂
    have hi : i < cands.length := by simpa using h₂
    simp [indices, List.getElem?_eq_getElem hi]

/-- The backend is the service over its scorer. -/
theorem Llama.rerank_eq (llama : Llama) :
    llama.rerank = (llamaCpp Binary32.greater llama.scorer).rerank := by
  funext req latencyUs
  unfold Llama.rerank llamaCpp
  dsimp only
  split_ifs with hnil hscored
  · rfl
  · cases hlogits : llama.nextLogits req.contextBefore with
    | none => exact absurd (by simp only [Llama.scoreCandidates, hlogits]) hscored
    | some logits =>
        simp only [Llama.scorer, Llama.scoreCandidates, hlogits, Option.map_some, scoredResponse,
          scored_eq]
  · cases hlogits : llama.nextLogits req.contextBefore with
    | none =>
        simp only [Llama.scorer, hlogits, Option.map_none]
        rfl
    | some logits =>
        -- there is a score for every candidate
        simp only [Llama.scoreCandidates, hlogits, ne_eq, not_not, List.map_eq_nil_iff,
          List.range_eq_nil, List.length_eq_zero_iff] at hscored
        exact absurd hscored hnil

end Dafeng.Daemon
