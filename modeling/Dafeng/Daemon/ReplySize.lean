import Dafeng.Daemon.Server
import Dafeng.Protocol.Frame

/-!
# Dafeng.Daemon.ReplySize

How large the reply to a rerank request is. A candidate takes one byte or more of the
request; in the reply it takes up to five bytes of index, and five of score if the
backend has scores. Nothing keeps the reply within the cap that the request had to keep.
-/

namespace Dafeng.Daemon

open Dafeng.Msgpack Dafeng.Protocol

/-! ### The bytes of a reply -/

/-- The bytes of the indices `0 .. n-1`, in any order. -/
def indexBytes (n : Nat) : Nat := ((List.range n).map fun i => (packUInt i).length).sum

/-- Where each of the indices from `lo` to `hi` takes `w` bytes. -/
theorem indexBytes_of_width {lo hi w k : Nat} (hlo : indexBytes lo = w * lo - k)
    (hk : k ≤ w * lo) (hw : ∀ i, lo ≤ i → i < hi → (packUInt i).length = w) {n : Nat}
    (hn : lo ≤ n) (hhi : n ≤ hi) : indexBytes n = w * n - k := by
  induction n, hn using Nat.le_induction with
  | base => exact hlo
  | succ n hn ih =>
      have hstep : indexBytes (n + 1) = indexBytes n + (packUInt n).length := by
        rw [indexBytes, List.range_succ, List.map_append, List.sum_append]
        rfl
      have hle : k ≤ w * n := Nat.le_trans hk (Nat.mul_le_mul_left w hn)
      rw [hstep, hw n hn hhi, ih (by omega), Nat.mul_succ]
      omega

theorem packUInt_length_one {i : Nat} (h : i < 0x80) : (packUInt i).length = 1 := by
  rw [packUInt_length, if_pos h]

/-! Indices take one, two, three and five bytes. -/

theorem indexBytes_one {n : Nat} (h : n ≤ 0x80) : indexBytes n = n := by
  have hone : indexBytes n = 1 * n - 0 :=
    indexBytes_of_width rfl (Nat.le_refl 0) (fun i _ hi => packUInt_length_one hi) (Nat.zero_le n) h
  omega

theorem indexBytes_two {n : Nat} (h : 0x80 ≤ n) (hn : n ≤ 0x100) : indexBytes n = 2 * n - 128 := by
  have hlo : indexBytes 0x80 = 2 * 0x80 - 128 := indexBytes_one (Nat.le_refl 0x80)
  refine indexBytes_of_width hlo (by decide) (fun i hlo hi => ?_) h hn
  rw [packUInt_length, if_neg (by omega), if_pos hi]

theorem indexBytes_three {n : Nat} (h : 0x100 ≤ n) (hn : n ≤ 0x10000) :
    indexBytes n = 3 * n - 384 := by
  have hlo : indexBytes 0x100 = 3 * 0x100 - 384 := indexBytes_two (by decide) (Nat.le_refl 0x100)
  refine indexBytes_of_width hlo (by decide) (fun i hlo hi => ?_) h hn
  rw [packUInt_length, if_neg (by omega), if_neg (by omega), if_pos hi]

theorem indexBytes_five {n : Nat} (h : 0x10000 ≤ n) (hn : n ≤ 0x100000000) :
    indexBytes n = 5 * n - 131456 := by
  have hlo : indexBytes 0x10000 = 5 * 0x10000 - 131456 :=
    indexBytes_three (by decide) (Nat.le_refl 0x10000)
  refine indexBytes_of_width hlo (by decide) (fun i hlo hi => ?_) h hn
  rw [packUInt_length, if_neg (by omega), if_neg (by omega), if_neg (by omega), if_pos hi]

theorem indexBytes_le {n : Nat} (h : n ≤ 0x10000) : indexBytes n ≤ 3 * n := by
  rcases Nat.le_total n 0x100 with hn | hn
  · rcases Nat.le_total n 0x80 with hn' | hn'
    · rw [indexBytes_one hn']
      omega
    · rw [indexBytes_two hn' hn]
      omega
  · rw [indexBytes_three hn h]
    omega

theorem packInt32_ofNat {i : Nat} (h : i < 2 ^ 31) : packInt32 (Int32.ofNat i) = packUInt i := by
  have hint : (Int32.ofNat i).toInt = i := Int32.toInt_ofNat_of_lt h
  rw [packInt32, hint, if_pos (by omega), Int.toNat_natCast]

theorem length_packVector {α : Type} (f : α → Bytes) (xs : List α) :
    (packVector f xs).length =
      (packArrayHeader xs.length).length + (xs.map fun x => (f x).length).sum := by
  rw [packVector, List.length_append, List.length_flatMap]

theorem length_packIndices {n : Nat} {is : List Int32} (h : is.Perm (indices n))
    (hn : n ≤ 2 ^ 31) :
    (packVector packInt32 is).length = (packArrayHeader n).length + indexBytes n := by
  have hlen : is.length = n := by rw [h.length_eq, indices, List.length_map, List.length_range]
  have hsum : (is.map fun i => (packInt32 i).length).sum = indexBytes n := by
    rw [(h.map fun i => (packInt32 i).length).sum_nat, indices, List.map_map, indexBytes]
    refine congrArg List.sum (List.map_congr_left fun i hi => ?_)
    have hlt := List.mem_range.mp hi
    rw [Function.comp_apply, packInt32_ofNat (by omega)]
  rw [length_packVector, hlen, hsum]

theorem length_packScores (scores : List UInt32) : (packVector packF32 scores).length =
    (packArrayHeader scores.length).length + 5 * scores.length := by
  have hfive : (scores.map fun s => (packF32 s).length) = List.replicate scores.length 5 := by
    rw [← List.map_const']
    rfl
  rw [length_packVector, hfive, List.sum_replicate_nat, Nat.mul_comm]

theorem length_encodeRerankResponse (m : RerankResponse) :
    (encodeRerankResponse m).length = 35 + (packUInt m.requestId.toNat).length +
      (packVector packInt32 m.reorderedIndices).length + (packVector packF32 m.scores).length +
      (packUInt m.latencyUs.toNat).length + (packUInt m.modelVersion.toNat).length := by
  have hheader : (packMapHeader 7 ++ packHeader .rerankResponse).length = 7 := by decide
  have hid : (packKey kKeyId).length = 3 := by decide
  have horder : (packKey kKeyOrder).length = 6 := by decide
  have hscores : (packKey kKeyScores).length = 7 := by decide
  have hlatency : (packKey kKeyLatencyUs).length = 7 := by decide
  have hversion : (packKey kKeyModelVersion).length = 5 := by decide
  rw [List.length_append] at hheader
  simp only [encodeRerankResponse, List.flatten_cons, List.flatten_nil, List.length_append,
    List.length_nil, hid, horder, hscores, hlatency, hversion]
  omega

/-- There is room for the reply to `n` candidates; `id` and `latencyUs` take from one to
five bytes each. -/
def RoomFor (scored : Bool) (n : Nat) (id latencyUs : UInt32) : Prop :=
  if scored then
    10 * n + (packUInt id.toNat).length + (packUInt latencyUs.toNat).length ≤ 1179986
  else 5 * n + (packUInt id.toNat).length + (packUInt latencyUs.toNat).length ≤ 1179990

theorem packUInt_length_word (n : UInt32) : (packUInt n.toNat).length ≤ 5 := by
  have hlt := n.toNat_lt
  rw [packUInt_length]
  split_ifs <;> omega

theorem roomFor_of_le (scored : Bool) {n : Nat} (h : n ≤ 65536) (id latencyUs : UInt32) :
    RoomFor scored n id latencyUs := by
  have hid := packUInt_length_word id
  have hlatency := packUInt_length_word latencyUs
  unfold RoomFor
  split_ifs <;> omega

/-- A reply is within the cap where there is room for it. -/
theorem encodeBody_reply_le_iff {resp : RerankResponse} {n : Nat} {scored : Bool}
    (hn : n ≤ 2 ^ 20) (horder : resp.reorderedIndices.Perm (indices n))
    (hscores : resp.scores.length = if scored then n else 0) (hversion : resp.modelVersion < 128) :
    (encodeBody (.rerankResponse resp)).length ≤ kMaxFrameBodyBytes ↔
      RoomFor scored n resp.requestId resp.latencyUs := by
  have hid := packUInt_length_word resp.requestId
  have hlatency := packUInt_length_word resp.latencyUs
  have hone : (packUInt resp.modelVersion.toNat).length = 1 :=
    packUInt_length_one (UInt8.lt_iff_toNat_lt.mp hversion)
  rw [encodeBody, length_encodeRerankResponse, length_packIndices horder (by omega),
    length_packScores, hscores, hone, kMaxFrameBodyBytes]
  by_cases hfew : n ≤ 0x10000
  · -- far from the cap
    have hindices := indexBytes_le hfew
    have hheader : ∀ k, (packArrayHeader k).length ≤ 5 := fun k => by
      rw [packArrayHeader_length]
      split_ifs <;> omega
    have hheader₁ := hheader n
    have hheader₂ := hheader (if scored then n else 0)
    refine iff_of_true ?_ (roomFor_of_le scored hfew _ _)
    split_ifs at hheader₂ ⊢ <;> omega
  · have hindices := indexBytes_five (by omega : 0x10000 ≤ n) (by omega)
    have hheader : (packArrayHeader n).length = 5 := by
      rw [packArrayHeader_length, if_neg (by omega), if_neg (by omega)]
    rw [RoomFor]
    cases scored with
    | true =>
        simp only [if_true, hheader]
        omega
    | false =>
        have hempty : (packArrayHeader 0).length = 1 := rfl
        simp only [Bool.false_eq_true, if_false, hheader, hempty]
        omega

/-! ### Replies that the client takes -/

/-- The client takes a reply: its header holds a length within bounds, and its body
decodes to what was sent. -/
def Taken (mp : Unpacker) (reply : Message) : Prop :=
  1 ≤ (encodeBody reply).length ∧ (encodeBody reply).length ≤ kMaxFrameBodyBytes ∧
    readFrameLength (frameOf reply) = some (UInt32.ofNat (encodeBody reply).length) ∧
    decodeBody mp (encodeBody reply) = some reply

theorem taken_iff (mp : Unpacker) (reply : Message) :
    Taken mp reply ↔ (encodeBody reply).length ≤ kMaxFrameBodyBytes := by
  refine ⟨fun h => h.2.1, fun h => ?_⟩
  have hpos := encodeBody_ne_nil reply
  exact ⟨by omega, h, (readFrameLength_encodeBody h).2,
    (decodeBody_encoded mp reply).trans (if_pos h)⟩

/-- The server has a reply to a rerank request, and the client takes it. -/
def Replied (mp : Unpacker) (reranker : RerankService) (now : Moment) (st : ServerState)
    (req : RerankRequest) : Prop :=
  ∃ reply, (dispatch reranker now st (.rerankRequest req)).2 = some reply ∧ Taken mp reply

theorem length_candidates_le_body (req : RerankRequest) :
    (req.candidates.flatMap packStr).length ≤ (encodeBody (.rerankRequest req)).length := by
  rw [encodeBody, encodeRerankRequest]
  simp only [List.flatten_cons, List.flatten_nil, List.length_append, packVector]
  omega

theorem length_le_body (req : RerankRequest) :
    req.candidates.length ≤ (encodeBody (.rerankRequest req)).length := by
  have hstr : ∀ s : Bytes, 1 ≤ (packStr s).length := by
    intro s
    rw [← pack_str]
    exact pack_length_pos _
  refine Nat.le_trans ?_ (length_candidates_le_body req)
  induction req.candidates with
  | nil => exact Nat.zero_le _
  | cons s cands ih =>
      have hs := hstr s
      rw [List.flatMap_cons, List.length_append, List.length_cons]
      omega

section Backends

variable {mp : Unpacker} {now : Moment} {st : ServerState} {req : RerankRequest}

theorem replied_iff {reranker : RerankService} {scored : Bool}
    (hreq : (encodeBody (.rerankRequest req)).length ≤ kMaxFrameBodyBytes)
    (horder : (reranker.rerank req now.latencyUs).reorderedIndices.Perm
      (indices req.candidates.length))
    (hscores : (reranker.rerank req now.latencyUs).scores.length =
      if scored then req.candidates.length else 0)
    (hversion : (reranker.rerank req now.latencyUs).modelVersion < 128)
    (hlatency : (reranker.rerank req now.latencyUs).latencyUs = now.latencyUs) :
    Replied mp reranker now st req ↔
      RoomFor scored req.candidates.length req.requestId now.latencyUs := by
  have hn : req.candidates.length ≤ 2 ^ 20 := Nat.le_trans (length_le_body req) hreq
  have hroom := encodeBody_reply_le_iff hn horder hscores hversion
  rw [hlatency, reranker.rerank_requestId] at hroom
  rw [← hroom, ← taken_iff mp]
  constructor
  · intro h
    obtain ⟨reply, hreply, htaken⟩ := h
    rwa [← Option.some.inj hreply] at htaken
  · intro h
    exact ⟨_, rfl, h⟩

/-- A request without candidates gets a short reply. -/
theorem replied_of_none {reranker : RerankService} {version : UInt8} (hversion : version < 128)
    (h : reranker.rerank req now.latencyUs =
      { requestId := req.requestId, modelVersion := version })
    (hnone : req.candidates = []) (scored : Bool) :
    Replied mp reranker now st req ↔
      RoomFor scored req.candidates.length req.requestId now.latencyUs := by
  have hroom : ∀ latencyUs, RoomFor scored req.candidates.length req.requestId latencyUs :=
    roomFor_of_le scored (by simp [hnone]) _
  refine iff_of_true ⟨_, rfl, (taken_iff mp _).mpr ?_⟩ (hroom _)
  rw [h]
  exact (encodeBody_reply_le_iff (n := 0) (Nat.zero_le _) (.refl _) (by simp) hversion).mpr
    (roomFor_of_le false (Nat.zero_le _) _ 0)

theorem sortByScore_perm (greater : UInt32 → UInt32 → Bool) (scored : List (UInt32 × Int32)) :
    (sortByScore greater scored).Perm scored :=
  List.mergeSort_perm _ _

theorem scoredResponse_perm (greater : UInt32 → UInt32 → Bool) (version : UInt8)
    (score : Bytes → UInt32) (latencyUs : UInt32) :
    (scoredResponse greater version score req latencyUs).reorderedIndices.Perm
      (indices req.candidates.length) := by
  refine ((sortByScore_perm greater _).map Prod.snd).trans ?_
  rw [List.map_snd_zip (by simp [indices])]

theorem scoredResponse_scores (greater : UInt32 → UInt32 → Bool) (version : UInt8)
    (score : Bytes → UInt32) (latencyUs : UInt32) :
    (scoredResponse greater version score req latencyUs).scores.length = req.candidates.length := by
  rw [scoredResponse, List.length_map, (sortByScore_perm greater _).length_eq]
  simp [indices]

/-- **Replies within the cap.** The client takes the reply to a request exactly where
there is room for it: with scores for some 117,998 candidates, without for 235,997. -/
theorem replied_iff_roomFor (mp : Unpacker) (now : Moment) (st : ServerState)
    (hreq : (encodeBody (.rerankRequest req)).length ≤ kMaxFrameBodyBytes) :
    (Replied mp mockReverse now st req ↔
      RoomFor false req.candidates.length req.requestId now.latencyUs) ∧
    (∀ greater scoreCandidate, Replied mp (deterministic greater scoreCandidate) now st req ↔
      RoomFor true req.candidates.length req.requestId now.latencyUs) ∧
    ∀ greater scorer, Replied mp (llamaCpp greater scorer) now st req ↔
      RoomFor (scorer req).isSome req.candidates.length req.requestId now.latencyUs := by
  refine ⟨?_, fun greater scoreCandidate => ?_, fun greater scorer => ?_⟩
  · exact replied_iff hreq (List.reverse_perm _) rfl (show (0 : UInt8) < 128 by decide) rfl
  · by_cases hnone : req.candidates = []
    · exact replied_of_none (by decide) (if_pos hnone) hnone true
    · have hresp : (deterministic greater scoreCandidate).rerank req now.latencyUs = _ :=
        if_neg hnone
      refine replied_iff hreq ?_ ?_ ?_ ?_ <;> rw [hresp]
      · exact scoredResponse_perm greater _ _ _
      · exact scoredResponse_scores greater _ _ _
      · show (1 : UInt8) < 128
        decide
      · rfl
  · by_cases hnone : req.candidates = []
    · exact replied_of_none (by decide) (if_pos hnone) hnone _
    · cases hscorer : scorer req with
      | none =>
          have hresp : (llamaCpp greater scorer).rerank req now.latencyUs =
              { requestId := req.requestId
                reorderedIndices := indices req.candidates.length
                latencyUs := now.latencyUs
                modelVersion := 3 } := by
            simp only [llamaCpp, if_neg hnone, hscorer]
          refine replied_iff hreq ?_ ?_ ?_ ?_ <;> rw [hresp]
          · rfl
          · show (3 : UInt8) < 128
            decide
      | some score =>
          have hresp : (llamaCpp greater scorer).rerank req now.latencyUs =
              scoredResponse greater 3 score req now.latencyUs := by
            simp only [llamaCpp, if_neg hnone, hscorer]
          refine replied_iff hreq ?_ ?_ ?_ ?_ <;> rw [hresp]
          · exact scoredResponse_perm greater _ _ _
          · exact scoredResponse_scores greater _ _ _
          · show (3 : UInt8) < 128
            decide
          · rfl

end Backends

/-- A request with `n` empty candidates. -/
def emptyCandidates (n : Nat) : RerankRequest where
  candidates := List.replicate n []

theorem length_emptyCandidates (n : Nat) :
    (encodeBody (.rerankRequest (emptyCandidates n))).length ≤ n + 64 := by
  have hfixed : (packMapHeader 7 ++ packHeader .rerankRequest ++ packKey kKeyId ++ packUInt 0 ++
      packKey kKeyCode ++ packStr [] ++ packKey kKeyContext ++ packStr [] ++
      packKey kKeyCandidates ++ packKey kKeyAppId ++ packStr []).length ≤ 59 := by decide
  have hcands : (packVector packStr (List.replicate n [])).length ≤ 5 + n := by
    rw [length_packVector, List.map_replicate, List.sum_replicate_nat, packArrayHeader_length,
      show (packStr []).length = 1 from rfl]
    split_ifs <;> omega
  simp only [List.length_append] at hfixed
  simp only [encodeBody, encodeRerankRequest, emptyCandidates, List.flatten_cons, List.flatten_nil,
    List.length_append, List.length_nil]
  show _ + (_ + (_ + ((packUInt 0).length + _))) ≤ _
  omega

/-- A request with a few short candidates. -/
theorem replied_iff_roomFor_few :
    Replied .reference mockReverse { latencyUs := 3, uptimeSec := 0 } {} (emptyCandidates 2) :=
  (replied_iff_roomFor .reference _ {} (by
    have hlen := length_emptyCandidates 2
    rw [kMaxFrameBodyBytes]
    omega)).1.mpr (by unfold RoomFor; decide)

/-- The reply to a request with 300,000 empty candidates, itself a third of the cap, is
too long. -/
theorem reply_too_long : ¬ ∀ (mp : Unpacker) (reranker : RerankService) (now : Moment)
    (st : ServerState) (req : RerankRequest),
    (reranker = mockReverse ∨ (∃ greater score, reranker = deterministic greater score) ∨
      ∃ greater scorer, reranker = llamaCpp greater scorer) →
    (encodeBody (.rerankRequest req)).length ≤ kMaxFrameBodyBytes →
      Replied mp reranker now st req := by
  intro hall
  obtain ⟨n, hn⟩ : ∃ n, n = 300000 := ⟨_, rfl⟩
  have hlen := length_emptyCandidates n
  have hcap : (encodeBody (.rerankRequest (emptyCandidates n))).length ≤ kMaxFrameBodyBytes := by
    rw [kMaxFrameBodyBytes]
    omega
  have hreplied :=
    hall .reference mockReverse { latencyUs := 0, uptimeSec := 0 } {} _ (.inl rfl) hcap
  have hroom := (replied_iff hcap (List.reverse_perm _) (Eq.symm (if_neg Bool.false_ne_true))
    (show (0 : UInt8) < 128 by decide) rfl).mp hreplied
  rw [RoomFor, if_neg Bool.false_ne_true, emptyCandidates, List.length_replicate] at hroom
  omega

end Dafeng.Daemon
