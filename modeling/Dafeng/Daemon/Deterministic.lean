import Mathlib.Data.List.TakeWhile
import Dafeng.Daemon.Rankings
import Dafeng.Daemon.ReplySize
import Dafeng.Library.Utf8

/-!
# Dafeng.Daemon.Deterministic

The scores of the deterministic backend (`reranker_deterministic.cc`), in tenths: a
penalty for a repeated character, a bonus for a known follower, half a point a byte
and a tie-breaker.
-/

namespace Dafeng.Daemon

open Dafeng.Msgpack Dafeng.Protocol Dafeng.Utf8

/-! ### Scoring -/

/-- `Bigram`. Either side is a literal of one character. -/
structure Bigram where
  prev : Char
  favor : Char
  deriving DecidableEq, Repr

def kBigrams : List Bigram := [
  ⟨'今', '天'⟩, ⟨'今', '日'⟩, ⟨'今', '年'⟩,
  ⟨'明', '天'⟩, ⟨'明', '年'⟩, ⟨'明', '白'⟩,
  ⟨'昨', '天'⟩, ⟨'前', '天'⟩, ⟨'后', '天'⟩,
  ⟨'天', '气'⟩, ⟨'天', '上'⟩, ⟨'天', '空'⟩,
  ⟨'我', '们'⟩, ⟨'我', '的'⟩, ⟨'我', '是'⟩,
  ⟨'你', '们'⟩, ⟨'你', '的'⟩, ⟨'你', '是'⟩, ⟨'你', '好'⟩,
  ⟨'他', '们'⟩, ⟨'她', '们'⟩, ⟨'它', '们'⟩,
  ⟨'中', '国'⟩, ⟨'中', '文'⟩, ⟨'中', '间'⟩,
  ⟨'一', '个'⟩, ⟨'一', '些'⟩, ⟨'一', '样'⟩, ⟨'一', '直'⟩,
  ⟨'是', '的'⟩, ⟨'的', '是'⟩, ⟨'的', '话'⟩,
  ⟨'这', '个'⟩, ⟨'这', '是'⟩, ⟨'这', '些'⟩, ⟨'这', '样'⟩,
  ⟨'那', '个'⟩, ⟨'那', '是'⟩, ⟨'那', '些'⟩, ⟨'那', '样'⟩,
  ⟨'什', '么'⟩, ⟨'怎', '么'⟩, ⟨'为', '什'⟩,
  ⟨'工', '作'⟩, ⟨'学', '习'⟩, ⟨'时', '候'⟩,
  ⟨'问', '题'⟩, ⟨'地', '方'⟩, ⟨'东', '西'⟩,
  ⟨'开', '始'⟩, ⟨'结', '束'⟩, ⟨'知', '道'⟩]

/-- `FnvHash`, FNV-1a of 32 bits. -/
def fnvHash (s : Bytes) : UInt32 :=
  s.foldl (fun h c => (h ^^^ c.toUInt32) * 0x01000193) 0x811C9DC5

/-- The loop of `LastUtf8Char`: where it stops, from `i`. -/
def scanBack (s : Bytes) : Nat → Nat
  | 0 => 0
  | i + 1 => if 0 < i ∧ s.getD i 0 &&& 0xC0 = 0x80 then scanBack s i else i

/-- `LastUtf8Char`. -/
def lastUtf8Char (s : Bytes) : Bytes :=
  if s = [] then [] else s.drop (scanBack s s.length)

/-- `std::strlen` of the C string in a buffer. -/
def strlen (s : Bytes) : Nat := (s.takeWhile (· != 0)).length

/-- `StartsWith`; `pre` is a C string. -/
def startsWith (s pre : Bytes) : Bool :=
  let plen := strlen pre
  decide (plen ≤ s.length) && s.take plen == pre.take plen

/-- `ScoreCandidate`, in tenths. -/
def scoreCandidate (cand lastChar fullCtx : Bytes) : Int :=
  let score := 0
  -- Avoid immediate single-char repetition.
  let score :=
    if cand ≠ [] ∧ lastChar ≠ [] ∧ startsWith cand lastChar then score - 50 else score
  -- Bigram bonus, at most once.
  let score :=
    if lastChar ≠ [] ∧ kBigrams.any fun e =>
        lastChar == encodeChar e.prev && startsWith cand (encodeChar e.favor)
    then score + 100
    else score
  -- Mild preference for longer phrases; the size is cast to `int`.
  let score := score + 5 * min (Int32.ofNat cand.length).toInt 12
  -- Tie-breaker.
  score + (fnvHash (cand ++ fullCtx) % 7).toNat

/-- Score representations that are exact: between the bounds of the scores they compare
as the decimals they stand for. -/
structure Decimals where
  ofTenths : Int → UInt32
  greater : UInt32 → UInt32 → Bool
  greater_ofTenths : ∀ a b, -50 ≤ a → a ≤ 166 → -50 ≤ b → b ≤ 166 →
    greater (ofTenths a) (ofTenths b) = decide (b < a)

/-- `DeterministicReranker` with exact scores. -/
def Decimals.service (fmt : Decimals) : RerankService :=
  deterministic fmt.greater fun cand ctx =>
    fmt.ofTenths (scoreCandidate cand (lastUtf8Char ctx) ctx)

/-! ### The last character -/

/-- The scan goes back over continuation bytes to the byte before them. -/
theorem scanBack_conts {front conts : Bytes} {b : UInt8} (hb : ¬ IsContinuation b)
    (hconts : ∀ x ∈ conts, IsContinuation x) {k : Nat} (hk : k ≤ conts.length) :
    scanBack (front ++ b :: conts) (front.length + k + 1) = front.length := by
  induction k with
  | zero =>
      have hget : (front ++ b :: conts).getD front.length 0 = b := by simp
      rw [Nat.add_zero, scanBack, if_neg]
      intro h
      obtain ⟨-, hmask⟩ := h
      rw [hget] at hmask
      exact hb ((and_mask_eq_iff b).mp hmask)
  | succ k ih =>
      have hget : (front ++ b :: conts).getD (front.length + (k + 1)) 0 = conts[k] := by
        simp [show k < conts.length by omega]
      have hmask : (front ++ b :: conts).getD (front.length + (k + 1)) 0 &&& 0xC0 = 0x80 := by
        rw [hget]
        exact (and_mask_eq_iff _).mpr (hconts _ (List.getElem_mem _))
      rw [scanBack, if_pos ⟨by omega, hmask⟩]
      exact ih (by omega)

/-- Whatever stands before it, the last character is found. -/
theorem lastUtf8Char_append (front : Bytes) (c : Char) :
    lastUtf8Char (front ++ encodeChar c) = encodeChar c := by
  obtain ⟨b, conts, hc, hlen, hconts⟩ := encodeChar_shape c
  have hb : ¬ IsContinuation b := not_isContinuation (by omega)
  have hstop : scanBack (front ++ b :: conts) (front.length + conts.length + 1) = front.length :=
    scanBack_conts hb hconts (Nat.le_refl _)
  rw [hc, lastUtf8Char, if_neg (by simp), List.length_append, List.length_cons, ← Nat.add_assoc,
    hstop, List.drop_left]

/-! ### Prefixes -/

theorem strlen_encodeChar {c : Char} (h : c ≠ '\x00') :
    strlen (encodeChar c) = (encodeChar c).length := by
  have hall : ∀ b ∈ encodeChar c, (b != 0) = true := by
    intro b hb
    simp only [bne_iff_ne]
    rintro rfl
    exact zero_notMem_encodeChar h hb
  rw [strlen, List.takeWhile_eq_self_iff.mpr hall]

/-- For a character other than NUL `StartsWith` is what it says. -/
theorem startsWith_encodeChar {c : Char} (h : c ≠ '\x00') (s : Bytes) :
    startsWith s (encodeChar c) = true ↔ encodeChar c <+: s := by
  simp only [startsWith, strlen_encodeChar h, List.take_length, Bool.and_eq_true,
    decide_eq_true_eq, beq_iff_eq, List.prefix_iff_eq_take]
  constructor
  · intro ⟨_, heq⟩
    exact heq.symm
  · intro heq
    refine ⟨?_, heq.symm⟩
    rw [heq]
    exact List.length_take_le' _ _

/-! ### Bounds -/

/-- `cand` repeats the last character, as `ScoreCandidate` sees it. -/
def Repeats (lastChar cand : Bytes) : Prop :=
  cand ≠ [] ∧ lastChar ≠ [] ∧ startsWith cand lastChar = true

/-- `cand` starts with a known follower of the last character. -/
def Follows (lastChar cand : Bytes) : Prop :=
  ∃ e ∈ kBigrams, lastChar = encodeChar e.prev ∧ encodeChar e.favor <+: cand

instance (lastChar cand : Bytes) : Decidable (Repeats lastChar cand) :=
  inferInstanceAs (Decidable (_ ∧ _ ∧ _))

instance (lastChar cand : Bytes) : Decidable (Follows lastChar cand) :=
  inferInstanceAs (Decidable (∃ e ∈ kBigrams, _))

/-- No entry has equal sides, and none has a NUL. -/
theorem kBigrams_sides : ∀ e ∈ kBigrams, e.prev ≠ e.favor ∧ e.prev ≠ '\x00' ∧ e.favor ≠ '\x00' := by
  decide

theorem repeats_encodeChar {c : Char} (h : c ≠ '\x00') (cand : Bytes) :
    Repeats (encodeChar c) cand ↔ encodeChar c <+: cand := by
  rw [Repeats, startsWith_encodeChar h]
  constructor
  · intro ⟨_, _, hpre⟩
    exact hpre
  · intro hpre
    refine ⟨?_, encodeChar_ne_nil c, hpre⟩
    rintro rfl
    exact encodeChar_ne_nil c (List.prefix_nil.mp hpre)

/-- The penalty and the bonus never meet. -/
theorem Follows.not_repeats {lastChar cand : Bytes} (h : Follows lastChar cand) :
    ¬ Repeats lastChar cand := by
  obtain ⟨e, he, rfl, hfavor⟩ := h
  obtain ⟨hne, hprev, -⟩ := kBigrams_sides e he
  rw [repeats_encodeChar hprev]
  intro hrepeat
  exact hne (encodeChar_prefix_inj hrepeat hfavor)

theorem follows_iff {lastChar cand : Bytes} :
    (lastChar ≠ [] ∧ kBigrams.any fun e =>
      lastChar == encodeChar e.prev && startsWith cand (encodeChar e.favor)) ↔
    Follows lastChar cand := by
  simp only [List.any_eq_true, Bool.and_eq_true, beq_iff_eq, Follows]
  constructor
  · intro ⟨_, e, he, hlast, hfavor⟩
    exact ⟨e, he, hlast, (startsWith_encodeChar (kBigrams_sides e he).2.2 cand).mp hfavor⟩
  · intro ⟨e, he, hlast, hfavor⟩
    refine ⟨?_, e, he, hlast, (startsWith_encodeChar (kBigrams_sides e he).2.2 cand).mpr hfavor⟩
    rw [hlast]
    exact encodeChar_ne_nil e.prev

/-- The terms of a score. -/
theorem scoreCandidate_eq {cand : Bytes} (hsize : cand.length < 2 ^ 31) (lastChar ctx : Bytes) :
    ∃ tie : Int, 0 ≤ tie ∧ tie ≤ 6 ∧ scoreCandidate cand lastChar ctx =
      (if Repeats lastChar cand then -50 else 0) + (if Follows lastChar cand then 100 else 0) +
        5 * min (cand.length : Int) 12 + tie := by
  have hint : (Int32.ofNat cand.length).toInt = cand.length := Int32.toInt_ofNat_of_lt hsize
  have htie : (fnvHash (cand ++ ctx) % 7).toNat < 7 := by
    rw [UInt32.toNat_mod]
    exact Nat.mod_lt _ (by decide)
  refine ⟨(fnvHash (cand ++ ctx) % 7).toNat, by omega, by omega, ?_⟩
  unfold scoreCandidate
  dsimp only
  simp only [follows_iff, hint]
  have hrepeats : (cand ≠ [] ∧ lastChar ≠ [] ∧ startsWith cand lastChar = true) =
      Repeats lastChar cand := rfl
  simp only [hrepeats]
  split_ifs <;> omega

theorem scoreCandidate_bounds {cand : Bytes} (hsize : cand.length < 2 ^ 31) (lastChar ctx : Bytes) :
    -50 ≤ scoreCandidate cand lastChar ctx ∧ scoreCandidate cand lastChar ctx ≤ 166 := by
  obtain ⟨tie, hlo, hhi, heq⟩ := scoreCandidate_eq hsize lastChar ctx
  rw [heq]
  split_ifs <;> omega

/-- A follower scores more than any other candidate. -/
theorem Follows.lt {lastChar a b : Bytes} (ha : Follows lastChar a) (hb : ¬ Follows lastChar b)
    (hsizeA : a.length < 2 ^ 31) (hsizeB : b.length < 2 ^ 31) (ctx : Bytes) :
    scoreCandidate b lastChar ctx < scoreCandidate a lastChar ctx := by
  obtain ⟨tieA, hloA, -, heqA⟩ := scoreCandidate_eq hsizeA lastChar ctx
  obtain ⟨tieB, -, hhiB, heqB⟩ := scoreCandidate_eq hsizeB lastChar ctx
  rw [if_neg ha.not_repeats, if_pos ha] at heqA
  rw [if_neg hb] at heqB
  split_ifs at heqB <;> omega

/-- A repetition scores less than any other candidate that counts as long. -/
theorem Repeats.lt {lastChar a b : Bytes} (ha : Repeats lastChar a) (hb : ¬ Repeats lastChar b)
    (hle : min a.length 12 ≤ min b.length 12) (hsizeA : a.length < 2 ^ 31)
    (hsizeB : b.length < 2 ^ 31) (ctx : Bytes) :
    scoreCandidate a lastChar ctx < scoreCandidate b lastChar ctx := by
  obtain ⟨tieA, -, hhiA, heqA⟩ := scoreCandidate_eq hsizeA lastChar ctx
  obtain ⟨tieB, hloB, -, heqB⟩ := scoreCandidate_eq hsizeB lastChar ctx
  have hnot : ¬ Follows lastChar a := fun hfollows => hfollows.not_repeats ha
  rw [if_pos ha, if_neg hnot] at heqA
  rw [if_neg hb] at heqB
  split_ifs at heqB <;> omega

/-! ### The order -/

/-- The service answers with the positions in the order of the scores. -/
theorem Decimals.service_ranks (fmt : Decimals) {req : RerankRequest}
    (hsize : ∀ cand ∈ req.candidates, cand.length < 2 ^ 31) (latencyUs : UInt32) :
    ∃ order,
      Ranks req.candidates.length (fun i j =>
        scoreCandidate (req.candidates.getD j []) (lastUtf8Char req.contextBefore)
            req.contextBefore <
          scoreCandidate (req.candidates.getD i []) (lastUtf8Char req.contextBefore)
            req.contextBefore) order ∧
      (fmt.service.rerank req latencyUs).reorderedIndices = order.map Int32.ofNat := by
  set score : Bytes → Int := fun cand =>
    scoreCandidate cand (lastUtf8Char req.contextBefore) req.contextBefore
  have hkey : ∀ a ∈ req.candidates, ∀ b ∈ req.candidates,
      fmt.greater (fmt.ofTenths (score a)) (fmt.ofTenths (score b)) =
        decide (score b < score a) := by
    intro a ha b hb
    obtain ⟨hloA, hhiA⟩ := scoreCandidate_bounds (hsize a ha) (lastUtf8Char req.contextBefore) _
    obtain ⟨hloB, hhiB⟩ := scoreCandidate_bounds (hsize b hb) (lastUtf8Char req.contextBefore) _
    exact fmt.greater_ofTenths _ _ hloA hhiA hloB hhiB
  obtain ⟨order, hranks, hsort⟩ := sortByScore_ranks hkey
  refine ⟨order, hranks, ?_⟩
  unfold Decimals.service deterministic
  dsimp only
  split_ifs with hnil
  · have hperm := hranks.perm
    rw [hnil] at hperm
    rw [hperm.eq_nil]
    rfl
  · rw [scoredResponse]
    simp only [score] at hsort
    rw [hsort, List.map_map]
    rfl

/-- A request that fits into a frame has only candidates whose sizes the cast keeps. -/
theorem length_lt_of_sent {req : RerankRequest}
    (hsent : (encodeBody (.rerankRequest req)).length ≤ kMaxFrameBodyBytes) :
    ∀ cand ∈ req.candidates, cand.length < 2 ^ 31 := by
  intro cand hcand
  have hstr : cand.length ≤ (packStr cand).length := by
    rw [packStr, List.length_append]
    exact Nat.le_add_left _ _
  have hall : (packStr cand).length ≤ (req.candidates.flatMap packStr).length := by
    obtain ⟨before, after, heq⟩ := List.append_of_mem hcand
    rw [heq, List.flatMap_append, List.flatMap_cons]
    simp only [List.length_append]
    omega
  have hbody := length_candidates_le_body req
  rw [kMaxFrameBodyBytes] at hsent
  omega

/-- **Priorities.** Followers of the context's last character come before all other
candidates; a candidate that repeats the character comes after every other one that
counts as long. The last character is found behind any bytes. -/
theorem followers_first_repeats_last (fmt : Decimals) (req : RerankRequest) (latencyUs : UInt32)
    (hsize : ∀ cand ∈ req.candidates, cand.length < 2 ^ 31) :
    (∃ order : List Nat, order.Perm (List.range req.candidates.length) ∧
      (fmt.service.rerank req latencyUs).reorderedIndices = order.map Int32.ofNat ∧
      (∀ i j a b, req.candidates[i]? = some a → req.candidates[j]? = some b →
        Follows (lastUtf8Char req.contextBefore) a →
        ¬ Follows (lastUtf8Char req.contextBefore) b → [i, j].Sublist order) ∧
      ∀ i j a b, req.candidates[i]? = some a → req.candidates[j]? = some b →
        Repeats (lastUtf8Char req.contextBefore) a →
        ¬ Repeats (lastUtf8Char req.contextBefore) b →
        min a.length 12 ≤ min b.length 12 → [j, i].Sublist order) ∧
    (∀ front c, c ≠ '\x00' → lastUtf8Char (front ++ encodeChar c) = encodeChar c ∧
      ∀ cand, Repeats (encodeChar c) cand ↔ encodeChar c <+: cand) ∧
    lastUtf8Char [] = [] := by
  obtain ⟨order, hranks, horder⟩ := fmt.service_ranks hsize latencyUs
  -- a greater score comes earlier
  have hbefore : ∀ i j a b, req.candidates[i]? = some a → req.candidates[j]? = some b →
      scoreCandidate b (lastUtf8Char req.contextBefore) req.contextBefore <
        scoreCandidate a (lastUtf8Char req.contextBefore) req.contextBefore →
      [i, j].Sublist order := by
    intro i j a b hi hj hlt
    obtain ⟨hi', -⟩ := List.getElem?_eq_some_iff.mp hi
    obtain ⟨hj', -⟩ := List.getElem?_eq_some_iff.mp hj
    have hgetI : req.candidates.getD i [] = a := by simp [hi]
    have hgetJ : req.candidates.getD j [] = b := by simp [hj]
    exact hranks.before hi' hj' (by rw [hgetI, hgetJ]; exact hlt)
  refine ⟨⟨order, hranks.perm, horder, ?_, ?_⟩, ?_, rfl⟩
  · intro i j a b hi hj ha hb
    exact hbefore i j a b hi hj (ha.lt hb (hsize a (List.mem_of_getElem? hi))
      (hsize b (List.mem_of_getElem? hj)) _)
  · intro i j a b hi hj ha hb hle
    exact hbefore j i b a hj hi (ha.lt hb hle (hsize a (List.mem_of_getElem? hi))
      (hsize b (List.mem_of_getElem? hj)) _)
  · intro front c hc
    exact ⟨lastUtf8Char_append front c, repeats_encodeChar hc⟩

/-- Tenths counted from the least score. -/
def Decimals.counted : Decimals where
  ofTenths t := UInt32.ofNat (t + 50).toNat
  greater a b := decide (b < a)
  greater_ofTenths a b ha ha' hb hb' := by
    have hval : ∀ t : Int, -50 ≤ t → t ≤ 166 →
        (UInt32.ofNat (t + 50).toNat).toNat = (t + 50).toNat := by
      intro t hlo hhi
      exact UInt32.toNat_ofNat_of_lt' (show (t + 50).toNat < 4294967296 by omega)
    rw [decide_eq_decide, UInt32.lt_iff_toNat_lt, hval a ha ha', hval b hb hb']
    omega

theorem followers_first_repeats_last_few :
    ∃ order : List Nat, order.Perm (List.range 3) ∧
      (Decimals.counted.service.rerank
        { contextBefore := encodeText ['今']
          candidates := [encodeText ['今'], encodeText ['工'], encodeText ['天', '气']] }
        0).reorderedIndices = order.map Int32.ofNat ∧
      [2, 1].Sublist order ∧ [1, 0].Sublist order := by
  obtain ⟨⟨order, hperm, horder, hfollows, hrepeats⟩, -⟩ :=
    followers_first_repeats_last Decimals.counted
      { contextBefore := encodeText ['今']
        candidates := [encodeText ['今'], encodeText ['工'], encodeText ['天', '气']] } 0
      (by decide)
  exact ⟨order, hperm, horder, hfollows 2 1 _ _ rfl rfl (by decide) (by decide),
    hrepeats 0 1 _ _ rfl rfl (by decide) (by decide) (by decide)⟩

end Dafeng.Daemon
