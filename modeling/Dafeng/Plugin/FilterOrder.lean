import Mathlib.Data.List.Perm.Subperm
import Dafeng.Plugin.Filter

/-!
# Dafeng.Plugin.FilterOrder

Which candidates `func` yields. A reply that lists an index of the rerank block
twice makes the filter yield that candidate twice, and a `max_rerank` whose sum
with `protect_n` leaves the 64 bits of a Lua integer makes the loop over the tail
start below the first candidate. Every other reply, and every failure of the
call, gives a permutation that leaves the protected prefix and the tail in place.
-/

namespace Dafeng.Plugin

/-! ### Index ranges -/

theorem mem_luaRange {a b i : Int} : i ∈ luaRange a b ↔ a ≤ i ∧ i ≤ b := by
  rw [luaRange, Int.mem_range_iff]
  omega

theorem luaRange_length (a b : Int) : (luaRange a b).length = (b + 1 - a).toNat := by
  simp [luaRange, Int.range]

theorem luaRange_getElem {a b : Int} {i : Nat} (h : i < (luaRange a b).length) :
    (luaRange a b)[i] = a + i := by
  simp [luaRange, Int.range]

theorem luaRange_nodup (a b : Int) : (luaRange a b).Nodup := by
  unfold luaRange Int.range
  refine List.Nodup.map ?_ List.nodup_range
  intro x y h
  exact Int.ofNat.inj (Int.add_left_cancel h)

/-- A range splits at any point between its ends. -/
theorem luaRange_append {a b c : Int} (hab : a ≤ b + 1) (hbc : b ≤ c) :
    luaRange a b ++ luaRange (b + 1) c = luaRange a c := by
  apply List.ext_getElem
  · simp only [List.length_append, luaRange_length]
    omega
  · intro i h₁ h₂
    rw [List.getElem_append]
    split
    · rw [luaRange_getElem, luaRange_getElem]
    · rename_i hi
      rw [luaRange_length] at hi
      rw [luaRange_getElem, luaRange_getElem, luaRange_length]
      omega

theorem luaRange_three {p e n : Int} (hp : 0 ≤ p) (hpe : p ≤ e) (hen : e ≤ n) :
    luaRange 1 p ++ luaRange (p + 1) e ++ luaRange (e + 1) n = luaRange 1 n := by
  rw [luaRange_append (by omega) hpe, luaRange_append (by omega) hen]

/-! ### Changing the middle of a list -/

section Middle

variable {α : Type} {pre block mid tail : List α} {i : Nat}

theorem getElem?_head_of_middle (block mid : List α) (h : i < pre.length) :
    (pre ++ block ++ tail)[i]? = (pre ++ mid ++ tail)[i]? := by
  rw [List.append_assoc, List.append_assoc, List.getElem?_append_left h,
    List.getElem?_append_left h]

theorem getElem?_tail_of_middle (hlen : block.length = mid.length)
    (h : pre.length + mid.length ≤ i) :
    (pre ++ block ++ tail)[i]? = (pre ++ mid ++ tail)[i]? := by
  rw [List.getElem?_append_right, List.getElem?_append_right] <;>
    simp only [List.length_append, hlen]
  · exact h
  · exact h

end Middle

/-! ### The two loops over the block -/

theorem luaWrap_eq {i : Int} (h : -2 ^ 63 ≤ i) (hlt : i < 2 ^ 63) : luaWrap i = i :=
  Int.bmod_eq_of_le (by omega) (by omega)

theorem luaWrap_lt (i : Int) : luaWrap i < 2 ^ 63 :=
  Int.bmod_lt (x := i) (m := 2 ^ 64) (by decide)

/-- A sum that is too large wraps below the smaller of its terms. -/
theorem luaWrap_add_lt {p : Int} (k : Int64) (hp : 0 ≤ p) (h : 2 ^ 63 ≤ p + k.toInt) :
    luaWrap (p + k.toInt) < p := by
  have hk := k.toInt_lt
  have hwrap := Int.bmod_def (p + k.toInt) (2 ^ 64)
  unfold luaWrap
  split at hwrap <;> omega

/-- The positions the first loop emits, in the order of the reply. -/
def emittedOrder (protectN rerankStart rerankEnd : Int) (indices : List Int64) : List Int :=
  (indices.map fun luaSubIdx => luaWrap (luaSubIdx.toInt + protectN)).filter
    (fun actual => decide (rerankStart ≤ actual ∧ actual ≤ rerankEnd))

theorem foldl_emitStep (p a b : Int) (indices : List Int64) (out emitted : List Int) :
    indices.foldl (emitStep p a b) (out, emitted) =
      (out ++ emittedOrder p a b indices, (emittedOrder p a b indices).reverse ++ emitted) := by
  induction indices generalizing out emitted with
  | nil => simp [emittedOrder]
  | cons k ks ih =>
      rw [List.foldl_cons, emitStep]
      by_cases hk : a ≤ luaWrap (k.toInt + p) ∧ luaWrap (k.toInt + p) ≤ b
      · simp only [hk, and_self, if_true, ih]
        simp [emittedOrder, hk]
      · simp only [hk, if_false, ih]
        simp [emittedOrder, hk]

theorem foldl_repairStep (emitted range out : List Int) :
    range.foldl (repairStep emitted) out = out ++ range.filter (fun i => i ∉ emitted) := by
  induction range generalizing out with
  | nil => simp
  | cons i is ih =>
      rw [List.foldl_cons, ih, repairStep]
      by_cases hi : i ∈ emitted <;> simp [hi]

/-- What both loops leave for the block: the reply's own order, then every
position the reply dropped. -/
def blockOrder (p a b : Int) (indices : List Int64) : List Int :=
  emittedOrder p a b indices ++
    (luaRange a b).filter (fun i => i ∉ emittedOrder p a b indices)

theorem mem_emittedOrder {p a b i : Int} {indices : List Int64}
    (h : i ∈ emittedOrder p a b indices) : i ∈ luaRange a b := by
  rw [mem_luaRange]
  simpa using (List.mem_filter.mp h).2

theorem luaRange_subset_blockOrder (p a b : Int) (indices : List Int64) :
    luaRange a b ⊆ blockOrder p a b indices := by
  intro i hi
  by_cases hmem : i ∈ emittedOrder p a b indices
  · exact List.mem_append_left _ hmem
  · exact List.mem_append_right _ (List.mem_filter.mpr ⟨hi, by simpa using hmem⟩)

/-- The block is a permutation of its range exactly when the reply lists no
position of the block twice. -/
theorem blockOrder_perm_iff {p a b : Int} {indices : List Int64} :
    (blockOrder p a b indices).Perm (luaRange a b) ↔ (emittedOrder p a b indices).Nodup := by
  constructor
  · intro h
    exact (h.nodup_iff.mpr (luaRange_nodup a b)).of_append_left
  · intro h
    refine (List.perm_ext_iff_of_nodup ?_ (luaRange_nodup a b)).mpr ?_
    · refine List.Nodup.append h ((luaRange_nodup a b).filter _) ?_
      intro i hi hi'
      simpa [hi] using (List.mem_filter.mp hi').2
    · intro i
      refine ⟨fun hi => ?_, fun hi => luaRange_subset_blockOrder p a b indices hi⟩
      rcases List.mem_append.mp hi with hi | hi
      · exact mem_emittedOrder hi
      · exact (List.mem_filter.mp hi).1

/-- A block as long as its range is a permutation of it: the range is covered,
so there is no room for a repetition. -/
theorem blockOrder_perm_of_length {p a b : Int} {indices : List Int64}
    (h : (blockOrder p a b indices).length = (luaRange a b).length) :
    (blockOrder p a b indices).Perm (luaRange a b) :=
  ((List.subperm_of_subset (luaRange_nodup a b)
    (luaRange_subset_blockOrder p a b indices)).perm_of_length_le h.le).symm

/-! ### The three parts of the order -/

/-- What `compute_order` puts between the prefix and the tail when `answer` is
what the daemon call came back with. -/
def rerankedBlock (p a b : Int) (answer : CallOutcome) : List Int :=
  match usableIndices answer with
  | some indices => blockOrder p a b indices
  | none => luaRange a b

/-- The first loop keeps the indices of the block, which the shift by `protect_n` does not
wrap. -/
theorem emittedOrder_eq {p e : Int} (hp : 0 ≤ p) (he : e < 2 ^ 63) (indices : List Int64) :
    emittedOrder p (p + 1) e indices =
      (indices.filter fun k => decide (1 ≤ k.toInt ∧ k.toInt ≤ e - p)).map
        fun k => k.toInt + p := by
  have hkeep : ∀ k : Int64,
      (p + 1 ≤ luaWrap (k.toInt + p) ∧ luaWrap (k.toInt + p) ≤ e ↔
        1 ≤ k.toInt ∧ k.toInt ≤ e - p) := by
    intro k
    have hlow := k.le_toInt
    have hhigh := k.toInt_lt
    have hwrap := Int.bmod_def (k.toInt + p) (2 ^ 64)
    unfold luaWrap
    split at hwrap <;> omega
  rw [emittedOrder, List.filter_map, Function.comp_def]
  simp only [hkeep]
  refine List.map_congr_left fun k hk => luaWrap_eq ?_ ?_ <;>
    have hblock := of_decide_eq_true (List.mem_filter.mp hk).2 <;> omega

/-- Shifting the reply by `protect_n` does not change what is repeated in it. -/
theorem emittedOrder_nodup_iff {p e : Int} (hp : 0 ≤ p) (he : e < 2 ^ 63)
    {indices : List Int64} : (emittedOrder p (p + 1) e indices).Nodup ↔
      (indices.filter fun k => decide (1 ≤ k.toInt ∧ k.toInt ≤ e - p)).Nodup := by
  have hinj : Function.Injective fun k : Int64 => k.toInt + p := fun x y h => by
    dsimp only at h
    exact Int64.toInt_inj.mp (by omega)
  rw [emittedOrder_eq hp he, List.nodup_map_iff hinj]

/-- The block is a permutation of its range unless a usable reply repeats one
of its positions. -/
theorem rerankedBlock_perm_iff {p e : Int} (hp : 0 ≤ p) (he : e < 2 ^ 63)
    {answer : CallOutcome} : (rerankedBlock p (p + 1) e answer).Perm (luaRange (p + 1) e) ↔
      ∀ indices, answer = .returned (some (some indices)) →
        (indices.filter fun k => decide (1 ≤ k.toInt ∧ k.toInt ≤ e - p)).Nodup := by
  cases hu : usableIndices answer with
  | none =>
      have hempty : ∀ indices, answer = .returned (some (some indices)) → indices = [] := by
        rintro indices rfl
        cases indices with
        | nil => rfl
        | cons i is => simp [usableIndices] at hu
      simp only [rerankedBlock, hu, List.Perm.refl, true_iff]
      intro indices h
      simp [hempty indices h]
  | some indices =>
      have heq : answer = .returned (some (some indices)) := by
        unfold usableIndices at hu
        split at hu
        · rw [Option.some.inj hu]
        · exact absurd hu (by simp)
      simp only [rerankedBlock, hu, blockOrder_perm_iff, emittedOrder_nodup_iff hp he]
      subst heq
      simp

theorem rerankedBlock_perm_of_length {p a b : Int} {answer : CallOutcome}
    (h : (rerankedBlock p a b answer).length = (luaRange a b).length) :
    (rerankedBlock p a b answer).Perm (luaRange a b) := by
  unfold rerankedBlock at h ⊢
  split
  · rename_i hu
    rw [hu] at h
    exact blockOrder_perm_of_length h
  · exact .refl _

theorem protectN_nonneg (options : Options) (n : Int) : 0 ≤ protectN options n := by
  unfold protectN
  omega

theorem protectN_le (options : Options) {n : Int} (hn : 0 ≤ n) : protectN options n ≤ n := by
  unfold protectN
  omega

theorem rerankEnd_le (options : Options) (m : Int64) (n : Int) : rerankEnd options m n ≤ n := by
  unfold rerankEnd
  omega

theorem rerankEnd_lt (options : Options) (m : Int64) (n : Int) :
    rerankEnd options m n < 2 ^ 63 := by
  have := luaWrap_lt (protectN options n + m.toInt)
  unfold rerankEnd
  omega

/-- Where the sum does not wrap, the block reaches as far as it should. -/
theorem rerankEnd_eq {options : Options} {m : Int64} {n : Int} (hm : 1 ≤ m.toInt)
    (hsum : protectN options n + m.toInt < 2 ^ 63) :
    rerankEnd options m n = min (protectN options n + m.toInt) n := by
  have := protectN_nonneg options n
  rw [rerankEnd, luaWrap_eq (by omega) hsum]

/-- Where it wraps, the block ends before it begins. -/
theorem rerankEnd_lt_protectN {options : Options} {m : Int64} {n : Int}
    (hsum : 2 ^ 63 ≤ protectN options n + m.toInt) :
    rerankEnd options m n < protectN options n := by
  have := luaWrap_add_lt m (protectN_nonneg options n) hsum
  unfold rerankEnd
  omega

theorem protectN_le_rerankEnd {options : Options} {m : Int64} {n : Int} (hn : 0 ≤ n)
    (hm : 1 ≤ m.toInt) (hsum : protectN options n + m.toInt < 2 ^ 63) :
    protectN options n ≤ rerankEnd options m n := by
  have := protectN_le options hn
  rw [rerankEnd_eq hm hsum]
  omega

/-- A block that is not empty says that the sum did not wrap. -/
theorem sum_lt_of_block {options : Options} {m : Int64} {n : Int}
    (hblock : protectN options n + 1 ≤ rerankEnd options m n) :
    protectN options n + m.toInt < 2 ^ 63 := by
  by_contra hsum
  have := @rerankEnd_lt_protectN options m n (by omega)
  omega

/-- The daemon call that `compute_order` makes. -/
def rerankCall (call : Client) (m : Int64) (n : Int) (code ctx : Bytes) (app : Option Bytes)
    (candTexts : List (Option Bytes)) (options : Options) : CallOutcome :=
  call code ctx (subTexts candTexts (protectN options n + 1) (rerankEnd options m n))
    (app.getD []) (options.timeoutMs.getD 30)

/-- With a client and `max_rerank >= 1` the order is prefix, block, tail. -/
theorem computeOrder_eq {n : Int} {m : Int64} {code ctx : Bytes} {app : Option Bytes}
    {candTexts : List (Option Bytes)} {options : Options} {call : Client}
    (hn : n ≠ 0) (hen : options.enabled = true) (hm : options.maxRerank = some m)
    (hm1 : 1 ≤ m.toInt) :
    computeOrder n code ctx app candTexts options (some call) =
      luaRange 1 (protectN options n) ++
        (if protectN options n + 1 ≤ rerankEnd options m n then
          rerankedBlock (protectN options n) (protectN options n + 1) (rerankEnd options m n)
            (rerankCall call m n code ctx app candTexts options)
        else []) ++
        luaRange (rerankEnd options m n + 1) n := by
  unfold computeOrder
  rw [if_neg hn, hen, hm]
  dsimp only
  rw [if_neg (by omega)]
  congr 1
  split
  · unfold rerankedBlock rerankCall
    generalize usableIndices _ = usable
    cases usable with
    | none => rfl
    | some indices =>
        dsimp only
        rw [foldl_emitStep, foldl_repairStep]
        simp [blockOrder]
  · simp

/-- A `max_rerank` that is missing or below 1 leaves librime's order. -/
theorem computeOrder_bypass {n : Int} {code ctx : Bytes} {app : Option Bytes}
    {candTexts : List (Option Bytes)} {options : Options} {client : Option Client}
    (h : ∀ m, options.maxRerank = some m → m.toInt < 1) :
    computeOrder n code ctx app candTexts options client = luaRange 1 n := by
  unfold computeOrder
  split
  · rename_i hn
    subst hn
    decide
  · split
    · rename_i hm
      rw [if_pos (h _ hm)]
    · rfl

/-! ### Positions and candidates -/

section Candidates

variable {α : Type}

theorem bufferedAt_of_pos {buffered : List α} {i : Nat} :
    bufferedAt buffered (1 + (i : Int)) = buffered[i]? := by
  unfold bufferedAt
  rw [if_neg (by omega)]
  congr 1
  omega

/-- Yielding positions `1..n` yields the buffer as it is. -/
theorem map_bufferedAt_luaRange (buffered : List α) :
    (luaRange 1 buffered.length).map (bufferedAt buffered) = buffered.map some := by
  apply List.ext_getElem
  · simp [luaRange_length]
  · intro i h₁ h₂
    rw [List.getElem_map, luaRange_getElem, bufferedAt_of_pos]
    simp

/-- The yielded list is a permutation of the buffer that moves nothing in the
protected prefix and nothing past the rerank block. -/
structure MovesOnlyBlock (options : Options) (buffered : List α) (yielded : List (Option α)) :
    Prop where
  perm : yielded.Perm (buffered.map some)
  head : ∀ i : Nat, (i : Int) < protectN options buffered.length →
    yielded[i]? = (buffered.map some)[i]?
  tail : ∀ i : Nat,
    protectN options buffered.length + (options.maxRerank.getD 0).toInt ≤ i →
      yielded[i]? = (buffered.map some)[i]?

theorem MovesOnlyBlock.refl (options : Options) (buffered : List α) :
    MovesOnlyBlock options buffered (buffered.map some) :=
  ⟨.refl _, fun _ _ => rfl, fun _ _ => rfl⟩

/-- A block that permutes its range between an unmoved prefix and an unmoved
tail moves only the block. -/
theorem MovesOnlyBlock.of_block {options : Options} {buffered : List α} {m : Int64}
    {block : List Int} (hm : options.maxRerank = some m) (hm1 : 1 ≤ m.toInt)
    (hsum : protectN options buffered.length + m.toInt < 2 ^ 63)
    (hblock : block.Perm (luaRange (protectN options buffered.length + 1)
      (rerankEnd options m buffered.length))) :
    MovesOnlyBlock options buffered
      ((luaRange 1 (protectN options buffered.length) ++ block ++
        luaRange (rerankEnd options m buffered.length + 1) buffered.length).map
          (bufferedAt buffered)) := by
  have hp := protectN_nonneg options buffered.length
  have hpe := protectN_le_rerankEnd (Int.natCast_nonneg _) hm1 hsum
  have hwhole := luaRange_three hp hpe (rerankEnd_le options m buffered.length)
  refine ⟨?_, ?_, ?_⟩
  · rw [← map_bufferedAt_luaRange, ← hwhole]
    exact ((hblock.append_left _).append_right _).map _
  · intro i hi
    rw [← map_bufferedAt_luaRange, ← hwhole, List.getElem?_map, List.getElem?_map]
    rw [getElem?_head_of_middle _ (luaRange (protectN options buffered.length + 1) _)]
    rw [luaRange_length]
    omega
  · intro i hi
    rw [hm, Option.getD_some] at hi
    rw [← map_bufferedAt_luaRange, ← hwhole, List.getElem?_map, List.getElem?_map]
    rw [getElem?_tail_of_middle hblock.length_eq]
    rw [rerankEnd_eq hm1 hsum] at hpe ⊢
    rw [luaRange_length, luaRange_length]
    omega

/-! ### When the filter yields a permutation -/

/-- The arguments of `client:rerank`. -/
structure RerankCall where
  code : Bytes
  ctx : Bytes
  sub : List Bytes
  app : Bytes
  timeoutMs : Int64
  deriving DecidableEq, Repr

/-- The one call that the filter makes with a client, if its block is not empty. -/
def blockCall (text : α → Option Bytes) (buffered : List α) (env : Env) : Option RerankCall :=
  match env.options.enabled, env.options.maxRerank, env.rerankLoaded with
  | true, some m, true =>
    if 1 ≤ m.toInt ∧ protectN env.options buffered.length + 1 ≤
        rerankEnd env.options m buffered.length then
      some {
        code := env.input.getD []
        ctx := env.context
        sub := subTexts (buffered.map text) (protectN env.options buffered.length + 1)
          (rerankEnd env.options m buffered.length)
        app := []
        timeoutMs := env.options.timeoutMs.getD 30 }
    else none
  | _, _, _ => none

/-- What the daemon call comes back with, when the filter makes one. -/
def daemonAnswer (text : α → Option Bytes) (buffered : List α) (env : Env) :
    Option CallOutcome :=
  match env.client, blockCall text buffered env with
  | some call, some args => some (call args.code args.ctx args.sub args.app args.timeoutMs)
  | _, _ => none

/-- When the filter makes a call, and which. -/
theorem blockCall_eq_some_iff {text : α → Option Bytes} {buffered : List α} {env : Env}
    {args : RerankCall} : blockCall text buffered env = some args ↔
      env.options.enabled = true ∧ env.rerankLoaded = true ∧ ∃ m, env.options.maxRerank = some m ∧
        1 ≤ m.toInt ∧
        protectN env.options buffered.length + 1 ≤ rerankEnd env.options m buffered.length ∧
        args = ⟨env.input.getD [], env.context, subTexts (buffered.map text)
          (protectN env.options buffered.length + 1) (rerankEnd env.options m buffered.length), [],
          env.options.timeoutMs.getD 30⟩ := by
  unfold blockCall
  constructor
  · intro h
    split at h
    · rename_i m hen hm hlo
      split_ifs at h with hblock
      exact ⟨hen, hlo, m, hm, hblock.1, hblock.2, (Option.some.inj h).symm⟩
    · exact absurd h (by simp)
  · rintro ⟨hen, hlo, m, hm, hm1, hblock, rfl⟩
    rw [hen, hlo, hm]
    dsimp only
    rw [if_pos ⟨hm1, hblock⟩]

/-- The reply, when there is one, lists no position of the rerank block twice. -/
def RepeatFree (text : α → Option Bytes) (buffered : List α) (env : Env) : Prop :=
  ∀ indices m, daemonAnswer text buffered env = some (.returned (some (some indices))) →
    env.options.maxRerank = some m →
      (indices.filter fun k => decide (1 ≤ k.toInt ∧
        k.toInt ≤ rerankEnd env.options m buffered.length -
          protectN env.options buffered.length)).Nodup

/-- Where the filter goes by `max_rerank`, `protect_n + max_rerank` is a Lua integer. -/
def SumFits (buffered : List α) (env : Env) : Prop :=
  buffered ≠ [] → env.options.enabled = true → env.client ≠ none → env.rerankLoaded = true →
    ∀ m, env.options.maxRerank = some m → 1 ≤ m.toInt →
      protectN env.options buffered.length + m.toInt < 2 ^ 63

/-- With a client and `max_rerank >= 1` the filter yields prefix, block and tail. -/
theorem func_eq {text : α → Option Bytes} {buffered : List α} {env : Env} {call : Client}
    {m : Int64} (hne : buffered ≠ []) (hen : env.options.enabled = true)
    (hcall : env.client = some call) (hlo : env.rerankLoaded = true)
    (hm : env.options.maxRerank = some m) (hm1 : 1 ≤ m.toInt) :
    func text buffered env =
      (luaRange 1 (protectN env.options buffered.length) ++
        (if protectN env.options buffered.length + 1 ≤
            rerankEnd env.options m buffered.length then
          rerankedBlock (protectN env.options buffered.length)
            (protectN env.options buffered.length + 1)
            (rerankEnd env.options m buffered.length)
            (rerankCall call m buffered.length (env.input.getD []) env.context (some [])
              (buffered.map text) env.options)
        else []) ++
        luaRange (rerankEnd env.options m buffered.length + 1) buffered.length).map
          (bufferedAt buffered) := by
  have hn : (buffered.length : Int) ≠ 0 := by simpa using hne
  unfold func
  rw [if_neg hne, if_neg (by simp [hen, hcall, hlo])]
  dsimp only
  rw [hcall, computeOrder_eq hn hen hm hm1]

/-- Without a call to the daemon the filter passes the candidates through. -/
theorem func_of_unasked {text : α → Option Bytes} {buffered : List α} {env : Env}
    (hfits : SumFits buffered env) (h : daemonAnswer text buffered env = none) :
    func text buffered env = buffered.map some := by
  by_cases hgate : buffered ≠ [] ∧ env.options.enabled = true ∧ env.client ≠ none ∧
      env.rerankLoaded = true
  · obtain ⟨hne, hen, hcl, hlo⟩ := hgate
    obtain ⟨call, hcall⟩ := Option.ne_none_iff_exists'.mp hcl
    by_cases hm : ∀ m, env.options.maxRerank = some m → m.toInt < 1
    · unfold func
      rw [if_neg hne, if_neg (by simp [hen, hcall, hlo])]
      dsimp only
      rw [computeOrder_bypass hm, map_bufferedAt_luaRange]
    · push Not at hm
      obtain ⟨m, hm, hm1⟩ := hm
      -- the call was skipped, so the block has no position
      have hblock : ¬ protectN env.options buffered.length + 1 ≤
          rerankEnd env.options m buffered.length := by
        intro hb
        have hargs := (@blockCall_eq_some_iff α text buffered env _).mpr
          ⟨hen, hlo, m, hm, hm1, hb, rfl⟩
        simp [daemonAnswer, hcall, hargs] at h
      have hpe := protectN_le_rerankEnd (Int.natCast_nonneg _) hm1
        (hfits hne hen hcl hlo m hm hm1)
      have hp := protectN_nonneg env.options buffered.length
      have hend := rerankEnd_le env.options m buffered.length
      rw [func_eq hne hen hcall hlo hm hm1, if_neg hblock, List.append_nil,
        show rerankEnd env.options m buffered.length =
          protectN env.options buffered.length by omega,
        luaRange_append (by omega) (by omega), map_bufferedAt_luaRange]
  · unfold func
    split_ifs with hnil hclosed
    · simp [hnil]
    · rfl
    · simp only [Bool.or_eq_true, Bool.not_eq_true', not_or, Bool.not_eq_false,
        Option.isNone_iff_eq_none] at hclosed
      exact absurd ⟨hnil, hclosed.1.1, hclosed.1.2, hclosed.2⟩ hgate

/-- A sum that wraps makes the filter yield more than there is. -/
theorem length_func_of_overflow {text : α → Option Bytes} {buffered : List α} {env : Env}
    (h : ¬ SumFits buffered env) : buffered.length < (func text buffered env).length := by
  unfold SumFits at h
  push Not at h
  obtain ⟨hne, hen, hcl, hlo, m, hm, hm1, hsum⟩ := h
  obtain ⟨call, hcall⟩ := Option.ne_none_iff_exists'.mp hcl
  have hpe := rerankEnd_lt_protectN hsum
  have hp := protectN_le env.options (Int.natCast_nonneg buffered.length)
  rw [func_eq hne hen hcall hlo hm hm1, if_neg (by omega)]
  simp only [List.length_map, List.length_append, luaRange_length, List.length_nil]
  have := protectN_nonneg env.options buffered.length
  omega

/-- With a call, the filter yields prefix, block and tail. -/
theorem func_of_asked {text : α → Option Bytes} {buffered : List α} {env : Env}
    {answer : CallOutcome} (h : daemonAnswer text buffered env = some answer) :
    ∃ m, env.options.maxRerank = some m ∧ 1 ≤ m.toInt ∧
      protectN env.options buffered.length + m.toInt < 2 ^ 63 ∧
      func text buffered env =
        (luaRange 1 (protectN env.options buffered.length) ++
          rerankedBlock (protectN env.options buffered.length)
            (protectN env.options buffered.length + 1)
            (rerankEnd env.options m buffered.length) answer ++
          luaRange (rerankEnd env.options m buffered.length + 1) buffered.length).map
            (bufferedAt buffered) := by
  unfold daemonAnswer at h
  split at h
  · rename_i call args hcall hargs
    obtain ⟨hen, hlo, m, hm, hm1, hblock, rfl⟩ := blockCall_eq_some_iff.mp hargs
    have hne : buffered ≠ [] := by
      rintro rfl
      have := rerankEnd_le env.options m ([] : List α).length
      have := protectN_nonneg env.options ([] : List α).length
      simp only [List.length_nil] at *
      omega
    refine ⟨m, hm, hm1, sum_lt_of_block hblock, ?_⟩
    rw [func_eq hne hen hcall hlo hm hm1, if_pos hblock, ← Option.some.inj h]
    rfl
  · exact absurd h (by simp)

/-- Of the client the filter sees the answer to its one call. -/
theorem func_client_congr {text : α → Option Bytes} {buffered : List α} {env : Env}
    {call call' : Client}
    (h : ∀ args, blockCall text buffered env = some args →
      call args.code args.ctx args.sub args.app args.timeoutMs =
        call' args.code args.ctx args.sub args.app args.timeoutMs) :
    func text buffered { env with client := some call } =
      func text buffered { env with client := some call' } := by
  by_cases hgate : buffered ≠ [] ∧ env.options.enabled = true ∧ env.rerankLoaded = true
  · obtain ⟨hne, hen, hlo⟩ := hgate
    by_cases hm : ∀ m, env.options.maxRerank = some m → m.toInt < 1
    · unfold func
      simp only [computeOrder_bypass hm]
      rfl
    · push Not at hm
      obtain ⟨m, hm, hm1⟩ := hm
      rw [@func_eq α text buffered { env with client := some call } call m hne hen rfl hlo hm hm1,
        @func_eq α text buffered { env with client := some call' } call' m hne hen rfl hlo hm hm1]
      dsimp only
      split_ifs with hblock
      · have hanswer := h _ (blockCall_eq_some_iff.mpr ⟨hen, hlo, m, hm, hm1, hblock, rfl⟩)
        congr 4
      · rfl
  · unfold func
    split_ifs with hnil hclosed hclosed' hclosed'
    · rfl
    · rfl
    · exact absurd hclosed hclosed'
    · exact absurd hclosed' hclosed
    · simp only [Bool.or_eq_true, Bool.not_eq_true', not_or, Bool.not_eq_false] at hclosed
      exact absurd ⟨hnil, hclosed.1.1, hclosed.2⟩ hgate

/-- `func` yields a permutation that moves only the rerank block if and only if
`protect_n + max_rerank` does not wrap and the daemon's reply repeats no position of
that block. -/
theorem func_movesOnlyBlock_iff (text : α → Option Bytes) (buffered : List α) (env : Env) :
    MovesOnlyBlock env.options buffered (func text buffered env) ↔
      SumFits buffered env ∧ RepeatFree text buffered env := by
  by_cases hfits : SumFits buffered env
  · rw [and_iff_right hfits]
    cases h : daemonAnswer text buffered env with
    | none =>
        rw [func_of_unasked hfits h]
        refine iff_of_true (.refl _ _) ?_
        intro indices m hans
        simp [h] at hans
    | some answer =>
        obtain ⟨m, hm, hm1, hsum, hfunc⟩ := func_of_asked h
        have hp := protectN_nonneg env.options buffered.length
        have hrep : RepeatFree text buffered env ↔
            (rerankedBlock (protectN env.options buffered.length)
              (protectN env.options buffered.length + 1)
              (rerankEnd env.options m buffered.length) answer).Perm
            (luaRange (protectN env.options buffered.length + 1)
              (rerankEnd env.options m buffered.length)) := by
          rw [rerankedBlock_perm_iff hp (rerankEnd_lt _ _ _), RepeatFree, h, hm]
          simp
        rw [hfunc, hrep]
        refine ⟨fun hmoves => ?_, fun hblock => .of_block hm hm1 hsum hblock⟩
        -- a permutation leaves no room for a repeated position
        have hlen := hmoves.perm.length_eq
        have hwhole := luaRange_three hp
          (protectN_le_rerankEnd (Int.natCast_nonneg _) hm1 hsum)
          (rerankEnd_le env.options m buffered.length)
        rw [← map_bufferedAt_luaRange, ← hwhole] at hlen
        simp only [List.length_map, List.length_append] at hlen
        exact rerankedBlock_perm_of_length (by omega)
  · refine iff_of_false (fun hmoves => ?_) fun h => hfits h.1
    have hlen := hmoves.perm.length_eq
    rw [List.length_map] at hlen
    exact absurd hlen (Nat.ne_of_gt (length_func_of_overflow hfits))

end Candidates

/-- An environment whose daemon answers every call with the index list `indices`. -/
def answeringEnv (indices : List Int64) : Env where
  options := { enabled := true, timeoutMs := some 30, maxRerank := some 10,
               protectTopN := some 1, contextChars := some 20 }
  client := some fun _ _ _ _ _ => .returned (some (some indices))
  rerankLoaded := true
  input := some []
  historyRepr := none

/-- With one protected candidate and the reply `{1, 1}` the second candidate is
yielded twice. -/
theorem func_repeats_candidate :
    func (fun _ => some []) ["a", "b", "c"] (answeringEnv [1, 1]) =
        [some "a", some "b", some "b", some "c"] ∧
      ¬ MovesOnlyBlock (answeringEnv [1, 1]).options ["a", "b", "c"]
        (func (fun _ => some []) ["a", "b", "c"] (answeringEnv [1, 1])) := by
  have hyield : func (fun _ => some []) ["a", "b", "c"] (answeringEnv [1, 1]) =
      [some "a", some "b", some "b", some "c"] := by decide
  refine ⟨hyield, fun h => ?_⟩
  have hlen := h.perm.length_eq
  rw [hyield] at hlen
  exact absurd hlen (by decide)

end Dafeng.Plugin
