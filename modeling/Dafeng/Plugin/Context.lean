import Dafeng.Library.Utf8
import Dafeng.Plugin.FilterOrder

/-!
# Dafeng.Plugin.Context

The context that the Lua filter sends along: what `trim_context` leaves of the
commit history, for a rerank and for the commit hook of `attach_commit_hook`.
-/

namespace Dafeng.Plugin

open Dafeng.Utf8

/-! ### The commit hook -/

/-- What a call into the engine comes back with: an error, or `nil` or a string. -/
inductive EngineRead
  | raised
  | returned (value : Option Bytes)
  deriving DecidableEq, Repr

/-- What the callback reads of its `ctx`: `get_commit_text()`, `input` and
`commit_history:repr()`, which is `none` where there is no such method. -/
structure CommitContext where
  commitText : EngineRead
  input : EngineRead
  historyRepr : Option EngineRead
  deriving DecidableEq, Repr

/-- The arguments of `client:record_commit`. -/
structure CommitCall where
  code : Bytes
  committed : Bytes
  before : Bytes
  deriving DecidableEq, Repr

/-- The `before` local of the callback; `none` is an error. -/
def CommitContext.before (ctx : CommitContext) (options : Options) : Option Bytes :=
  match ctx.historyRepr with
  | none => some []
  | some .raised => none
  | some (.returned repr) =>
    options.contextChars.map fun maxChars => trimContext (repr.getD []) maxChars

/-- The callback: the call it makes, if any. -/
def commitHook (options : Options) (hasClient : Bool) (ctx : CommitContext) : Option CommitCall :=
  match ctx.commitText, ctx.input, ctx.before options with
  | .returned committed, .returned code, some before =>
    if committed.getD [] ≠ [] ∧ hasClient then
      some { code := code.getD [], committed := committed.getD [], before := before }
    else none
  | _, _, _ => none

/-! ### Trimming -/

/-- What the C interface is promised of a context cut from `s`: a suffix, in
well-formed UTF-8, of at most four bytes a character. -/
structure Trimmed (s : Bytes) (maxChars : Int64) (out : Bytes) : Prop where
  suffix : out <:+ s
  wellFormed : ∃ cs, encodeText cs = out
  bounded : (out.length : Int) ≤ 4 * maxChars.toInt

/-- How many bytes `string.sub(s, i)` leaves out. -/
def luaSkip (s : Bytes) (i : Int) : Nat :=
  if 0 < i then (i - 1).toNat
  else if i = 0 then 0
  else s.length - (-i).toNat

theorem luaSub_eq_drop (s : Bytes) (i : Int) : luaSub s i = s.drop (luaSkip s i) := by
  unfold luaSub luaSkip
  split_ifs
  · rfl
  · exact List.drop_zero.symm
  · rfl

/-- The cut spares the characters of `s`: it has nothing to cut, or it cuts where a
character starts. A cap that is not positive does not bound what it leaves. -/
def CutFits (s : Bytes) (maxChars : Int64) : Prop :=
  let cap := maxChars * 4
  (s.length : Int) ≤ cap.toInt ∨
    IsBoundary s (luaSkip s (-cap).toInt) ∧
      (0 < cap.toInt ∨ ((s.length - luaSkip s (-cap).toInt : Nat) : Int) ≤ 4 * maxChars.toInt)

section Cap

variable {s : Bytes} {maxChars : Int64}

/-- The product does not wrap. -/
theorem cap_eq (h : 0 ≤ maxChars.toInt) (hlt : maxChars.toInt < 2 ^ 61) :
    (maxChars * 4).toInt = 4 * maxChars.toInt := by
  rw [Int64.toInt_mul, show (4 : Int64).toInt = 4 by decide, Int.mul_comm]
  exact Int.bmod_eq_of_le (by omega) (by omega)

/-- A product that wraps is smaller. -/
theorem cap_le (h : 0 ≤ maxChars.toInt) : (maxChars * 4).toInt ≤ 4 * maxChars.toInt := by
  by_cases hlt : maxChars.toInt < 2 ^ 61
  · exact (cap_eq h hlt).le
  · have := (maxChars * 4).toInt_lt
    omega

theorem neg_cap (hpos : 0 < (maxChars * 4).toInt) :
    (-(maxChars * 4)).toInt = -(maxChars * 4).toInt := by
  have := (maxChars * 4).toInt_lt
  rw [Int64.toInt_neg]
  exact Int.bmod_eq_of_le (by omega) (by omega)

/-- A positive cap keeps so many bytes. -/
theorem luaSkip_cap (s : Bytes) (hpos : 0 < (maxChars * 4).toInt) :
    luaSkip s (-(maxChars * 4)).toInt = s.length - (maxChars * 4).toInt.toNat := by
  rw [neg_cap hpos, luaSkip, if_neg (by omega), if_neg (by omega), Int.neg_neg]

/-- Where the product does not wrap, the cut is at `4 * max_chars` bytes from the end. -/
theorem cutFits_iff (h : 0 ≤ maxChars.toInt) (hlt : maxChars.toInt < 2 ^ 61) :
    CutFits s maxChars ↔ (s.length : Int) ≤ 4 * maxChars.toInt ∨
      0 < maxChars.toInt ∧ IsBoundary s (s.length - (4 * maxChars.toInt).toNat) := by
  have hcap := cap_eq h hlt
  unfold CutFits
  dsimp only
  by_cases hpos : 0 < maxChars.toInt
  · rw [luaSkip_cap s (by omega), hcap]
    simp only [hpos, show 0 < 4 * maxChars.toInt by omega, true_or, and_true, true_and]
  · obtain rfl : maxChars = 0 := Int64.toInt_inj.mp (by simpa using Int.le_antisymm (by omega) h)
    simp [luaSkip]

theorem trimmed_iff (cs : List Char) (h : 0 ≤ maxChars.toInt) :
    Trimmed (encodeText cs) maxChars (trimContext (encodeText cs) maxChars) ↔
      CutFits (encodeText cs) maxChars := by
  have hcap := cap_le h
  unfold trimContext CutFits
  dsimp only
  split_ifs with hlong
  · rw [luaSub_eq_drop, or_iff_right (by omega)]
    constructor
    · intro hout
      refine ⟨(drop_encodeText_iff cs _).mp hout.wellFormed, .inr ?_⟩
      simpa only [List.length_drop] using hout.bounded
    · rintro ⟨hboundary, hbound⟩
      refine ⟨List.drop_suffix _ _, (drop_encodeText_iff cs _).mpr hboundary, ?_⟩
      rw [List.length_drop]
      rcases hbound with hpos | hbound
      · rw [luaSkip_cap _ hpos]
        omega
      · exact hbound
  · exact iff_of_true ⟨List.suffix_rfl, ⟨cs, rfl⟩, by omega⟩ (.inl (by omega))

end Cap

/-- The filter hands the client no context but its own. -/
theorem func_congr {α : Type} (text : α → Option Bytes) (buffered : List α) (env : Env)
    {call call' : Client}
    (h : ∀ code sub app timeoutMs, call code env.context sub app timeoutMs =
      call' code env.context sub app timeoutMs) :
    func text buffered { env with client := some call } =
      func text buffered { env with client := some call' } := by
  refine func_client_congr fun args hargs => ?_
  obtain ⟨-, -, m, -, -, -, rfl⟩ := blockCall_eq_some_iff.mp hargs
  exact h _ _ _ _

/-- **The context of a call.** The context of a rerank and that of a recorded commit
are as the interface asks exactly where the cut fits. -/
theorem sent_context_iff (cs : List Char) (maxChars : Int64) (hchars : 0 ≤ maxChars.toInt) :
    (∀ env : Env, env.historyRepr = some (encodeText cs) →
      env.options.contextChars = some maxChars →
      (Trimmed (encodeText cs) maxChars env.context ↔ CutFits (encodeText cs) maxChars)) ∧
    ∀ (options : Options) (hasClient : Bool) (ctx : CommitContext) (call : CommitCall),
      ctx.historyRepr = some (.returned (some (encodeText cs))) →
      options.contextChars = some maxChars → commitHook options hasClient ctx = some call →
      (Trimmed (encodeText cs) maxChars call.before ↔ CutFits (encodeText cs) maxChars) := by
  constructor
  · intro env hrepr hoption
    have hcontext : env.context = trimContext (encodeText cs) maxChars := by
      simp only [Env.context, hrepr, hoption]
    rw [hcontext]
    exact trimmed_iff cs hchars
  · intro options hasClient ctx call hrepr hoption hcall
    have hbefore : ctx.before options = some (trimContext (encodeText cs) maxChars) := by
      simp only [CommitContext.before, hrepr, hoption, Option.map_some, Option.getD_some]
    have hcallBefore : call.before = trimContext (encodeText cs) maxChars := by
      unfold commitHook at hcall
      rw [hbefore] at hcall
      split at hcall
      · rename_i hsome
        obtain rfl := Option.some.inj hsome
        split_ifs at hcall
        obtain rfl := Option.some.inj hcall
        rfl
      · cases hcall
    rw [hcallBefore]
    exact trimmed_iff cs hchars

/-- The options of `M.init` with `context_chars` at `maxChars` and every other key left at its
default. -/
def contextOptions (maxChars : Int64) : Options where
  enabled := true
  timeoutMs := some 30
  maxRerank := some 10
  protectTopN := some 3
  contextChars := some maxChars

/-- Of eight bytes the last four are sent, which start at a character. -/
theorem sent_context_iff_few :
    Trimmed (encodeText ['今', 'b', '天', 'a']) 1
        (Env.mk (contextOptions 1) none true none
          (some (encodeText ['今', 'b', '天', 'a']))).context ∧
      Trimmed (encodeText ['今', 'b', '天', 'a']) 1 (encodeText ['天', 'a']) := by
  have hfits : CutFits (encodeText ['今', 'b', '天', 'a']) 1 := by
    refine (cutFits_iff (by decide) (by decide)).mpr (.inr ⟨by decide, fun b hb => ?_⟩)
    obtain rfl : 229 = b := Option.some.inj hb
    exact fun hcont => absurd hcont.2 (by decide)
  obtain ⟨hrerank, hcommit⟩ := sent_context_iff ['今', 'b', '天', 'a'] 1 (by decide)
  refine ⟨(hrerank _ rfl rfl).mpr hfits, ?_⟩
  exact (hcommit (contextOptions 1) true
    { commitText := .returned (some (encodeText ['天']))
      input := .returned none
      historyRepr := some (.returned (some (encodeText ['今', 'b', '天', 'a']))) }
    { code := [], committed := encodeText ['天'], before := encodeText ['天', 'a'] } rfl rfl
    (by decide)).mpr hfits

/-- With the default of 20 characters, 27 characters of three bytes are cut after the
first byte. With 0 nothing is cut. With 2^62 + 1 the product wraps to 4, and two
characters are cut inside the first. -/
theorem cut_inside_character :
    ¬ Trimmed (encodeText (List.replicate 27 '今')) 20
        (trimContext (encodeText (List.replicate 27 '今')) 20) ∧
      ¬ Trimmed (encodeText ['a']) 0 (trimContext (encodeText ['a']) 0) ∧
      ¬ Trimmed (encodeText ['今', '今']) 4611686018427387905
        (trimContext (encodeText ['今', '今']) 4611686018427387905) := by
  refine ⟨fun h => ?_, fun h => ?_, fun h => ?_⟩
  · rcases (cutFits_iff (by decide) (by decide)).mp ((trimmed_iff _ (by decide)).mp h) with
      hle | ⟨-, hboundary⟩
    · exact absurd hle (by decide)
    · exact hboundary 0xBB (by decide) ⟨by decide, by decide⟩
  · exact absurd h.bounded (by decide)
  · obtain hle | ⟨hboundary, -⟩ := (trimmed_iff _ (by decide)).mp h
    · exact absurd hle (by decide)
    · exact hboundary 0x8A (by decide) ⟨by decide, by decide⟩

end Dafeng.Plugin
