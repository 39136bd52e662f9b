import Mathlib.Data.Int.Range
import Mathlib.Data.List.Dedup
import Dafeng.Library.Bytes

/-!
# Dafeng.Plugin.Filter

The librime Lua filter: `compute_order` of `dafeng_rerank.lua` and `M.func` of
`dafeng_filter.lua`, which yields the buffered candidates in that order.

A Lua sequence is a `List`. An integer that comes from outside is an `Int64`; a
position is an `Int`, and a sum or a product that can leave the 64 bits of a Lua
integer is wrapped where it is computed. The line `log_fallback` appends to a
log file on a daemon failure is left out; nothing reads it back.
-/

namespace Dafeng.Plugin

/-- The integer that Lua's arithmetic leaves for the exact result `i`. -/
def luaWrap (i : Int) : Int := i.bmod (2 ^ 64)

/-- `env.options`, as `M.init` fills it. A missing field is `none`. -/
structure Options where
  enabled : Bool
  timeoutMs : Option Int64
  maxRerank : Option Int64
  protectTopN : Option Int64
  contextChars : Option Int64
  deriving DecidableEq, Repr

/-- What `pcall(client:rerank(...))` comes back with: an error, or a value that
is `nil` or a table whose `indices` field may itself be missing. -/
inductive CallOutcome
  | raised
  | returned (result : Option (Option (List Int64)))
  deriving DecidableEq, Repr

/-- `client:rerank(code, ctx, sub, app, timeout_ms)`. -/
abbrev Client := Bytes → Bytes → List Bytes → Bytes → Int64 → CallOutcome

/-- The indices visited by `for i = a, b do`. -/
def luaRange (a b : Int) : List Int := Int.range a (b + 1)

/-- `result.indices` when `result and result.indices and #result.indices > 0`. -/
def usableIndices : CallOutcome → Option (List Int64)
  | .returned (some (some (i :: is))) => some (i :: is)
  | _ => none

/-- One turn of the loop over `ipairs(result.indices)`; the state is the `out`
table and the set `emitted`. -/
def emitStep (protectN rerankStart rerankEnd : Int) (s : List Int × List Int)
    (luaSubIdx : Int64) : List Int × List Int :=
  let actual := luaWrap (luaSubIdx.toInt + protectN)
  if rerankStart ≤ actual ∧ actual ≤ rerankEnd then
    (s.1 ++ [actual], actual :: s.2)
  else s

/-- One turn of the defensive loop: an index of the block that was not emitted
is appended. -/
def repairStep (emitted out : List Int) (i : Int) : List Int :=
  if i ∈ emitted then out else out ++ [i]

/-- `protect_n`: the length of the protected prefix. -/
def protectN (options : Options) (n : Int) : Int :=
  max 0 (min (options.protectTopN.getD 0).toInt n)

/-- `rerank_end`, for a `max_rerank` that is present. -/
def rerankEnd (options : Options) (maxRerank : Int64) (n : Int) : Int :=
  min (luaWrap (protectN options n + maxRerank.toInt)) n

/-- `cand_texts[i] or ""`. -/
def candText (candTexts : List (Option Bytes)) (i : Int) : Bytes :=
  (candTexts[(i - 1).toNat]?.join).getD []

/-- `sub`: the texts of the candidates at positions `a` to `b`. -/
def subTexts (candTexts : List (Option Bytes)) (a b : Int) : List Bytes :=
  (luaRange a b).map (candText candTexts)

/-- `M.compute_order(buffered, code, ctx, app, cand_texts, options, client)`.
Only `#buffered` is read of the first argument. -/
def computeOrder (n : Int) (code ctx : Bytes) (app : Option Bytes)
    (candTexts : List (Option Bytes)) (options : Options) (client : Option Client) :
    List Int :=
  if n = 0 then []
  else
    match options.enabled, client, options.maxRerank with
    | true, some call, some maxRerank =>
      if maxRerank.toInt < 1 then luaRange 1 n
      else
        let protectN := protectN options n
        let rerankStart := protectN + 1
        let rerankEnd := rerankEnd options maxRerank n
        -- 1. Protected prefix in original order.
        let out := luaRange 1 protectN
        -- 2. Reranked block.
        let out :=
          if rerankStart ≤ rerankEnd then
            let sub := subTexts candTexts rerankStart rerankEnd
            match usableIndices
                (call code ctx sub (app.getD []) (options.timeoutMs.getD 30)) with
            | some indices =>
              let emission :=
                indices.foldl (emitStep protectN rerankStart rerankEnd) (out, [])
              (luaRange rerankStart rerankEnd).foldl (repairStep emission.2) emission.1
            | none => out ++ luaRange rerankStart rerankEnd
          else out
        -- 3. Tail beyond max_rerank.
        out ++ luaRange (rerankEnd + 1) n
    | _, _, _ => luaRange 1 n

/-- `string.sub(s, i)`, with Lua's reading of zero and negative positions. -/
def luaSub (s : Bytes) (i : Int) : Bytes :=
  if 0 < i then s.drop (i - 1).toNat
  else if i = 0 then s
  else s.drop (s.length - (-i).toNat)

/-- `trim_context(s, max_chars)` on a string that is not `nil`. -/
def trimContext (s : Bytes) (maxChars : Int64) : Bytes :=
  let cap := maxChars * 4
  if cap.toInt < s.length then luaSub s (-cap).toInt else s

/-- What `M.func` reads of its `env`. `input` and `historyRepr` are `none` where
the access raises or yields `nil`; `rerankLoaded` says that
`require "dafeng_rerank"` succeeded. -/
structure Env where
  options : Options
  client : Option Client
  rerankLoaded : Bool
  input : Option Bytes
  historyRepr : Option Bytes

/-- The `ctx` local of `M.func`: `""` unless the guarded block runs to its end. -/
def Env.context (env : Env) : Bytes :=
  match env.historyRepr, env.options.contextChars with
  | some repr, some maxChars => trimContext repr maxChars
  | _, _ => []

/-- `buffered[idx]`, which is `nil` outside `1..#buffered`. -/
def bufferedAt {α : Type} (buffered : List α) (idx : Int) : Option α :=
  if idx < 1 then none else buffered[(idx - 1).toNat]?

/-- `M.func`: the values handed to `yield`, in order. `text` is a candidate's
`text` field. `compute_order` raises no error on these arguments, so the branch
for a failed `pcall` is never taken. -/
def func {α : Type} (text : α → Option Bytes) (buffered : List α) (env : Env) :
    List (Option α) :=
  if buffered = [] then []
  else if !env.options.enabled || env.client.isNone || !env.rerankLoaded then
    buffered.map some
  else
    let order := computeOrder buffered.length (env.input.getD []) env.context (some [])
      (buffered.map text) env.options env.client
    order.map (bufferedAt buffered)

end Dafeng.Plugin
