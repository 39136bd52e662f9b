import Dafeng.Daemon.Rankings
import Dafeng.Plugin.FilterOrder
import Dafeng.Session.Commits

/-!
# Dafeng.Plugin.EndToEnd

A rerank from the filter to the backend and back: the Lua bridge
(`dafeng_lua_bridge.c`), the C interface of the client (`client_c.cc`), the
client and the server, and the backends.

Scores are the bits of C++ floats. The bridge passes strings as C strings, which
end at a NUL byte. Two things end the process that runs the filter before it has
yielded anything: `l_rerank` pushes more candidates than Lua's stack has slots for,
and the client writes to a connection that the daemon has closed.
-/

namespace Dafeng.Plugin

open Dafeng.Msgpack Dafeng.Protocol Dafeng.Daemon Dafeng.Session

/-! ### The layers above the client -/

/-- The string that a C string pointer into `s` shows. -/
def cString (s : Bytes) : Bytes := s.takeWhile (· != 0)

/-- `dafeng_rerank_result`; `count` is the length of `indices`. -/
structure RerankResult where
  indices : List Int32
  latencyUs : UInt32
  modelVersion : UInt8
  deriving DecidableEq, Repr

/-- `dafeng_client_rerank`, when the client's call ended with `outcome`: `none` is
the result 0. An exception is caught, and the copy of the indices may fail. -/
def dafengClientRerank (copied : Bool) : Outcome → Option RerankResult
  | .replied (.rerankResponse resp) =>
    if resp.reorderedIndices ≠ [] ∧ copied = false then none
    else some {
      indices := resp.reorderedIndices
      latencyUs := resp.latencyUs
      modelVersion := resp.modelVersion }
  | _ => none

/-- What a call of the bridge finds: whether the userdata still has its client,
and which of the two allocations succeed. -/
structure Bridge where
  present : Bool := true
  pointers : Bool := true
  copied : Bool := true
  deriving DecidableEq, Repr

/-- The request that `l_rerank` hands down. The client assigns its id. -/
def bridgeRequest (code ctx : Bytes) (sub : List Bytes) (app : Bytes) : RerankRequest where
  code := cString code
  contextBefore := cString ctx
  candidates := sub.map cString
  appId := cString app

/-- `LUA_MINSTACK`: the slots that Lua gives a C function above its arguments. -/
def luaMinStack : Nat := 20

/-- Why the process that runs the filter has no defined next step: its Lua stack is
overrun, or a write to a closed connection raised SIGPIPE. -/
inductive Crash
  | stackOverrun
  | brokenPipe
  deriving DecidableEq, Repr

/-- `client:rerank` in a process that may end in it. -/
abbrev BridgeCall := Bytes → Bytes → List Bytes → Bytes → Int64 → Except Crash CallOutcome

/-- `l_rerank` over `DafengClient::Rerank`, which does not come back (`none`) where
SIGPIPE ends the process. The candidates are pushed before the client is called. -/
def lRerank (bridge : Bridge) (rerank : RerankRequest → Int → Option Outcome) : BridgeCall :=
  fun code ctx sub app timeoutMs =>
    if bridge.present = false then .ok (.returned none)
    else if sub.length = 0 then .ok (.returned (some (some [])))
    else if bridge.pointers = false then .ok (.returned none)
    else if luaMinStack < sub.length then .error .stackOverrun
    else
      match rerank (bridgeRequest code ctx sub app) (max timeoutMs.toInt32.toInt 0) with
      | none => .error .brokenPipe
      | some outcome =>
        match dafengClientRerank bridge.copied outcome with
        | none => .ok (.returned none)
        | some result =>
          .ok (.returned (some (some (result.indices.map fun i => i.toInt64 + 1))))

/-- `M.func` in a process that may end in the call; the client of `env` is not read. -/
def funcIn {α : Type} (text : α → Option Bytes) (buffered : List α) (env : Env)
    (client : BridgeCall) : Except Crash (List (Option α)) :=
  match blockCall text buffered env with
  | none => .ok (func text buffered { env with client := some fun _ _ _ _ _ => .raised })
  | some args => do
    let outcome ← client args.code args.ctx args.sub args.app args.timeoutMs
    return func text buffered { env with client := some fun _ _ _ _ _ => outcome }

/-- Over a client that always comes back the process does what `func` says. -/
theorem funcIn_ok {α : Type} (text : α → Option Bytes) (buffered : List α) (env : Env)
    (call : Client) :
    funcIn text buffered env (fun code ctx sub app timeoutMs =>
        .ok (call code ctx sub app timeoutMs)) =
      .ok (func text buffered { env with client := some call }) := by
  unfold funcIn
  cases hargs : blockCall text buffered env with
  | none =>
      refine congrArg Except.ok (func_client_congr fun args h => ?_)
      simp [hargs] at h
  | some args =>
      refine congrArg Except.ok (func_client_congr fun args' h => ?_)
      obtain rfl := Option.some.inj (hargs.symm.trans h)
      rfl

/-! ### The backends -/

/-- The backends of `IRerankService` that score by themselves. -/
inductive Backend
  | mockReverse
  | deterministic (scoreCandidate : Bytes → Bytes → UInt32)
  | llamaCpp (scorer : RerankRequest → Option (Bytes → UInt32))

namespace Backend

def service : Backend → RerankService
  | .mockReverse => Daemon.mockReverse
  | .deterministic scoreCandidate => Daemon.deterministic Binary32.greater scoreCandidate
  | .llamaCpp scorer => Daemon.llamaCpp Binary32.greater scorer

end Backend

/-- Positions in the order of the scores of the candidates: greater scores first,
and of two equal ones the candidate that came first. -/
def RanksBy (score : Bytes → UInt32) (cands : List Bytes) (order : List Nat) : Prop :=
  Ranks cands.length
    (fun i j => Binary32.greater (score (cands.getD i [])) (score (cands.getD j []))) order

/-- How a backend orders the candidates of a request. -/
def Backend.Puts (req : RerankRequest) (order : List Nat) : Backend → Prop
  | .mockReverse => order = (List.range req.candidates.length).reverse
  | .deterministic scoreCandidate =>
    RanksBy (fun cand => scoreCandidate cand req.contextBefore) req.candidates order
  | .llamaCpp scorer =>
    match scorer req with
    | some score => RanksBy score req.candidates order
    | none => order = List.range req.candidates.length

theorem Backend.Puts.perm {backend : Backend} {req : RerankRequest} {order : List Nat}
    (h : backend.Puts req order) : order.Perm (List.range req.candidates.length) := by
  cases backend with
  | mockReverse =>
      obtain rfl := h
      exact List.reverse_perm _
  | deterministic scoreCandidate => exact Ranks.perm h
  | llamaCpp scorer =>
      rw [Backend.Puts] at h
      cases hscore : scorer req with
      | none =>
          rw [hscore] at h
          rw [h]
      | some score =>
          rw [hscore] at h
          exact Ranks.perm h

/-! ### The call -/

/-- `DafengClient::Rerank` ended so, in some run of a client and its server; `none` is
the end of the client's process. -/
def Ended (mp : Unpacker) (reranker : RerankService) (req : RerankRequest)
    (outcome : Option Outcome) : Prop :=
  ∃ s, (Session.system mp reranker).Reachable s ∧ ∃ k, s.calls[k]? = some (.rerank req) ∧
    match outcome with
    | some outcome => (k, outcome) ∈ s.returned
    | none => s.phase = .killed k

/-- A request has no more candidates than bytes. -/
theorem candidates_le (req : RerankRequest) :
    req.candidates.length ≤ (encodeBody (.rerankRequest req)).length := by
  have hcands : req.candidates.length ≤ (req.candidates.flatMap packStr).length := by
    have hle := length_le_packAll (req.candidates.map .str)
    rw [packAll_eq, List.flatMap_map, List.length_map] at hle
    exact hle
  simp only [encodeBody, encodeRerankRequest, packVector, List.flatten_cons, List.length_append]
  omega

/-- A reply is the backend's answer to this request, which fitted into a frame. -/
theorem Ended.reply {mp : Unpacker} {reranker : RerankService} {req : RerankRequest}
    {reply : Message} (h : Ended mp reranker req (some (.replied reply))) :
    req.candidates.length ≤ kMaxFrameBodyBytes ∧ ∃ id latencyUs, reply =
      .rerankResponse (reranker.rerank { req with requestId := id } latencyUs) := by
  obtain ⟨s, hs, k, hcall, hmem⟩ := h
  obtain ⟨c, pos, call, id, hcall', -, hserved⟩ := allOwn_of_reachable hs k reply hmem
  have hmem := List.mem_of_getElem? hserved
  obtain ⟨hans, -⟩ := ((inv_of_reachable hs).conns c).served _ hmem
  have hcap := served_within_cap hs c _ hmem
  rw [hcall] at hcall'
  obtain rfl := Option.some.inj hcall'
  obtain ⟨latencyUs, hreply⟩ := hans
  exact ⟨Nat.le_trans (candidates_le { req with requestId := id }) hcap, id, latencyUs, hreply⟩

section Filter

variable {α : Type} {text : α → Option Bytes} {buffered : List α} {env : Env} {m : Int64}

/-- The request of the filter for the block between `p` and `e`. -/
def blockRequest (text : α → Option Bytes) (block : List α) (env : Env) : RerankRequest :=
  bridgeRequest (env.input.getD []) env.context (block.map fun cand => (text cand).getD []) []

/-- The bridge has its client, its allocations succeed, and the client returned the
daemon's answer in time. -/
structure Answered (bridge : Bridge) (outcome : Option Outcome) : Prop where
  present : bridge.present = true
  pointers : bridge.pointers = true
  copied : bridge.copied = true
  replied : ∃ resp, outcome = some (.replied (.rerankResponse resp))

/-- What is to be yielded around the block between `p` and `e`: the block in the order of
the backend, where an answer came, and else all candidates as they were. -/
structure Reranks (backend : Backend) (req : RerankRequest) (answered : Prop) (buffered : List α)
    (p e : Nat) (yielded : List (Option α)) : Prop where
  inOrder : answered → ∃ id order, backend.Puts { req with requestId := id } order ∧
    yielded = (buffered.take p).map some ++ order.map (((buffered.take e).drop p)[·]?) ++
      (buffered.drop e).map some
  asBefore : ¬ answered → yielded = buffered.map some

/-- No candidate is lost or added. -/
theorem Reranks.length {backend : Backend} {answered : Prop} {p e : Nat}
    {yielded : List (Option α)} (hpe : p ≤ e) (he : e ≤ buffered.length)
    (h : Reranks backend (blockRequest text ((buffered.take e).drop p) env) answered buffered p e
      yielded) : yielded.length = buffered.length := by
  by_cases hanswered : answered
  · obtain ⟨id, order, hputs, rfl⟩ := h.inOrder hanswered
    have hlen := hputs.perm.length_eq
    simp only [blockRequest, bridgeRequest, List.length_map, List.length_range, List.length_drop,
      List.length_take] at hlen
    simp only [List.length_append, List.length_map, List.length_take, List.length_drop, hlen]
    omega
  · rw [h.asBefore hanswered, List.length_map]

end Filter

/-- `Rerank` as in that run. -/
def answered (req : RerankRequest) (_ : Int) : Option Outcome :=
  some (.replied (.rerankResponse (mockReverse.rerank { req with requestId := 1 } 5)))

end Dafeng.Plugin
