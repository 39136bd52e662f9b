import Dafeng.Daemon.Services
import Dafeng.Endpoint.Unix

/-!
# Dafeng.Daemon.Server

`src/daemon/server.cc`: the shared counters, the dispatch of one message and the
connection loop of a worker.

The workers of a server share its counters and its commit logger, and each
message a worker handles finds them as the other workers left them. A message is
dispatched in one step; the several relaxed loads of `GetStats` read one state.
-/

namespace Dafeng.Daemon

open Dafeng.Msgpack Dafeng.Protocol Dafeng.Endpoint

/-- The counters of a `Server`, and the events handed to its commit logger. -/
structure ServerState where
  rerankCount : UInt64 := 0
  pingCount : UInt64 := 0
  commitCount : UInt64 := 0
  errorCount : UInt64 := 0
  rerankLatencySumUs : UInt64 := 0
  rerankLatencyMaxUs : UInt32 := 0
  rerankModelVersion : UInt8 := 0
  recorded : List CommitEvent := []
  deriving DecidableEq, Repr

/-- What the clock contributes to the handling of one message. -/
structure Moment where
  latencyUs : UInt32
  uptimeSec : UInt64
  deriving DecidableEq, Repr

/-- `Server::GetStats`. -/
def getStats (st : ServerState) (now : Moment) : StatsResponse where
  rerankCount := st.rerankCount
  pingCount := st.pingCount
  commitCount := st.commitCount
  errorCount := st.errorCount
  rerankLatencySumUs := st.rerankLatencySumUs
  rerankLatencyMaxUs := st.rerankLatencyMaxUs
  rerankModelVersion := st.rerankModelVersion
  uptimeSec := now.uptimeSec

/-- The part of `HandleConnection` between the decoding of a message and the
writing of its reply. -/
def dispatch (reranker : RerankService) (now : Moment) (st : ServerState) :
    Message → ServerState × Option Message
  | .rerankRequest req =>
    let resp := reranker.rerank req now.latencyUs
    ({ st with
        rerankCount := st.rerankCount + 1
        rerankLatencySumUs := st.rerankLatencySumUs + resp.latencyUs.toUInt64
        rerankLatencyMaxUs := max st.rerankLatencyMaxUs resp.latencyUs
        rerankModelVersion := resp.modelVersion },
      some (.rerankResponse resp))
  | .ping ping =>
    ({ st with pingCount := st.pingCount + 1 }, some (.pong { requestId := ping.requestId }))
  | .commitEvent ev =>
    ({ st with recorded := st.recorded ++ [ev], commitCount := st.commitCount + 1 }, none)
  | .statsRequest sreq =>
    (st, some (.statsResponse { getStats st now with requestId := sreq.requestId }))
  | _ => ({ st with errorCount := st.errorCount + 1 }, none)

/-- What surrounds the handling of one message: the clock, and what the other
workers did to the shared state since this worker last touched it. -/
structure Surroundings where
  now : Moment
  others : ServerState → ServerState

/-- `Server::HandleConnection`. The `n`-th message is handled in the
surroundings `env n`; `fuel` bounds the turns of the loop, and `none` is a loop
that was cut off. -/
def handleConnection (mp : Unpacker) (reranker : RerankService) (env : Nat → Surroundings) :
    Nat → Nat → ServerState → UnixConnection → Option (ServerState × UnixConnection)
  | 0, _, _, _ => none
  | fuel + 1, n, st, conn =>
    if !conn.isConnected then some (st, conn.close)
    else
      match conn.readFull kFrameHeaderBytes with
      | (none, conn) => some (st, conn.close)
      | (some header, conn) =>
        match readFrameLength header with
        | none => some (st, conn.close)
        | some len =>
          match conn.readFull len.toNat with
          | (none, conn) => some (st, conn.close)
          | (some body, conn) =>
            match decodeBody mp body with
            | none => some (st, conn.close)
            | some msg =>
              match dispatch reranker (env n).now ((env n).others st) msg with
              | (st, none) => handleConnection mp reranker env fuel (n + 1) st conn
              | (st, some reply) =>
                match conn.writeAll (encodeFrame (encodeBody reply)) with
                | (false, conn) => some (st, conn.close)
                | (true, conn) => handleConnection mp reranker env fuel (n + 1) st conn

/-! ### What a message asks for -/

/-- The server answers requests, and nothing else. -/
def wantsReply : Message → Bool
  | .rerankRequest _ | .ping _ | .statsRequest _ => true
  | _ => false

/-- A reply of the right kind, with the id of the request. A rerank reply is the
backend's answer to that very request. -/
def Answers (reranker : RerankService) : Message → Message → Prop
  | .rerankRequest req, reply =>
    ∃ latencyUs, reply = .rerankResponse (reranker.rerank req latencyUs)
  | .ping ping, reply => reply = .pong { requestId := ping.requestId }
  | .statsRequest sreq, reply =>
    ∃ stats : StatsResponse, reply = .statsResponse stats ∧ stats.requestId = sreq.requestId
  | _, _ => False

/-- The id a message carries. -/
def requestId : Message → UInt32
  | .rerankRequest m => m.requestId
  | .rerankResponse m => m.requestId
  | .commitEvent _ => 0
  | .ping m => m.requestId
  | .pong m => m.requestId
  | .error m => m.requestId
  | .statsRequest m => m.requestId
  | .statsResponse m => m.requestId

theorem Answers.requestId_eq {reranker : RerankService} {m reply : Message}
    (h : Answers reranker m reply) : requestId reply = requestId m := by
  cases m with
  | rerankRequest req =>
      obtain ⟨latencyUs, rfl⟩ := h
      exact reranker.rerank_requestId req latencyUs
  | ping ping => rw [h, requestId, requestId]
  | statsRequest sreq =>
      obtain ⟨stats, rfl, hid⟩ := h
      exact hid
  | rerankResponse m => exact h.elim
  | commitEvent m => exact h.elim
  | pong m => exact h.elim
  | error m => exact h.elim
  | statsResponse m => exact h.elim

section Dispatch

variable {reranker : RerankService} {now : Moment} {st : ServerState} {m : Message}

/-- A message that wants a reply gets its answer. -/
theorem dispatch_answers {reply : Message} (h : (dispatch reranker now st m).2 = some reply) :
    wantsReply m ∧ Answers reranker m reply := by
  cases m with
  | rerankRequest req => exact ⟨rfl, now.latencyUs, (Option.some.inj h).symm⟩
  | ping ping => exact ⟨rfl, (Option.some.inj h).symm⟩
  | statsRequest sreq => exact ⟨rfl, _, (Option.some.inj h).symm, rfl⟩
  | rerankResponse m => simp [dispatch] at h
  | commitEvent m => simp [dispatch] at h
  | pong m => simp [dispatch] at h
  | error m => simp [dispatch] at h
  | statsResponse m => simp [dispatch] at h

theorem dispatch_silent_iff : (dispatch reranker now st m).2 = none ↔ wantsReply m = false := by
  cases m <;> simp [dispatch, wantsReply]

/-- A reply to an encodable request is encodable. -/
theorem dispatch_encodable {reply : Message} (hm : encodable m)
    (h : (dispatch reranker now st m).2 = some reply) : encodable reply := by
  cases m with
  | rerankRequest req =>
      obtain rfl := Option.some.inj h
      have hind := reranker.rerank_indices req now.latencyUs
      have hsco := reranker.rerank_scores req now.latencyUs
      simp only [encodable, fits, Bool.and_eq_true, decide_eq_true_eq] at hm ⊢
      omega
  | ping ping =>
      obtain rfl := Option.some.inj h
      rfl
  | statsRequest sreq =>
      obtain rfl := Option.some.inj h
      rfl
  | rerankResponse m => simp [dispatch] at h
  | commitEvent m => simp [dispatch] at h
  | pong m => simp [dispatch] at h
  | error m => simp [dispatch] at h
  | statsResponse m => simp [dispatch] at h

end Dispatch

end Dafeng.Daemon
