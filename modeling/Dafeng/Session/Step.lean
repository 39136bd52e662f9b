import Mathlib.Tactic.SplitIfs
import Dafeng.Session.Model

/-!
# Dafeng.Session.Step

What a step can do, said once: `Step` lists the enabled steps with their guards
and results, and `step_cases` inverts the step function into it.
-/

namespace Dafeng.Session

open Dafeng.Msgpack Dafeng.Protocol Dafeng.Daemon

/-- The call that is reading or writing. -/
def Phase.active : Phase → Option Active
  | .writing a _ | .awaitHeader a | .awaitBody a _ => some a
  | _ => none

/-- The enabled steps. -/
inductive Step (mp : Unpacker) (reranker : RerankService) (s : State) : Label → State → Prop
  | callHeld {call : Call} {c : Nat} (hphase : s.phase = .idle) (hheld : s.held = some c) :
    Step mp reranker s (.call call)
      (State.start { s with calls := s.calls ++ [call] } c s.calls.length call)
  | callUnheld {call : Call} (hphase : s.phase = .idle) (hheld : s.held = none) :
    Step mp reranker s (.call call)
      { s with calls := s.calls ++ [call], phase := .connecting s.calls.length call }
  | connect {callId : Nat} {call : Call} (hphase : s.phase = .connecting callId call) :
    Step mp reranker s .connect (s.connected.start s.nextConn callId call)
  | connectFails {callId : Nat} {call : Call} (hphase : s.phase = .connecting callId call) :
    Step mp reranker s .connectFails (s.finish callId .failed)
  | writeMore {a : Active} {rest : Bytes} {c n : Nat} (hphase : s.phase = .writing a rest)
    (hheld : s.held = some c) (hopen : (s.conns c).worker.isOpen) (hrest : rest.drop n ≠ []) :
    Step mp reranker s (.write n)
      { s.setConn c (·.push (rest.take n)) with phase := .writing a (rest.drop n) }
  | writeCommit {a : Active} {rest : Bytes} {c n : Nat} (hphase : s.phase = .writing a rest)
    (hheld : s.held = some c) (hopen : (s.conns c).worker.isOpen) (hrest : rest.drop n = [])
    (hcommit : a.call.isCommit = true) :
    Step mp reranker s (.write n)
      ((s.setConn c (·.push (rest.take n))).finish a.callId .written)
  | writeRequest {a : Active} {rest : Bytes} {c n : Nat} (hphase : s.phase = .writing a rest)
    (hheld : s.held = some c) (hopen : (s.conns c).worker.isOpen) (hrest : rest.drop n = [])
    (hcommit : a.call.isCommit = false) :
    Step mp reranker s (.write n)
      { s.setConn c (·.push (rest.take n)) with phase := .awaitHeader a }
  | readHeader {a : Active} {c : Nat} {len : UInt32} (hphase : s.phase = .awaitHeader a)
    (hheld : s.held = some c) (hdown : kFrameHeaderBytes ≤ (s.conns c).down.length)
    (hlen : readFrameLength ((s.conns c).down.take kFrameHeaderBytes) = some len) :
    Step mp reranker s .readHeader
      { s.setConn c (·.pull kFrameHeaderBytes) with phase := .awaitBody a len }
  | readBody {a : Active} {c : Nat} {len : UInt32} {reply : Message}
    (hphase : s.phase = .awaitBody a len) (hheld : s.held = some c)
    (hdown : len.toNat ≤ (s.conns c).down.length)
    (hdec : decodeBody mp ((s.conns c).down.take len.toNat) = some reply)
    (haccepts : a.call.accepts a.requestId reply) :
    Step mp reranker s .readBody
      ((s.setConn c (·.pull len.toNat)).finish a.callId (.replied reply))
  | readReset {a : Active} {c n : Nat} {l : Label} (hl : l = .readHeader ∨ l = .readBody)
    (hphase : s.phase = .awaitHeader a ∧ kFrameHeaderBytes ≤ (s.conns c).down.length ∨
      ∃ len, s.phase = .awaitBody a len) (hheld : s.held = some c) :
    Step mp reranker s l ((s.setConn c (·.pull n)).reset.finish a.callId .failed)
  | fail {a : Active} {l : Label} (hl : l = .timeout ∨ l = .fail ∧ s.heldClosed)
    (hphase : s.phase.active = some a) :
    Step mp reranker s l (s.reset.finish a.callId .failed)
  | sigpipe {a : Active} {rest : Bytes} (hclosed : s.heldClosed)
    (hphase : s.phase = .writing a rest) :
    Step mp reranker s .sigpipe { s.reset with phase := .killed a.callId }
  | resetConnection (hphase : s.phase = .idle) : Step mp reranker s .resetConnection s.reset
  | serverHeader {c since : Nat} (hworker : (s.conns c).worker = .awaitHeader since)
    (hup : kFrameHeaderBytes ≤ (s.conns c).up.length) :
    Step mp reranker s (.serverHeader c) (s.setConn c Conn.takeHeader)
  | serverReject {c : Nat} {len : UInt32} {moment : Moment}
    (hworker : (s.conns c).worker = .awaitBody len)
    (hup : len.toNat ≤ (s.conns c).up.length)
    (hdec : decodeBody mp ((s.conns c).up.take len.toNat) = none) :
    Step mp reranker s (.serverBody c moment) (s.setConn c (·.rejectBody len.toNat))
  | serverBody {c : Nat} {len : UInt32} {moment : Moment} {msg : Message}
    (hworker : (s.conns c).worker = .awaitBody len)
    (hup : len.toNat ≤ (s.conns c).up.length)
    (hdec : decodeBody mp ((s.conns c).up.take len.toNat) = some msg) :
    Step mp reranker s (.serverBody c moment)
      { s.setConn c
          (·.takeBody len.toNat s.now msg (dispatch reranker moment s.server msg).2) with
        server := (dispatch reranker moment s.server msg).1
        handed := s.handed ++ handing c (s.conns c).served.length msg }
  | serverWrite {c n : Nat} {rest : Bytes} (hworker : (s.conns c).worker = .replying rest)
    (hopen : (s.conns c).clientOpen) :
    Step mp reranker s (.serverWrite c n) (s.setConn c (·.putReply n s.now rest))
  | serverClose {c : Nat} {why : CloseReason} :
    Step mp reranker s (.serverClose c why) (s.setConn c (·.closeWorker why))
  | restart :
    Step mp reranker s .restart
      { s with
        conns := fun c => (s.conns c).closeWorker .stopped
        server := { recorded := s.server.recorded } }
  | elapse {ms : Nat} : Step mp reranker s (.elapse ms) { s with now := s.now + ms }

section Inversion

variable {mp : Unpacker} {reranker : RerankService} {s s' : State}

theorem clientWrite_cases {n : Nat} (h : clientWrite s n = some s') :
    Step mp reranker s (.write n) s' := by
  unfold clientWrite at h
  split at h
  · rename_i a rest c hphase hheld
    split_ifs at h with hguard hrest hcommit <;> obtain rfl := Option.some.inj h
    · exact .writeMore hphase hheld hguard.1 hrest
    · exact .writeCommit hphase hheld hguard.1 (not_not.mp hrest) hcommit
    · exact .writeRequest hphase hheld hguard.1 (not_not.mp hrest) (Bool.eq_false_iff.mpr hcommit)
  · exact absurd h (by simp)

theorem clientReadHeader_cases (h : clientReadHeader s = some s') :
    Step mp reranker s .readHeader s' := by
  unfold clientReadHeader at h
  split at h
  · rename_i a c hphase hheld
    dsimp only at h
    split_ifs at h with hdown
    split at h <;> obtain rfl := Option.some.inj h
    · exact .readReset (.inl rfl) (.inl ⟨hphase, hdown⟩) hheld
    · rename_i len hlen
      exact .readHeader hphase hheld hdown hlen
  · exact absurd h (by simp)

theorem clientReadBody_cases (h : clientReadBody mp s = some s') :
    Step mp reranker s .readBody s' := by
  unfold clientReadBody at h
  split at h
  · rename_i a len c hphase hheld
    dsimp only at h
    split_ifs at h with hdown
    split at h
    · obtain rfl := Option.some.inj h
      exact .readReset (.inr rfl) (.inr ⟨len, hphase⟩) hheld
    · rename_i reply hdec
      split_ifs at h with haccepts <;> obtain rfl := Option.some.inj h
      · exact .readBody hphase hheld hdown hdec haccepts
      · exact .readReset (.inr rfl) (.inr ⟨len, hphase⟩) hheld
  · exact absurd h (by simp)

theorem clientFail_cases {l : Label} (hl : l = .timeout ∨ l = .fail ∧ s.heldClosed)
    (h : clientFail s = some s') : Step mp reranker s l s' := by
  unfold clientFail at h
  split at h
  · rename_i a rest hphase
    obtain rfl := Option.some.inj h
    exact .fail hl (by rw [hphase, Phase.active])
  · rename_i a hphase
    obtain rfl := Option.some.inj h
    exact .fail hl (by rw [hphase, Phase.active])
  · rename_i a len hphase
    obtain rfl := Option.some.inj h
    exact .fail hl (by rw [hphase, Phase.active])
  · exact absurd h (by simp)

theorem clientKilled_cases (hclosed : s.heldClosed) (h : clientKilled s = some s') :
    Step mp reranker s .sigpipe s' := by
  unfold clientKilled at h
  split at h
  · rename_i a rest hphase
    obtain rfl := Option.some.inj h
    exact .sigpipe hclosed hphase
  · exact absurd h (by simp)

theorem serverHeader_cases {c : Nat} (h : serverHeader s c = some s') :
    Step mp reranker s (.serverHeader c) s' := by
  unfold serverHeader at h
  split at h
  · rename_i since hworker
    split_ifs at h with hup
    obtain rfl := Option.some.inj h
    exact .serverHeader hworker hup
  · exact absurd h (by simp)

theorem serverBody_cases {c : Nat} {moment : Moment}
    (h : serverBody mp reranker s c moment = some s') :
    Step mp reranker s (.serverBody c moment) s' := by
  unfold serverBody at h
  split at h
  · rename_i len hworker
    dsimp only at h
    split_ifs at h with hup
    split at h <;> obtain rfl := Option.some.inj h
    · rename_i hdec
      exact .serverReject hworker hup hdec
    · rename_i msg hdec
      exact .serverBody hworker hup hdec
  · exact absurd h (by simp)

theorem serverWrite_cases {c n : Nat} (h : serverWrite s c n = some s') :
    Step mp reranker s (.serverWrite c n) s' := by
  unfold serverWrite at h
  split at h
  · rename_i rest hworker
    split_ifs at h with hguard
    obtain rfl := Option.some.inj h
    exact .serverWrite hworker hguard.1
  · exact absurd h (by simp)

/-- **Inversion.** An enabled step is one of the listed ones. -/
theorem step_cases {l : Label} (h : step mp reranker s l = some s') :
    Step mp reranker s l s' := by
  cases l with
  | call call =>
      rw [step] at h
      split_ifs at h with hphase
      dsimp only at h
      split at h <;> obtain rfl := Option.some.inj h
      · rename_i c hheld
        exact .callHeld hphase hheld
      · rename_i hheld
        exact .callUnheld hphase hheld
  | connect =>
      rw [step] at h
      split at h
      · rename_i callId call hphase
        obtain rfl := Option.some.inj h
        exact .connect hphase
      · exact absurd h (by simp)
  | connectFails =>
      rw [step] at h
      split at h
      · rename_i callId call hphase
        obtain rfl := Option.some.inj h
        exact .connectFails hphase
      · exact absurd h (by simp)
  | write n => exact clientWrite_cases h
  | readHeader => exact clientReadHeader_cases h
  | readBody => exact clientReadBody_cases h
  | timeout => exact clientFail_cases (.inl rfl) h
  | fail =>
      rw [step] at h
      split_ifs at h with hclosed
      exact clientFail_cases (.inr ⟨rfl, hclosed⟩) h
  | sigpipe =>
      rw [step] at h
      split_ifs at h with hclosed
      exact clientKilled_cases hclosed h
  | resetConnection =>
      rw [step] at h
      split_ifs at h with hphase
      obtain rfl := Option.some.inj h
      exact .resetConnection hphase
  | serverHeader c => exact serverHeader_cases h
  | serverBody c moment => exact serverBody_cases h
  | serverWrite c n => exact serverWrite_cases h
  | serverClose c why =>
      obtain rfl := Option.some.inj h
      exact .serverClose
  | restart =>
      obtain rfl := Option.some.inj h
      exact .restart
  | elapse ms =>
      obtain rfl := Option.some.inj h
      exact .elapse

end Inversion

end Dafeng.Session
