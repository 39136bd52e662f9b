import Mathlib.Data.List.Forall2
import Dafeng.Daemon.Server
import Dafeng.Protocol.Frame

/-!
# Dafeng.Daemon.ServerStream

What a connection's worker does with a whole byte stream.

`serve` is the abstract server: a fold over messages. A worker that is not
disturbed by a timeout or an error refines it on the messages that
`parseFrames` finds in the stream, however the operating system cuts the reads
and writes (`handleConnection_eq_serve`).
-/

namespace Dafeng.Daemon

open Dafeng.Msgpack Dafeng.Protocol Dafeng.Endpoint

section Serve

variable (reranker : RerankService) (env : Nat → Surroundings)

/-- The server on a list of messages, the first of which is its `n`-th: the
final state and the replies in order. -/
def serve : Nat → ServerState → List Message → ServerState × List Message
  | _, st, [] => (st, [])
  | n, st, m :: ms =>
    let handled := dispatch reranker (env n).now ((env n).others st) m
    let rest := serve (n + 1) handled.1 ms
    (rest.1, handled.2.toList ++ rest.2)

/-- One answer for each message that wants one, in the order of the messages. -/
theorem serve_answers (n : Nat) (st : ServerState) (ms : List Message) :
    List.Forall₂ (Answers reranker) (ms.filter wantsReply) (serve reranker env n st ms).2 := by
  induction ms generalizing n st with
  | nil => exact .nil
  | cons m ms ih =>
      rw [serve]
      dsimp only
      cases hreply : (dispatch reranker (env n).now ((env n).others st) m).2 with
      | none =>
          rw [List.filter_cons_of_neg (by simp [dispatch_silent_iff.mp hreply])]
          exact ih _ _
      | some reply =>
          obtain ⟨hwants, hans⟩ := dispatch_answers hreply
          rw [List.filter_cons_of_pos hwants]
          exact .cons hans (ih _ _)

end Serve

section Worker

variable (mp : Unpacker) (reranker : RerankService) (env : Nat → Surroundings)

/-- A worker that finds no acceptable frame stops where it is. -/
theorem handleConnection_stop (fuel n : Nat) (st : ServerState) {conn : UnixConnection}
    (hopen : conn.isConnected) (h : Undisturbed conn.turns (conn.inbox.length + 1))
    (hnext : nextFrame mp conn.inbox = none) :
    ∃ conn', handleConnection mp reranker env (fuel + 1) n st conn = some (st, conn') ∧
      conn'.outbox = conn.outbox ∧ conn'.isConnected = false := by
  unfold nextFrame at hnext
  unfold handleConnection
  rw [if_neg (by simp [hopen])]
  split_ifs at hnext with hshort
  · -- an incomplete header
    obtain ⟨conn', hread, hout⟩ := readFull_eof conn kFrameHeaderBytes hopen h hshort
    rw [hread]
    exact ⟨_, rfl, hout, rfl⟩
  · obtain ⟨turns, hread, hleft⟩ :=
      readFull_undisturbed conn kFrameHeaderBytes hopen h (by omega) (by omega)
    rw [hread]
    dsimp only at hnext ⊢
    cases hlen : readFrameLength (conn.inbox.take kFrameHeaderBytes) with
    | none => exact ⟨_, rfl, rfl, rfl⟩
    | some len =>
        rw [hlen] at hnext
        dsimp only at hnext ⊢
        have hdrop := List.length_drop (i := kFrameHeaderBytes) (l := conn.inbox)
        split_ifs at hnext with htail
        · -- an incomplete body
          obtain ⟨conn', hbody, hout⟩ := readFull_eof { conn with
            inbox := conn.inbox.drop kFrameHeaderBytes, turns := turns } len.toNat
            hopen (hleft.mono (by dsimp only; omega)) htail
          rw [hbody]
          exact ⟨_, rfl, hout, rfl⟩
        · obtain ⟨turns', hbody, -⟩ := readFull_undisturbed { conn with
            inbox := conn.inbox.drop kFrameHeaderBytes, turns := turns } len.toNat
            hopen hleft (by dsimp only; omega) (by omega)
          rw [hbody]
          dsimp only
          rw [Option.map_eq_none_iff.mp hnext]
          exact ⟨_, rfl, rfl, rfl⟩

/-- A worker that finds a frame takes it, dispatches its message, and writes the
reply if there is one. -/
theorem handleConnection_step (fuel : Nat) {n k : Nat} {st : ServerState} {conn : UnixConnection}
    {m : Message} {rest : Bytes} (hopen : conn.isConnected)
    (hnext : nextFrame mp conn.inbox = some (m, rest))
    (h : Undisturbed conn.turns (conn.inbox.length + (frames
      (dispatch reranker (env n).now ((env n).others st) m).2.toList).length + k)) :
    ∃ turns, handleConnection mp reranker env (fuel + 1) n st conn =
        handleConnection mp reranker env fuel (n + 1)
          (dispatch reranker (env n).now ((env n).others st) m).1
          { conn with
            inbox := rest
            outbox := conn.outbox ++
              frames (dispatch reranker (env n).now ((env n).others st) m).2.toList
            turns := turns } ∧
      Undisturbed turns (rest.length + k) := by
  obtain ⟨header, len, body, hheader, hlen, hbodyLen, hdec, hinbox⟩ :=
    (nextFrame_eq_some_iff mp).mp hnext
  have hlength : conn.inbox.length = kFrameHeaderBytes + (len.toNat + rest.length) := by
    rw [hinbox, List.length_append, List.length_append, hheader, hbodyLen]
  -- the header, then the body
  have htake : conn.inbox.take kFrameHeaderBytes = header := by
    rw [hinbox, ← hheader, List.take_left]
  have hdrop : conn.inbox.drop kFrameHeaderBytes = body ++ rest := by
    rw [hinbox, ← hheader, List.drop_left]
  obtain ⟨turns₁, hread, hleft₁⟩ :=
    readFull_undisturbed conn kFrameHeaderBytes hopen h (by omega) (by omega)
  rw [htake, hdrop] at hread
  obtain ⟨turns₂, hbody, hleft₂⟩ := readFull_undisturbed
    { conn with inbox := body ++ rest, turns := turns₁ } len.toNat hopen hleft₁
    (by dsimp only; rw [List.length_append]; omega) (by omega)
  dsimp only at hbody
  rw [← hbodyLen, List.take_left, List.drop_left] at hbody
  rw [handleConnection, if_neg (by simp [hopen]), hread]
  dsimp only
  rw [hlen]
  dsimp only
  rw [← hbodyLen, hbody]
  dsimp only
  rw [hdec]
  dsimp only
  cases hdisp : dispatch reranker (env n).now ((env n).others st) m with
  | mk st' reply =>
      rw [hdisp] at hleft₂
      cases reply with
      | none =>
          refine ⟨turns₂, by simp, hleft₂.mono ?_⟩
          simp only [Option.toList_none, frames_nil, List.length_nil]
          omega
      | some reply =>
          obtain ⟨turns₃, hwrite, hleft₃⟩ := writeAll_undisturbed
            { conn with inbox := rest, turns := turns₂ } (frameOf reply) hopen hleft₂
            (by simp only [Option.toList_some, frames_cons, frames_nil, List.append_nil]
                omega)
          dsimp only
          rw [show encodeFrame (encodeBody reply) = frameOf reply from rfl, hwrite]
          refine ⟨turns₃, by simp, hleft₃.mono ?_⟩
          simp only [Option.toList_some, frames_cons, frames_nil, List.append_nil]
          omega

/-- **Refinement.** An undisturbed worker serves the messages of the stream. -/
theorem handleConnection_eq_serve (fuel n : Nat) (st : ServerState) (conn : UnixConnection)
    (hopen : conn.isConnected) (hfuel : conn.inbox.length < fuel)
    (h : Undisturbed conn.turns (conn.inbox.length +
      (frames (serve reranker env n st (parseFrames mp conn.inbox)).2).length + 1)) :
    ∃ conn', handleConnection mp reranker env fuel n st conn =
        some ((serve reranker env n st (parseFrames mp conn.inbox)).1, conn') ∧
      conn'.outbox =
        conn.outbox ++ frames (serve reranker env n st (parseFrames mp conn.inbox)).2 ∧
      conn'.isConnected = false := by
  induction fuel generalizing n st conn with
  | zero => omega
  | succ fuel ih =>
      cases hnext : nextFrame mp conn.inbox with
      | none =>
          rw [parseFrames_of_none mp hnext, serve] at h ⊢
          obtain ⟨conn', hrun, hout, hclosed⟩ :=
            handleConnection_stop mp reranker env fuel n st hopen
              (h.mono (by simp)) hnext
          exact ⟨conn', hrun, by simp [hout], hclosed⟩
      | some p =>
          obtain ⟨m, rest⟩ := p
          have hshorter := nextFrame_length mp hnext
          simp only [kFrameHeaderBytes] at hshorter
          rw [parseFrames_of_some mp hnext, serve] at h ⊢
          dsimp only at h ⊢
          rw [frames_append, List.length_append, ← Nat.add_assoc, Nat.add_assoc] at h
          obtain ⟨turns, hrun, hleft⟩ :=
            handleConnection_step mp reranker env fuel hopen hnext h
          obtain ⟨conn', hserve, hout, hclosed⟩ := ih (n + 1)
            (dispatch reranker (env n).now ((env n).others st) m).1 { conn with
              inbox := rest
              outbox := conn.outbox ++
                frames (dispatch reranker (env n).now ((env n).others st) m).2.toList
              turns := turns } hopen (by dsimp only; omega)
            (hleft.mono (by dsimp only; omega))
          refine ⟨conn', hrun.trans hserve, ?_, hclosed⟩
          rw [hout, frames_append, List.append_assoc]

/-- **The stream semantics of a connection.** Undisturbed, a worker returns; it
has dispatched the acceptable frames of the stream in order and stopped there;
it has written one reply frame for each request, with the request's id, and
nothing else. Frames of messages within the cap are all acceptable. -/
theorem handleConnection_stream (st : ServerState) (stream : Bytes) (turns : List Turn)
    (h : Undisturbed turns (stream.length +
      (frames (serve reranker env 0 st (parseFrames mp stream)).2).length + 1)) :
    (∀ fuel, stream.length < fuel →
      ∃ conn', handleConnection mp reranker env fuel 0 st ⟨true, stream, [], turns⟩ =
          some ((serve reranker env 0 st (parseFrames mp stream)).1, conn') ∧
        conn'.outbox = frames (serve reranker env 0 st (parseFrames mp stream)).2) ∧
    List.Forall₂ (fun m reply => Answers reranker m reply ∧ requestId reply = requestId m)
      ((parseFrames mp stream).filter wantsReply)
      (serve reranker env 0 st (parseFrames mp stream)).2 ∧
    ∀ ms : List Message, (∀ m ∈ ms, (encodeBody m).length ≤ kMaxFrameBodyBytes) →
      parseFrames mp (frames ms) = ms := by
  refine ⟨?_, ?_, ?_⟩
  · intro fuel hfuel
    obtain ⟨conn', hrun, hout, -⟩ :=
      handleConnection_eq_serve mp reranker env fuel 0 st ⟨true, stream, [], turns⟩ rfl hfuel h
    exact ⟨conn', hrun, by simpa using hout⟩
  · exact (serve_answers reranker env 0 st _).imp fun m reply ha => ⟨ha, ha.requestId_eq⟩
  · intro ms hms
    have hnil : nextFrame mp [] = none := rfl
    have := parseFrames_frames mp hms []
    rwa [List.append_nil, parseFrames_of_none mp hnil, List.append_nil] at this

end Worker

/-- A ping and then a header of zero length, read in pieces of up to three bytes
between interruptions: one pong, and the rest is not processed. -/
theorem handleConnection_stream_ping :
    let stream := frames [.ping { requestId := 7 }] ++ [0, 0, 0, 0, 0x93]
    let turns := [.pollInterrupted, .tryAgain] ++ List.replicate 60 (Turn.transfer 3)
    let env : Nat → Surroundings := fun _ => ⟨⟨5, 60⟩, id⟩
    ∃ conn', handleConnection .reference mockReverse env 100 0 {} ⟨true, stream, [], turns⟩ =
        some ({ pingCount := 1 }, conn') ∧
      conn'.outbox = frameOf (.pong { requestId := 7 }) := by
  intro stream turns env
  have hparse : parseFrames .reference stream = [.ping { requestId := 7 }] := by
    have hstop : nextFrame .reference [0, 0, 0, 0, 0x93] = none := by decide
    rw [parseFrames_frames .reference (by decide), parseFrames_of_none _ hstop]
    rfl
  have hturns : Undisturbed turns (stream.length + (frames
      (serve mockReverse env 0 {} (parseFrames .reference stream)).2).length + 1) := by
    rw [hparse]
    exact ⟨by decide, by decide⟩
  have hrun := (handleConnection_stream .reference mockReverse env {} stream turns hturns).1 100
  rw [hparse] at hrun
  exact hrun (by decide)

end Dafeng.Daemon
