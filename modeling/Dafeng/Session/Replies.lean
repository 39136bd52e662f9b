import Dafeng.Session.Records

/-!
# Dafeng.Session.Replies

A reply that a call returns is the reply to the message that this very call
sent, and between calls no byte of a reply is outstanding. This holds under any
interleaving with the server, for calls that fail anywhere, and across closed
connections and restarts. `Rerank` compares no ids and does not need to.
-/

namespace Dafeng.Session

open Dafeng.Msgpack Dafeng.Protocol Dafeng.Daemon

/-- The server made `reply` for the message that the call `callId` sent. -/
def Own (s : State) (callId : Nat) (reply : Message) : Prop :=
  ∃ (c pos : Nat) (call : Call) (id : UInt32), s.calls[callId]? = some call ∧
    (s.conns c).sent[pos]? = some ⟨callId, call.message id⟩ ∧
    (s.conns c).served[pos]? = some (call.message id, some reply)

section Returned

variable {mp : Unpacker} {reranker : RerankService} {s s' : State}

theorem Own.mono {callId : Nat} {reply : Message} (h : Own s callId reply) (hg : Grows s s') :
    Own s' callId reply := by
  obtain ⟨c, pos, call, id, hcall, hsent, hserved⟩ := h
  exact ⟨c, pos, call, id, prefix_getElem? hg.calls hcall,
    prefix_getElem? (hg.conns c).sent hsent, prefix_getElem? (hg.conns c).served hserved⟩

/-- The last message sent and the last one served are at the same position when
none is pending. -/
theorem last_position {conn : Conn} (hok : conn.Ok reranker) (hnil : conn.pending = []) :
    conn.served.length = conn.sent.length := by
  have hle := hok.aligned.length_le
  have hge := List.drop_eq_nil_iff.mp hnil
  simp only [List.length_map] at hle hge
  omega

/-- The reply that a call is about to return is its own. -/
theorem own_of_body (hinv : Inv reranker s) (hrec : Records s) {a : Active} {c : Nat}
    {len : UInt32} {reply : Message} (hphase : s.phase = .awaitBody a len)
    (hheld : s.held = some c) (hdown : len.toNat ≤ (s.conns c).down.length)
    (hdec : decodeBody mp ((s.conns c).down.take len.toNat) = some reply) :
    Own s a.callId reply := by
  obtain ⟨-, hHeld⟩ := hinv.held c hheld
  rw [hphase] at hHeld
  obtain ⟨hnil, hserved, -⟩ := hHeld.body (hinv.conns c) hdown hdec
  have hsent := hHeld.last a rfl
  have hlen := last_position (hinv.conns c) hnil
  obtain ⟨call, id, hcall, hm⟩ := hrec.sent c _ (List.mem_of_getLast? hsent)
  dsimp only at hcall hm
  rw [List.getLast?_eq_getElem?] at hsent hserved
  exact ⟨c, (s.conns c).sent.length - 1, call, id, hcall, by rw [← hm]; exact hsent,
    by rw [← hm, ← hlen]; exact hserved⟩

/-- Every reply that was returned is the call's own. -/
def AllOwn (s : State) : Prop :=
  ∀ callId reply, (callId, Outcome.replied reply) ∈ s.returned → Own s callId reply

theorem finish_returned {callId k : Nat} {outcome : Outcome} {reply : Message}
    (hmem : (k, Outcome.replied reply) ∈ (s.finish callId outcome).returned) :
    (k, Outcome.replied reply) ∈ s.returned ∨ k = callId ∧ outcome = .replied reply := by
  rcases List.mem_append.mp hmem with hold | hnew
  · exact .inl hold
  · obtain ⟨rfl, rfl⟩ := Prod.mk.inj (List.mem_singleton.mp hnew)
    exact .inr ⟨rfl, rfl⟩

theorem reset_returned (s : State) : s.reset.returned = s.returned := by
  unfold State.reset
  split <;> rfl

theorem start_returned {c callId k : Nat} {call : Call} {reply : Message}
    (hmem : (k, Outcome.replied reply) ∈ (s.start c callId call).returned) :
    (k, Outcome.replied reply) ∈ s.returned := by
  unfold State.start at hmem
  dsimp only at hmem
  split at hmem
  · exact hmem
  · exact (finish_returned hmem).resolve_right (by simp)

/-- A step returns no reply but the one that `ReadFull` just completed. -/
theorem Step.returned {l : Label} (hinv : Inv reranker s) (hrec : Records s)
    (hs : Step mp reranker s l s') {k : Nat} {reply : Message}
    (hmem : (k, Outcome.replied reply) ∈ s'.returned) :
    (k, Outcome.replied reply) ∈ s.returned ∨ Own s k reply := by
  cases hs with
  | @callHeld call c hphase hheld =>
      exact .inl (start_returned (s := { s with calls := s.calls ++ [call] }) hmem)
  | connect hphase =>
      have hold := start_returned hmem
      exact .inl hold
  | connectFails hphase => exact .inl ((finish_returned hmem).resolve_right (by simp))
  | @writeCommit a rest c n =>
      exact .inl ((finish_returned (s := s.setConn c _) hmem).resolve_right (by simp))
  | @readBody a c len reply' hphase hheld hdown hdec haccepts =>
      rcases finish_returned (s := s.setConn c _) hmem with hold | ⟨rfl, hreply⟩
      · exact .inl hold
      · obtain rfl := Outcome.replied.inj hreply
        exact .inr (own_of_body hinv hrec hphase hheld hdown hdec)
  | @readReset a c n =>
      have hold := (finish_returned (s := (s.setConn c (·.pull n)).reset) hmem).resolve_right
        (by simp)
      rw [reset_returned] at hold
      exact .inl hold
  | fail hl hphase =>
      have hold := (finish_returned (s := s.reset) hmem).resolve_right (by simp)
      rw [reset_returned] at hold
      exact .inl hold
  | sigpipe hclosed hphase =>
      have hold : (k, Outcome.replied reply) ∈ s.reset.returned := hmem
      rw [reset_returned] at hold
      exact .inl hold
  | resetConnection hphase =>
      rw [reset_returned] at hmem
      exact .inl hmem
  | _ => exact .inl hmem

theorem AllOwn.step {l : Label} (hinv : Inv reranker s) (hrec : Records s) (h : AllOwn s)
    (hs : Step mp reranker s l s') : AllOwn s' := by
  intro k reply hmem
  rcases hs.returned hinv hrec hmem with hold | hown
  · exact (h k reply hold).mono (hs.grows hinv)
  · exact hown.mono (hs.grows hinv)

theorem allOwn_of_reachable (h : (system mp reranker).Reachable s) : AllOwn s :=
  h.invariant (by simp [AllOwn, system]) fun hs hall hl =>
    hall.step (inv_of_reachable hs) (records_of_reachable hs) (step_cases hl)

/-- A call whose message was answered returns the id it assigned. -/
theorem Call.requestId_of_answers {call : Call} {id : UInt32} {reply : Message}
    (h : Answers reranker (call.message id) reply) : requestId reply = id := by
  rw [h.requestId_eq]
  cases call with
  | recordCommit ev => exact h.elim
  | _ => rfl

/-- **Replies are not mixed up.** A reply that a call returned was made by the
server for the one message that this call sent; it carries the id the call
assigned and answers the call's own request. Between calls the client holds no
connection or one on which no reply byte is outstanding and none will come. -/
theorem returned_reply (h : (system mp reranker).Reachable s) :
    (∀ (k : Nat) (reply : Message), (k, Outcome.replied reply) ∈ s.returned →
      ∃ (c pos : Nat) (call : Call) (id : UInt32), s.calls[k]? = some call ∧
        (s.conns c).sent[pos]? = some ⟨k, call.message id⟩ ∧
        (s.conns c).served[pos]? = some (call.message id, some reply) ∧
        Answers reranker (call.message id) reply ∧ requestId reply = id) ∧
    (∀ (c pos c' pos' : Nat) (x x' : Sent), (s.conns c).sent[pos]? = some x →
      (s.conns c').sent[pos']? = some x' → x.callId = x'.callId → c = c' ∧ pos = pos') ∧
    (s.phase = .idle → ∀ c, s.held = some c → (s.conns c).down = [] ∧
      (∀ rest, (s.conns c).worker ≠ .replying rest) ∧
      ∀ m ∈ (s.conns c).pending, wantsReply m = false) := by
  have hinv := inv_of_reachable h
  refine ⟨?_, fun c pos c' pos' x x' hx hx' => (records_of_reachable h).unique hx hx', ?_⟩
  · intro k reply hmem
    obtain ⟨c, pos, call, id, hcall, hsent, hserved⟩ := allOwn_of_reachable h k reply hmem
    have hans := ((hinv.conns c).served _ (List.mem_of_getElem? hserved)).1
    exact ⟨c, pos, call, id, hcall, hsent, hserved, hans, Call.requestId_of_answers hans⟩
  · intro hphase c hheld
    have htalk := (hinv.held c hheld).2.talk
    rw [hphase] at htalk
    exact ⟨htalk.2.1, htalk.2.2, htalk.1⟩

end Returned

/-- A ping on a fresh connection, cut into several transfers. -/
def pingRun : List Label :=
  [.call .ping, .connect, .write 3, .write 12, .serverHeader 0, .serverBody 0 ⟨5, 60⟩,
    .serverWrite 0 6, .serverWrite 0 9, .readHeader, .readBody]

/-- The ping returns the pong that the server made for it. -/
theorem returned_reply_ping : ∃ s, (system .reference mockReverse).Reachable s ∧
    (0, Outcome.replied (.pong { requestId := 1 })) ∈ s.returned ∧
    ∃ (c pos : Nat) (call : Call) (id : UInt32), s.calls[0]? = some call ∧
      (s.conns c).served[pos]? = some (call.message id, some (.pong { requestId := 1 })) := by
  have hrun : (((system .reference mockReverse).run pingRun).map State.returned) =
      some [(0, .replied (.pong { requestId := 1 }))] := by decide
  obtain ⟨s, hs, hreturned⟩ := Option.map_eq_some_iff.mp hrun
  have hreach := System.reachable_of_run hs
  have hmem : (0, Outcome.replied (.pong { requestId := 1 })) ∈ s.returned := by simp [hreturned]
  obtain ⟨c, pos, call, id, hcall, -, hserved, -⟩ := (returned_reply hreach).1 _ _ hmem
  exact ⟨s, hreach, hmem, c, pos, call, id, hcall, hserved⟩

end Dafeng.Session
