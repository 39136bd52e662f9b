import Dafeng.Session.Connection

/-!
# Dafeng.Session.Talk

What is true of the connection that the client holds.

The client is owed at most one reply, the reply to
the call it is in (`Conn.Talk`): before the server serves the call's request no
byte comes back, and afterwards the bytes that come back are the frame of that
reply. Every call that could leave a reply behind closes the connection.
-/

namespace Dafeng.Session

open Dafeng.Msgpack Dafeng.Protocol Dafeng.Daemon

/-- What the active call has not written yet. -/
def Phase.unsent : Phase → Bytes
  | .writing _ rest => rest
  | _ => []

namespace Conn

/-- No byte of a reply is on its way to the client or waits to be written. -/
def NothingBack (conn : Conn) : Prop :=
  conn.down = [] ∧ ∀ rest, conn.worker ≠ .replying rest

/-- The active call's message is not served yet, and no message before it wants
a reply. -/
def Awaiting (conn : Conn) (a : Active) : Prop :=
  (∃ earlier, conn.pending = earlier ++ [a.message] ∧ ∀ m ∈ earlier, wantsReply m = false) ∧
    conn.NothingBack

/-- The active call's message was served, and the bytes `got` of its reply's
frame were read. A worker that ended may have `lost` the end of it. -/
def Answered (conn : Conn) (a : Active) (got : Bytes) : Prop :=
  conn.pending = [] ∧ ∃ reply lost, conn.served.getLast? = some (a.message, some reply) ∧
    frameOf reply = got ++ (conn.down ++ lost) ∧
    (conn.worker.isOpen → lost = conn.worker.unwritten)

/-- What the client may expect to come back in each phase. -/
def Talk (conn : Conn) : Phase → Prop
  | .idle => (∀ m ∈ conn.pending, wantsReply m = false) ∧ conn.NothingBack
  | .connecting _ _ | .killed _ => False
  | .writing a rest => rest ≠ [] ∧ conn.Awaiting a
  | .awaitHeader a => wantsReply a.message ∧ (conn.Awaiting a ∨ conn.Answered a [])
  | .awaitBody a len => ∃ got, got.length = kFrameHeaderBytes ∧
      readFrameLength got = some len ∧ conn.Answered a got

/-- The invariant of the connection that the client holds. -/
structure Held (conn : Conn) (phase : Phase) : Prop where
  clientOpen : conn.clientOpen = true
  upward : conn.Upward phase.unsent
  last : ∀ a, phase.active = some a → conn.sent.getLast? = some ⟨a.callId, a.message⟩
  talk : conn.Talk phase

/-! ### Steps of the worker -/

section Worker

variable {mp : Unpacker} {reranker : RerankService} {conn : Conn} {phase : Phase}

/-- A step that changes neither the messages nor what comes back. -/
theorem Talk.of_same {conn' : Conn} (h : conn.Talk phase) (hpending : conn'.pending = conn.pending)
    (hserved : conn'.served = conn.served) (hdown : conn'.down = conn.down)
    (hreplying : ∀ rest, conn'.worker = .replying rest → conn.worker = .replying rest)
    (hopen : conn'.worker.isOpen →
      conn.worker.isOpen ∧ conn'.worker.unwritten = conn.worker.unwritten) :
    conn'.Talk phase := by
  have hback : conn.NothingBack → conn'.NothingBack := fun hb =>
    ⟨by rw [hdown, hb.1], fun rest hw => hb.2 rest (hreplying rest hw)⟩
  have hawait : ∀ {a}, conn.Awaiting a → conn'.Awaiting a := fun ha =>
    ⟨by rw [hpending]; exact ha.1, hback ha.2⟩
  have hans : ∀ {a got}, conn.Answered a got → conn'.Answered a got := by
    intro a got h
    obtain ⟨hnil, reply, lost, hlast, hframe, hlost⟩ := h
    refine ⟨by rw [hpending, hnil], reply, lost, by rw [hserved, hlast], by rw [hdown, hframe], ?_⟩
    intro ho
    rw [hlost (hopen ho).1, (hopen ho).2]
  cases phase with
  | idle => exact ⟨by rw [hpending]; exact h.1, hback h.2⟩
  | connecting callId call => exact h.elim
  | killed callId => exact h.elim
  | writing a rest => exact ⟨h.1, hawait h.2⟩
  | awaitHeader a => exact ⟨h.1, h.2.imp hawait hans⟩
  | awaitBody a len =>
      obtain ⟨got, hlen, hread, ha⟩ := h
      exact ⟨got, hlen, hread, hans ha⟩

theorem Held.takeHeader {since : Nat} (h : conn.Held phase)
    (hworker : conn.worker = .awaitHeader since) (hup : kFrameHeaderBytes ≤ conn.up.length) :
    conn.takeHeader.Held phase where
  clientOpen := h.clientOpen
  upward := h.upward.takeHeader hworker hup
  last := h.last
  talk := by
    refine h.talk.of_same rfl rfl rfl ?_ ?_
    · intro rest hrest
      unfold Conn.takeHeader at hrest
      dsimp only at hrest
      split at hrest <;> simp at hrest
    · intro _
      rw [hworker]
      refine ⟨rfl, ?_⟩
      unfold Conn.takeHeader
      dsimp only
      split <;> rfl

theorem Held.rejectBody {n : Nat} (h : conn.Held phase) : (conn.rejectBody n).Held phase where
  clientOpen := h.clientOpen
  upward := upward_of_closed rfl
  last := h.last
  talk := h.talk.of_same rfl rfl rfl (fun _ hrest => by simp [Conn.rejectBody] at hrest)
    (fun hopen => by simp [Conn.rejectBody, Worker.isOpen] at hopen)

theorem Held.closeWorker {why : CloseReason} (h : conn.Held phase) :
    (conn.closeWorker why).Held phase where
  clientOpen := h.clientOpen
  upward := upward_of_closed (closeWorker_isOpen conn why)
  last := h.last
  talk := by
    refine h.talk.of_same rfl rfl rfl ?_ (fun hopen => by simp at hopen)
    intro rest hrest
    have := closeWorker_isOpen conn why
    simp [hrest, Worker.isOpen] at this

theorem Held.putReply {n now : Nat} {rest : Bytes} (h : conn.Held phase)
    (hworker : conn.worker = .replying rest) : (conn.putReply n now rest).Held phase where
  clientOpen := h.clientOpen
  upward := h.upward.putReply hworker
  last := h.last
  talk := by
    have hback : ¬ conn.NothingBack := fun hb => hb.2 rest hworker
    have hunwritten : (conn.putReply n now rest).worker.unwritten = rest.drop n := by
      unfold Conn.putReply
      dsimp only
      split_ifs with hne
      · rfl
      · exact (not_not.mp hne).symm
    have hans : ∀ {a got}, conn.Answered a got → (conn.putReply n now rest).Answered a got := by
      intro a got h
      obtain ⟨hnil, reply, lost, hlast, hframe, hlost⟩ := h
      obtain rfl : lost = rest := by rw [hlost (by rw [hworker]; rfl), hworker]; rfl
      refine ⟨hnil, reply, lost.drop n, hlast, ?_, fun _ => hunwritten.symm⟩
      simp only [Conn.putReply, List.append_assoc, List.take_append_drop]
      exact hframe
    have htalk := h.talk
    cases phase with
    | idle => exact absurd htalk.2 hback
    | connecting callId call => exact htalk.elim
    | killed callId => exact htalk.elim
    | writing a rest' => exact absurd htalk.2.2 hback
    | awaitHeader a =>
        obtain ⟨hwants, ha | ha⟩ := htalk
        · exact absurd ha.2 hback
        · exact ⟨hwants, .inr (hans ha)⟩
    | awaitBody a len =>
        obtain ⟨got, hlen, hread, ha⟩ := htalk
        exact ⟨got, hlen, hread, hans ha⟩

/-- Serving the first pending message gives the active call its reply, or no
call anything. -/
theorem Held.takeBody {len : UInt32} {moment : Moment} {st : ServerState} {now : Nat}
    {msg : Message} (h : conn.Held phase) (hok : conn.Ok reranker)
    (hworker : conn.worker = .awaitBody len) (hup : len.toNat ≤ conn.up.length)
    (hdec : decodeBody mp (conn.up.take len.toNat) = some msg) :
    (conn.takeBody len.toNat now msg (dispatch reranker moment st msg).2).Held phase where
  clientOpen := h.clientOpen
  upward := h.upward.takeBody hok.encodable hworker hup hdec
  last := h.last
  talk := by
    obtain ⟨m, ms, hp, hnone | ⟨hsome, hrest, -⟩⟩ :=
      h.upward.body mp hok.encodable hworker hup
    · simp [hdec] at hnone
    obtain rfl : msg = m := Option.some.inj (hdec.symm.trans hsome)
    -- a message that wants no reply brings nothing back
    have hquiet : wantsReply msg = false → conn.NothingBack →
        (conn.takeBody len.toNat now msg (dispatch reranker moment st msg).2).NothingBack := by
      intro hw hb
      rw [dispatch_silent_iff.mpr hw]
      exact ⟨hb.1, fun rest hrest => by simp [Conn.takeBody] at hrest⟩
    have hpend : (conn.takeBody len.toNat now msg
        (dispatch reranker moment st msg).2).pending = ms := pending_takeBody hp
    have hawait : ∀ {a}, conn.Awaiting a → ms ≠ [] →
        (conn.takeBody len.toNat now msg (dispatch reranker moment st msg).2).Awaiting a := by
      intro a h hms
      obtain ⟨⟨earlier, he, hall⟩, hb⟩ := h
      cases earlier with
      | nil =>
          rw [hp, List.nil_append] at he
          exact absurd (List.cons.inj he).2 hms
      | cons e earlier =>
          rw [hp, List.cons_append] at he
          obtain ⟨rfl, rfl⟩ := List.cons.inj he
          exact ⟨⟨earlier, hpend, fun m hm => hall m (List.mem_cons_of_mem _ hm)⟩,
            hquiet (hall msg List.mem_cons_self) hb⟩
    have htalk := h.talk
    cases phase with
    | idle =>
        refine ⟨fun m hm => htalk.1 m ?_, hquiet (htalk.1 msg (by simp [hp])) htalk.2⟩
        rw [hpend] at hm
        rw [hp]
        exact List.mem_cons_of_mem _ hm
    | connecting callId call => exact htalk.elim
    | killed callId => exact htalk.elim
    | writing a rest =>
        -- the last frame is still incomplete, so it is not the one that was read
        refine ⟨htalk.1, hawait htalk.2 ?_⟩
        rintro rfl
        exact htalk.1 (List.append_eq_nil_iff.mp hrest).2
    | awaitHeader a =>
        obtain ⟨hwants, ha | ha⟩ := htalk
        · refine ⟨hwants, ?_⟩
          by_cases hms : ms = []
          · right
            obtain ⟨⟨earlier, he, -⟩, hb⟩ := ha
            have hlast : msg = a.message := by
              have := congrArg List.getLast? he
              rw [hp, hms] at this
              simpa using this
            cases hreply : (dispatch reranker moment st msg).2 with
            | none =>
                rw [dispatch_silent_iff, hlast] at hreply
                simp [hreply] at hwants
            | some reply =>
                refine ⟨by rw [← hreply, hpend, hms], reply, frameOf reply, ?_, ?_, fun _ => rfl⟩
                · simp [Conn.takeBody, hlast]
                · simp [Conn.takeBody, hb.1]
          · exact .inl (hawait ha hms)
        · simp [ha.1] at hp
    | awaitBody a len' =>
        obtain ⟨got, hlen, hread, ha⟩ := htalk
        simp [ha.1] at hp

end Worker

/-! ### Steps of the client -/

section Client

variable {mp : Unpacker} {reranker : RerankService} {conn : Conn} {a : Active}

/-- A connection on which nothing was sent. -/
theorem Held.fresh {now : Nat} : Conn.Held { worker := .awaitHeader now } .idle where
  clientOpen := rfl
  upward := fun _ => ⟨[], rfl, rfl⟩
  last := by simp [Phase.active]
  talk := ⟨by simp [pending], rfl, by simp⟩

theorem Held.send (h : conn.Held .idle) (hok : conn.Ok reranker) :
    (conn.send ⟨a.callId, a.message⟩).Held (.writing a (frameOf a.message)) where
  clientOpen := h.clientOpen
  upward := h.upward.send hok.aligned
  last := by
    intro b hb
    obtain rfl := Option.some.inj hb
    simp [Conn.send]
  talk :=
    ⟨frameOf_ne_nil _, ⟨conn.pending, pending_send hok.aligned, h.talk.1⟩, h.talk.2⟩

variable {rest : Bytes} {n : Nat}

theorem Held.push (h : conn.Held (.writing a rest)) (hrest : rest.drop n ≠ []) :
    (conn.push (rest.take n)).Held (.writing a (rest.drop n)) where
  clientOpen := h.clientOpen
  upward := by
    have hu := h.upward
    rw [Phase.unsent, ← List.take_append_drop n rest] at hu
    exact hu.push
  last := h.last
  talk := ⟨hrest, h.talk.2⟩

theorem Held.push_upward (h : conn.Held (.writing a rest)) (hrest : rest.drop n = []) :
    (conn.push (rest.take n)).Upward [] := by
  have hu := h.upward
  rw [Phase.unsent, ← List.take_append_drop n rest, hrest] at hu
  exact hu.push

theorem Held.push_commit (h : conn.Held (.writing a rest)) (hrest : rest.drop n = [])
    (hcommit : a.call.isCommit = true) : (conn.push (rest.take n)).Held .idle where
  clientOpen := h.clientOpen
  upward := h.push_upward hrest
  last := by simp [Phase.active]
  talk := by
    obtain ⟨-, ⟨earlier, he, hall⟩, hb⟩ := h.talk
    refine ⟨fun m hm => ?_, hb⟩
    have hquiet : wantsReply a.message = false := by
      unfold Active.message
      cases hcall : a.call with
      | recordCommit ev => rfl
      | _ => simp [hcall, Call.isCommit] at hcommit
    rw [show (conn.push (rest.take n)).pending = conn.pending from rfl, he] at hm
    rcases List.mem_append.mp hm with hm | hm
    · exact hall m hm
    · rw [List.mem_singleton.mp hm]
      exact hquiet

theorem Held.push_request (h : conn.Held (.writing a rest)) (hrest : rest.drop n = [])
    (hcommit : a.call.isCommit = false) :
    (conn.push (rest.take n)).Held (.awaitHeader a) where
  clientOpen := h.clientOpen
  upward := h.push_upward hrest
  last := h.last
  talk := by
    refine ⟨?_, .inl h.talk.2⟩
    unfold Active.message
    cases hcall : a.call with
    | recordCommit ev => simp [hcall, Call.isCommit] at hcommit
    | _ => rfl

theorem Held.pull_header {len : UInt32} (h : conn.Held (.awaitHeader a))
    (hdown : kFrameHeaderBytes ≤ conn.down.length)
    (hlen : readFrameLength (conn.down.take kFrameHeaderBytes) = some len) :
    (conn.pull kFrameHeaderBytes).Held (.awaitBody a len) where
  clientOpen := h.clientOpen
  upward := h.upward
  last := h.last
  talk := by
    obtain ⟨-, ha | ⟨hnil, reply, lost, hlast, hframe, hlost⟩⟩ := h.talk
    · simp [ha.2.1, kFrameHeaderBytes] at hdown
    · refine ⟨conn.down.take kFrameHeaderBytes, by simp [hdown], hlen, hnil, reply, lost, hlast,
        ?_, hlost⟩
      rw [hframe, List.nil_append, Conn.pull, ← List.append_assoc, List.take_append_drop]

/-- **The reply is the call's own.** A body that decodes behind an accepted
header is the reply to the message the call sent, and nothing is left of it. -/
theorem Held.body {len : UInt32} {reply : Message} (h : conn.Held (.awaitBody a len))
    (hok : conn.Ok reranker) (hdown : len.toNat ≤ conn.down.length)
    (hdec : decodeBody mp (conn.down.take len.toNat) = some reply) :
    conn.pending = [] ∧ conn.served.getLast? = some (a.message, some reply) ∧
      (conn.pull len.toNat).NothingBack := by
  obtain ⟨got, hgot, hread, hnil, reply', lost, hlast, hframe, hlost⟩ := h.talk
  have hwell := hok.served _ (List.mem_of_getLast? hlast)
  have hframe' : frameOf reply' ++ [] =
      got ++ (conn.down.take len.toNat ++ (conn.down.drop len.toNat ++ lost)) := by
    rw [List.append_nil, hframe, ← List.append_assoc (conn.down.take _), List.take_append_drop]
  rcases frame_read mp hwell.2 hframe' hgot hread (by simp [hdown]) with
    hnone | ⟨hsome, hrest, -⟩
  · simp [hdec] at hnone
  · obtain rfl : reply = reply' := Option.some.inj (hdec.symm.trans hsome)
    obtain ⟨hdrop, hlostnil⟩ := List.append_eq_nil_iff.mp hrest
    refine ⟨hnil, hlast, hdrop, fun rest hrest' => ?_⟩
    have hworker : conn.worker = .replying rest := hrest'
    have hun := hlost (by rw [hworker]; rfl)
    rw [hworker, hlostnil] at hun
    exact hok.replying rest hworker hun.symm

theorem Held.pull_body {len : UInt32} {reply : Message} (h : conn.Held (.awaitBody a len))
    (hok : conn.Ok reranker) (hdown : len.toNat ≤ conn.down.length)
    (hdec : decodeBody mp (conn.down.take len.toNat) = some reply) :
    (conn.pull len.toNat).Held .idle where
  clientOpen := h.clientOpen
  upward := h.upward
  last := by simp [Phase.active]
  talk := by
    obtain ⟨hnil, -, hback⟩ := h.body hok hdown hdec
    refine ⟨?_, hback⟩
    rw [show (conn.pull len.toNat).pending = conn.pending from rfl, hnil]
    simp

end Client

end Conn

end Dafeng.Session
