import Mathlib.Data.List.Nodup
import Dafeng.Session.Replies

/-!
# Dafeng.Session.Commits

Which commit events reach the server's commit logger.

`RecordCommit` writes its frame once and does not learn what becomes of it. While
no transfer on a live connection times out, its event is handed to the logger at
most once, and it is not handed only if the server had closed the connection before
it read the frame: an idle connection, or one that carried a frame above the cap.
Whether SIGPIPE then ends the client's process makes no difference to the event.
-/

namespace Dafeng.Session

open Dafeng.Msgpack Dafeng.Protocol Dafeng.Daemon

/-! ### The assumption on the environment -/

/-- The steps of a run in which the server stays up and accepts, and no transfer
on a live connection times out. A worker ends on a connection that was idle for so
long, or on one that the client has closed. -/
def undisturbed (s : State) : Label → Bool
  | .connectFails | .resetConnection | .restart => false
  | .timeout => s.heldClosed
  | .serverClose c .idle =>
    match (s.conns c).worker with
    | .awaitHeader since => decide (since + kIdleReadTimeout ≤ s.now)
    | _ => false
  | .serverClose c .peerClosed =>
    match (s.conns c).worker with
    | .awaitHeader _ =>
      !(s.conns c).clientOpen && decide ((s.conns c).up.length < kFrameHeaderBytes)
    | .awaitBody len => !(s.conns c).clientOpen && decide ((s.conns c).up.length < len.toNat)
    | _ => false
  | .serverClose c .failed => (s.conns c).worker.isReplying && !(s.conns c).clientOpen
  | .serverClose _ _ => false
  | _ => true

section Delivery

variable {mp : Unpacker} {reranker : RerankService} {s s' : State}

/-! ### What was handed over -/

/-- The logger's events are the commits among the served messages, each once. -/
structure Delivery (s : State) : Prop where
  iff : ∀ c pos ev, ⟨c, pos, ev⟩ ∈ s.handed ↔
    ∃ reply, (s.conns c).served[pos]? = some (.commitEvent ev, reply)
  nodup : s.handed.Nodup
  recorded : s.server.recorded = s.handed.map Handed.event

theorem setConn_served {c : Nat} {f : Conn → Conn} (hf : ∀ conn, (f conn).served = conn.served)
    (d : Nat) : ((s.setConn c f).conns d).served = (s.conns d).served := by
  rw [setConn_conns]
  split_ifs with hdc
  · rw [hf, hdc]
  · rfl

theorem reset_served (s : State) (d : Nat) : (s.reset.conns d).served = (s.conns d).served := by
  unfold State.reset
  cases s.held with
  | none => rfl
  | some c => exact setConn_served (c := c) (f := Conn.closeClient) (fun _ => rfl) d

/-- A step that serves nothing. -/
theorem Delivery.of_same (h : Delivery s)
    (hserved : ∀ c, (s'.conns c).served = (s.conns c).served) (hhanded : s'.handed = s.handed)
    (hrecorded : s'.server.recorded = s.server.recorded) : Delivery s' where
  iff c pos ev := by rw [hhanded, hserved]; exact h.iff c pos ev
  nodup := by rw [hhanded]; exact h.nodup
  recorded := by rw [hrecorded, hhanded]; exact h.recorded

theorem dispatch_recorded (moment : Moment) (st : ServerState) (msg : Message) (c pos : Nat) :
    (dispatch reranker moment st msg).1.recorded =
      st.recorded ++ (handing c pos msg).map Handed.event := by
  cases msg <;> simp [dispatch, handing]

theorem mem_handing {c pos : Nat} {msg : Message} {x : Handed} :
    x ∈ handing c pos msg ↔ ∃ ev, msg = .commitEvent ev ∧ x = ⟨c, pos, ev⟩ := by
  cases msg <;> simp [handing]

theorem Delivery.serve (h : Delivery s) {c : Nat} {moment : Moment} {msg : Message}
    (hserved : ∀ d, (s'.conns d).served = if d = c then
      (s.conns c).served ++ [(msg, (dispatch reranker moment s.server msg).2)]
      else (s.conns d).served)
    (hhanded : s'.handed = s.handed ++ handing c (s.conns c).served.length msg)
    (hserver : s'.server = (dispatch reranker moment s.server msg).1) : Delivery s' where
  iff d pos ev := by
    rw [hhanded, hserved, List.mem_append, h.iff, mem_handing]
    split_ifs with hdc
    · subst hdc
      rw [List.getElem?_append]
      split_ifs with hlt
      · refine ⟨fun hmem => hmem.resolve_right ?_, .inl⟩
        intro h
        obtain ⟨ev', -, hx⟩ := h
        exact Nat.ne_of_lt hlt (Handed.mk.inj hx).2.1
      · have hnone : (s.conns d).served[pos]? = none := List.getElem?_eq_none (by omega)
        rw [hnone, List.getElem?_singleton]
        constructor
        · rintro (⟨reply, hreply⟩ | ⟨ev', rfl, hx⟩)
          · simp at hreply
          · obtain ⟨-, rfl, rfl⟩ := Handed.mk.inj hx
            exact ⟨_, by rw [if_pos (Nat.sub_self _)]⟩
        · intro h
          obtain ⟨reply, hreply⟩ := h
          split_ifs at hreply with hzero
          obtain ⟨rfl, -⟩ := Prod.mk.inj (Option.some.inj hreply)
          exact .inr ⟨ev, rfl, by rw [show pos = (s.conns d).served.length by omega]⟩
    · refine ⟨fun hmem => hmem.resolve_right ?_, .inl⟩
      intro h
      obtain ⟨ev', -, hx⟩ := h
      exact hdc (Handed.mk.inj hx).1
  nodup := by
    rw [hhanded]
    refine List.Nodup.append h.nodup (by cases msg <;> simp [handing]) ?_
    -- what is handed over now stands at a position that was not served before
    intro x hold hnew
    obtain ⟨ev, rfl, rfl⟩ := mem_handing.mp hnew
    obtain ⟨reply, hreply⟩ := (h.iff _ _ _).mp hold
    rw [List.getElem?_eq_none (Nat.le_refl _)] at hreply
    exact absurd hreply (by simp)
  recorded := by
    rw [hserver, dispatch_recorded moment s.server msg c (s.conns c).served.length, hhanded,
      List.map_append, h.recorded]

theorem reset_handed (s : State) : s.reset.handed = s.handed := by
  unfold State.reset
  split <;> rfl

theorem reset_server (s : State) : s.reset.server = s.server := by
  unfold State.reset
  split <;> rfl

/-- A step that serves nothing. -/
structure Silent (s s' : State) : Prop where
  served : ∀ c, (s'.conns c).served = (s.conns c).served
  handed : s'.handed = s.handed
  recorded : s'.server.recorded = s.server.recorded

theorem Silent.start (s : State) (c callId : Nat) (call : Call) :
    Silent s (s.start c callId call) := by
  unfold State.start
  dsimp only
  split
  · exact ⟨setConn_served (s := s.takeId call) (f := (·.send _)) fun _ => rfl, rfl, rfl⟩
  · exact ⟨fun _ => rfl, rfl, rfl⟩

theorem Silent.reset (s : State) : Silent s s.reset :=
  ⟨reset_served s, reset_handed s, by rw [reset_server]⟩

/-- **What a step serves**: nothing, or the message that a worker decoded. -/
theorem Step.serves {l : Label} (hinv : Inv reranker s) (hs : Step mp reranker s l s') :
    Silent s s' ∨ ∃ (c : Nat) (moment : Moment) (len : UInt32) (msg : Message),
      l = .serverBody c moment ∧ (s.conns c).worker = .awaitBody len ∧
      len.toNat ≤ (s.conns c).up.length ∧
      decodeBody mp ((s.conns c).up.take len.toNat) = some msg ∧
      s' = { s.setConn c
          (·.takeBody len.toNat s.now msg (dispatch reranker moment s.server msg).2) with
        server := (dispatch reranker moment s.server msg).1
        handed := s.handed ++ handing c (s.conns c).served.length msg } := by
  cases hs with
  | @callHeld call c hphase hheld =>
      obtain ⟨hserved, hhanded, hrecorded⟩ :=
        Silent.start { s with calls := s.calls ++ [call] } c s.calls.length call
      exact .inl ⟨hserved, hhanded, hrecorded⟩
  | callUnheld hphase hheld => exact .inl ⟨fun _ => rfl, rfl, rfl⟩
  | @connect callId call hphase =>
      obtain ⟨hserved, hhanded, hrecorded⟩ := Silent.start s.connected s.nextConn callId call
      exact .inl ⟨fun d => (hserved d).trans (connected_same hinv d).2, hhanded, hrecorded⟩
  | connectFails hphase => exact .inl ⟨fun _ => rfl, rfl, rfl⟩
  | writeMore => exact .inl ⟨setConn_served (f := (·.push _)) fun _ => rfl, rfl, rfl⟩
  | writeCommit => exact .inl ⟨setConn_served (f := (·.push _)) fun _ => rfl, rfl, rfl⟩
  | writeRequest => exact .inl ⟨setConn_served (f := (·.push _)) fun _ => rfl, rfl, rfl⟩
  | readHeader => exact .inl ⟨setConn_served (f := (·.pull _)) fun _ => rfl, rfl, rfl⟩
  | readBody => exact .inl ⟨setConn_served (f := (·.pull _)) fun _ => rfl, rfl, rfl⟩
  | @readReset a c n =>
      obtain ⟨hserved, hhanded, hrecorded⟩ := Silent.reset (s.setConn c (·.pull n))
      refine .inl ⟨fun d => (hserved d).trans ?_, hhanded, hrecorded⟩
      exact setConn_served (f := (·.pull n)) (fun _ => rfl) d
  | fail hl hphase =>
      obtain ⟨hserved, hhanded, hrecorded⟩ := Silent.reset s
      exact .inl ⟨hserved, hhanded, hrecorded⟩
  | sigpipe hclosed hphase =>
      obtain ⟨hserved, hhanded, hrecorded⟩ := Silent.reset s
      exact .inl ⟨hserved, hhanded, hrecorded⟩
  | resetConnection hphase => exact .inl (Silent.reset s)
  | serverHeader => exact .inl ⟨setConn_served (f := Conn.takeHeader) fun _ => rfl, rfl, rfl⟩
  | serverReject =>
      exact .inl ⟨setConn_served (f := (·.rejectBody _)) fun _ => rfl, rfl, rfl⟩
  | @serverBody c len moment msg hworker hup hdec =>
      exact .inr ⟨c, moment, len, msg, rfl, hworker, hup, hdec, rfl⟩
  | serverWrite =>
      exact .inl ⟨setConn_served (f := (·.putReply _ _ _)) fun _ => rfl, rfl, rfl⟩
  | serverClose =>
      exact .inl ⟨setConn_served (f := (·.closeWorker _)) fun _ => rfl, rfl, rfl⟩
  | restart => exact .inl ⟨fun _ => rfl, rfl, rfl⟩
  | elapse => exact .inl ⟨fun _ => rfl, rfl, rfl⟩

theorem takeBody_served {c n : Nat} {msg : Message} {reply : Option Message} (d : Nat) :
    ((s.setConn c (·.takeBody n s.now msg reply)).conns d).served =
      if d = c then (s.conns c).served ++ [(msg, reply)] else (s.conns d).served := by
  rw [setConn_conns]
  split_ifs <;> rfl

theorem Delivery.step {l : Label} (hinv : Inv reranker s) (h : Delivery s)
    (hs : Step mp reranker s l s') : Delivery s' := by
  rcases hs.serves hinv with hsilent | ⟨c, moment, len, msg, rfl, hworker, hup, hdec, rfl⟩
  · exact h.of_same hsilent.served hsilent.handed hsilent.recorded
  · exact @Delivery.serve reranker s _ h c moment msg takeBody_served rfl rfl

/-- The served messages are within the cap. -/
theorem served_within_cap (h : (system mp reranker).Reachable s) :
    ∀ c, ∀ p ∈ (s.conns c).served, (encodeBody p.1).length ≤ kMaxFrameBodyBytes := by
  refine h.invariant (I := fun s : State => ∀ c, ∀ p ∈ (s.conns c).served,
    (encodeBody p.1).length ≤ kMaxFrameBodyBytes) (by simp [system, Conn.unborn]) ?_
  intro s l s' hreach hs hl d p hp
  have hinv := inv_of_reachable hreach
  rcases (step_cases hl).serves hinv with
    hsilent | ⟨c, moment, len, msg, rfl, hworker, hup, hdec, rfl⟩
  · rw [hsilent.served] at hp
    exact hs d p hp
  · have hp : p ∈ ((s.setConn c (·.takeBody len.toNat s.now msg
        (dispatch reranker moment s.server msg).2)).conns d).served := hp
    rw [takeBody_served] at hp
    split_ifs at hp with hdc
    · rcases List.mem_append.mp hp with hp | hp
      · exact hs c p hp
      · obtain rfl := List.mem_singleton.mp hp
        obtain ⟨unsent, hup'⟩ := (hinv.conns c).upward
        obtain ⟨m, ms, -, hnone | ⟨hsome, -, hcap⟩⟩ :=
          hup'.body mp (hinv.conns c).encodable hworker hup
        · rw [hdec] at hnone
          cases hnone
        · rw [hdec] at hsome
          obtain rfl := Option.some.inj hsome
          exact hcap
    · exact hs d p hp

/-! ### Where an event can be lost -/

/-- A message above the cap. -/
def OverCap (m : Message) : Prop := kMaxFrameBodyBytes < (encodeBody m).length

/-- The fate of what was sent on a connection: a worker that runs serves the held
connection or has nothing left to serve, and one that ended was idle, rejected the
frame of a message above the cap, or had nothing left to serve. -/
structure Accounted (held : Option Nat) (c : Nat) (conn : Conn) : Prop where
  running : conn.worker.isOpen → held = some c ∨ conn.pending = []
  ended : ∀ why, conn.worker = .closed why → why = .idle ∨
    (why = .rejected ∧ ∃ m ms, conn.pending = m :: ms ∧ OverCap m) ∨
    (conn.pending = [] ∧ conn.clientOpen = false)

section Fate

variable {held : Option Nat} {c : Nat} {conn : Conn}

theorem accounted_of_idle {since : Nat} (hworker : conn.worker = .awaitHeader since)
    (h : held = some c ∨ conn.pending = []) : Accounted held c conn where
  running _ := h
  ended why hw := by simp [hworker] at hw

/-- A step of the client that sends nothing. -/
theorem Accounted.client {conn' : Conn} (h : Accounted held c conn)
    (hworker : conn'.worker = conn.worker) (hpending : conn'.pending = conn.pending)
    (hopen : conn.clientOpen = false → conn'.clientOpen = false) : Accounted held c conn' where
  running := by rw [hworker, hpending]; exact h.running
  ended why hw := by
    rw [hworker] at hw
    rw [hpending]
    exact (h.ended why hw).imp_right (.imp_right fun hnil => ⟨hnil.1, hopen hnil.2⟩)

theorem Accounted.send (h : Accounted held c conn) (hheld : held = some c)
    (hok : conn.Ok reranker) (hopen : conn.clientOpen = true) (x : Sent) :
    Accounted held c (conn.send x) where
  running _ := .inl hheld
  ended why hw := by
    rcases h.ended why hw with hidle | ⟨hrej, m, ms, hm, hover⟩ | ⟨-, hclosed⟩
    · exact .inl hidle
    · refine .inr (.inl ⟨hrej, m, ms ++ [x.message], ?_, hover⟩)
      rw [Conn.pending_send hok.aligned, hm, List.cons_append]
    · simp [hopen] at hclosed

theorem Accounted.takeHeader (mp : Unpacker) {since : Nat} (h : Accounted held c conn)
    (hok : conn.Ok reranker) (hworker : conn.worker = .awaitHeader since)
    (hup : kFrameHeaderBytes ≤ conn.up.length) : Accounted held c conn.takeHeader where
  running _ := h.running (by rw [hworker]; rfl)
  ended why hw := by
    obtain ⟨unsent, hu⟩ := hok.upward
    unfold Conn.takeHeader at hw
    dsimp only at hw
    split at hw
    · rename_i hlen
      have hover := hu.header_rejected mp hworker hup hlen
      exact .inr (.inl ⟨(Worker.closed.inj hw).symm, hover⟩)
    · simp at hw

theorem Accounted.rejectBody {len : UInt32} (hok : conn.Ok reranker)
    (hworker : conn.worker = .awaitBody len) (hup : len.toNat ≤ conn.up.length)
    (hdec : decodeBody mp (conn.up.take len.toNat) = none) :
    Accounted held c (conn.rejectBody len.toNat) where
  running hopen := by simp [Conn.rejectBody, Worker.isOpen] at hopen
  ended why hw := by
    obtain ⟨unsent, hu⟩ := hok.upward
    exact .inr (.inl ⟨(Worker.closed.inj hw).symm, hu.body_rejected hworker hup hdec⟩)

theorem Accounted.takeBody (mp : Unpacker) {len : UInt32} {now : Nat} {msg : Message}
    {reply : Option Message} (h : Accounted held c conn) (hok : conn.Ok reranker)
    (hworker : conn.worker = .awaitBody len) (hup : len.toNat ≤ conn.up.length) :
    Accounted held c (conn.takeBody len.toNat now msg reply) where
  running _ := by
    obtain ⟨unsent, hu⟩ := hok.upward
    obtain ⟨m, ms, hp, -⟩ := hu.body mp hok.encodable hworker hup
    refine .inl ((h.running (by rw [hworker]; rfl)).resolve_right ?_)
    simp [hp]
  ended why hw := by
    unfold Conn.takeBody at hw
    cases reply <;> simp at hw

theorem Accounted.putReply {n now : Nat} {rest : Bytes} (h : Accounted held c conn)
    (hworker : conn.worker = .replying rest) : Accounted held c (conn.putReply n now rest) where
  running _ := h.running (by rw [hworker]; rfl)
  ended why hw := by
    unfold Conn.putReply at hw
    dsimp only at hw
    split at hw <;> simp at hw

/-- A worker that runs is closed as idle, or once the client has closed. -/
theorem Accounted.closeWorker {why : CloseReason} (h : Accounted held c conn)
    (hwhy : why = .idle ∨ conn.clientOpen = false)
    (hheld : held = some c → conn.clientOpen = true) :
    Accounted held c (conn.closeWorker why) where
  running hopen := by simp at hopen
  ended why' hw := by
    unfold Conn.closeWorker at hw
    dsimp only at hw
    split at hw
    · rename_i hopen
      obtain rfl := Worker.closed.inj hw
      refine hwhy.imp_right fun hclosed => .inr ⟨?_, hclosed⟩
      exact (h.running hopen).resolve_left fun hc =>
        Bool.false_ne_true (hclosed.symm.trans (hheld hc))
    · exact h.ended why' hw

end Fate

theorem accounted_setConn {held : Option Nat} {c : Nat} {f : Conn → Conn}
    (h : ∀ d, Accounted held d (s.conns d)) (hf : Accounted held c (f (s.conns c))) (d : Nat) :
    Accounted held d ((s.setConn c f).conns d) := by
  rw [setConn_conns]
  split_ifs with hdc
  · subst hdc
    exact hf
  · exact h d

/-- A connection that is let go has nothing left to serve, or its worker ended. -/
theorem accounted_release {c : Nat} {f : Conn → Conn} (h : ∀ d, Accounted (some c) d (s.conns d))
    (hworker : (f (s.conns c)).worker = (s.conns c).worker)
    (hpending : (f (s.conns c)).pending = (s.conns c).pending)
    (hopen : (s.conns c).clientOpen = false → (f (s.conns c)).clientOpen = false)
    (hdone : (s.conns c).worker.isOpen → (s.conns c).pending = []) (d : Nat) :
    Accounted none d ((s.setConn c f).conns d) := by
  rw [setConn_conns]
  split_ifs with hdc
  · subst hdc
    have hf := (h d).client hworker hpending hopen
    refine ⟨fun ho => .inr ?_, hf.ended⟩
    rw [hworker] at ho
    rw [hpending]
    exact hdone ho
  · refine ⟨fun ho => .inr ?_, (h d).ended⟩
    refine ((h d).running ho).resolve_left fun hcd => hdc (Option.some.inj hcd).symm

/-- The client lets a connection go whose worker has ended. -/
theorem accounted_reset (h : ∀ d, Accounted s.held d (s.conns d)) (hclosed : s.heldClosed)
    (d : Nat) : Accounted s.reset.held d (s.reset.conns d) := by
  cases hheld : s.held with
  | none => simp [State.heldClosed, hheld] at hclosed
  | some c =>
      rw [reset_of_held hheld]
      rw [hheld] at h
      refine accounted_release (f := Conn.closeClient) h rfl rfl (fun _ => rfl) (fun hopen => ?_) d
      simp [State.heldClosed, hheld, hopen] at hclosed

/-! ### A commit call that is over has sent its message -/

/-- The call `k` has sent the event `ev`. -/
def SentEvent (s : State) (k : Nat) (ev : CommitEvent) : Prop :=
  ∃ c pos : Nat, (s.conns c).sent[pos]? = some ⟨k, .commitEvent ev⟩

/-- A commit call still waits for a connection or has sent its event. -/
def Begun (s : State) : Prop :=
  ∀ k ev, s.calls[k]? = some (.recordCommit ev) → encodable (.commitEvent ev) →
    s.phase = .connecting k (.recordCommit ev) ∨ SentEvent s k ev

theorem SentEvent.mono {k : Nat} {ev : CommitEvent} (h : SentEvent s k ev) (hg : Grows s s') :
    SentEvent s' k ev := by
  obtain ⟨c, pos, hsent⟩ := h
  exact ⟨c, pos, prefix_getElem? (hg.conns c).sent hsent⟩

/-- A step that begins no call and ends no attempt to connect. -/
theorem Begun.of_same (h : Begun s) (hg : Grows s s') (hcalls : s'.calls = s.calls)
    (hphase : ∀ k call, s.phase = .connecting k call → s'.phase = .connecting k call) :
    Begun s' := by
  intro k ev hcall henc
  rw [hcalls] at hcall
  exact (h k ev hcall henc).imp (hphase k _) (·.mono hg)

/-- With an active call no other call waits for a connection. -/
theorem Begun.sent (h : Begun s) {k : Nat} {ev : CommitEvent}
    (hcall : s.calls[k]? = some (.recordCommit ev)) (henc : encodable (.commitEvent ev))
    (hphase : s.phase ≠ .connecting k (.recordCommit ev)) : SentEvent s k ev :=
  (h k ev hcall henc).resolve_left hphase

theorem Begun.start {c callId : Nat} {call : Call} (hcall : s.calls[callId]? = some call)
    (h : ∀ k ev, k ≠ callId → s.calls[k]? = some (.recordCommit ev) →
      encodable (.commitEvent ev) → SentEvent s k ev) : Begun (s.start c callId call) := by
  intro k ev hk henc
  rw [start_calls] at hk
  right
  by_cases hkc : k = callId
  · subst hkc
    obtain rfl : call = .recordCommit ev := Option.some.inj (hcall.symm.trans hk)
    have henc' : encodable (Active.message ⟨k, .recordCommit ev, s.nextRequestId⟩) := henc
    refine ⟨c, (s.conns c).sent.length, ?_⟩
    unfold State.start
    dsimp only
    rw [if_pos henc']
    dsimp only
    rw [setConn_self]
    exact List.getElem?_concat_length
  · obtain ⟨d, pos, hsent⟩ := h k ev hkc hk henc
    exact ⟨d, pos, prefix_getElem? (start_grows s c callId call d).sent hsent⟩

theorem Begun.step {l : Label} (hinv : Inv reranker s) (hrec : Records s) (h : Begun s)
    (hallowed : undisturbed s l) (hs : Step mp reranker s l s') : Begun s' := by
  have hg := hs.grows hinv
  have hidle : ∀ {k call}, s.phase = .idle → s.phase ≠ .connecting k call := by
    intro k call hp
    simp [hp]
  cases hs with
  | @callHeld call c hphase hheld =>
      refine .start (by simp) fun k ev hk hcall henc => ?_
      have hlt : k < s.calls.length := by
        have := (List.getElem?_eq_some_iff.mp hcall).1
        simp only [List.length_append, List.length_singleton] at this
        omega
      dsimp only at hcall
      rw [List.getElem?_append_left hlt] at hcall
      exact h.sent hcall henc (hidle hphase)
  | @callUnheld call hphase hheld =>
      intro k ev hcall henc
      dsimp only at hcall
      rw [List.getElem?_append] at hcall
      split_ifs at hcall with hlt
      · exact .inr (h.sent hcall henc (hidle hphase))
      · rw [List.getElem?_singleton] at hcall
        split_ifs at hcall with hzero
        obtain rfl := Option.some.inj hcall
        exact .inl (by rw [show k = s.calls.length by omega])
  | @connect callId call hphase =>
      refine .start (hrec.connecting callId call hphase).1 fun k ev hk hcall henc => ?_
      obtain ⟨c, pos, hsent⟩ := h.sent hcall henc (by simp [hphase, hk.symm])
      exact ⟨c, pos, by rw [(connected_same hinv c).1]; exact hsent⟩
  | connectFails hphase => simp [undisturbed] at hallowed
  | writeMore hphase => exact h.of_same hg rfl (by simp [hphase])
  | writeCommit hphase => exact h.of_same hg rfl (by simp [hphase])
  | writeRequest hphase => exact h.of_same hg rfl (by simp [hphase])
  | readHeader hphase => exact h.of_same hg rfl (by simp [hphase])
  | readBody hphase => exact h.of_same hg rfl (by simp [hphase])
  | readReset hl hphase =>
      refine h.of_same hg (reset_calls _) fun k call hp => ?_
      rcases hphase with ⟨hphase, -⟩ | ⟨len, hphase⟩ <;> simp [hp] at hphase
  | fail hl hphase =>
      refine h.of_same hg (reset_calls _) fun k call hp => ?_
      simp [hp, Phase.active] at hphase
  | sigpipe hclosed hphase => exact h.of_same hg (reset_calls _) (by simp [hphase])
  | resetConnection hphase => exact h.of_same hg (reset_calls _) (by simp [hphase])
  | restart => simp [undisturbed] at hallowed
  | _ => exact h.of_same hg rfl fun _ _ hp => hp

theorem accounted_start {c callId : Nat} {call : Call}
    (h : ∀ d, Accounted s.held d (s.conns d)) (hheld : s.held = some c)
    (hok : (s.conns c).Ok reranker) (hopen : (s.conns c).clientOpen = true) :
    ∀ d, Accounted (s.start c callId call).held d ((s.start c callId call).conns d) := by
  unfold State.start
  dsimp only
  split
  · exact accounted_setConn (s := s.takeId call) (f := (·.send _)) h
      ((h c).send hheld hok hopen _)
  · exact h

/-- Every step that the environment allows accounts for what was sent. -/
theorem accounted_step {l : Label} (hinv : Inv reranker s)
    (h : ∀ c, Accounted s.held c (s.conns c)) (hallowed : undisturbed s l)
    (hs : Step mp reranker s l s') : ∀ c, Accounted s'.held c (s'.conns c) := by
  cases hs with
  | @callHeld call c hphase hheld =>
      exact accounted_start (s := { s with calls := s.calls ++ [call] }) h hheld (hinv.conns c)
        (hinv.held c hheld).2.clientOpen
  | @callUnheld call hphase hheld => exact h
  | @connect callId call hphase =>
      have hnone : s.held = none := by
        cases hheld : s.held with
        | none => rfl
        | some c =>
            have htalk := (hinv.held c hheld).2.talk
            rw [hphase] at htalk
            exact htalk.elim
      refine @accounted_start reranker _ _ _ _ (fun d => ?_) rfl ?_ ?_
      · by_cases hd : d = s.nextConn
        · subst hd
          rw [connected_self]
          exact accounted_of_idle rfl (.inl rfl)
        · rw [connected_of_ne s hd]
          refine ⟨fun hopen => .inr (((h d).running hopen).resolve_left ?_), (h d).ended⟩
          simp [hnone]
      · rw [connected_self]
        exact .fresh reranker rfl rfl rfl (by simp) (by simp)
      · rw [connected_self]
  | connectFails hphase => simp [undisturbed] at hallowed
  | writeMore =>
      exact accounted_setConn (f := (·.push _)) h ((h _).client rfl rfl id)
  | writeCommit =>
      exact accounted_setConn (f := (·.push _)) h ((h _).client rfl rfl id)
  | writeRequest =>
      exact accounted_setConn (f := (·.push _)) h ((h _).client rfl rfl id)
  | readHeader => exact accounted_setConn (f := (·.pull _)) h ((h _).client rfl rfl id)
  | readBody => exact accounted_setConn (f := (·.pull _)) h ((h _).client rfl rfl id)
  | @readReset a c n l hl hphase hheld =>
      rw [reset_setConn hheld]
      rw [hheld] at h
      refine accounted_release (f := fun conn => (conn.pull n).closeClient) h rfl rfl
        (fun _ => rfl) fun _ => ?_
      -- a reply came back, so the call's message was served
      have htalk := (hinv.held c hheld).2.talk
      rcases hphase with ⟨hphase, hdown⟩ | ⟨len, hphase⟩ <;> rw [hphase] at htalk
      · refine (htalk.2.resolve_left fun hawait => ?_).1
        simp [hawait.2.1, kFrameHeaderBytes] at hdown
      · obtain ⟨got, -, -, hans⟩ := htalk
        exact hans.1
  | fail hl hphase =>
      refine accounted_reset h ?_
      rcases hl with rfl | ⟨-, hclosed⟩
      · exact hallowed
      · exact hclosed
  | sigpipe hclosed hphase => exact accounted_reset h hclosed
  | resetConnection hphase => simp [undisturbed] at hallowed
  | @serverHeader c since hworker hup =>
      exact accounted_setConn h ((h c).takeHeader mp (hinv.conns c) hworker hup)
  | @serverReject c len moment hworker hup hdec =>
      exact accounted_setConn h (.rejectBody (hinv.conns c) hworker hup hdec)
  | @serverBody c len moment msg hworker hup hdec =>
      exact accounted_setConn (f := (·.takeBody _ _ _ _)) h
        ((h c).takeBody mp (hinv.conns c) hworker hup)
  | @serverWrite c n rest hworker hopen =>
      exact accounted_setConn (f := (·.putReply _ _ _)) h ((h c).putReply hworker)
  | @serverClose c why =>
      refine accounted_setConn (f := (·.closeWorker why)) h ((h c).closeWorker ?_ fun hheld =>
        (hinv.held c hheld).2.clientOpen)
      cases why with
      | idle => exact .inl rfl
      | peerClosed =>
          right
          simp only [undisturbed] at hallowed
          split at hallowed <;> simp_all
      | failed =>
          right
          simp only [undisturbed] at hallowed
          simp_all
      | timedOut => simp [undisturbed] at hallowed
      | rejected => simp [undisturbed] at hallowed
      | stopped => simp [undisturbed] at hallowed
  | restart => simp [undisturbed] at hallowed
  | elapse => exact h

/-- What is known of a session in an undisturbed environment. -/
structure Known (s : State) : Prop where
  delivery : Delivery s
  begun : Begun s
  accounted : ∀ c, Accounted s.held c (s.conns c)

theorem known_init : Known ((system mp reranker).restrict undisturbed).init where
  delivery := ⟨by simp [System.restrict, system, Conn.unborn], List.nodup_nil, rfl⟩
  begun k ev hcall := by simp [System.restrict, system] at hcall
  accounted c :=
    ⟨fun hopen => by simp [System.restrict, system, Conn.unborn, Worker.isOpen] at hopen,
      fun why _ => .inr (.inr ⟨rfl, rfl⟩)⟩

theorem known_of_reachable (h : ((system mp reranker).restrict undisturbed).Reachable s) :
    Known s := by
  refine h.invariant known_init fun hs hk hl => ?_
  obtain ⟨hallowed, hstep⟩ := System.restrict_step.mp hl
  have hinv := inv_of_reachable hs.of_restrict
  have hrec := records_of_reachable hs.of_restrict
  exact ⟨hk.delivery.step hinv (step_cases hstep),
    hk.begun.step hinv hrec hallowed (step_cases hstep),
    accounted_step hinv hk.accounted hallowed (step_cases hstep)⟩

/-! ### The events of one call -/

/-- What was handed to the logger for the call `k`. -/
def handedFor (s : State) (k : Nat) : List Handed :=
  s.handed.filter fun x => (s.conns x.conn).sent[x.pos]?.map Sent.callId == some k

/-- The events that were handed to the logger for the call `k`. -/
def handedEvents (s : State) (k : Nat) : List CommitEvent := (handedFor s k).map Handed.event

/-- No call is active, or the client's process has ended, and the server has read
whatever was written on the connections it holds open. -/
structure Settled (s : State) : Prop where
  ended : s.phase = .idle ∨ ∃ k, s.phase = .killed k
  read : ∀ c, (s.conns c).worker.isOpen → (s.conns c).up = []

theorem settled_of_lt (hinv : Inv reranker s) (hover : s.phase = .idle ∨ ∃ k, s.phase = .killed k)
    (hread : ∀ c < s.nextConn, (s.conns c).worker.isOpen → (s.conns c).up = []) : Settled s where
  ended := hover
  read c hopen := by
    by_cases hc : c < s.nextConn
    · exact hread c hc hopen
    · rw [hinv.unborn c (by omega)]
      rfl

/-- The first message not served stands behind the served ones. -/
theorem Conn.sent_of_pending {conn : Conn} {m : Message} {ms : List Message}
    (h : conn.pending = m :: ms) :
    ∃ x, conn.sent[conn.served.length]? = some x ∧ x.message = m := by
  have hhead : (conn.sent.map Sent.message)[conn.served.length]? = some m := by
    rw [← List.head?_drop, show (conn.sent.map Sent.message).drop conn.served.length = m :: ms
      from h, List.head?_cons]
  rw [List.getElem?_map] at hhead
  exact Option.map_eq_some_iff.mp hhead

/-- What is handed over was sent. -/
theorem sent_of_served {conn : Conn} (hok : conn.Ok reranker) {pos : Nat} {m : Message}
    {reply : Option Message} (h : conn.served[pos]? = some (m, reply)) :
    ∃ x, conn.sent[pos]? = some x ∧ x.message = m := by
  have hmap : (conn.served.map Prod.fst)[pos]? = some m := by simp [h]
  have hsent := prefix_getElem? hok.aligned hmap
  rw [List.getElem?_map] at hsent
  exact Option.map_eq_some_iff.mp hsent

/-- Everything that is handed over for a call stands where the call sent it. -/
theorem handedFor_eq (hinv : Inv reranker s) (hrec : Records s) (hdel : Delivery s) {k : Nat}
    {ev : CommitEvent} {c pos : Nat} (hsent : (s.conns c).sent[pos]? = some ⟨k, .commitEvent ev⟩) :
    ∀ x ∈ handedFor s k, x = ⟨c, pos, ev⟩ := by
  intro x hx
  obtain ⟨c', pos', ev'⟩ := x
  obtain ⟨hmem, hid⟩ := List.mem_filter.mp hx
  obtain ⟨reply, hserved⟩ := (hdel.iff c' pos' ev').mp hmem
  obtain ⟨y, hy, hmsg⟩ := sent_of_served (hinv.conns c') hserved
  have hyk : y.callId = k := by simpa [hy] using hid
  obtain ⟨rfl, rfl⟩ := hrec.unique hy hsent hyk
  obtain rfl := Option.some.inj (hy.symm.trans hsent)
  obtain rfl := Message.commitEvent.inj hmsg
  rfl

/-- The message of a commit call is recorded with its event. -/
theorem sent_of_handedFor (hinv : Inv reranker s) (hrec : Records s) (hdel : Delivery s) {k : Nat}
    {ev : CommitEvent} (hcall : s.calls[k]? = some (.recordCommit ev)) {x : Handed}
    (hx : x ∈ handedFor s k) :
    (s.conns x.conn).sent[x.pos]? = some ⟨k, .commitEvent ev⟩ := by
  obtain ⟨hmem, hid⟩ := List.mem_filter.mp hx
  obtain ⟨reply, hserved⟩ := (hdel.iff x.conn x.pos x.event).mp hmem
  obtain ⟨⟨callId, message⟩, hy, -⟩ := sent_of_served (hinv.conns x.conn) hserved
  obtain rfl : callId = k := by simpa [hy] using hid
  obtain ⟨call, id, hcall', hmsg⟩ := hrec.sent x.conn _ (List.mem_of_getElem? hy)
  obtain rfl := Option.some.inj (hcall.symm.trans hcall')
  rw [hy, show message = .commitEvent ev from hmsg]

theorem handedFor_of_sent (hinv : Inv reranker s) (hdel : Delivery s) {k : Nat} {ev : CommitEvent}
    {c pos : Nat} (hsent : (s.conns c).sent[pos]? = some ⟨k, .commitEvent ev⟩)
    (hserved : pos < (s.conns c).served.length) : ⟨c, pos, ev⟩ ∈ handedFor s k := by
  obtain ⟨x, hx, hmsg⟩ := sent_of_served (hinv.conns c) (List.getElem?_eq_getElem hserved)
  obtain rfl := Option.some.inj (hx.symm.trans hsent)
  have hpair : (s.conns c).served[pos]? =
      some (.commitEvent ev, ((s.conns c).served[pos]).2) := by
    rw [List.getElem?_eq_getElem hserved]
    exact congrArg some (Prod.ext hmsg.symm rfl)
  exact List.mem_filter.mpr ⟨(hdel.iff c pos ev).mpr ⟨_, hpair⟩, by simp [hsent]⟩

/-- At most once. -/
theorem handedEvents_cases (hinv : Inv reranker s) (hrec : Records s) (hdel : Delivery s) {k : Nat}
    {ev : CommitEvent} (hcall : s.calls[k]? = some (.recordCommit ev)) :
    handedEvents s k = [] ∨ handedEvents s k = [ev] := by
  have hnodup : (handedFor s k).Nodup := hdel.nodup.filter _
  unfold handedEvents
  cases hl : handedFor s k with
  | nil => exact .inl rfl
  | cons x xs =>
      right
      have hx : x ∈ handedFor s k := by simp [hl]
      have hall := handedFor_eq hinv hrec hdel (sent_of_handedFor hinv hrec hdel hcall hx)
      have hnil : xs = [] := by
        cases xs with
        | nil => rfl
        | cons y ys =>
            rw [hl] at hnodup
            have hxy := (hall x hx).trans (hall y (by simp [hl])).symm
            simp [hxy] at hnodup
      rw [hnil, hall x hx]
      rfl

/-- In a settled state nothing waits to be written. -/
theorem Settled.unsent (hset : Settled s) : s.phase.unsent = [] := by
  rcases hset.ended with hphase | ⟨k, hphase⟩ <;> rw [hphase] <;> rfl

/-- In a settled state a running worker has served all that was sent to it. -/
theorem Settled.pending {c : Nat} (hset : Settled s) (hinv : Inv reranker s)
    (hacc : Accounted s.held c (s.conns c)) (hopen : (s.conns c).worker.isOpen) :
    (s.conns c).pending = [] := by
  rcases hacc.running hopen with hheld | hnil
  · have hup := (hinv.held c hheld).2.upward
    rw [hset.unsent] at hup
    obtain ⟨taken, htaken, hframes⟩ := hup hopen
    rw [hset.read c hopen] at hframes
    simp only [List.append_nil] at hframes
    cases hp : (s.conns c).pending with
    | nil => rfl
    | cons m ms =>
        -- a whole frame is more than what a worker takes of one
        exfalso
        have hlen := congrArg List.length hframes
        have hbody := encodeBody_ne_nil m
        rw [hp, frames_cons, List.length_append, frameOf_length] at hlen
        cases hw : (s.conns c).worker with
        | awaitBody len =>
            rw [hw] at htaken
            have := htaken.1
            omega
        | closed why => simp [hw, Worker.isOpen] at hopen
        | awaitHeader since =>
            rw [hw] at htaken
            obtain rfl : taken = [] := htaken
            simp [kFrameHeaderBytes] at hlen
        | replying rest =>
            rw [hw] at htaken
            obtain rfl : taken = [] := htaken
            simp [kFrameHeaderBytes] at hlen
  · exact hnil

/-- **Delivery of commit events.** In an undisturbed environment the event of a
`RecordCommit` call is handed to the logger at most once. Once the server has read
what was written on the connections it holds open, the event was handed over
exactly once, or the server had closed the call's connection before it read the
frame: as idle, or because the first message it had not served, the call's own or one
before it, is above the cap. -/
theorem commit_handed (h : ((system mp reranker).restrict undisturbed).Reachable s) :
    s.server.recorded = s.handed.map Handed.event ∧
    (∀ (k : Nat) (ev : CommitEvent), s.calls[k]? = some (.recordCommit ev) →
      handedEvents s k = [] ∨ handedEvents s k = [ev]) ∧
    (Settled s → ∀ (k : Nat) (ev : CommitEvent), s.calls[k]? = some (.recordCommit ev) →
      encodable (.commitEvent ev) → handedEvents s k = [ev] ∨
        ∃ c pos : Nat, (s.conns c).sent[pos]? = some ⟨k, .commitEvent ev⟩ ∧
          (s.conns c).served.length ≤ pos ∧
          ((s.conns c).worker = .closed .idle ∨
            (s.conns c).worker = .closed .rejected ∧
              ∃ x, (s.conns c).sent[(s.conns c).served.length]? = some x ∧
                OverCap x.message)) := by
  have hinv := inv_of_reachable h.of_restrict
  have hrec := records_of_reachable h.of_restrict
  obtain ⟨hdel, hbegun, hacc⟩ := known_of_reachable h
  refine ⟨hdel.recorded, fun k ev hcall => handedEvents_cases hinv hrec hdel hcall, ?_⟩
  intro hset k ev hcall henc
  obtain ⟨c, pos, hsent⟩ := hbegun.sent hcall henc (by
    rcases hset.ended with hphase | ⟨k, hphase⟩ <;> simp [hphase])
  by_cases hserved : pos < (s.conns c).served.length
  · left
    refine (handedEvents_cases hinv hrec hdel hcall).resolve_left fun hnil => ?_
    have hmem := handedFor_of_sent hinv hdel hsent hserved
    rw [List.map_eq_nil_iff.mp hnil] at hmem
    simp at hmem
  · right
    refine ⟨c, pos, hsent, by omega, ?_⟩
    have hlt := (List.getElem?_eq_some_iff.mp hsent).1
    have hpending : (s.conns c).pending ≠ [] := by
      intro hnil
      have := List.drop_eq_nil_iff.mp hnil
      rw [List.length_map] at this
      omega
    cases hw : (s.conns c).worker with
    | closed why =>
        rcases (hacc c).ended why hw with rfl | ⟨rfl, m, ms, hm, hover⟩ | ⟨hnil, -⟩
        · exact .inl rfl
        · obtain ⟨x, hx, rfl⟩ := Conn.sent_of_pending hm
          exact .inr ⟨rfl, x, hx, hover⟩
        · exact absurd hnil hpending
    | awaitHeader since =>
        exact absurd (hset.pending hinv (hacc c) (by rw [hw]; rfl)) hpending
    | awaitBody len =>
        exact absurd (hset.pending hinv (hacc c) (by rw [hw]; rfl)) hpending
    | replying rest =>
        exact absurd (hset.pending hinv (hacc c) (by rw [hw]; rfl)) hpending

end Delivery

/-- A commit on a fresh connection. -/
def commitRun : List Label :=
  [.call (.recordCommit { code := [103] }), .connect, .write 10, .write 19, .serverHeader 0,
    .serverBody 0 ⟨5, 60⟩]

theorem commit_handed_once :
    ∃ s, ((system .reference mockReverse).restrict undisturbed).Reachable s ∧
      s.calls[0]? = some (.recordCommit { code := [103] }) ∧
      handedEvents s 0 = [{ code := [103] }] := by
  have hrun : ((((system .reference mockReverse).restrict undisturbed).run commitRun).map fun s =>
      (s.calls, handedEvents s 0)) =
        some ([.recordCommit { code := [103] }], [{ code := [103] }]) := by decide
  obtain ⟨s, hs, hproj⟩ := Option.map_eq_some_iff.mp hrun
  obtain ⟨hcalls, hevents⟩ := Prod.mk.inj hproj
  have hreach := System.reachable_of_run hs
  have hcall : s.calls[0]? = some (.recordCommit { code := [103] }) := by simp [hcalls]
  refine ⟨s, hreach, hcall, ((commit_handed hreach).2.1 0 _ hcall).resolve_left ?_⟩
  simp [hevents]

/-- A ping, a pause, and a commit on the connection that the server has closed, whose write
ends with `last`. -/
def idleRun (last : Label) : List Label :=
  pingRun ++ [.elapse 60000, .serverClose 0 .idle, .call (.recordCommit { code := [103] }), last]

theorem settled_of_idleRun {s : State} {phase : Phase}
    (hreach : ((system .reference mockReverse).restrict undisturbed).Reachable s)
    (hover : phase = .idle ∨ ∃ k, phase = .killed k)
    (hproj : (s.phase, s.nextConn, (s.conns 0).worker) = (phase, 1, .closed .idle)) :
    Settled s := by
  simp only [Prod.mk.injEq] at hproj
  obtain ⟨rfl, hnext, hworker⟩ := hproj
  refine settled_of_lt (inv_of_reachable hreach.of_restrict) hover fun c hc hopen => ?_
  obtain rfl : c = 0 := by omega
  simp [hworker, Worker.isOpen] at hopen

/-- The event of the commit after the pause is lost, where the process ignores SIGPIPE and
where it does not. -/
theorem commit_lost :
    ¬ (∀ s, ((system .reference mockReverse).restrict undisturbed).Reachable s → Settled s →
      s.phase = .idle → ∀ (k : Nat) (ev : CommitEvent), s.calls[k]? = some (.recordCommit ev) →
        handedEvents s k = [ev]) ∧
    ¬ (∀ s, ((system .reference mockReverse).restrict undisturbed).Reachable s → Settled s →
      s.phase = .killed 1 → ∀ (k : Nat) (ev : CommitEvent),
        s.calls[k]? = some (.recordCommit ev) → handedEvents s k = [ev]) := by
  constructor <;> intro hall
  · have hrun : ((((system .reference mockReverse).restrict undisturbed).run
        (idleRun .fail)).map fun s => ((s.phase, s.nextConn, (s.conns 0).worker), s.calls,
          handedEvents s 1)) =
          some ((.idle, 1, .closed .idle), [.ping, .recordCommit { code := [103] }], []) := by
      decide
    obtain ⟨s, hs, hproj⟩ := Option.map_eq_some_iff.mp hrun
    obtain ⟨hproj, hrecorded⟩ := Prod.mk.inj hproj
    obtain ⟨hcalls, hevents⟩ := Prod.mk.inj hrecorded
    have hreach := System.reachable_of_run hs
    have hev := hall s hreach (settled_of_idleRun hreach (.inl rfl) hproj) (Prod.mk.inj hproj).1 1
      { code := [103] } (by simp [hcalls])
    simp [hevents] at hev
  · have hrun : ((((system .reference mockReverse).restrict undisturbed).run
        (idleRun .sigpipe)).map fun s => ((s.phase, s.nextConn, (s.conns 0).worker), s.calls,
          handedEvents s 1)) =
          some ((.killed 1, 1, .closed .idle), [.ping, .recordCommit { code := [103] }], []) := by
      decide
    obtain ⟨s, hs, hproj⟩ := Option.map_eq_some_iff.mp hrun
    obtain ⟨hproj, hrecorded⟩ := Prod.mk.inj hproj
    obtain ⟨hcalls, hevents⟩ := Prod.mk.inj hrecorded
    have hreach := System.reachable_of_run hs
    have hev := hall s hreach (settled_of_idleRun hreach (.inr ⟨1, rfl⟩) hproj)
      (Prod.mk.inj hproj).1 1 { code := [103] } (by simp [hcalls])
    simp [hevents] at hev

end Dafeng.Session
