import Dafeng.Session.Invariant

/-!
# Dafeng.Session.Traffic

The server under any peers: any number of connections whose peers send what
bytes they like, and the workers of `Dafeng.Session.Model` that read them.

`received` is what a byte stream holds, frame by frame, up to the frame behind
which a worker does not go on. A worker has always handled a first part of what
its connection received (`tracked`), so what the counters say of the frames that
were handled is said of the frames that were received.
-/

namespace Dafeng.Session.Traffic

open Dafeng.Msgpack Dafeng.Protocol Dafeng.Daemon

/-! ### Frames of a stream -/

/-- A frame as the server finds it. -/
inductive Received
  | badLength
  | undecodable
  | message (m : Message)
  deriving DecidableEq, Repr

namespace Received

/-- A frame that holds no message. -/
def malformed : Received → Bool
  | .badLength | .undecodable => true
  | .message _ => false

/-- A message that only a server sends. -/
def clientBound : Received → Bool
  | .message (.rerankResponse _) | .message (.pong _) | .message (.error _)
  | .message (.statsResponse _) => true
  | _ => false

/-- The frames the server rejects. -/
def rejected (x : Received) : Bool := x.malformed || x.clientBound

def rerank : Received → Bool
  | .message (.rerankRequest _) => true
  | _ => false

def ping : Received → Bool
  | .message (.ping _) => true
  | _ => false

def commit : Received → Bool
  | .message (.commitEvent _) => true
  | _ => false

end Received

section Frames

variable (mp : Unpacker)

/-- The frames of a stream, with the frame behind which its worker ends. -/
def received (s : Bytes) : List Received :=
  if s.length < kFrameHeaderBytes then []
  else
    match readFrameLength (s.take kFrameHeaderBytes) with
    | none => [.badLength]
    | some n =>
      let rest := s.drop kFrameHeaderBytes
      if rest.length < n.toNat then []
      else
        match decodeBody mp (rest.take n.toNat) with
        | none => [.undecodable]
        | some m => .message m :: received (rest.drop n.toNat)
  termination_by s.length
  decreasing_by
    simp only [kFrameHeaderBytes, List.length_drop] at *
    omega

/-- The frames of a stream behind a header. -/
def receivedBody (n : UInt32) (s : Bytes) : List Received :=
  if s.length < n.toNat then []
  else
    match decodeBody mp (s.take n.toNat) with
    | none => [.undecodable]
    | some m => .message m :: received mp (s.drop n.toNat)

variable {mp}

theorem received_short {s : Bytes} (h : s.length < kFrameHeaderBytes) : received mp s = [] := by
  rw [received, if_pos h]

theorem received_header {header : Bytes} (h : header.length = kFrameHeaderBytes) (s : Bytes) :
    received mp (header ++ s) =
      match readFrameLength header with
      | none => [.badLength]
      | some n => receivedBody mp n s := by
  have hlong : ¬ (header ++ s).length < kFrameHeaderBytes := by
    rw [List.length_append]
    omega
  rw [received, if_neg hlong, List.take_left' h, List.drop_left' h]
  rfl

theorem receivedBody_body {n : UInt32} {body : Bytes} (h : body.length = n.toNat) (s : Bytes) :
    receivedBody mp n (body ++ s) =
      match decodeBody mp body with
      | none => [.undecodable]
      | some m => .message m :: received mp s := by
  have hlong : ¬ (body ++ s).length < n.toNat := by
    rw [List.length_append]
    omega
  rw [receivedBody, if_neg hlong, List.take_left' h, List.drop_left' h]

end Frames

/-! ### The system -/

/-- The server and its connections, with the bytes each connection received and
the frames that were handled, each with its connection. -/
structure State where
  site : Session.State := {}
  streams : Nat → Bytes := fun _ => []
  handled : List (Nat × Received) := []

inductive Label
  /-- a peer connects -/
  | accept
  /-- bytes of a peer arrive -/
  | receive (c : Nat) (bytes : Bytes)
  /-- a peer closes its end -/
  | hangUp (c : Nat)
  | serverHeader (c : Nat)
  | serverBody (c : Nat) (moment : Moment)
  | serverWrite (c n : Nat)
  | serverClose (c : Nat) (why : CloseReason)
  | elapse (ms : Nat)
  deriving DecidableEq, Repr

/-- What the worker of a connection finds in the header it reads, where it is
nothing to go on with. -/
def headerFlaw (conn : Conn) : List Received :=
  if readFrameLength (conn.up.take kFrameHeaderBytes) = none then [.badLength] else []

/-- What the worker of a connection finds in the body it reads. -/
def bodyFrame (mp : Unpacker) (conn : Conn) : List Received :=
  match conn.worker with
  | .awaitBody len =>
    match decodeBody mp (conn.up.take len.toNat) with
    | none => [.undecodable]
    | some m => [.message m]
  | _ => []

section Step

variable (mp : Unpacker) (reranker : RerankService)

/-- Record frames of a connection as handled. -/
def State.record (s : State) (c : Nat) (frames : List Received) : List (Nat × Received) :=
  s.handled ++ frames.map (c, ·)

def step (s : State) : Label → Option State
  | .accept => some { s with
      site := { s.site with
        conns := Function.update s.site.conns s.site.nextConn { worker := .awaitHeader s.site.now }
        nextConn := s.site.nextConn + 1 }
      streams := Function.update s.streams s.site.nextConn [] }
  | .receive c bytes =>
    if (s.site.conns c).clientOpen then
      some { s with
        site := s.site.setConn c (·.push bytes)
        streams := Function.update s.streams c (s.streams c ++ bytes) }
    else none
  | .hangUp c => some { s with site := s.site.setConn c Conn.closeClient }
  | .serverHeader c =>
    (Session.serverHeader s.site c).map fun site =>
      { s with site, handled := s.record c (headerFlaw (s.site.conns c)) }
  | .serverBody c moment =>
    (Session.serverBody mp reranker s.site c moment).map fun site =>
      { s with site, handled := s.record c (bodyFrame mp (s.site.conns c)) }
  | .serverWrite c n => (Session.serverWrite s.site c n).map fun site => { s with site }
  | .serverClose c why => some { s with site := s.site.setConn c (·.closeWorker why) }
  | .elapse ms => some { s with site := { s.site with now := s.site.now + ms } }

/-- The server from its start. -/
def system : System State Label where
  init := {}
  step := step mp reranker

end Step

section Inversion

variable {mp : Unpacker} {reranker : RerankService} {s s' : State} {c : Nat}

theorem receive_cases {bytes : Bytes}
    (h : (system mp reranker).step s (.receive c bytes) = some s') :
    s' = { s with
      site := s.site.setConn c (·.push bytes)
      streams := Function.update s.streams c (s.streams c ++ bytes) } := by
  simp only [system, step] at h
  split_ifs at h
  exact (Option.some.inj h).symm

theorem serverHeader_cases (h : (system mp reranker).step s (.serverHeader c) = some s') :
    ∃ since, (s.site.conns c).worker = .awaitHeader since ∧
      kFrameHeaderBytes ≤ (s.site.conns c).up.length ∧
      s' = { s with
        site := s.site.setConn c Conn.takeHeader
        handled := s.record c (headerFlaw (s.site.conns c)) } := by
  obtain ⟨site, hsite, rfl⟩ := Option.map_eq_some_iff.mp h
  cases @Session.serverHeader_cases mp reranker _ _ _ hsite with
  | readReset hl => simp at hl
  | fail hl => simp at hl
  | serverHeader hworker hup => exact ⟨_, hworker, hup, rfl⟩

/-- The worker rejects the body, or it handles the message in it. -/
theorem serverBody_cases {moment : Moment}
    (h : (system mp reranker).step s (.serverBody c moment) = some s') :
    ∃ len, (s.site.conns c).worker = .awaitBody len ∧
      len.toNat ≤ (s.site.conns c).up.length ∧
      (decodeBody mp ((s.site.conns c).up.take len.toNat) = none ∧
        s' = { s with
          site := s.site.setConn c (·.rejectBody len.toNat)
          handled := s.record c [.undecodable] } ∨
      ∃ msg, decodeBody mp ((s.site.conns c).up.take len.toNat) = some msg ∧
        s' = { s with
          site := { s.site.setConn c (·.takeBody len.toNat s.site.now msg
              (dispatch reranker moment s.site.server msg).2) with
            server := (dispatch reranker moment s.site.server msg).1
            handed := s.site.handed ++ handing c (s.site.conns c).served.length msg }
          handled := s.record c [.message msg] }) := by
  obtain ⟨site, hsite, rfl⟩ := Option.map_eq_some_iff.mp h
  cases Session.serverBody_cases hsite with
  | readReset hl => simp at hl
  | fail hl => simp at hl
  | serverReject hworker hup hdec =>
      refine ⟨_, hworker, hup, .inl ⟨hdec, ?_⟩⟩
      simp only [bodyFrame, hworker, hdec]
  | serverBody hworker hup hdec =>
      refine ⟨_, hworker, hup, .inr ⟨_, hdec, ?_⟩⟩
      simp only [bodyFrame, hworker, hdec]

theorem serverWrite_cases {n : Nat}
    (h : (system mp reranker).step s (.serverWrite c n) = some s') :
    ∃ rest, (s.site.conns c).worker = .replying rest ∧
      s' = { s with site := s.site.setConn c (·.putReply n s.site.now rest) } := by
  obtain ⟨site, hsite, rfl⟩ := Option.map_eq_some_iff.mp h
  cases @Session.serverWrite_cases mp reranker _ _ _ _ hsite with
  | readReset hl => simp at hl
  | fail hl => simp at hl
  | serverWrite hworker hopen => exact ⟨_, hworker, rfl⟩

end Inversion

/-! ### What a worker has handled -/

/-- The frames of a connection that were handled. -/
def State.framesOf (s : State) (c : Nat) : List Received :=
  (s.handled.filter fun x => x.1 == c).map Prod.snd

theorem framesOf_record {s s' : State} {c : Nat} {frames : List Received}
    (h : s'.handled = s.record c frames) (d : Nat) :
    s'.framesOf d = if d = c then s.framesOf d ++ frames else s.framesOf d := by
  rw [State.framesOf, h, State.record, List.filter_append, List.map_append, State.framesOf]
  split_ifs with hd
  · subst hd
    congr 1
    simp [List.filter_map, Function.comp_def]
  · have hnil : (frames.map (c, ·)).filter (fun x => x.1 == d) = [] := by
      refine List.filter_eq_nil_iff.mpr fun x hx => ?_
      obtain ⟨frame, -, rfl⟩ := List.mem_map.mp hx
      simpa using Ne.symm hd
    rw [hnil, List.map_nil, List.append_nil]

section Reads

variable (mp : Unpacker)

/-- A worker that consumed some bytes has handled the frames in them. -/
def Reads (consumed : Bytes) (frames : List Received) : Worker → Prop
  | .awaitHeader _ | .replying _ => ∀ rest, received mp (consumed ++ rest) =
      frames ++ received mp rest
  | .awaitBody len => ∀ rest, received mp (consumed ++ rest) = frames ++ receivedBody mp len rest
  | .closed _ => ∀ rest, frames <+: received mp (consumed ++ rest)

/-- What a connection received is what its worker consumed and what lies above it. -/
def Tracks (conn : Conn) (stream : Bytes) (frames : List Received) : Prop :=
  ∃ consumed, stream = consumed ++ conn.up ∧ Reads mp consumed frames conn.worker

variable {mp} {consumed : Bytes} {frames : List Received}

theorem Reads.prefix {w : Worker} (h : Reads mp consumed frames w) (rest : Bytes) :
    frames <+: received mp (consumed ++ rest) := by
  cases w with
  | awaitHeader since => exact ⟨_, (h rest).symm⟩
  | awaitBody len => exact ⟨_, (h rest).symm⟩
  | replying reply => exact ⟨_, (h rest).symm⟩
  | closed why => exact h rest

namespace Tracks

variable {conn : Conn} {stream : Bytes}

theorem push (h : Tracks mp conn stream frames) (bytes : Bytes) :
    Tracks mp (conn.push bytes) (stream ++ bytes) frames := by
  obtain ⟨consumed, rfl, hreads⟩ := h
  exact ⟨consumed, List.append_assoc .., hreads⟩

theorem takeHeader {since : Nat} (h : Tracks mp conn stream frames)
    (hworker : conn.worker = .awaitHeader since) (hup : kFrameHeaderBytes ≤ conn.up.length) :
    Tracks mp conn.takeHeader stream (frames ++ headerFlaw conn) := by
  obtain ⟨consumed, rfl, hreads⟩ := h
  rw [hworker] at hreads
  have hlen := List.length_take_of_le hup
  refine ⟨consumed ++ conn.up.take kFrameHeaderBytes, by simp [Conn.takeHeader], ?_⟩
  unfold Conn.takeHeader headerFlaw
  dsimp only
  cases hheader : readFrameLength (conn.up.take kFrameHeaderBytes) with
  | none =>
      intro rest
      rw [List.append_assoc, hreads, received_header hlen, hheader]
      exact List.prefix_rfl
  | some n =>
      intro rest
      rw [List.append_assoc, hreads, received_header hlen, hheader]
      simp

theorem rejectBody {len : UInt32} (h : Tracks mp conn stream frames)
    (hworker : conn.worker = .awaitBody len) (hup : len.toNat ≤ conn.up.length)
    (hdec : decodeBody mp (conn.up.take len.toNat) = none) :
    Tracks mp (conn.rejectBody len.toNat) stream (frames ++ [.undecodable]) := by
  obtain ⟨consumed, rfl, hreads⟩ := h
  rw [hworker] at hreads
  refine ⟨consumed ++ conn.up.take len.toNat, by simp [Conn.rejectBody], fun rest => ?_⟩
  rw [List.append_assoc, hreads, receivedBody_body (List.length_take_of_le hup)]
  simp only [hdec, List.prefix_rfl]

theorem takeBody {len : UInt32} {now : Nat} {msg : Message} {reply : Option Message}
    (h : Tracks mp conn stream frames) (hworker : conn.worker = .awaitBody len)
    (hup : len.toNat ≤ conn.up.length)
    (hdec : decodeBody mp (conn.up.take len.toNat) = some msg) :
    Tracks mp (conn.takeBody len.toNat now msg reply) stream (frames ++ [.message msg]) := by
  obtain ⟨consumed, rfl, hreads⟩ := h
  rw [hworker] at hreads
  refine ⟨consumed ++ conn.up.take len.toNat, by simp [Conn.takeBody], ?_⟩
  have hframe : ∀ rest, received mp (consumed ++ conn.up.take len.toNat ++ rest) =
      frames ++ [.message msg] ++ received mp rest := by
    intro rest
    rw [List.append_assoc, hreads, receivedBody_body (List.length_take_of_le hup), hdec,
      List.append_assoc]
    rfl
  cases reply with
  | none => exact hframe
  | some reply => exact hframe

theorem putReply {n now : Nat} {reply : Bytes} (h : Tracks mp conn stream frames)
    (hworker : conn.worker = .replying reply) :
    Tracks mp (conn.putReply n now reply) stream frames := by
  obtain ⟨consumed, rfl, hreads⟩ := h
  rw [hworker] at hreads
  refine ⟨consumed, rfl, ?_⟩
  unfold Conn.putReply
  dsimp only
  split_ifs
  · exact hreads
  · exact hreads

theorem closeWorker {why : CloseReason} (h : Tracks mp conn stream frames) :
    Tracks mp (conn.closeWorker why) stream frames := by
  obtain ⟨consumed, rfl, hreads⟩ := h
  refine ⟨consumed, rfl, ?_⟩
  unfold Conn.closeWorker
  dsimp only
  split_ifs
  · exact hreads.prefix
  · exact hreads

end Tracks

end Reads

section Tracked

variable {mp : Unpacker} {reranker : RerankService} {s s' : State}

/-- Every worker has handled the frames in what it consumed. A connection that does
not exist yet has no frames. -/
structure Inv (mp : Unpacker) (s : State) : Prop where
  tracks : ∀ c, Tracks mp (s.site.conns c) (s.streams c) (s.framesOf c)
  unborn : ∀ c, s.site.nextConn ≤ c →
    (s.site.conns c).worker.isOpen = false ∧ s.framesOf c = []

/-- A step of one connection: a worker that has ended handles nothing more. -/
theorem Inv.setConn {c : Nat} {f : Conn → Conn} (frames : List Received) (h : Inv mp s)
    (hconns : s'.site.conns = (s.site.setConn c f).conns)
    (hnext : s'.site.nextConn = s.site.nextConn)
    (hstreams : ∀ d, d ≠ c → s'.streams d = s.streams d)
    (hhandled : s'.handled = s.record c frames)
    (htracks : Tracks mp (f (s.site.conns c)) (s'.streams c) (s.framesOf c ++ frames))
    (hclosed : (s.site.conns c).worker.isOpen = false →
      (f (s.site.conns c)).worker.isOpen = false ∧ frames = []) : Inv mp s' := by
  have hframes := framesOf_record hhandled
  constructor
  · intro d
    rw [hconns, hframes]
    by_cases hd : d = c
    · subst hd
      rw [if_pos rfl, setConn_self]
      exact htracks
    · rw [if_neg hd, setConn_of_ne _ _ hd, hstreams d hd]
      exact h.tracks d
  · intro d hle
    rw [hnext] at hle
    rw [hconns, hframes]
    by_cases hd : d = c
    · subst hd
      rw [if_pos rfl, setConn_self]
      obtain ⟨hworker, hnil⟩ := h.unborn d hle
      obtain ⟨hworker', rfl⟩ := hclosed hworker
      exact ⟨hworker', by rw [hnil, List.append_nil]⟩
    · rw [if_neg hd, setConn_of_ne _ _ hd]
      exact h.unborn d hle

/-- A step of one connection that reads nothing. -/
theorem Inv.silent {c : Nat} {f : Conn → Conn} (h : Inv mp s)
    (htracks : Tracks mp (f (s.site.conns c)) (s.streams c) (s.framesOf c))
    (hclosed : (s.site.conns c).worker.isOpen = false →
      (f (s.site.conns c)).worker.isOpen = false) :
    Inv mp { s with site := s.site.setConn c f } := by
  refine h.setConn [] rfl rfl (fun d _ => rfl) (List.append_nil _).symm ?_
    fun hworker => ⟨hclosed hworker, rfl⟩
  rw [List.append_nil]
  exact htracks

theorem inv_of_reachable (h : (system mp reranker).Reachable s) : Inv mp s := by
  refine h.invariant (I := Inv mp) ?_ ?_
  · exact ⟨fun c => ⟨[], rfl, fun rest => List.nil_prefix⟩, fun c _ => ⟨rfl, rfl⟩⟩
  · intro s l s' _ hs hl
    cases l with
    | accept =>
        obtain rfl := Option.some.inj hl
        constructor
        · intro c
          show Tracks mp (Function.update s.site.conns s.site.nextConn _ c)
            (Function.update s.streams s.site.nextConn [] c) (s.framesOf c)
          by_cases hc : c = s.site.nextConn
          · subst hc
            rw [Function.update_self, Function.update_self, (hs.unborn _ (Nat.le_refl _)).2]
            exact ⟨[], rfl, fun rest => rfl⟩
          · rw [Function.update_of_ne hc, Function.update_of_ne hc]
            exact hs.tracks c
        · intro c hle
          have hlt : s.site.nextConn < c := hle
          show (Function.update s.site.conns s.site.nextConn _ c).worker.isOpen = false ∧
            s.framesOf c = []
          rw [Function.update_of_ne (Nat.ne_of_gt hlt)]
          exact hs.unborn c (Nat.le_of_lt hlt)
    | receive c bytes =>
        obtain rfl := receive_cases hl
        refine hs.setConn [] rfl rfl (fun d hd => ?_) (List.append_nil _).symm ?_
          fun hworker => ⟨hworker, rfl⟩
        · exact Function.update_of_ne hd _ _
        · dsimp only
          rw [Function.update_self, List.append_nil]
          exact (hs.tracks c).push bytes
    | hangUp c =>
        obtain rfl := Option.some.inj hl
        exact hs.silent (hs.tracks c) fun hworker => hworker
    | serverHeader c =>
        obtain ⟨since, hworker, hup, rfl⟩ := serverHeader_cases hl
        exact hs.setConn _ rfl rfl (fun d _ => rfl) rfl ((hs.tracks c).takeHeader hworker hup)
          fun hclosed => by simp [hworker, Worker.isOpen] at hclosed
    | serverBody c moment =>
        obtain ⟨len, hworker, hup, hbody⟩ := serverBody_cases hl
        have hopen : ¬ (s.site.conns c).worker.isOpen = false := by simp [hworker, Worker.isOpen]
        rcases hbody with ⟨hdec, rfl⟩ | ⟨msg, hdec, rfl⟩
        · exact hs.setConn _ rfl rfl (fun d _ => rfl) rfl
            ((hs.tracks c).rejectBody hworker hup hdec) fun hclosed => absurd hclosed hopen
        · exact hs.setConn (f := (·.takeBody len.toNat s.site.now msg
              (dispatch reranker moment s.site.server msg).2)) _ rfl rfl (fun d _ => rfl) rfl
            ((hs.tracks c).takeBody hworker hup hdec) fun hclosed => absurd hclosed hopen
    | serverWrite c n =>
        obtain ⟨rest, hworker, rfl⟩ := serverWrite_cases hl
        exact hs.silent ((hs.tracks c).putReply hworker)
          fun hclosed => by simp [hworker, Worker.isOpen] at hclosed
    | serverClose c why =>
        obtain rfl := Option.some.inj hl
        exact hs.silent (hs.tracks c).closeWorker fun _ => by simp
    | elapse ms =>
        obtain rfl := Option.some.inj hl
        exact ⟨hs.tracks, hs.unborn⟩

/-- **What is handled was received.** The frames of a connection that were handled
are the first of those it received. -/
theorem handled_received (h : (system mp reranker).Reachable s) (c : Nat) :
    s.framesOf c <+: received mp (s.streams c) := by
  obtain ⟨consumed, heq, hreads⟩ := (inv_of_reachable h).tracks c
  rw [heq]
  exact hreads.prefix _

/-- A worker that waits for more bytes has handled all that was received. -/
theorem handled_all (h : (system mp reranker).Reachable s) {c since : Nat}
    (hworker : (s.site.conns c).worker = .awaitHeader since)
    (hup : (s.site.conns c).up.length < kFrameHeaderBytes) :
    s.framesOf c = received mp (s.streams c) := by
  obtain ⟨consumed, heq, hreads⟩ := (inv_of_reachable h).tracks c
  rw [hworker] at hreads
  rw [heq, hreads, received_short hup, List.append_nil]

end Tracked

/-! ### Counting -/

section Counting

variable {mp : Unpacker} {reranker : RerankService} {s s' : State}

/-- How many of the handled frames are of a kind. -/
def State.count (s : State) (kind : Received → Bool) : Nat := s.handled.countP fun x => kind x.2

/-- What each counter counts. -/
structure Counts (s : State) : Prop where
  errors : s.site.server.errorCount = UInt64.ofNat (s.count Received.clientBound)
  reranks : s.site.server.rerankCount = UInt64.ofNat (s.count Received.rerank)
  pings : s.site.server.pingCount = UInt64.ofNat (s.count Received.ping)
  commits : s.site.server.commitCount = UInt64.ofNat (s.count Received.commit)

theorem count_record {c : Nat} {frames : List Received} (hhandled : s'.handled = s.record c frames)
    (kind : Received → Bool) : s'.count kind = s.count kind + frames.countP kind := by
  rw [State.count, hhandled, State.record, List.countP_append, List.countP_map]
  rfl

/-- What one message adds to the counters. -/
theorem dispatch_counts (moment : Moment) (st : ServerState) (m : Message) :
    let st' := (dispatch reranker moment st m).1
    let n := fun kind => UInt64.ofNat ([Received.message m].countP kind)
    st'.errorCount = st.errorCount + n Received.clientBound ∧
      st'.rerankCount = st.rerankCount + n Received.rerank ∧
      st'.pingCount = st.pingCount + n Received.ping ∧
      st'.commitCount = st.commitCount + n Received.commit := by
  cases m <;> simp [dispatch, Received.clientBound, Received.rerank, Received.ping, Received.commit]

/-- Frames that are no messages are of no kind that is counted. -/
theorem countP_malformed {frames : List Received} (h : ∀ x ∈ frames, x.malformed)
    {kind : Received → Bool} (hlength : kind .badLength = false)
    (hbody : kind .undecodable = false) : frames.countP kind = 0 := by
  refine List.countP_eq_zero.mpr fun x hx => ?_
  cases x with
  | badLength => simp [hlength]
  | undecodable => simp [hbody]
  | message m => exact absurd (h _ hx) (by simp [Received.malformed])

theorem Counts.malformed {c : Nat} {frames : List Received} (h : Counts s)
    (hserver : s'.site.server = s.site.server) (hhandled : s'.handled = s.record c frames)
    (hframes : ∀ x ∈ frames, x.malformed) : Counts s' := by
  constructor
  · rw [hserver, count_record hhandled, countP_malformed hframes rfl rfl, h.errors, Nat.add_zero]
  · rw [hserver, count_record hhandled, countP_malformed hframes rfl rfl, h.reranks, Nat.add_zero]
  · rw [hserver, count_record hhandled, countP_malformed hframes rfl rfl, h.pings, Nat.add_zero]
  · rw [hserver, count_record hhandled, countP_malformed hframes rfl rfl, h.commits, Nat.add_zero]

theorem Counts.message {c : Nat} {moment : Moment} {m : Message} (h : Counts s)
    (hserver : s'.site.server = (dispatch reranker moment s.site.server m).1)
    (hhandled : s'.handled = s.record c [.message m]) : Counts s' := by
  obtain ⟨herrors, hreranks, hpings, hcommits⟩ :=
    @dispatch_counts reranker moment s.site.server m
  constructor
  · rw [hserver, count_record hhandled, UInt64.ofNat_add, ← h.errors]
    exact herrors
  · rw [hserver, count_record hhandled, UInt64.ofNat_add, ← h.reranks]
    exact hreranks
  · rw [hserver, count_record hhandled, UInt64.ofNat_add, ← h.pings]
    exact hpings
  · rw [hserver, count_record hhandled, UInt64.ofNat_add, ← h.commits]
    exact hcommits

theorem counts_of_reachable (h : (system mp reranker).Reachable s) : Counts s := by
  refine h.invariant (I := Counts) ⟨rfl, rfl, rfl, rfl⟩ ?_
  intro s l s' _ hs hl
  cases l with
  | accept =>
      obtain rfl := Option.some.inj hl
      exact ⟨hs.errors, hs.reranks, hs.pings, hs.commits⟩
  | receive c bytes =>
      obtain rfl := receive_cases hl
      exact ⟨hs.errors, hs.reranks, hs.pings, hs.commits⟩
  | hangUp c =>
      obtain rfl := Option.some.inj hl
      exact ⟨hs.errors, hs.reranks, hs.pings, hs.commits⟩
  | serverHeader c =>
      obtain ⟨since, hworker, hup, rfl⟩ := serverHeader_cases hl
      refine hs.malformed rfl rfl fun x hx => ?_
      unfold headerFlaw at hx
      split_ifs at hx
      · obtain rfl := List.mem_singleton.mp hx
        rfl
      · cases hx
  | serverBody c moment =>
      obtain ⟨len, hworker, hup, hbody⟩ := serverBody_cases hl
      rcases hbody with ⟨hdec, rfl⟩ | ⟨msg, hdec, rfl⟩
      · refine hs.malformed rfl rfl fun x hx => ?_
        obtain rfl := List.mem_singleton.mp hx
        rfl
      · exact hs.message rfl rfl
  | serverWrite c n =>
      obtain ⟨rest, hworker, rfl⟩ := serverWrite_cases hl
      exact ⟨hs.errors, hs.reranks, hs.pings, hs.commits⟩
  | serverClose c why =>
      obtain rfl := Option.some.inj hl
      exact ⟨hs.errors, hs.reranks, hs.pings, hs.commits⟩
  | elapse ms =>
      obtain rfl := Option.some.inj hl
      exact ⟨hs.errors, hs.reranks, hs.pings, hs.commits⟩

theorem count_rejected (s : State) :
    s.count Received.rejected = s.count Received.malformed + s.count Received.clientBound := by
  unfold State.count
  induction s.handled with
  | nil => rfl
  | cons x xs ih =>
      have hx : (if x.2.rejected then 1 else 0) =
          (if x.2.malformed then 1 else 0) + if x.2.clientBound then 1 else 0 := by
        cases x.2 with
        | badLength => rfl
        | undecodable => rfl
        | message m => cases m <;> rfl
      rw [List.countP_cons, List.countP_cons, List.countP_cons, ih]
      omega

/-- **What the error counter counts.** The counters are the numbers of rejected
frames, rerank requests, pings and commits among the handled frames exactly if
every handled frame held a message, and none of these numbers is beyond 64 bits. -/
theorem errorCount_iff (h : (system mp reranker).Reachable s) :
    (s.site.server.errorCount.toNat = s.count Received.rejected ∧
      s.site.server.rerankCount.toNat = s.count Received.rerank ∧
      s.site.server.pingCount.toNat = s.count Received.ping ∧
      s.site.server.commitCount.toNat = s.count Received.commit) ↔
    (∀ x ∈ s.handled, x.2.malformed = false) ∧ s.count Received.clientBound < 2 ^ 64 ∧
      s.count Received.rerank < 2 ^ 64 ∧ s.count Received.ping < 2 ^ 64 ∧
      s.count Received.commit < 2 ^ 64 := by
  obtain ⟨herrors, hreranks, hpings, hcommits⟩ := counts_of_reachable h
  have hnone : s.count Received.malformed = 0 ↔ ∀ x ∈ s.handled, x.2.malformed = false := by
    simp only [State.count, List.countP_eq_zero, Bool.not_eq_true]
  rw [herrors, hreranks, hpings, hcommits, count_rejected, ← hnone]
  simp only [UInt64.toNat_ofNat']
  omega

end Counting

/-- A connection on which a ping arrives, is answered, and a pong follows, which a server
does not expect. -/
def pinged : List Label :=
  [.accept, .receive 0 (frameOf (.ping { requestId := 1 })), .serverHeader 0,
    .serverBody 0 ⟨0, 0⟩, .serverWrite 0 (frameOf (.pong { requestId := 1 })).length,
    .receive 0 (frameOf (.pong { requestId := 2 })), .serverHeader 0, .serverBody 0 ⟨0, 0⟩]

/-- One error and one ping are counted. -/
theorem errorCount_iff_pinged : ∃ s, (system .reference mockReverse).run pinged = some s ∧
    s.site.server.errorCount.toNat = 1 ∧ s.site.server.pingCount.toNat = 1 := by
  have hend : ((system .reference mockReverse).run pinged).map State.handled =
      some [(0, .message (.ping { requestId := 1 })),
        (0, .message (.pong { requestId := 2 }))] := by
    rfl
  obtain ⟨s, hs, hhandled⟩ := Option.map_eq_some_iff.mp hend
  obtain ⟨herrors, -, hpings, -⟩ := (errorCount_iff (System.reachable_of_run hs)).mpr (by
    simp only [State.count, hhandled]
    decide)
  refine ⟨s, hs, ?_, ?_⟩
  · rw [herrors, State.count, hhandled]
    rfl
  · rw [hpings, State.count, hhandled]
    rfl

/-- A connection on which a frame of length zero arrives. -/
def zeroLength : List Label := [.accept, .receive 0 [0, 0, 0, 0], .serverHeader 0]

/-- The worker rejects the frame and closes the connection. All that was received
is handled, and nothing is counted. -/
theorem zeroLength_uncounted : ¬ ∀ s, (system .reference mockReverse).Reachable s →
    (∀ c, s.framesOf c = received .reference (s.streams c)) →
    s.site.server.errorCount.toNat = s.count Received.rejected := by
  intro hall
  obtain ⟨s, hs, hstreams, hhandled, herrors⟩ : ∃ s,
      (system .reference mockReverse).run zeroLength = some s ∧
      s.streams = Function.update (Function.update (fun _ => []) 0 []) 0 [0, 0, 0, 0] ∧
      s.handled = [(0, .badLength)] ∧ s.site.server.errorCount = 0 := ⟨_, rfl, rfl, rfl, rfl⟩
  have hcount := hall s (System.reachable_of_run hs) fun c => by
    rw [State.framesOf, hhandled, hstreams]
    by_cases hc : c = 0
    · subst hc
      exact (@received_header .reference [0, 0, 0, 0] rfl []).symm
    · rw [Function.update_of_ne hc, Function.update_of_ne hc, received_short (by decide)]
      simp [Ne.symm hc]
  rw [herrors, State.count, hhandled] at hcount
  exact absurd hcount (by decide)

end Dafeng.Session.Traffic
