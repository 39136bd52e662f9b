import Dafeng.Daemon.Server
import Dafeng.Protocol.Frame

/-!
# Dafeng.Client.Calls

The calls of `DafengClient` (`src/client/client.cc`) that wait for a reply, against
any peer: its whole stream is the inbox of the connection, and the turns say where a
read or a write fails. A call that returns took one frame of the stream or let the
connection go. A call does not return where its write meets a closed end and the host,
the process that uses the client, does not ignore SIGPIPE.
-/

namespace Dafeng.Client

open Dafeng.Msgpack Dafeng.Protocol Dafeng.Daemon Dafeng.Endpoint

/-- `DafengClient::Impl`. `retired` records the connections that it let go, as they
were left. -/
structure Impl where
  conn : Option UnixConnection := none
  nextRequestId : UInt32 := 1
  retired : List UnixConnection := []
  deriving DecidableEq, Repr

/-- How a call ends. `EncodeBody` can throw, and SIGPIPE can end the process. -/
inductive Result (α : Type)
  | success (reply : α)
  | failure
  | threw
  | killed
  deriving DecidableEq, Repr

namespace Impl

/-- `ResetLocked`. -/
def resetLocked (c : Impl) : Impl :=
  { c with conn := none, retired := c.retired ++ (c.conn.map UnixConnection.close).toList }

/-- `EnsureConnectedLocked`, where `ConnectEndpoint` returns `dial`. -/
def ensureConnectedLocked (dial : Option UnixConnection) (c : Impl) : Impl :=
  if c.conn.any (·.isConnected) then c else { c.resetLocked with conn := dial }

/-- A call that fails on the connection `conn`. -/
def fail {α : Type} (c : Impl) (conn : UnixConnection) : Result α × Impl :=
  (.failure, { c with conn := some conn }.resetLocked)

/-- The request and the reply of a call. -/
def exchange {α : Type} (mp : Unpacker) (ignoresSigpipe : Bool) (request : UInt32 → Message)
    (accept : UInt32 → Message → Option α) (dial : Option UnixConnection) (c : Impl) :
    Result α × Impl :=
  let c := c.ensureConnectedLocked dial
  match c.conn with
  | none => (.failure, c)
  | some conn =>
    let id := c.nextRequestId
    let c := { c with nextRequestId := id + 1 }
    if !encodable (request id) then (.threw, c)
    else if conn.raisesSigpipe (frameOf (request id)) && !ignoresSigpipe then (.killed, c)
    else
      match conn.writeAll (frameOf (request id)) with
      | (false, conn) => c.fail conn
      | (true, conn) =>
        match conn.readFull kFrameHeaderBytes with
        | (none, conn) => c.fail conn
        | (some header, conn) =>
          match readFrameLength header with
          | none => c.fail conn
          | some bodyLen =>
            match conn.readFull bodyLen.toNat with
            | (none, conn) => c.fail conn
            | (some body, conn) =>
              match decodeBody mp body with
              | none => c.fail conn
              | some msg =>
                match accept id msg with
                | none => c.fail conn
                | some reply => (.success reply, { c with conn := some conn })

end Impl

/-! ### The three calls -/

/-- What `Rerank` takes for a reply. It does not look at the id. -/
def acceptRerank (_ : UInt32) : Message → Option RerankResponse
  | .rerankResponse resp => some resp
  | _ => none

/-- What `GetStats` takes for a reply. -/
def acceptStats (id : UInt32) : Message → Option StatsResponse
  | .statsResponse resp => if resp.requestId ≠ id then none else some resp
  | _ => none

/-- What `Ping` takes for a reply. -/
def acceptPong (id : UInt32) : Message → Option Unit
  | .pong pong => if pong.requestId ≠ id then none else some ()
  | _ => none

/-- `Rerank`. -/
def rerank (mp : Unpacker) (ignoresSigpipe : Bool) (req : RerankRequest)
    (dial : Option UnixConnection) (c : Impl) : Result RerankResponse × Impl :=
  c.exchange mp ignoresSigpipe (fun id => .rerankRequest { req with requestId := id })
    acceptRerank dial

/-- `GetStats`. -/
def getStats (mp : Unpacker) (ignoresSigpipe : Bool) (dial : Option UnixConnection) (c : Impl) :
    Result StatsResponse × Impl :=
  c.exchange mp ignoresSigpipe (fun id => .statsRequest { requestId := id }) acceptStats dial

/-- `Ping`: it returns true or false. -/
def ping (mp : Unpacker) (ignoresSigpipe : Bool) (dial : Option UnixConnection) (c : Impl) :
    Result Unit × Impl :=
  c.exchange mp ignoresSigpipe (fun id => .ping { requestId := id }) acceptPong dial

/-! ### What a call leaves behind -/

/-- The connection was closed and let go, if there was one. -/
def Dropped (before after : Impl) : Prop :=
  after.conn = none ∧ ∀ conn, before.conn = some conn →
    ∃ left, after.retired = before.retired ++ [left] ∧ left.isConnected = false

/-- One whole frame was taken from the stream, and its message is `msg`. -/
def Took (mp : Unpacker) (before after : Impl) (msg : Message) : Prop :=
  ∃ conn conn', before.conn = some conn ∧ after.conn = some conn' ∧
    nextFrame mp conn.inbox = some (msg, conn'.inbox)

/-- Fail-closed: with success a call took one frame, a reply of type `type` with the id
that the call was assigned; with failure it let the connection go. There is no third end. -/
def FailClosed {α : Type} (mp : Unpacker) (type : MessageType) (dial : Option UnixConnection)
    (c : Impl) : Result α × Impl → Prop
  | (.success _, after) => ∃ msg, Took mp (c.ensureConnectedLocked dial) after msg ∧
      msg.type = type ∧ requestId msg = c.nextRequestId
  | (.failure, after) => Dropped (c.ensureConnectedLocked dial) after
  | (.threw, _) | (.killed, _) => False

/-- The peer's stream starts with a rerank reply to another request. -/
def StrayReply (mp : Unpacker) (stream : Bytes) (id : UInt32) : Prop :=
  ∃ resp rest, nextFrame mp stream = some (.rerankResponse resp, rest) ∧ resp.requestId ≠ id

/-- The request's write meets no closed end. -/
def Unbroken (dial : Option UnixConnection) (c : Impl) (request : Message) : Prop :=
  ∀ conn, (c.ensureConnectedLocked dial).conn = some conn →
    conn.raisesSigpipe (frameOf request) = false

/-- The request's write meets no closed end, or the host ignores SIGPIPE. -/
def Survives (ignoresSigpipe : Bool) (dial : Option UnixConnection) (c : Impl)
    (request : Message) : Prop :=
  ∀ conn, (c.ensureConnectedLocked dial).conn = some conn →
    conn.raisesSigpipe (frameOf request) = true → ignoresSigpipe = true

namespace Impl

variable {α : Type} {mp : Unpacker} {ignoresSigpipe : Bool} {request : UInt32 → Message}
  {accept : UInt32 → Message → Option α} {dial : Option UnixConnection} {c : Impl}

@[simp] theorem ensureConnectedLocked_nextRequestId (dial : Option UnixConnection) (c : Impl) :
    (c.ensureConnectedLocked dial).nextRequestId = c.nextRequestId := by
  unfold ensureConnectedLocked
  split_ifs <;> rfl

theorem dropped_of_none (h : c.conn = none) : Dropped c c := by
  refine ⟨h, fun conn hconn => ?_⟩
  rw [h] at hconn
  cases hconn

/-- Every early exit behind the connect drops the connection. -/
theorem dropped_fail (c : Impl) (id : UInt32) (conn : UnixConnection) :
    Dropped c (({ c with nextRequestId := id } : Impl).fail (α := α) conn).2 :=
  ⟨rfl, fun _ _ => ⟨conn.close, rfl, rfl⟩⟩

/-- How an exchange ends, behind the connect: it fails and drops the connection, throws
before it sends anything, is killed in its write, or takes one frame that it accepts. -/
theorem exchange_cases (mp : Unpacker) (ignoresSigpipe : Bool) (request : UInt32 → Message)
    (accept : UInt32 → Message → Option α) (dial : Option UnixConnection) (c : Impl) :
    (∃ after, c.exchange mp ignoresSigpipe request accept dial = (.failure, after) ∧
      Dropped (c.ensureConnectedLocked dial) after ∧
      ((c.ensureConnectedLocked dial).conn ≠ none → encodable (request c.nextRequestId) = true) ∧
      Survives ignoresSigpipe dial c (request c.nextRequestId)) ∨
    (∃ after, c.exchange mp ignoresSigpipe request accept dial = (.threw, after) ∧
      (c.ensureConnectedLocked dial).conn ≠ none ∧
      encodable (request c.nextRequestId) = false) ∨
    (∃ after, c.exchange mp ignoresSigpipe request accept dial = (.killed, after) ∧
      ¬ Survives ignoresSigpipe dial c (request c.nextRequestId)) ∨
    ∃ reply after msg, c.exchange mp ignoresSigpipe request accept dial = (.success reply, after) ∧
      Took mp (c.ensureConnectedLocked dial) after msg ∧
      encodable (request c.nextRequestId) = true ∧ Unbroken dial c (request c.nextRequestId) ∧
      accept c.nextRequestId msg = some reply := by
  unfold Unbroken Survives
  rw [← ensureConnectedLocked_nextRequestId dial c]
  unfold exchange
  generalize c.ensureConnectedLocked dial = c₁
  dsimp only
  cases hconn : c₁.conn with
  | none => exact .inl ⟨c₁, rfl, dropped_of_none hconn, fun h => absurd rfl h, by simp⟩
  | some conn =>
      dsimp only
      cases hencodable : encodable (request c₁.nextRequestId) with
      | false => exact .inr (.inl ⟨_, rfl, by simp, rfl⟩)
      | true =>
          rw [if_neg (by simp)]
          cases hraises : conn.raisesSigpipe (frameOf (request c₁.nextRequestId)) &&
            !ignoresSigpipe with
          | true =>
              obtain ⟨hraised, hhost⟩ := Bool.and_eq_true_iff.mp hraises
              refine .inr (.inr (.inl ⟨_, rfl, fun hsurvives => ?_⟩))
              simp [hsurvives conn rfl hraised] at hhost
          | false =>
              rw [if_neg (by simp)]
              have hsurvives : ∀ conn', some conn = some conn' →
                  conn'.raisesSigpipe (frameOf (request c₁.nextRequestId)) = true →
                    ignoresSigpipe = true := by
                intro conn' hsame hraised
                obtain rfl := Option.some.inj hsame
                simpa [hraised] using hraises
              have hfail : ∀ conn', ∃ after : Impl,
                  ({ c₁ with nextRequestId := c₁.nextRequestId + 1 } : Impl).fail (α := α) conn' =
                    (.failure, after) ∧ Dropped c₁ after ∧ (some conn ≠ none → true = true) ∧
                      ∀ conn', some conn = some conn' →
                        conn'.raisesSigpipe (frameOf (request c₁.nextRequestId)) = true →
                          ignoresSigpipe = true :=
                fun conn' => ⟨_, rfl, dropped_fail (α := α) c₁ _ conn', fun _ => rfl, hsurvives⟩
              have hsent := writeAll_inbox conn (frameOf (request c₁.nextRequestId))
              rcases hwrite : conn.writeAll (frameOf (request c₁.nextRequestId)) with
                ⟨_ | _, conn₁⟩
              · exact .inl (hfail conn₁)
              · have hunbroken : ∀ conn', some conn = some conn' →
                    conn'.raisesSigpipe (frameOf (request c₁.nextRequestId)) = false := by
                  intro conn' hsame
                  obtain rfl := Option.some.inj hsame
                  exact raisesSigpipe_of_written hwrite
                rw [hwrite] at hsent
                dsimp only
                rcases hheader : conn₁.readFull kFrameHeaderBytes with ⟨_ | header, conn₂⟩
                · exact .inl (hfail conn₂)
                · dsimp only
                  cases hlen : readFrameLength header with
                  | none => exact .inl (hfail conn₂)
                  | some bodyLen =>
                      dsimp only
                      rcases hbody : conn₂.readFull bodyLen.toNat with ⟨_ | body, conn₃⟩
                      · exact .inl (hfail conn₃)
                      · dsimp only
                        cases hdecode : decodeBody mp body with
                        | none => exact .inl (hfail conn₃)
                        | some msg =>
                            dsimp only
                            cases haccept : accept c₁.nextRequestId msg with
                            | none => exact .inl (hfail conn₃)
                            | some reply =>
                                obtain ⟨hfour, hinbox₁⟩ := readFull_some hheader
                                obtain ⟨hall, hinbox₂⟩ := readFull_some hbody
                                refine .inr (.inr (.inr ⟨reply, _, msg, rfl,
                                  ⟨conn, conn₃, hconn, rfl, ?_⟩, rfl, hunbroken, haccept⟩))
                                refine (nextFrame_eq_some_iff mp).mpr
                                  ⟨header, bodyLen, body, hfour, hlen, hall, hdecode, ?_⟩
                                rw [← hinbox₂, ← hinbox₁, ← hsent]

/-- An exchange that is not disturbed and finds a reply that it accepts. -/
theorem exchange_undisturbed {conn : UnixConnection} {msg : Message} {rest : Bytes} {reply : α}
    (hconn : (c.ensureConnectedLocked dial).conn = some conn) (hopen : conn.isConnected)
    (hencodable : encodable (request c.nextRequestId) = true)
    (hturns : Undisturbed conn.turns
      ((frameOf (request c.nextRequestId)).length + conn.inbox.length))
    (hnext : nextFrame mp conn.inbox = some (msg, rest))
    (haccept : accept c.nextRequestId msg = some reply) :
    ∃ after, c.exchange mp ignoresSigpipe request accept dial = (.success reply, after) := by
  obtain ⟨header, bodyLen, body, hfour, hlen, hall, hdecode, hinbox⟩ :=
    (nextFrame_eq_some_iff mp).mp hnext
  rw [← ensureConnectedLocked_nextRequestId dial c] at hencodable hturns haccept
  unfold exchange
  generalize c.ensureConnectedLocked dial = c₁ at *
  obtain ⟨turns₁, hwrite, hleft₁⟩ := writeAll_undisturbed conn _ hopen hturns (Nat.le_add_right _ _)
  have hlength : conn.inbox.length = header.length + (body.length + rest.length) := by
    rw [hinbox, List.length_append, List.length_append]
  obtain ⟨turns₂, hread, hleft₂⟩ := readFull_undisturbed { conn with
    outbox := conn.outbox ++ frameOf (request c₁.nextRequestId), turns := turns₁ }
    kFrameHeaderBytes hopen hleft₁ (by dsimp only; omega) (by omega)
  obtain ⟨turns₃, hbody, -⟩ := readFull_undisturbed { conn with
    outbox := conn.outbox ++ frameOf (request c₁.nextRequestId), turns := turns₂
    inbox := conn.inbox.drop kFrameHeaderBytes } bodyLen.toNat hopen hleft₂
    (by rw [List.length_drop]; omega) (by omega)
  dsimp only at hread hbody ⊢
  rw [hinbox, List.take_left' hfour, List.drop_left' hfour] at hread
  rw [hinbox, List.drop_left' hfour, List.take_left' hall, List.drop_left' hall] at hbody
  rw [hconn]
  dsimp only
  have hraises := raisesSigpipe_of_written hwrite
  rw [if_neg (by simp [hencodable]), if_neg (by simp [hraises]), hwrite]
  dsimp only
  rw [hinbox, hread]
  dsimp only
  rw [hlen]
  dsimp only
  rw [hbody]
  dsimp only
  rw [hdecode]
  dsimp only
  rw [haccept]
  exact ⟨_, rfl⟩

/-- An exchange that is fail-closed could encode its request, where there is a connection,
and survived its write. -/
theorem of_failClosed {type : MessageType}
    (h : FailClosed mp type dial c (c.exchange mp ignoresSigpipe request accept dial)) :
    ((c.ensureConnectedLocked dial).conn ≠ none → encodable (request c.nextRequestId) = true) ∧
      Survives ignoresSigpipe dial c (request c.nextRequestId) := by
  rcases exchange_cases mp ignoresSigpipe request accept dial c with
    ⟨after, -, -, hencodable, hsurvives⟩ | ⟨after, hexchange, -⟩ | ⟨after, hexchange, -⟩ |
      ⟨reply, after, msg, -, -, hencodable, hunbroken, -⟩
  · exact ⟨hencodable, hsurvives⟩
  · rw [hexchange] at h
    exact h.elim
  · rw [hexchange] at h
    exact h.elim
  · refine ⟨fun _ => hencodable, fun conn hconn hraised => ?_⟩
    rw [hunbroken conn hconn] at hraised
    cases hraised

/-- One that accepts only replies of a type with its own id is then fail-closed. -/
theorem failClosed_exchange {type : MessageType}
    (haccept : ∀ after msg reply, Took mp (c.ensureConnectedLocked dial) after msg →
      Unbroken dial c (request c.nextRequestId) → accept c.nextRequestId msg = some reply →
        msg.type = type ∧ requestId msg = c.nextRequestId)
    (hencodable : (c.ensureConnectedLocked dial).conn ≠ none →
      encodable (request c.nextRequestId) = true)
    (hsurvives : Survives ignoresSigpipe dial c (request c.nextRequestId)) :
    FailClosed mp type dial c (c.exchange mp ignoresSigpipe request accept dial) := by
  rcases exchange_cases mp ignoresSigpipe request accept dial c with
    ⟨after, hexchange, hdropped, -⟩ | ⟨after, hexchange, hheld, hthrown⟩ |
      ⟨after, hexchange, hdead⟩ | ⟨reply, after, msg, hexchange, htook, -, hunbroken, hreply⟩
  · rw [hexchange]
    exact hdropped
  · rw [hencodable hheld] at hthrown
    cases hthrown
  · exact absurd hsurvives hdead
  · rw [hexchange]
    exact ⟨msg, htook, haccept after msg reply htook hunbroken hreply⟩

end Impl

theorem of_acceptPong {id : UInt32} {msg : Message} {reply : Unit}
    (h : acceptPong id msg = some reply) : msg.type = .pong ∧ requestId msg = id := by
  cases msg with
  | pong pong => exact ⟨rfl, not_not.mp (Option.ite_none_left_eq_some.mp h).1⟩
  | _ => cases h

theorem of_acceptStats {id : UInt32} {msg : Message} {reply : StatsResponse}
    (h : acceptStats id msg = some reply) : msg.type = .statsResponse ∧ requestId msg = id := by
  cases msg with
  | statsResponse resp => exact ⟨rfl, not_not.mp (Option.ite_none_left_eq_some.mp h).1⟩
  | _ => cases h

/-- A connection without disturbances to a peer that sends `stream`. -/
def openTo (stream : Bytes) (request : Message) : UnixConnection where
  isConnected := true
  inbox := stream
  outbox := []
  turns := List.replicate ((frameOf request).length + stream.length) (.transfer 1)

theorem undisturbed_replicate (n : Nat) : Undisturbed (List.replicate n (.transfer 1)) n := by
  constructor
  · intro turn hturn
    rw [List.eq_of_mem_replicate hturn]
    rfl
  · rw [transfers, List.countP_replicate]
    exact Nat.le_refl n

/-- A stray reply is taken for the reply. -/
theorem rerank_stray {mp : Unpacker} {ignoresSigpipe : Bool} {req : RerankRequest} {id : UInt32}
    {stream : Bytes} (hencodable : encodable (.rerankRequest { req with requestId := id }) = true)
    (hstray : StrayReply mp stream id) :
    ¬ FailClosed mp .rerankResponse
      (some (openTo stream (.rerankRequest { req with requestId := id }))) { nextRequestId := id }
      (rerank mp ignoresSigpipe req
        (some (openTo stream (.rerankRequest { req with requestId := id })))
        { nextRequestId := id }) := by
  obtain ⟨resp, rest, hnext, hid⟩ := hstray
  intro h
  obtain ⟨after, hsuccess⟩ : ∃ after, rerank mp ignoresSigpipe req
      (some (openTo stream (.rerankRequest { req with requestId := id })))
      { nextRequestId := id } = (.success resp, after) :=
    Impl.exchange_undisturbed rfl rfl hencodable (undisturbed_replicate _) hnext rfl
  rw [hsuccess] at h
  obtain ⟨msg, ⟨conn, conn', hconn, -, htook⟩, -, hown⟩ := h
  obtain rfl := Option.some.inj hconn
  obtain ⟨rfl, -⟩ := Prod.mk.inj (Option.some.inj (hnext.symm.trans htook))
  exact hid hown

/-- A connection to a peer that sent `stream` and closed its end. -/
def closedTo (stream : Bytes) : UnixConnection where
  isConnected := true
  inbox := stream
  outbox := []
  turns := [.brokenPipe]

theorem openTo_raises (stream : Bytes) (request : Message) :
    (openTo stream request).raisesSigpipe (frameOf request) = false := by
  obtain ⟨turns, hwrite, -⟩ := writeAll_undisturbed (openTo stream request) (frameOf request) rfl
    (undisturbed_replicate _) (Nat.le_add_right _ _)
  exact raisesSigpipe_of_written hwrite

theorem closedTo_raises (stream : Bytes) (request : Message) :
    (closedTo stream).raisesSigpipe (frameOf request) = true := by
  have hne := frameOf_ne_nil request
  simp [UnixConnection.raisesSigpipe, closedTo, writeRaises, hne]

/-- A connection to a peer that sends `stream`; `broken` says that the write of the request
meets a closed end. -/
def connTo (broken : Bool) (stream : Bytes) (request : Message) : UnixConnection :=
  if broken then closedTo stream else openTo stream request

theorem connTo_spec (broken : Bool) (stream : Bytes) (request : Message) :
    (connTo broken stream request).inbox = stream ∧
      (connTo broken stream request).raisesSigpipe (frameOf request) = broken := by
  cases broken with
  | true => exact ⟨rfl, closedTo_raises stream request⟩
  | false => exact ⟨rfl, openTo_raises stream request⟩

/-- **Fail-closed calls.** `Ping` and `GetStats` are fail-closed against a peer, wherever
reads and writes fail, exactly if the host survives their write. `Rerank` is so against a
stream, with a write that meets a closed end or with all others, exactly if its request can
be encoded and the host ignores SIGPIPE, or, for all others, the stream does not start with
a rerank reply to another request. -/
theorem fail_closed_iff (mp : Unpacker) (ignoresSigpipe : Bool) :
    (∀ dial c, FailClosed mp .pong dial c (ping mp ignoresSigpipe dial c) ↔
      Survives ignoresSigpipe dial c (.ping { requestId := c.nextRequestId })) ∧
    (∀ dial c, FailClosed mp .statsResponse dial c (getStats mp ignoresSigpipe dial c) ↔
      Survives ignoresSigpipe dial c (.statsRequest { requestId := c.nextRequestId })) ∧
    ∀ (req : RerankRequest) (id : UInt32) (stream : Bytes) (broken : Bool),
      (∀ dial (c : Impl), c.nextRequestId = id →
        (∀ conn, (c.ensureConnectedLocked dial).conn = some conn → conn.inbox = stream ∧
          conn.raisesSigpipe (frameOf (.rerankRequest { req with requestId := id })) = broken) →
          FailClosed mp .rerankResponse dial c (rerank mp ignoresSigpipe req dial c)) ↔
      encodable (.rerankRequest { req with requestId := id }) = true ∧
        if broken then ignoresSigpipe = true else ¬ StrayReply mp stream id := by
  refine ⟨fun dial c => ?_, fun dial c => ?_, fun req id stream broken => ⟨fun h => ?_, ?_⟩⟩
  · exact ⟨fun h => (Impl.of_failClosed h).2, fun h =>
      Impl.failClosed_exchange (fun _ _ _ _ _ hreply => of_acceptPong hreply) (fun _ => rfl) h⟩
  · exact ⟨fun h => (Impl.of_failClosed h).2, fun h =>
      Impl.failClosed_exchange (fun _ _ _ _ _ hreply => of_acceptStats hreply) (fun _ => rfl) h⟩
  · -- the calls on a fresh connection to such a peer
    have hspec := connTo_spec broken stream (.rerankRequest { req with requestId := id })
    have hclosed := h (some (connTo broken stream (.rerankRequest { req with requestId := id })))
      { nextRequestId := id } rfl fun conn hconn => by
        obtain rfl := Option.some.inj hconn
        exact hspec
    obtain ⟨hencodable, hsurvives⟩ := Impl.of_failClosed hclosed
    refine ⟨hencodable (by simp [Impl.ensureConnectedLocked]), ?_⟩
    cases broken with
    | true => exact hsurvives _ rfl hspec.2
    | false => exact fun hstray => rerank_stray (hencodable (by
        simp [Impl.ensureConnectedLocked])) hstray hclosed
  · rintro ⟨hencodable, hpeer⟩ dial c rfl hconns
    refine Impl.failClosed_exchange (fun after msg reply htook hunbroken hreply => ?_)
      (fun _ => hencodable) fun conn hconn hraised => ?_
    · obtain ⟨conn, conn', hconn, -, hnext⟩ := htook
      obtain ⟨hstream, hbroken⟩ := hconns conn hconn
      rw [hunbroken conn hconn] at hbroken
      subst hbroken
      rw [hstream] at hnext
      cases msg with
      | rerankResponse resp =>
          refine ⟨rfl, ?_⟩
          by_contra hother
          exact hpeer ⟨resp, _, hnext, hother⟩
      | _ => cases hreply
    · rw [(hconns conn hconn).2] at hraised
      subst hraised
      exact hpeer

/-- In a host that ignores SIGPIPE a reply with another id is taken, as a slow server sends
it to a call that is over. In one that does not, a `Ping` to a server that closed the
connection ends the process. -/
theorem rerank_takes_stray :
    ¬ (∀ (mp : Unpacker) (req : RerankRequest) (dial : Option UnixConnection) (c : Impl),
      FailClosed mp .rerankResponse dial c (rerank mp true req dial c)) ∧
    ¬ (∀ (mp : Unpacker) (dial : Option UnixConnection) (c : Impl),
      FailClosed mp .pong dial c (ping mp false dial c)) := by
  constructor <;> intro hall
  · have hstray : StrayReply .reference (frameOf (.rerankResponse { requestId := 7 })) 1 := by
      refine ⟨{ requestId := 7 }, [], ?_, by decide⟩
      have hnext := nextFrame_frameOf .reference (m := .rerankResponse { requestId := 7 })
        (by decide) []
      rwa [List.append_nil] at hnext
    have hopen := @rerank_stray .reference true {} 1 _ rfl hstray
    exact hopen (hall .reference {} _ _)
  · have hclosed := hall .reference (some (closedTo [])) {}
    have hkilled : ping .reference false (some (closedTo [])) {} =
        (.killed, { conn := some (closedTo []), nextRequestId := 2 }) := by decide
    rw [hkilled] at hclosed
    exact hclosed

end Dafeng.Client
