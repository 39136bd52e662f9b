import Mathlib.Logic.Function.Basic
import Dafeng.Daemon.Server
import Dafeng.Library.Transition
import Dafeng.Protocol.Frame

/-!
# Dafeng.Session.Model

One `DafengClient` (`src/client/client.cc`) and the server it talks to, as a
transition system.

The calls of all threads are serialised by the client's mutex, so at most one is
active. A connection is two byte queues, the client's end and the worker that
`Server::Run` starts for it. Each `write`, each `ReadFull` that succeeds and each
`dispatch` is a step. A `ReadFull` or `WriteAll` of the client that runs out of
time (`timeout`) or finds the other end closed (`fail`) is a step of its own, and
so is the end of a worker (`serverClose`); bytes moved before are of no further
use, since both sides then close the connection. A `write` to a closed end raises
SIGPIPE, which ends a process that does not ignore it (`sigpipe`); the daemon does.

`calls`, `returned`, `handed` and the lists `sent` and `served` of a connection
are records of what happened; no step reads them.
-/

namespace Dafeng.Session

open Dafeng.Msgpack Dafeng.Protocol Dafeng.Daemon

/-- The idle read timeout of a worker, in milliseconds. -/
def kIdleReadTimeout : Nat := 60000

/-! ### The client's operations -/

/-- The operations of `DafengClient` that send a message. -/
inductive Call
  | rerank (req : RerankRequest)
  | ping
  | getStats
  | recordCommit (ev : CommitEvent)
  deriving DecidableEq, Repr

/-- The message of a call whose assigned id is `id`. -/
def Call.message (id : UInt32) : Call → Message
  | .rerank req => .rerankRequest { req with requestId := id }
  | .ping => .ping { requestId := id }
  | .getStats => .statsRequest { requestId := id }
  | .recordCommit ev => .commitEvent ev

/-- `RecordCommit` assigns no id and reads no reply. -/
def Call.isCommit : Call → Bool
  | .recordCommit _ => true
  | _ => false

/-- Whether a call that was assigned `id` returns this reply. `Rerank` looks at
the type only. -/
def Call.accepts (id : UInt32) : Call → Message → Bool
  | .rerank _, .rerankResponse _ => true
  | .ping, .pong pong => pong.requestId == id
  | .getStats, .statsResponse resp => resp.requestId == id
  | _, _ => false

/-- How a call ended. A `Ping` that returns true is `replied` with its pong. -/
inductive Outcome
  | failed
  | threw
  | written
  | replied (reply : Message)
  deriving DecidableEq, Repr

/-- The call that holds the mutex and has been assigned its id. -/
structure Active where
  callId : Nat
  call : Call
  requestId : UInt32
  deriving DecidableEq, Repr

def Active.message (a : Active) : Message := a.call.message a.requestId

/-- Where the client is. -/
inductive Phase
  | idle
  | connecting (callId : Nat) (call : Call)
  | writing (a : Active) (rest : Bytes)
  | awaitHeader (a : Active)
  | awaitBody (a : Active) (len : UInt32)
  | killed (callId : Nat)
  deriving DecidableEq, Repr

/-! ### Connections -/

/-- Why a worker ended: the idle timeout, a frame it rejected, the end of the
client's stream, a transfer that ran out of time behind a header, a reply that
the client's closed end refused, or the end of the server itself. -/
inductive CloseReason
  | idle
  | rejected
  | peerClosed
  | timedOut
  | failed
  | stopped
  deriving DecidableEq, Repr

/-- Where the worker of a connection is. -/
inductive Worker
  | awaitHeader (since : Nat)
  | awaitBody (len : UInt32)
  | replying (rest : Bytes)
  | closed (why : CloseReason)
  deriving DecidableEq, Repr

def Worker.isOpen : Worker → Bool
  | .closed _ => false
  | _ => true

def Worker.isReplying : Worker → Bool
  | .replying _ => true
  | _ => false

/-- A message the client began to write, and the call it belongs to. -/
structure Sent where
  callId : Nat
  message : Message
  deriving DecidableEq, Repr

/-- A connection: what is in flight in each direction, and both ends. -/
structure Conn where
  up : Bytes := []
  down : Bytes := []
  clientOpen : Bool := true
  worker : Worker
  sent : List Sent := []
  served : List (Message × Option Message) := []
  deriving DecidableEq, Repr

namespace Conn

/-- A connection that does not exist yet. -/
def unborn : Conn := { clientOpen := false, worker := .closed .stopped }

/-- The client begins to write a message. -/
def send (conn : Conn) (x : Sent) : Conn := { conn with sent := conn.sent ++ [x] }

/-- The client's socket takes some bytes. -/
def push (conn : Conn) (bytes : Bytes) : Conn := { conn with up := conn.up ++ bytes }

/-- The client reads `n` bytes. -/
def pull (conn : Conn) (n : Nat) : Conn := { conn with down := conn.down.drop n }

/-- The client closes its end. -/
def closeClient (conn : Conn) : Conn := { conn with clientOpen := false }

/-- The worker reads the header of a frame. -/
def takeHeader (conn : Conn) : Conn :=
  { conn with
    up := conn.up.drop kFrameHeaderBytes
    worker :=
      match readFrameLength (conn.up.take kFrameHeaderBytes) with
      | none => .closed .rejected
      | some len => .awaitBody len }

/-- The worker reads `n` bytes that are no body. -/
def rejectBody (conn : Conn) (n : Nat) : Conn :=
  { conn with up := conn.up.drop n, worker := .closed .rejected }

/-- The worker reads the `n` bytes of a body and handles the message in it. -/
def takeBody (conn : Conn) (n now : Nat) (msg : Message) (reply : Option Message) : Conn :=
  { conn with
    up := conn.up.drop n
    served := conn.served ++ [(msg, reply)]
    worker :=
      match reply with
      | none => .awaitHeader now
      | some reply => .replying (frameOf reply) }

/-- The worker's socket takes `n` of the `rest` of a reply. -/
def putReply (conn : Conn) (n now : Nat) (rest : Bytes) : Conn :=
  { conn with
    down := conn.down ++ rest.take n
    worker := if rest.drop n ≠ [] then .replying (rest.drop n) else .awaitHeader now }

/-- The worker ends, unless it has ended. -/
def closeWorker (conn : Conn) (why : CloseReason) : Conn :=
  { conn with worker := if conn.worker.isOpen then .closed why else conn.worker }

end Conn

/-- An event handed to the commit logger: the `pos`-th message of a connection. -/
structure Handed where
  conn : Nat
  pos : Nat
  event : CommitEvent
  deriving DecidableEq, Repr

/-- What the `pos`-th message of a connection hands to the logger. -/
def handing (conn pos : Nat) : Message → List Handed
  | .commitEvent ev => [⟨conn, pos, ev⟩]
  | _ => []

/-- The client, the server, and the connections between them. Connections from
`nextConn` on do not exist yet. -/
structure State where
  held : Option Nat := none
  nextRequestId : UInt32 := 1
  phase : Phase := .idle
  conns : Nat → Conn := fun _ => .unborn
  nextConn : Nat := 0
  server : ServerState := {}
  now : Nat := 0
  calls : List Call := []
  returned : List (Nat × Outcome) := []
  handed : List Handed := []

namespace State

def setConn (s : State) (c : Nat) (f : Conn → Conn) : State :=
  { s with conns := Function.update s.conns c (f (s.conns c)) }

/-- The call returns and releases the mutex. -/
def finish (s : State) (callId : Nat) (outcome : Outcome) : State :=
  { s with phase := .idle, returned := s.returned ++ [(callId, outcome)] }

/-- `ResetLocked`. -/
def reset (s : State) : State :=
  match s.held with
  | some c => { s.setConn c Conn.closeClient with held := none }
  | none => s

/-- `ConnectEndpoint` succeeds and the server starts a worker. -/
def connected (s : State) : State :=
  { s with
    conns := Function.update s.conns s.nextConn { worker := .awaitHeader s.now }
    nextConn := s.nextConn + 1
    held := some s.nextConn }

/-- `next_request_id_.fetch_add(1)`, in the calls that carry an id. -/
def takeId (s : State) (call : Call) : State :=
  { s with nextRequestId := if call.isCommit then s.nextRequestId else s.nextRequestId + 1 }

/-- A call behind `EnsureConnectedLocked`: it assigns the id and encodes the
frame. `EncodeBody` may throw, and the exception leaves the call. -/
def start (s : State) (c callId : Nat) (call : Call) : State :=
  let a : Active := ⟨callId, call, s.nextRequestId⟩
  let s := s.takeId call
  if encodable a.message then
    { s.setConn c (·.send ⟨callId, a.message⟩) with
      phase := .writing a (frameOf a.message) }
  else s.finish callId .threw

end State

/-! ### Steps -/

/-- What can happen next. -/
inductive Label
  | call (call : Call)
  | connect
  | connectFails
  | write (n : Nat)
  | readHeader
  | readBody
  | timeout
  | fail
  | sigpipe
  | resetConnection
  | serverHeader (c : Nat)
  | serverBody (c : Nat) (moment : Moment)
  | serverWrite (c n : Nat)
  | serverClose (c : Nat) (why : CloseReason)
  | restart
  | elapse (ms : Nat)
  deriving DecidableEq, Repr

section Step

variable (mp : Unpacker) (reranker : RerankService)

/-- A `write` of the client that moves `n` bytes. -/
def clientWrite (s : State) (n : Nat) : Option State :=
  match s.phase, s.held with
  | .writing a rest, some c =>
    if (s.conns c).worker.isOpen ∧ 0 < n ∧ n ≤ rest.length then
      let s := s.setConn c (·.push (rest.take n))
      if rest.drop n ≠ [] then some { s with phase := .writing a (rest.drop n) }
      else if a.call.isCommit then some (s.finish a.callId .written)
      else some { s with phase := .awaitHeader a }
    else none
  | _, _ => none

/-- The client reads the header of a reply. -/
def clientReadHeader (s : State) : Option State :=
  match s.phase, s.held with
  | .awaitHeader a, some c =>
    let down := (s.conns c).down
    if kFrameHeaderBytes ≤ down.length then
      let s := s.setConn c (·.pull kFrameHeaderBytes)
      match readFrameLength (down.take kFrameHeaderBytes) with
      | none => some (s.reset.finish a.callId .failed)
      | some len => some { s with phase := .awaitBody a len }
    else none
  | _, _ => none

/-- The client reads the body of a reply and returns it or resets. -/
def clientReadBody (s : State) : Option State :=
  match s.phase, s.held with
  | .awaitBody a len, some c =>
    let down := (s.conns c).down
    if len.toNat ≤ down.length then
      let s := s.setConn c (·.pull len.toNat)
      match decodeBody mp (down.take len.toNat) with
      | none => some (s.reset.finish a.callId .failed)
      | some reply =>
        if a.call.accepts a.requestId reply then some (s.finish a.callId (.replied reply))
        else some (s.reset.finish a.callId .failed)
    else none
  | _, _ => none

/-- The worker of the connection that the client holds has ended. -/
def State.heldClosed (s : State) : Bool := s.held.any fun c => !(s.conns c).worker.isOpen

/-- `WriteAll` or `ReadFull` returns false to the active call. -/
def clientFail (s : State) : Option State :=
  match s.phase with
  | .writing a _ | .awaitHeader a | .awaitBody a _ => some (s.reset.finish a.callId .failed)
  | _ => none

/-- SIGPIPE ends the process in a `write`, and the system closes its descriptors. -/
def clientKilled (s : State) : Option State :=
  match s.phase with
  | .writing a _ => some { s.reset with phase := .killed a.callId }
  | _ => none

/-- A worker's `ReadFull` of a header. -/
def serverHeader (s : State) (c : Nat) : Option State :=
  match (s.conns c).worker with
  | .awaitHeader _ =>
    if kFrameHeaderBytes ≤ (s.conns c).up.length then some (s.setConn c Conn.takeHeader) else none
  | _ => none

/-- A worker's `ReadFull` of a body, and the dispatch of its message. -/
def serverBody (s : State) (c : Nat) (moment : Moment) : Option State :=
  match (s.conns c).worker with
  | .awaitBody len =>
    let conn := s.conns c
    if len.toNat ≤ conn.up.length then
      match decodeBody mp (conn.up.take len.toNat) with
      | none => some (s.setConn c (·.rejectBody len.toNat))
      | some msg =>
        let handled := dispatch reranker moment s.server msg
        some { s.setConn c (·.takeBody len.toNat s.now msg handled.2) with
          server := handled.1
          handed := s.handed ++ handing c conn.served.length msg }
    else none
  | _ => none

/-- A `write` of a worker that moves `n` bytes. -/
def serverWrite (s : State) (c n : Nat) : Option State :=
  match (s.conns c).worker with
  | .replying rest =>
    if (s.conns c).clientOpen ∧ 0 < n ∧ n ≤ rest.length then
      some (s.setConn c (·.putReply n s.now rest))
    else none
  | _ => none

/-- The step function. -/
def step (s : State) : Label → Option State
  | .call call =>
    if s.phase = .idle then
      let callId := s.calls.length
      let s := { s with calls := s.calls ++ [call] }
      match s.held with
      | some c => some (s.start c callId call)
      | none => some { s with phase := .connecting callId call }
    else none
  | .connect =>
    match s.phase with
    | .connecting callId call => some (s.connected.start s.nextConn callId call)
    | _ => none
  | .connectFails =>
    match s.phase with
    | .connecting callId _ => some (s.finish callId .failed)
    | _ => none
  | .write n => clientWrite s n
  | .readHeader => clientReadHeader s
  | .readBody => clientReadBody mp s
  | .timeout => clientFail s
  | .fail => if s.heldClosed then clientFail s else none
  | .sigpipe => if s.heldClosed then clientKilled s else none
  | .resetConnection => if s.phase = .idle then some s.reset else none
  | .serverHeader c => serverHeader s c
  | .serverBody c moment => serverBody mp reranker s c moment
  | .serverWrite c n => serverWrite s c n
  | .serverClose c why => some (s.setConn c (·.closeWorker why))
  | .restart =>
    -- the counters start anew; what the logger stored stays
    some { s with
      conns := fun c => (s.conns c).closeWorker .stopped
      server := { recorded := s.server.recorded } }
  | .elapse ms => some { s with now := s.now + ms }

/-- The client and the server from the start. -/
def system : System State Label where
  init := {}
  step := step mp reranker

end Step

end Dafeng.Session
