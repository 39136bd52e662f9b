import Mathlib.Tactic.SplitIfs
import Dafeng.Library.Bytes

/-!
# Dafeng.Endpoint.Unix

The transfer loops of `UnixConnection` in `src/common/endpoint_unix.cc`.

What the operating system does is a list of turns, one for each pass through a
loop: how the deadline stands, what `poll` returns, and how many bytes `read` or
`write` moves. A list that runs out is a deadline that passes. The peer's bytes
are the inbox; behind them is the end of the stream.

A `write` to an end that the peer has closed (`brokenPipe`) raises SIGPIPE, and
returns an error to a process that ignores the signal. The daemon's `main` ignores
it; a process that uses the client library does so or not.
-/

namespace Dafeng.Endpoint

/-- One pass through a transfer loop. -/
inductive Turn
  | expired
  | pollTimeout
  | pollInterrupted
  | pollFailed
  | tryAgain
  | ioFailed
  | brokenPipe
  | transfer (k : Nat)
  deriving DecidableEq, Repr

/-- The loop of `ReadFull`: the buffer, if it was filled, with what is left of
the inbox and of the turns. A `read` moves at least one byte if there is one, and
returns zero at the end of the stream. -/
def readLoop (buf : Bytes) (size : Nat) (inbox : Bytes) :
    List Turn → Option Bytes × Bytes × List Turn
  | [] => if size = 0 then (some buf, inbox, []) else (none, inbox, [])
  | turn :: turns =>
    if size = 0 then (some buf, inbox, turn :: turns)
    else
      match turn with
      | .expired | .pollTimeout | .pollFailed | .ioFailed | .brokenPipe => (none, inbox, turns)
      | .pollInterrupted | .tryAgain => readLoop buf size inbox turns
      | .transfer k =>
        let n := min (max 1 k) (min size inbox.length)
        if n = 0 then (none, inbox, turns)
        else readLoop (buf ++ inbox.take n) (size - n) (inbox.drop n) turns

/-- The loop of `WriteAll`: whether all of `buf` was written, with the outbox and
the turns that are left. -/
def writeLoop (buf outbox : Bytes) : List Turn → Bool × Bytes × List Turn
  | [] => (buf.isEmpty, outbox, [])
  | turn :: turns =>
    if buf = [] then (true, outbox, turn :: turns)
    else
      match turn with
      | .expired | .pollTimeout | .pollFailed | .ioFailed | .brokenPipe => (false, outbox, turns)
      | .pollInterrupted | .tryAgain => writeLoop buf outbox turns
      | .transfer k =>
        let n := min (max 1 k) buf.length
        writeLoop (buf.drop n) (outbox ++ buf.take n) turns

/-- Whether a `write` of that loop meets a closed end. -/
def writeRaises (buf : Bytes) : List Turn → Bool
  | [] => false
  | turn :: turns =>
    if buf = [] then false
    else
      match turn with
      | .brokenPipe => true
      | .expired | .pollTimeout | .pollFailed | .ioFailed => false
      | .pollInterrupted | .tryAgain => writeRaises buf turns
      | .transfer k => writeRaises (buf.drop (min (max 1 k) buf.length)) turns

/-- A `UnixConnection` and what lies behind its descriptor. -/
structure UnixConnection where
  isConnected : Bool
  inbox : Bytes
  outbox : Bytes
  turns : List Turn
  deriving DecidableEq, Repr

namespace UnixConnection

def readFull (conn : UnixConnection) (size : Nat) : Option Bytes × UnixConnection :=
  if conn.isConnected then
    let r := readLoop [] size conn.inbox conn.turns
    (r.1, { conn with inbox := r.2.1, turns := r.2.2 })
  else (none, conn)

def writeAll (conn : UnixConnection) (buf : Bytes) : Bool × UnixConnection :=
  if conn.isConnected then
    let r := writeLoop buf conn.outbox conn.turns
    (r.1, { conn with outbox := r.2.1, turns := r.2.2 })
  else (false, conn)

/-- Whether `writeAll` raises SIGPIPE. -/
def raisesSigpipe (conn : UnixConnection) (buf : Bytes) : Bool :=
  conn.isConnected && writeRaises buf conn.turns

def close (conn : UnixConnection) : UnixConnection := { conn with isConnected := false }

end UnixConnection

/-! ### Undisturbed turns -/

/-- A turn without a timeout or an error. -/
def Turn.benign : Turn → Bool
  | .pollInterrupted | .tryAgain | .transfer _ => true
  | _ => false

/-- How many turns move bytes. -/
def transfers (turns : List Turn) : Nat :=
  turns.countP fun | .transfer _ => true | _ => false

/-- Turns without a timeout or an error, at least `n` of which move bytes. -/
structure Undisturbed (turns : List Turn) (n : Nat) : Prop where
  benign : ∀ turn ∈ turns, turn.benign
  enough : n ≤ transfers turns

namespace Undisturbed

variable {turn : Turn} {turns : List Turn} {n : Nat}

theorem mono {m : Nat} (h : Undisturbed turns n) (hmn : m ≤ n) : Undisturbed turns m :=
  ⟨h.benign, Nat.le_trans hmn h.enough⟩

theorem not_nil (h : Undisturbed [] n) : n = 0 := by
  simpa [transfers] using h.enough

/-- An interrupted turn costs no transfer. -/
theorem tail_of_retry (h : Undisturbed (turn :: turns) n)
    (hturn : turn = .pollInterrupted ∨ turn = .tryAgain) : Undisturbed turns n := by
  refine ⟨fun t ht => h.benign t (List.mem_cons_of_mem _ ht), ?_⟩
  rcases hturn with rfl | rfl <;> simpa [transfers] using h.enough

theorem tail_of_transfer {k : Nat} (h : Undisturbed (.transfer k :: turns) n) :
    Undisturbed turns (n - 1) := by
  refine ⟨fun t ht => h.benign t (List.mem_cons_of_mem _ ht), ?_⟩
  have henough := h.enough
  simp only [transfers, List.countP_cons, if_true] at henough ⊢
  omega

end Undisturbed

/-- Without a disturbance `ReadFull` takes exactly `size` bytes, however the
reads are cut, and uses at most that many transfers. -/
theorem readLoop_full {turns : List Turn} (buf : Bytes) {inbox : Bytes} {size n : Nat}
    (h : Undisturbed turns n) (hsize : size ≤ inbox.length) (hn : size ≤ n) :
    ∃ turns', readLoop buf size inbox turns =
        (some (buf ++ inbox.take size), inbox.drop size, turns') ∧
      Undisturbed turns' (n - size) := by
  induction turns generalizing buf inbox size n with
  | nil =>
      obtain rfl : size = 0 := by have := h.not_nil; omega
      exact ⟨[], by simp [readLoop], h⟩
  | cons turn turns ih =>
      unfold readLoop
      split_ifs with hzero
      · subst hzero
        exact ⟨turn :: turns, by simp, h⟩
      · have hbenign := h.benign turn List.mem_cons_self
        cases turn with
        | pollInterrupted => exact ih buf (h.tail_of_retry (.inl rfl)) hsize hn
        | tryAgain => exact ih buf (h.tail_of_retry (.inr rfl)) hsize hn
        | transfer k =>
            dsimp only
            generalize hcount : min (max 1 k) (min size inbox.length) = count
            rw [if_neg (by omega)]
            have hleft : size - count ≤ (inbox.drop count).length := by
              rw [List.length_drop]
              omega
            obtain ⟨turns', hread, hrest⟩ :=
              ih (buf ++ inbox.take count) h.tail_of_transfer hleft (by omega)
            refine ⟨turns', ?_, hrest.mono (by omega)⟩
            rw [hread, List.append_assoc, ← List.take_add, List.drop_drop,
              show count + (size - count) = size by omega]
        | expired => simp [Turn.benign] at hbenign
        | pollTimeout => simp [Turn.benign] at hbenign
        | pollFailed => simp [Turn.benign] at hbenign
        | ioFailed => simp [Turn.benign] at hbenign
        | brokenPipe => simp [Turn.benign] at hbenign

/-- Without a disturbance `ReadFull` fails when the stream ends too early. -/
theorem readLoop_eof {turns : List Turn} (buf : Bytes) {inbox : Bytes} {size : Nat}
    (h : Undisturbed turns (inbox.length + 1)) (hsize : inbox.length < size) :
    ∃ rest, readLoop buf size inbox turns = (none, rest) := by
  induction turns generalizing buf inbox size with
  | nil => exact absurd h.not_nil (by omega)
  | cons turn turns ih =>
      unfold readLoop
      rw [if_neg (by omega)]
      have hbenign := h.benign turn List.mem_cons_self
      cases turn with
      | pollInterrupted => exact ih buf (h.tail_of_retry (.inl rfl)) hsize
      | tryAgain => exact ih buf (h.tail_of_retry (.inr rfl)) hsize
      | transfer k =>
          dsimp only
          generalize hcount : min (max 1 k) (min size inbox.length) = count
          split_ifs with hzero
          · exact ⟨_, rfl⟩
          · have hlen := List.length_drop (i := count) (l := inbox)
            exact ih _ (h.tail_of_transfer.mono (by omega)) (by omega)
      | expired => simp [Turn.benign] at hbenign
      | pollTimeout => simp [Turn.benign] at hbenign
      | pollFailed => simp [Turn.benign] at hbenign
      | ioFailed => simp [Turn.benign] at hbenign
      | brokenPipe => simp [Turn.benign] at hbenign

/-- Without a disturbance `WriteAll` writes the whole buffer. -/
theorem writeLoop_full {turns : List Turn} {buf : Bytes} (outbox : Bytes) {n : Nat}
    (h : Undisturbed turns n) (hn : buf.length ≤ n) :
    ∃ turns', writeLoop buf outbox turns = (true, outbox ++ buf, turns') ∧
      Undisturbed turns' (n - buf.length) := by
  induction turns generalizing buf outbox n with
  | nil =>
      obtain rfl : buf = [] := by
        have := h.not_nil
        exact List.length_eq_zero_iff.mp (by omega)
      exact ⟨[], by simp [writeLoop], h⟩
  | cons turn turns ih =>
      unfold writeLoop
      split_ifs with hempty
      · subst hempty
        exact ⟨turn :: turns, by simp, h⟩
      · have hpos : 0 < buf.length := List.length_pos_iff.mpr hempty
        have hbenign := h.benign turn List.mem_cons_self
        cases turn with
        | pollInterrupted => exact ih outbox (h.tail_of_retry (.inl rfl)) hn
        | tryAgain => exact ih outbox (h.tail_of_retry (.inr rfl)) hn
        | transfer k =>
            dsimp only
            generalize hcount : min (max 1 k) buf.length = count
            have hcut : (buf.drop count).length ≤ n - 1 := by
              rw [List.length_drop]
              omega
            obtain ⟨turns', hwrite, hleft⟩ := ih (outbox ++ buf.take count) h.tail_of_transfer hcut
            rw [List.length_drop] at hleft
            refine ⟨turns', ?_, hleft.mono (by omega)⟩
            rw [hwrite, List.append_assoc, List.take_append_drop]
        | expired => simp [Turn.benign] at hbenign
        | pollTimeout => simp [Turn.benign] at hbenign
        | pollFailed => simp [Turn.benign] at hbenign
        | ioFailed => simp [Turn.benign] at hbenign
        | brokenPipe => simp [Turn.benign] at hbenign

/-- A write that meets a closed end fails. -/
theorem writeLoop_of_raises {turns : List Turn} {buf : Bytes} (outbox : Bytes)
    (h : writeRaises buf turns = true) : (writeLoop buf outbox turns).1 = false := by
  induction turns generalizing buf outbox with
  | nil => cases h
  | cons turn turns ih =>
      unfold writeRaises at h
      unfold writeLoop
      split_ifs at h ⊢ with hempty
      cases turn with
      | brokenPipe => rfl
      | pollInterrupted => exact ih outbox h
      | tryAgain => exact ih outbox h
      | transfer k => exact ih _ h
      | expired => cases h
      | pollTimeout => cases h
      | pollFailed => cases h
      | ioFailed => cases h

/-! ### Whole transfers -/

/-- A `ReadFull` that is not disturbed takes the next `size` bytes. -/
theorem readFull_undisturbed (conn : UnixConnection) (size : Nat) {n : Nat}
    (hopen : conn.isConnected) (h : Undisturbed conn.turns n)
    (hsize : size ≤ conn.inbox.length) (hn : size ≤ n) :
    ∃ turns, conn.readFull size = (some (conn.inbox.take size),
        { conn with inbox := conn.inbox.drop size, turns := turns }) ∧
      Undisturbed turns (n - size) := by
  obtain ⟨turns, hread, hleft⟩ := readLoop_full [] h hsize hn
  refine ⟨turns, ?_, hleft⟩
  rw [UnixConnection.readFull, if_pos hopen, hread, List.nil_append]

theorem readFull_eof (conn : UnixConnection) (size : Nat) (hopen : conn.isConnected)
    (h : Undisturbed conn.turns (conn.inbox.length + 1)) (hsize : conn.inbox.length < size) :
    ∃ conn', conn.readFull size = (none, conn') ∧ conn'.outbox = conn.outbox := by
  obtain ⟨rest, hread⟩ := readLoop_eof [] h hsize
  refine ⟨{ conn with inbox := rest.1, turns := rest.2 }, ?_, rfl⟩
  rw [UnixConnection.readFull, if_pos hopen, hread]

theorem writeAll_undisturbed (conn : UnixConnection) (buf : Bytes) {n : Nat}
    (hopen : conn.isConnected) (h : Undisturbed conn.turns n) (hn : buf.length ≤ n) :
    ∃ turns, conn.writeAll buf =
        (true, { conn with outbox := conn.outbox ++ buf, turns := turns }) ∧
      Undisturbed turns (n - buf.length) := by
  obtain ⟨turns, hwrite, hleft⟩ := writeLoop_full conn.outbox h hn
  refine ⟨turns, ?_, hleft⟩
  rw [UnixConnection.writeAll, if_pos hopen, hwrite]

/-- A write that is done met no closed end. -/
theorem raisesSigpipe_of_written {conn conn' : UnixConnection} {buf : Bytes}
    (h : conn.writeAll buf = (true, conn')) : conn.raisesSigpipe buf = false := by
  unfold UnixConnection.writeAll at h
  split_ifs at h with hopen
  · rw [UnixConnection.raisesSigpipe, hopen, Bool.true_and, ← Bool.not_eq_true]
    intro hraises
    have hfailed := writeLoop_of_raises conn.outbox hraises
    rw [(Prod.mk.inj h).1] at hfailed
    cases hfailed
  · cases h

/-- A loop that fills the buffer took the bytes from the front of the inbox. -/
theorem readLoop_some {buf inbox out inbox' : Bytes} {size : Nat} {turns turns' : List Turn}
    (h : readLoop buf size inbox turns = (some out, inbox', turns')) :
    out.length = buf.length + size ∧ buf ++ inbox = out ++ inbox' := by
  induction turns generalizing buf size inbox with
  | nil =>
      unfold readLoop at h
      split_ifs at h with hzero
      · obtain ⟨rfl, rfl, -⟩ := by simpa using h
        exact ⟨by omega, rfl⟩
      · cases h
  | cons turn turns ih =>
      unfold readLoop at h
      split_ifs at h with hzero
      · obtain ⟨rfl, rfl, -⟩ := by simpa using h
        exact ⟨by omega, rfl⟩
      · cases turn with
        | pollInterrupted => exact ih h
        | tryAgain => exact ih h
        | transfer k =>
            dsimp only at h
            generalize hcount : min (max 1 k) (min size inbox.length) = count at h
            split_ifs at h with hnone
            · cases h
            · obtain ⟨hlen, hsplit⟩ := ih h
              rw [List.append_assoc, List.take_append_drop] at hsplit
              rw [List.length_append, List.length_take] at hlen
              exact ⟨by omega, hsplit⟩
        | expired => simp at h
        | pollTimeout => simp at h
        | pollFailed => simp at h
        | ioFailed => simp at h
        | brokenPipe => simp at h

theorem readFull_some {conn conn' : UnixConnection} {size : Nat} {bytes : Bytes}
    (h : conn.readFull size = (some bytes, conn')) :
    bytes.length = size ∧ conn.inbox = bytes ++ conn'.inbox := by
  unfold UnixConnection.readFull at h
  split_ifs at h
  · cases hread : readLoop [] size conn.inbox conn.turns with
    | mk buffer left =>
        rw [hread] at h
        obtain ⟨rfl, rfl⟩ := Prod.mk.inj h
        obtain ⟨hlen, hsplit⟩ := readLoop_some hread
        rw [List.length_nil, Nat.zero_add] at hlen
        exact ⟨hlen, hsplit⟩
  · cases h

/-- Writing leaves the inbox as it is. -/
theorem writeAll_inbox (conn : UnixConnection) (buf : Bytes) :
    (conn.writeAll buf).2.inbox = conn.inbox := by
  unfold UnixConnection.writeAll
  split_ifs <;> rfl

end Dafeng.Endpoint
