import Dafeng.Endpoint.Unix
import Dafeng.Library.Transfer

/-!
# Dafeng.Endpoint.Windows

`DoIo`, the transfer loop of `WinPipeConnection` in `src/common/endpoint_win.cc`, beside the
loops of `UnixConnection`. All are the loops of `Dafeng.Library.Transfer`.

An operation that is cancelled when the time is up, or that is left to itself, may move bytes
all the same; `DoIo` does not count them.
-/

namespace Dafeng.Endpoint

open Transfer (Pass pull push)

/-! ### The loops on Unix -/

/-- What a turn of a loop is in general. -/
def Turn.pass : Turn → Pass
  | .expired | .pollTimeout | .pollFailed | .ioFailed | .brokenPipe => .stop 0
  | .pollInterrupted | .tryAgain => .again
  | .transfer k => .move (max 1 k)

theorem readLoop_eq_pull (turns : List Turn) (buf : Bytes) (size : Nat) (inbox : Bytes) :
    pull buf size inbox (turns.map Turn.pass) =
      ((readLoop buf size inbox turns).1, (readLoop buf size inbox turns).2.1,
        (readLoop buf size inbox turns).2.2.map Turn.pass) := by
  induction turns generalizing buf size inbox with
  | nil =>
      show pull buf size inbox [] = _
      unfold pull readLoop
      split_ifs <;> rfl
  | cons turn turns ih =>
      rw [List.map_cons]
      by_cases hzero : size = 0
      · subst hzero
        rw [Transfer.pull_zero]
        rfl
      · cases turn with
        | transfer k =>
            rw [Turn.pass, pull, if_neg hzero, readLoop, if_neg hzero]
            dsimp only
            split_ifs
            · rfl
            · exact ih _ _ _
        | pollInterrupted | tryAgain =>
            rw [Turn.pass, pull, if_neg hzero, readLoop, if_neg hzero]
            exact ih _ _ _
        | expired | pollTimeout | pollFailed | ioFailed | brokenPipe =>
            rw [Turn.pass, pull, if_neg hzero, readLoop, if_neg hzero]
            simp

theorem writeLoop_eq_push (turns : List Turn) (buf outbox : Bytes) :
    push buf outbox (turns.map Turn.pass) =
      ((writeLoop buf outbox turns).1, (writeLoop buf outbox turns).2.1,
        (writeLoop buf outbox turns).2.2.map Turn.pass) := by
  induction turns generalizing buf outbox with
  | nil => rfl
  | cons turn turns ih =>
      rw [List.map_cons]
      by_cases hempty : buf = []
      · subst hempty
        rw [Transfer.push_nil]
        rfl
      · have hsome : ¬ buf.isEmpty = true := by simpa using hempty
        cases turn with
        | transfer k =>
            rw [Turn.pass, push, if_neg hsome, writeLoop, if_neg hempty]
            dsimp only
            rw [if_neg (by omega), ih]
            have hcut : buf.take (min (max 1 k) buf.length) = buf.take (max 1 k) := by simp
            have hleft : buf.drop (min (max 1 k) buf.length) = buf.drop (max 1 k) := by simp
            rw [hcut, hleft]
        | pollInterrupted | tryAgain =>
            rw [Turn.pass, push, if_neg hsome, writeLoop, if_neg hempty]
            exact ih _ _
        | expired | pollTimeout | pollFailed | ioFailed | brokenPipe =>
            rw [Turn.pass, push, if_neg hsome, writeLoop, if_neg hempty]
            simp

/-! ### The loop on Windows -/

/-- `std::numeric_limits<DWORD>::max()`. -/
def maxDword : Nat := 0xFFFFFFFF

/-- One pass through the loop of `DoIo`. `ReadFile` or `WriteFile` fails, completes `atOnce`, or is
pending; then the wait times out, fails, or ends, and `GetOverlappedResult` fails or says how many
bytes were `completed`. -/
inductive Io
  | expired
  | failed
  | atOnce (k : Nat)
  | timedOut (k : Nat)
  | waitFailed (k : Nat)
  | resultFailed
  | completed (k : Nat)
  deriving DecidableEq, Repr

/-- `DoIo` with `is_read`. -/
def doRead (buf : Bytes) (size : Nat) (inbox : Bytes) : List Io → Option Bytes × Bytes × List Io
  | [] => if size = 0 then (some buf, inbox, []) else (none, inbox, [])
  | io :: ios =>
    if size = 0 then (some buf, inbox, io :: ios)
    else
      let chunk := min size maxDword
      match io with
      | .expired | .failed | .resultFailed => (none, inbox, ios)
      | .atOnce k | .completed k =>
        let n := min k (min chunk inbox.length)
        if n = 0 then (none, inbox, ios)
        else doRead (buf ++ inbox.take n) (size - n) (inbox.drop n) ios
      | .timedOut k | .waitFailed k => (none, inbox.drop (min k chunk), ios)

/-- `DoIo` without. -/
def doWrite (buf outbox : Bytes) : List Io → Bool × Bytes × List Io
  | [] => (buf.isEmpty, outbox, [])
  | io :: ios =>
    if buf = [] then (true, outbox, io :: ios)
    else
      let chunk := min buf.length maxDword
      match io with
      | .expired | .failed | .resultFailed => (false, outbox, ios)
      | .atOnce k | .completed k =>
        let n := min k chunk
        if n = 0 then (false, outbox, ios)
        else doWrite (buf.drop n) (outbox ++ buf.take n) ios
      | .timedOut k | .waitFailed k => (false, outbox ++ buf.take (min k chunk), ios)

/-- A `WinPipeConnection` and what lies behind its handle. -/
structure WinPipeConnection where
  isConnected : Bool
  eventValid : Bool
  inbox : Bytes
  outbox : Bytes
  ios : List Io
  deriving DecidableEq, Repr

namespace WinPipeConnection

def readFull (conn : WinPipeConnection) (size : Nat) : Option Bytes × WinPipeConnection :=
  if !conn.isConnected then (none, conn)
  else if !conn.eventValid then (none, conn)
  else
    let r := doRead [] size conn.inbox conn.ios
    (r.1, { conn with inbox := r.2.1, ios := r.2.2 })

def writeAll (conn : WinPipeConnection) (buf : Bytes) : Bool × WinPipeConnection :=
  if !conn.isConnected then (false, conn)
  else if !conn.eventValid then (false, conn)
  else
    let r := doWrite buf conn.outbox conn.ios
    (r.1, { conn with outbox := r.2.1, ios := r.2.2 })

def close (conn : WinPipeConnection) : WinPipeConnection := { conn with isConnected := false }

/-- The loops run if the pipe is open and there is an event. -/
def ready (conn : WinPipeConnection) : Bool := conn.isConnected && conn.eventValid

variable {conn : WinPipeConnection}

theorem readFull_ready (h : conn.ready = true) (size : Nat) : conn.readFull size =
    ((doRead [] size conn.inbox conn.ios).1, { conn with
      inbox := (doRead [] size conn.inbox conn.ios).2.1
      ios := (doRead [] size conn.inbox conn.ios).2.2 }) := by
  obtain ⟨hopen, hevent⟩ := Bool.and_eq_true_iff.mp h
  simp [readFull, hopen, hevent]

theorem readFull_not_ready (h : conn.ready = false) (size : Nat) :
    conn.readFull size = (none, conn) := by
  unfold readFull
  split_ifs with hopen hevent
  · rfl
  · rfl
  · simp_all [ready]

theorem writeAll_ready (h : conn.ready = true) (buf : Bytes) : conn.writeAll buf =
    ((doWrite buf conn.outbox conn.ios).1, { conn with
      outbox := (doWrite buf conn.outbox conn.ios).2.1
      ios := (doWrite buf conn.outbox conn.ios).2.2 }) := by
  obtain ⟨hopen, hevent⟩ := Bool.and_eq_true_iff.mp h
  simp [writeAll, hopen, hevent]

theorem writeAll_not_ready (h : conn.ready = false) (buf : Bytes) :
    conn.writeAll buf = (false, conn) := by
  unfold writeAll
  split_ifs with hopen hevent
  · rfl
  · rfl
  · simp_all [ready]

end WinPipeConnection

/-- What a pass of `DoIo` is in general. A transfer of no byte ends it. -/
def Io.pass : Io → Pass
  | .expired | .failed | .resultFailed => .stop 0
  | .atOnce k | .completed k => if k = 0 then .stop 0 else .move (min k maxDword)
  | .timedOut k | .waitFailed k => .stop (min k maxDword)

theorem doRead_eq_pull (ios : List Io) (buf : Bytes) (size : Nat) (inbox : Bytes) :
    pull buf size inbox (ios.map Io.pass) = ((doRead buf size inbox ios).1,
      (doRead buf size inbox ios).2.1, (doRead buf size inbox ios).2.2.map Io.pass) := by
  induction ios generalizing buf size inbox with
  | nil =>
      show pull buf size inbox [] = _
      unfold pull doRead
      split_ifs <;> rfl
  | cons io ios ih =>
      rw [List.map_cons]
      by_cases hzero : size = 0
      · subst hzero
        rw [Transfer.pull_zero]
        rfl
      · cases io with
        | expired | failed | resultFailed =>
            rw [Io.pass, pull, if_neg hzero, doRead, if_neg hzero]
            simp
        | atOnce k | completed k =>
            rw [Io.pass, doRead, if_neg hzero]
            dsimp only
            have hsame : min k (min (min size maxDword) inbox.length) =
                min (min k maxDword) (min size inbox.length) := by omega
            rw [hsame]
            by_cases hk : k = 0
            · subst hk
              rw [if_pos rfl, pull, if_neg hzero]
              simp
            · rw [if_neg hk, pull, if_neg hzero]
              dsimp only
              split_ifs
              · rfl
              · exact ih _ _ _
        | timedOut k | waitFailed k =>
            rw [Io.pass, pull, if_neg hzero, doRead, if_neg hzero]
            dsimp only
            rw [show min (min k maxDword) size = min k (min size maxDword) by omega]

theorem doWrite_eq_push (ios : List Io) (buf outbox : Bytes) :
    push buf outbox (ios.map Io.pass) = ((doWrite buf outbox ios).1,
      (doWrite buf outbox ios).2.1, (doWrite buf outbox ios).2.2.map Io.pass) := by
  have hcut : ∀ (buf : Bytes) k, buf.take (min k (min buf.length maxDword)) =
      buf.take (min k maxDword) := by
    intro buf k
    rw [show min k (min buf.length maxDword) = min (min k maxDword) buf.length by omega]
    simp
  have hleft : ∀ (buf : Bytes) k, buf.drop (min k (min buf.length maxDword)) =
      buf.drop (min k maxDword) := by
    intro buf k
    rw [show min k (min buf.length maxDword) = min (min k maxDword) buf.length by omega]
    simp
  induction ios generalizing buf outbox with
  | nil => rfl
  | cons io ios ih =>
      rw [List.map_cons]
      by_cases hempty : buf = []
      · subst hempty
        rw [Transfer.push_nil]
        rfl
      · have hsome : ¬ buf.isEmpty = true := by simpa using hempty
        have hpos : 0 < buf.length := List.length_pos_iff.mpr hempty
        cases io with
        | expired | failed | resultFailed =>
            rw [Io.pass, push, if_neg hsome, doWrite, if_neg hempty]
            simp
        | atOnce k | completed k =>
            rw [Io.pass, doWrite, if_neg hempty]
            dsimp only
            by_cases hk : k = 0
            · subst hk
              rw [if_pos rfl, push, if_neg hsome]
              simp
            · have hmax : 0 < maxDword := by decide
              rw [if_neg hk, push, if_neg hsome]
              rw [if_neg (by omega), if_neg (by omega), ih, hcut, hleft]
        | timedOut k | waitFailed k =>
            rw [Io.pass, push, if_neg hsome, doWrite, if_neg hempty]
            dsimp only
            rw [hcut]

/-! ### A connection on Windows as one on Unix -/

/-- The turn on Unix that a pass on Windows amounts to. -/
def Io.turn : Io → Turn
  | .expired => .expired
  | .timedOut _ => .pollTimeout
  | .waitFailed _ => .pollFailed
  | .failed | .resultFailed => .ioFailed
  | .atOnce k | .completed k => if k = 0 then .ioFailed else .transfer (min k maxDword)

theorem Io.turn_pass (io : Io) : io.turn.pass = io.pass.cleaned := by
  have hmax : maxDword = 4294967295 := rfl
  cases io with
  | atOnce k | completed k =>
      by_cases hk : k = 0
      · rw [Io.turn, Io.pass, if_pos hk, if_pos hk]
        rfl
      · rw [Io.turn, Io.pass, if_neg hk, if_neg hk, Turn.pass, Nat.max_eq_right (by omega)]
        rfl
  | expired | failed | resultFailed | timedOut k | waitFailed k => rfl

/-- No operation to come moves a byte if it is given up. -/
def WinPipeConnection.Clean (conn : WinPipeConnection) : Prop :=
  ∀ pass ∈ conn.ios.map Io.pass, pass.clean

/-- A connection on Unix that stands as one on Windows does, with the same passes to come, but for
the bytes that operations move which are given up. -/
structure Alike (conn : WinPipeConnection) (unix : UnixConnection) : Prop where
  connected : unix.isConnected = conn.ready
  inbox : unix.inbox = conn.inbox
  outbox : unix.outbox = conn.outbox
  passes : unix.turns.map Turn.pass = (conn.ios.map Io.pass).map Pass.cleaned

/-- The connection on Unix that a connection on Windows amounts to. -/
def WinPipeConnection.toUnix (conn : WinPipeConnection) : UnixConnection where
  isConnected := conn.ready
  inbox := conn.inbox
  outbox := conn.outbox
  turns := conn.ios.map Io.turn

theorem WinPipeConnection.alike_toUnix (conn : WinPipeConnection) : Alike conn conn.toUnix := by
  refine ⟨rfl, rfl, rfl, ?_⟩
  show (conn.ios.map Io.turn).map Turn.pass = _
  rw [List.map_map, List.map_map]
  exact List.map_congr_left fun io _ => io.turn_pass

namespace Alike

variable {conn : WinPipeConnection} {unix : UnixConnection}

/-- `ReadFull` returns the same on both. -/
theorem readFull (h : Alike conn unix) (size : Nat) :
    (unix.readFull size).1 = (conn.readFull size).1 ∧
    ((conn.readFull size).1.isSome → Alike (conn.readFull size).2 (unix.readFull size).2) := by
  unfold UnixConnection.readFull
  rw [h.connected]
  cases hready : conn.ready with
  | false =>
      rw [conn.readFull_not_ready hready]
      exact ⟨rfl, fun h => by cases h⟩
  | true =>
      have hunix := readLoop_eq_pull unix.turns [] size unix.inbox
      rw [h.passes, h.inbox] at hunix
      obtain ⟨hresult, hpasses, -, hleft⟩ :=
        Transfer.pull_cleaned (conn.ios.map Io.pass) [] size conn.inbox
      rw [hunix, doRead_eq_pull] at hresult hpasses hleft
      rw [conn.readFull_ready hready, h.inbox]
      exact ⟨hresult, fun hsome => ⟨hready.symm, hleft hsome, h.outbox, hpasses⟩⟩

/-- `WriteAll` returns the same on both. Where it fails, Windows may have written more. -/
theorem writeAll (h : Alike conn unix) (buf : Bytes) :
    (unix.writeAll buf).1 = (conn.writeAll buf).1 ∧
    (unix.writeAll buf).2.outbox <+: (conn.writeAll buf).2.outbox ∧
    (conn.Clean → (unix.writeAll buf).2.outbox = (conn.writeAll buf).2.outbox) ∧
    ((conn.writeAll buf).1 = true → Alike (conn.writeAll buf).2 (unix.writeAll buf).2) := by
  unfold UnixConnection.writeAll
  rw [h.connected]
  cases hready : conn.ready with
  | false =>
      rw [conn.writeAll_not_ready hready]
      exact ⟨rfl, h.outbox ▸ List.prefix_rfl, fun _ => h.outbox, fun h => by cases h⟩
  | true =>
      have hunix := writeLoop_eq_push unix.turns buf unix.outbox
      rw [h.passes, h.outbox] at hunix
      obtain ⟨hresult, hpasses, hpre, hout⟩ :=
        Transfer.push_cleaned (conn.ios.map Io.pass) buf conn.outbox
      rw [hunix, doWrite_eq_push] at hresult hpasses hpre hout
      rw [conn.writeAll_ready hready, h.outbox]
      refine ⟨hresult, hpre, fun hclean => ?_, fun hdone =>
        ⟨hready.symm, h.inbox, hout hdone, hpasses⟩⟩
      rw [Transfer.map_cleaned hclean, doWrite_eq_push] at hunix
      exact (congrArg (fun r => r.2.1) hunix).symm

end Alike

theorem WinPipeConnection.clean_readFull {conn : WinPipeConnection} (h : conn.Clean) (size : Nat) :
    (conn.readFull size).2.Clean := by
  cases hready : conn.ready with
  | false => rwa [conn.readFull_not_ready hready]
  | true =>
      have hsuffix := Transfer.pull_passes (conn.ios.map Io.pass) [] size conn.inbox
      rw [doRead_eq_pull] at hsuffix
      rw [conn.readFull_ready hready]
      exact fun pass hpass => h pass (hsuffix.subset hpass)

theorem WinPipeConnection.clean_writeAll {conn : WinPipeConnection} (h : conn.Clean) (buf : Bytes) :
    (conn.writeAll buf).2.Clean := by
  cases hready : conn.ready with
  | false => rwa [conn.writeAll_not_ready hready]
  | true =>
      have hsuffix := Transfer.push_passes (conn.ios.map Io.pass) buf conn.outbox
      rw [doWrite_eq_push] at hsuffix
      rw [conn.writeAll_ready hready]
      exact fun pass hpass => h pass (hsuffix.subset hpass)

end Dafeng.Endpoint
