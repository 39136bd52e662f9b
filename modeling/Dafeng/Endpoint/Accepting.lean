import Mathlib.Data.List.Range
import Dafeng.Library.Refinement

/-!
# Dafeng.Endpoint.Accepting

The accept loop: `Server::Run` (`src/daemon/server.cc`) over `UnixServer`
(`src/common/endpoint_unix.cc`), while other threads and signal handlers call
`Shutdown`.

A `Door` is what the loop is for: clients come in the order in which they arrived,
each once, until the door is shut. A door is polite if, once it was told to stop, it
lets in at most the client that stood on the threshold.
-/

namespace Dafeng.Endpoint

/-! ### The door -/

/-- Clients are numbered as they arrive. `late` counts who was let in behind the
first `stop`. -/
structure Door where
  arrived : Nat := 0
  waiting : List Nat := []
  inside : List Nat := []
  stopping : Bool := false
  late : Nat := 0
  isOpen : Bool := true
  deriving DecidableEq, Repr

inductive Door.Label
  | arrive
  | enter
  | stop
  | shut
  deriving DecidableEq, Repr

/-- The step function of a door. -/
def Door.step (d : Door) : Door.Label → Option Door
  | .arrive => some { d with arrived := d.arrived + 1, waiting := d.waiting ++ [d.arrived] }
  | .enter =>
    match d.isOpen, d.waiting with
    | true, c :: cs => some { d with
        waiting := cs
        inside := d.inside ++ [c]
        late := if d.stopping then d.late + 1 else d.late }
    | _, _ => none
  | .stop => some { d with stopping := true }
  | .shut => some { d with isOpen := false }

def door : System Door Door.Label := ⟨{}, Door.step⟩

/-- One who was told to stop lets in one more at most. -/
def Door.polite (d : Door) : Door.Label → Bool
  | .enter => !d.stopping || d.late == 0
  | _ => true

def politeDoor : System Door Door.Label := door.restrict Door.polite

/-- **Exactly once, in order.** Who was let in and who still waits are the clients
that arrived, in the order of their arrival. -/
theorem Door.in_order {d : Door} (h : door.Reachable d) :
    d.inside ++ d.waiting = List.range d.arrived := by
  refine h.invariant (I := fun d => d.inside ++ d.waiting = List.range d.arrived) rfl ?_
  intro d l d' _ hd hl
  cases l with
  | arrive =>
      obtain rfl := Option.some.inj hl
      show d.inside ++ (d.waiting ++ [d.arrived]) = _
      rw [← List.append_assoc, hd, List.range_succ]
  | enter =>
      simp only [door, Door.step] at hl
      split at hl
      · rename_i c cs _ hwaiting
        obtain rfl := Option.some.inj hl
        show d.inside ++ [c] ++ cs = _
        rw [← hd, hwaiting, List.append_assoc, List.singleton_append]
      · cases hl
  | stop =>
      obtain rfl := Option.some.inj hl
      exact hd
  | shut =>
      obtain rfl := Option.some.inj hl
      exact hd

/-- A polite door lets in one late client at most. -/
theorem Door.late_le_one {d : Door} (h : politeDoor.Reachable d) : d.late ≤ 1 := by
  have hinv : d.late ≤ 1 ∧ (d.stopping = false → d.late = 0) := by
    refine h.invariant (I := fun d => d.late ≤ 1 ∧ (d.stopping = false → d.late = 0))
      ⟨Nat.zero_le 1, fun _ => rfl⟩ ?_
    intro d l d' _ hd hl
    obtain ⟨hpolite, hl⟩ := System.restrict_step.mp hl
    cases l with
    | arrive =>
        obtain rfl := Option.some.inj hl
        exact hd
    | enter =>
        simp only [door, Door.step] at hl
        split at hl
        · obtain rfl := Option.some.inj hl
          cases hstop : d.stopping with
          | false => simpa [hstop] using hd
          | true =>
              have hlate : d.late = 0 := by simpa [Door.polite, hstop] using hpolite
              simp [hlate]
        · cases hl
    | stop =>
        obtain rfl := Option.some.inj hl
        exact ⟨hd.1, fun h => absurd h (by simp)⟩
    | shut =>
        obtain rfl := Option.some.inj hl
        exact hd
  exact hinv.1

/-- A polite door is a door. -/
def Door.ofPolite : politeDoor.Refinement door where
  view d := d
  init := rfl
  step := by
    intro d d' l _ hl
    refine ⟨[l], ?_⟩
    rw [System.runFrom, (System.restrict_step.mp hl).2]
    rfl

/-! ### The loop on Unix -/

/-- Where the thread in `Run` is: in `poll`, behind a `poll` that returned with these
events, or behind the loop. -/
inductive AcceptThread
  | polling
  | polled (listenReady shutdownReady : Bool)
  | exited
  deriving DecidableEq, Repr

def AcceptThread.inLoop : AcceptThread → Bool
  | .exited => false
  | _ => true

/-- `UnixServer` under `Server::Run`: the connections that the kernel holds for
`accept`, the bytes in the self-pipe, and the workers started. The number of
`Shutdown` calls and that of the workers started behind the first are records. -/
structure UnixServer where
  backlog : List Nat := []
  arrived : Nat := 0
  shutdownPipe : Nat := 0
  thread : AcceptThread := .polling
  workers : List Nat := []
  shutdowns : Nat := 0
  late : Nat := 0
  deriving DecidableEq, Repr

/-- What `accept` returns. -/
inductive AcceptResult
  | connection
  | interrupted
  | failed
  deriving DecidableEq, Repr

inductive UnixServer.Label
  | connect
  | shutdown
  | poll
  | pollError
  | pollInterrupted
  | pollFailed
  | accept (result : AcceptResult)
  deriving DecidableEq, Repr

/-- What the constructor got: the two ends of the self-pipe, unless `pipe` failed, and
how many bytes the pipe holds before a `write` is refused. -/
structure SelfPipe where
  made : Bool
  capacity : Nat
  deriving DecidableEq, Repr

namespace UnixServer

/-- `Shutdown`. Both ends of the pipe are nonblocking and nobody reads from it. -/
def shutdown (pipe : SelfPipe) (s : UnixServer) : UnixServer :=
  { s with
    shutdownPipe := if pipe.made ∧ s.shutdownPipe < pipe.capacity then s.shutdownPipe + 1
      else s.shutdownPipe
    shutdowns := s.shutdowns + 1 }

/-- `accept` returned a connection, and `Run` starts a worker for it. -/
def startWorker (s : UnixServer) : Option UnixServer :=
  match s.backlog with
  | [] => none
  | c :: cs => some { s with
      backlog := cs
      thread := .polling
      workers := s.workers ++ [c]
      late := if 0 < s.shutdowns then s.late + 1 else s.late }

/-- The rest of a pass through the loop of `Accept`, behind `poll`. -/
def finishPass (s : UnixServer) (result : AcceptResult) : Option UnixServer :=
  match s.thread with
  | .polled listenReady shutdownReady =>
    if shutdownReady then some { s with thread := .exited }
    else if !listenReady then some { s with thread := .polling }
    else
      match result with
      | .connection => s.startWorker
      | .interrupted => some { s with thread := .polling }
      | .failed => some { s with thread := .exited }
  | _ => none

/-- `poll` returns: with a connection, a byte in the pipe, or both. -/
def wake (s : UnixServer) : UnixServer :=
  { s with thread := .polled (s.backlog ≠ []) (0 < s.shutdownPipe) }

/-- The step function. `poll` waits until there is a connection or a byte in the pipe; an
error on the listening socket wakes it as well. -/
def step (pipe : SelfPipe) (s : UnixServer) : Label → Option UnixServer
  | .connect => some { s with backlog := s.backlog ++ [s.arrived], arrived := s.arrived + 1 }
  | .shutdown => some (s.shutdown pipe)
  | .poll =>
    if s.thread = .polling ∧ (s.backlog ≠ [] ∨ 0 < s.shutdownPipe) then some s.wake else none
  | .pollError => if s.thread = .polling then some s.wake else none
  | .pollInterrupted => if s.thread = .polling then some s else none
  | .pollFailed => if s.thread = .polling then some { s with thread := .exited } else none
  | .accept result => s.finishPass result

end UnixServer

def unixServer (pipe : SelfPipe) : System UnixServer UnixServer.Label :=
  ⟨{}, UnixServer.step pipe⟩

/-! ### The loop keeps the door -/

namespace UnixServer

/-- What a Unix server is seen as. -/
def view (s : UnixServer) : Door where
  arrived := s.arrived
  waiting := s.backlog
  inside := s.workers
  stopping := s.shutdowns != 0
  late := s.late
  isOpen := s.thread.inLoop

/-- A `Shutdown` leaves a byte in the pipe for good; a `poll` that missed it came
first. -/
structure Told (s : UnixServer) : Prop where
  byte : 0 < s.shutdowns → 0 < s.shutdownPipe
  called : 0 < s.late → 0 < s.shutdowns
  missed : ∀ listenReady, s.thread = .polled listenReady false → s.late = 0

/-- The pass behind a `poll`, case by case. -/
theorem finishPass_cases {s s' : UnixServer} {result : AcceptResult}
    (h : s.finishPass result = some s') :
    ∃ listenReady shutdownReady, s.thread = .polled listenReady shutdownReady ∧
      (s' = { s with thread := .exited } ∨
      shutdownReady = false ∧ s' = { s with thread := .polling } ∨
      listenReady = true ∧ shutdownReady = false ∧ ∃ c cs, s.backlog = c :: cs ∧ s' = { s with
        backlog := cs
        thread := .polling
        workers := s.workers ++ [c]
        late := if 0 < s.shutdowns then s.late + 1 else s.late }) := by
  unfold finishPass at h
  cases hthread : s.thread with
  | polling => simp [hthread] at h
  | exited => simp [hthread] at h
  | polled listenReady shutdownReady =>
      rw [hthread] at h
      refine ⟨listenReady, shutdownReady, rfl, ?_⟩
      cases shutdownReady with
      | true => exact .inl (Option.some.inj h).symm
      | false =>
          cases listenReady with
          | false => exact .inr (.inl ⟨rfl, (Option.some.inj h).symm⟩)
          | true =>
              cases result with
              | interrupted => exact .inr (.inl ⟨rfl, (Option.some.inj h).symm⟩)
              | failed => exact .inl (Option.some.inj h).symm
              | connection =>
                  replace h : s.startWorker = some s' := h
                  unfold startWorker at h
                  cases hbacklog : s.backlog with
                  | nil => simp [hbacklog] at h
                  | cons c cs =>
                      rw [hbacklog] at h
                      exact .inr (.inr ⟨rfl, rfl, c, cs, rfl, (Option.some.inj h).symm⟩)

variable {pipe : SelfPipe}

theorem told_wake {s : UnixServer} (h : Told s) : Told s.wake := by
  refine ⟨h.byte, h.called, fun listenReady hthread => ?_⟩
  have hempty : s.shutdownPipe = 0 := by
    have hnone := (AcceptThread.polled.inj hthread).2
    simpa using hnone
  by_contra hlate
  have hbyte := h.byte (h.called (Nat.pos_of_ne_zero hlate))
  omega

theorem told_step (hmade : pipe.made = true) (hcap : 0 < pipe.capacity) {s s' : UnixServer}
    {l : Label} (h : Told s) (hl : step pipe s l = some s') : Told s' := by
  cases l with
  | connect =>
      obtain rfl := Option.some.inj hl
      exact ⟨h.byte, h.called, h.missed⟩
  | shutdown =>
      obtain rfl := Option.some.inj hl
      refine ⟨fun _ => ?_, fun _ => Nat.succ_pos _, h.missed⟩
      show 0 < if _ then _ else _
      split_ifs with hroom
      · exact Nat.succ_pos _
      · -- the pipe is full, so that there is a byte in it
        have : pipe.capacity ≤ s.shutdownPipe := by simpa [hmade] using hroom
        omega
  | poll =>
      simp only [step] at hl
      split_ifs at hl
      obtain rfl := Option.some.inj hl
      exact told_wake h
  | pollError =>
      simp only [step] at hl
      split_ifs at hl
      obtain rfl := Option.some.inj hl
      exact told_wake h
  | pollInterrupted =>
      simp only [step] at hl
      split_ifs at hl
      obtain rfl := Option.some.inj hl
      exact h
  | pollFailed =>
      simp only [step] at hl
      split_ifs at hl
      obtain rfl := Option.some.inj hl
      exact ⟨h.byte, h.called, fun _ hthread => absurd hthread (by simp)⟩
  | accept result =>
      obtain ⟨_, _, -, rfl | ⟨-, rfl⟩ | ⟨-, -, c, cs, -, rfl⟩⟩ := finishPass_cases hl
      · exact ⟨h.byte, h.called, fun _ hthread => absurd hthread (by simp)⟩
      · exact ⟨h.byte, h.called, fun _ hthread => absurd hthread (by simp)⟩
      · refine ⟨h.byte, fun hlate => ?_, fun _ hthread => absurd hthread (by simp)⟩
        dsimp only at hlate
        split_ifs at hlate with hcalled
        · exact hcalled
        · exact h.called hlate

theorem told (hmade : pipe.made = true) (hcap : 0 < pipe.capacity) {s : UnixServer}
    (h : (unixServer pipe).Reachable s) : Told s := by
  refine h.invariant (I := Told) ⟨fun h => absurd h (Nat.lt_irrefl 0),
    fun h => absurd h (Nat.lt_irrefl 0), fun _ h => absurd h (by simp [unixServer])⟩ ?_
  exact fun _ hs hl => told_step hmade hcap hs hl

theorem view_step (hmade : pipe.made = true) (hcap : 0 < pipe.capacity) {s s' : UnixServer}
    {l : Label} (hs : (unixServer pipe).Reachable s) (hl : step pipe s l = some s') :
    ∃ ks, politeDoor.runFrom s.view ks = some s'.view := by
  have one : ∀ k d, Door.polite s.view k = true → s.view.step k = some d →
      politeDoor.runFrom s.view [k] = some d := by
    intro k d hk hd
    have hstep : politeDoor.step s.view k = some d := System.restrict_step.mpr ⟨hk, hd⟩
    rw [System.runFrom, hstep]
    rfl
  cases l with
  | connect =>
      obtain rfl := Option.some.inj hl
      exact ⟨[.arrive], one _ _ rfl rfl⟩
  | shutdown =>
      obtain rfl := Option.some.inj hl
      refine ⟨[.stop], one _ _ rfl ?_⟩
      simp [Door.step, view, shutdown]
  | poll =>
      simp only [step] at hl
      split_ifs at hl with hready
      obtain rfl := Option.some.inj hl
      exact ⟨[], by simp [System.runFrom, view, wake, hready.1, AcceptThread.inLoop]⟩
  | pollError =>
      simp only [step] at hl
      split_ifs at hl with hpolling
      obtain rfl := Option.some.inj hl
      exact ⟨[], by simp [System.runFrom, view, wake, hpolling, AcceptThread.inLoop]⟩
  | pollInterrupted =>
      simp only [step] at hl
      split_ifs at hl
      obtain rfl := Option.some.inj hl
      exact ⟨[], rfl⟩
  | pollFailed =>
      simp only [step] at hl
      split_ifs at hl
      obtain rfl := Option.some.inj hl
      exact ⟨[.shut], one _ _ rfl (by simp [Door.step, view, AcceptThread.inLoop])⟩
  | accept result =>
      obtain ⟨_, _, hthread, rfl | ⟨-, rfl⟩ | ⟨rfl, rfl, c, cs, hbacklog, rfl⟩⟩ :=
        finishPass_cases hl
      · exact ⟨[.shut], one _ _ rfl (by simp [Door.step, view, AcceptThread.inLoop])⟩
      · exact ⟨[], by simp [System.runFrom, view, hthread, AcceptThread.inLoop]⟩
      · have hlate : s.late = 0 := (told hmade hcap hs).missed true hthread
        refine ⟨[.enter], one _ _ (by simp [Door.polite, view, hlate]) ?_⟩
        simp [Door.step, view, hthread, hbacklog, AcceptThread.inLoop, Nat.pos_iff_ne_zero]

/-- The server on Unix is a polite door. -/
def refinesDoor (hmade : pipe.made = true) (hcap : 0 < pipe.capacity) :
    (unixServer pipe).Refinement politeDoor where
  view := view
  init := rfl
  step := view_step hmade hcap

/-! ### Behind a `Shutdown` -/

/-- The steps of the loop's thread, but for a `poll` that a signal cut short. -/
def Label.isTurn : Label → Bool
  | .poll | .pollError | .pollFailed | .accept _ => true
  | _ => false

/-- How many turns the loop has left behind a `Shutdown`. -/
def turnsLeft (s : UnixServer) : Nat :=
  match s.thread with
  | .exited => 0
  | .polled _ true => 1
  | .polling => 2
  | .polled _ false => 3

theorem turnsLeft_le (s : UnixServer) : s.turnsLeft ≤ 3 := by
  unfold turnsLeft
  split <;> omega

theorem turnsLeft_eq_zero {s : UnixServer} (h : s.turnsLeft = 0) : s.thread = .exited := by
  unfold turnsLeft at h
  split at h
  · assumption
  all_goals omega

theorem turnsLeft_wake {s : UnixServer} (h : 0 < s.shutdownPipe) : s.wake.turnsLeft = 1 := by
  simp [turnsLeft, wake, h]

theorem turnsLeft_finishPass {s s' : UnixServer} {result : AcceptResult}
    (h : s.finishPass result = some s') : s'.turnsLeft + 1 ≤ s.turnsLeft := by
  obtain ⟨listenReady, shutdownReady, hthread, rfl | ⟨rfl, rfl⟩ | ⟨-, rfl, c, cs, -, rfl⟩⟩ :=
    finishPass_cases h
  · cases shutdownReady <;> simp [turnsLeft, hthread]
  · simp [turnsLeft, hthread]
  · simp [turnsLeft, hthread]

/-- A turn of the loop that finds a byte in the pipe brings it closer to its end. -/
theorem turnsLeft_step {s s' : UnixServer} {l : Label} (hbyte : 0 < s.shutdownPipe)
    (hl : step pipe s l = some s') : s'.turnsLeft + (if l.isTurn then 1 else 0) ≤ s.turnsLeft := by
  cases l with
  | connect =>
      obtain rfl := Option.some.inj hl
      exact Nat.le_refl _
  | shutdown =>
      obtain rfl := Option.some.inj hl
      exact Nat.le_refl _
  | poll =>
      simp only [step] at hl
      split_ifs at hl with hready
      obtain rfl := Option.some.inj hl
      rw [turnsLeft_wake hbyte]
      simp [turnsLeft, hready.1, Label.isTurn]
  | pollError =>
      simp only [step] at hl
      split_ifs at hl with hpolling
      obtain rfl := Option.some.inj hl
      rw [turnsLeft_wake hbyte]
      simp [turnsLeft, hpolling, Label.isTurn]
  | pollInterrupted =>
      simp only [step] at hl
      split_ifs at hl
      obtain rfl := Option.some.inj hl
      exact Nat.le_refl _
  | pollFailed =>
      simp only [step] at hl
      split_ifs at hl with hpolling
      obtain rfl := Option.some.inj hl
      simp [turnsLeft, hpolling, Label.isTurn]
  | accept result => exact turnsLeft_finishPass hl

/-- The byte of a `Shutdown` stays in the pipe. -/
theorem byte_step {s s' : UnixServer} {l : Label} (hbyte : 0 < s.shutdownPipe)
    (hl : step pipe s l = some s') : 0 < s'.shutdownPipe := by
  cases l with
  | connect =>
      obtain rfl := Option.some.inj hl
      exact hbyte
  | shutdown =>
      obtain rfl := Option.some.inj hl
      show 0 < if _ then _ else _
      split_ifs
      · exact Nat.succ_pos _
      · exact hbyte
  | accept result =>
      obtain ⟨_, _, -, rfl | ⟨-, rfl⟩ | ⟨-, -, c, cs, -, rfl⟩⟩ := finishPass_cases hl <;>
        exact hbyte
  | poll | pollError | pollInterrupted | pollFailed =>
      simp only [step] at hl
      split_ifs at hl
      obtain rfl := Option.some.inj hl
      exact hbyte

/-- Behind the loop no worker starts. -/
theorem exited_step {s s' : UnixServer} {l : Label} (hexited : s.thread = .exited)
    (hl : step pipe s l = some s') : s'.thread = .exited ∧ s'.workers = s.workers := by
  cases l with
  | connect =>
      obtain rfl := Option.some.inj hl
      exact ⟨hexited, rfl⟩
  | shutdown =>
      obtain rfl := Option.some.inj hl
      exact ⟨hexited, rfl⟩
  | accept result =>
      obtain ⟨_, _, hthread, -⟩ := finishPass_cases hl
      rw [hexited] at hthread
      cases hthread
  | poll | pollError | pollInterrupted | pollFailed => simp [step, hexited] at hl

end UnixServer

/-! ### The whole loop -/

section Loop

variable {pipe : SelfPipe} {s s' : UnixServer} {ls ls' : List UnixServer.Label}

open UnixServer

/-- **The accept loop on Unix.** However connections, signals and calls of `Shutdown` come
between its steps: the workers are for the clients in the order of their arrival, one for
each; behind a `Shutdown` at most one more starts, `poll` does not wait, and after three
turns at most the loop is left, for good. -/
theorem unixServer_accepts (hmade : pipe.made = true) (hcap : 0 < pipe.capacity)
    (hrun : (unixServer pipe).run ls = some s) (hrun' : (unixServer pipe).runFrom s ls' = some s') :
    s.workers ++ s.backlog = List.range s.arrived ∧ s.late ≤ 1 ∧
    (s.thread = .exited → s'.thread = .exited ∧ s'.workers = s.workers) ∧
    (0 < s.shutdowns →
      (s.thread = .polling → ((unixServer pipe).step s .poll).isSome) ∧
      ls'.countP Label.isTurn ≤ 3 ∧
      (ls'.countP Label.isTurn = 3 → s'.thread = .exited)) := by
  have hreach := System.reachable_of_run hrun
  have hdoor := (refinesDoor hmade hcap).reachable hreach
  refine ⟨Door.in_order (Door.ofPolite.reachable hdoor), Door.late_le_one hdoor, ?_, ?_⟩
  · intro hexited
    refine System.runFrom_keeps
      (I := fun t : UnixServer => t.thread = .exited ∧ t.workers = s.workers) ?_
      ⟨hexited, rfl⟩ hrun'
    intro t l t' ht hl
    obtain ⟨hexited', hworkers⟩ := exited_step ht.1 hl
    exact ⟨hexited', hworkers.trans ht.2⟩
  · intro hcalled
    have hbyte := (told hmade hcap hreach).byte hcalled
    have hvariant := System.runFrom_variant (I := fun t : UnixServer => 0 < t.shutdownPipe)
      Label.isTurn (fun _ => false) turnsLeft 0 byte_step turnsLeft_step hbyte hrun'
    have hthree := turnsLeft_le s
    refine ⟨fun hpolling => ?_, by omega, fun hturns => turnsLeft_eq_zero (by omega)⟩
    simp [unixServer, step, hpolling, hbyte]

end Loop

/-- Two clients, of which `poll` has seen the first when `Shutdown` is called. -/
def onThreshold : UnixServer where
  backlog := [0, 1]
  arrived := 2
  shutdownPipe := 1
  thread := .polled true false
  shutdowns := 1

/-- The first of the two is let in, the second is not. -/
theorem unixServer_accepts_late : ∃ s',
    (unixServer ⟨true, 1⟩).runFrom onThreshold
      [.accept .connection, .poll, .accept .connection] = some s' ∧
    s'.late = 1 ∧ s'.thread = .exited ∧ onThreshold.workers ++ onThreshold.backlog = [0, 1] := by
  have hrun : (unixServer ⟨true, 1⟩).run [.connect, .connect, .poll, .shutdown] =
      some onThreshold := rfl
  refine ⟨{ onThreshold with backlog := [1], workers := [0], late := 1, thread := .exited },
    rfl, rfl, ?_⟩
  have hrun' : (unixServer ⟨true, 1⟩).runFrom onThreshold
      [.accept .connection, .poll, .accept .connection] = some { onThreshold with
        backlog := [1], workers := [0], late := 1, thread := .exited } := rfl
  obtain ⟨horder, -, -, hturns⟩ := unixServer_accepts rfl Nat.one_pos hrun hrun'
  exact ⟨(hturns Nat.one_pos).2.2 rfl, horder⟩

end Dafeng.Endpoint
