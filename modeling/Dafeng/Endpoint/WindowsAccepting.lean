import Dafeng.Endpoint.Accepting

/-!
# Dafeng.Endpoint.WindowsAccepting

The accept loop over `WinPipeServer` (`src/common/endpoint_win.cc`). Each `Accept` makes
an instance of the pipe, to which one client can attach. `ConnectNamedPipe` reports a
client that was faster, and `WaitForMultipleObjects` looks at the client before it looks
at the shutdown event. So the door is not polite: it goes on for as long as there are
clients.
-/

namespace Dafeng.Endpoint

/-- Where the thread in `Run` is: in front of `CreateNamedPipeW`, behind it, in
`WaitForMultipleObjects`, behind a wait that found the shutdown event, or behind the
loop. -/
inductive PipeThread
  | creating
  | created
  | waiting
  | cancelling
  | exited
  deriving DecidableEq, Repr

def PipeThread.inLoop : PipeThread → Bool
  | .exited => false
  | _ => true

/-- `WinPipeServer` under `Server::Run`, with the client that is attached to the instance of
this `Accept`. The last three fields are records, as in `UnixServer`; `lateArrivals` are the
clients that attached behind the first `Shutdown`. -/
structure WinPipeServer where
  thread : PipeThread := .creating
  attached : Option Nat := none
  arrived : Nat := 0
  shutdownEvent : Bool := false
  workers : List Nat := []
  shutdowns : Nat := 0
  late : Nat := 0
  lateArrivals : Nat := 0
  deriving DecidableEq, Repr

inductive WinPipeServer.Label
  | attach
  | shutdown
  | create (ok : Bool)
  | connect (ok : Bool)
  | wait (ok : Bool)
  | waitFailed
  | close
  deriving DecidableEq, Repr

namespace WinPipeServer

/-- `Accept` returns a connection, and `Run` starts a worker for it. -/
def startWorker (s : WinPipeServer) (c : Nat) : WinPipeServer :=
  { s with
    thread := .creating
    attached := none
    workers := s.workers ++ [c]
    late := if 0 < s.shutdowns then s.late + 1 else s.late }

/-- A client attaches to the instance, if there is one and it is free. -/
def attach (s : WinPipeServer) : WinPipeServer :=
  { s with
    attached := some s.arrived
    arrived := s.arrived + 1
    lateArrivals := if 0 < s.shutdowns then s.lateArrivals + 1 else s.lateArrivals }

/-- The step function. A shutdown event that could not be made, and a connect event that could
not, end the loop as a pipe does that could not be made. -/
def step (s : WinPipeServer) : Label → Option WinPipeServer
  | .attach =>
    match s.thread, s.attached with
    | .created, none | .waiting, none | .cancelling, none => some s.attach
    | _, _ => none
  | .shutdown => some { s with shutdownEvent := true, shutdowns := s.shutdowns + 1 }
  | .create ok =>
    if s.thread = .creating then some { s with thread := if ok then .created else .exited }
    else none
  | .connect ok =>
    if s.thread = .created then
      if !ok then some { s with thread := .exited }
      else
        match s.attached with
        | some c => some (s.startWorker c)
        | none => some { s with thread := .waiting }
    else none
  | .wait ok =>
    if s.thread = .waiting then
      match s.attached with
      | some c => some (if ok then s.startWorker c else { s with thread := .exited })
      | none => if s.shutdownEvent then some { s with thread := .cancelling } else none
    else none
  | .waitFailed =>
    if s.thread = .waiting then some { s with thread := .cancelling } else none
  | .close => if s.thread = .cancelling then some { s with thread := .exited } else none

end WinPipeServer

def winPipeServer : System WinPipeServer WinPipeServer.Label := ⟨{}, WinPipeServer.step⟩

/-! ### The loop keeps the door -/

namespace WinPipeServer

/-- What a server on Windows is seen as. -/
def view (s : WinPipeServer) : Door where
  arrived := s.arrived
  waiting := s.attached.toList
  inside := s.workers
  stopping := s.shutdowns != 0
  late := s.late
  isOpen := s.thread.inLoop

/-- What a step can do. -/
inductive Does (s : WinPipeServer) : WinPipeServer.Label → WinPipeServer → Prop
  | attach (hfree : s.attached = none)
      (hthread : s.thread = .created ∨ s.thread = .waiting ∨ s.thread = .cancelling) :
      Does s .attach s.attach
  | shutdown : Does s .shutdown { s with shutdownEvent := true, shutdowns := s.shutdowns + 1 }
  | start (l : WinPipeServer.Label) (c : Nat) (hl : l = .connect true ∨ l = .wait true)
      (hthread : s.thread = .created ∨ s.thread = .waiting) (hclient : s.attached = some c) :
      Does s l (s.startWorker c)
  | move (l : WinPipeServer.Label) (thread : PipeThread) (hl : l ≠ .attach ∧ l ≠ .shutdown)
      (hthread : s.thread = .creating ∧ thread = .created ∨
        s.thread = .created ∧ s.attached = none ∧ thread = .waiting ∨
        s.thread = .waiting ∧ thread = .cancelling ∨
        s.thread ≠ .exited ∧ thread = .exited) :
      Does s l { s with thread }

theorem does_of_step {s s' : WinPipeServer} {l : WinPipeServer.Label} (h : s.step l = some s') :
    Does s l s' := by
  cases l with
  | attach =>
      simp only [step] at h
      split at h
      · exact Option.some.inj h ▸ .attach (by assumption) (.inl (by assumption))
      · exact Option.some.inj h ▸ .attach (by assumption) (.inr (.inl (by assumption)))
      · exact Option.some.inj h ▸ .attach (by assumption) (.inr (.inr (by assumption)))
      · cases h
  | shutdown => exact Option.some.inj h ▸ .shutdown
  | create ok =>
      by_cases hthread : s.thread = .creating
      · rw [step, if_pos hthread] at h
        refine Option.some.inj h ▸ .move _ _ (by simp) ?_
        cases ok <;> simp [hthread]
      · rw [step, if_neg hthread] at h
        cases h
  | connect ok =>
      by_cases hthread : s.thread = .created
      · rw [step, if_pos hthread] at h
        cases ok with
        | false => exact Option.some.inj h ▸ .move _ _ (by simp) (by simp [hthread])
        | true =>
            rw [if_neg (by simp)] at h
            split at h
            · rename_i c hclient
              exact Option.some.inj h ▸ .start _ c (.inl rfl) (.inl hthread) hclient
            · rename_i hfree
              exact Option.some.inj h ▸ .move _ _ (by simp) (by simp [hthread, hfree])
      · rw [step, if_neg hthread] at h
        cases h
  | wait ok =>
      by_cases hthread : s.thread = .waiting
      · rw [step, if_pos hthread] at h
        split at h
        · rename_i c hclient
          cases ok with
          | true => exact Option.some.inj h ▸ .start _ c (.inr rfl) (.inr hthread) hclient
          | false => exact Option.some.inj h ▸ .move _ _ (by simp) (by simp [hthread])
        · split_ifs at h
          exact Option.some.inj h ▸ .move _ _ (by simp) (by simp [hthread])
      · rw [step, if_neg hthread] at h
        cases h
  | waitFailed =>
      by_cases hthread : s.thread = .waiting
      · rw [step, if_pos hthread] at h
        exact Option.some.inj h ▸ .move _ _ (by simp) (by simp [hthread])
      · rw [step, if_neg hthread] at h
        cases h
  | close =>
      by_cases hthread : s.thread = .cancelling
      · rw [step, if_pos hthread] at h
        exact Option.some.inj h ▸ .move _ _ (by simp) (by simp [hthread])
      · rw [step, if_neg hthread] at h
        cases h

theorem view_step {s s' : WinPipeServer} {l : WinPipeServer.Label} (hl : s.step l = some s') :
    ∃ ks, door.runFrom s.view ks = some s'.view := by
  have one : ∀ k d, s.view.step k = some d → door.runFrom s.view [k] = some d := by
    intro k d hd
    have hstep : door.step s.view k = some d := hd
    rw [System.runFrom, hstep]
    rfl
  cases does_of_step hl with
  | attach hfree hthread =>
      refine ⟨[.arrive], one _ _ ?_⟩
      simp [Door.step, view, attach, hfree]
  | shutdown =>
      refine ⟨[.stop], one _ _ ?_⟩
      simp [Door.step, view]
  | start l c hl hthread hclient =>
      refine ⟨[.enter], one _ _ ?_⟩
      obtain hthread | hthread := hthread <;>
        simp [Door.step, view, startWorker, hclient, hthread, PipeThread.inLoop,
          Nat.pos_iff_ne_zero]
  | move l thread hl hthread =>
      obtain ⟨hold, rfl⟩ | ⟨hold, -, rfl⟩ | ⟨hold, rfl⟩ | ⟨-, rfl⟩ := hthread
      · exact ⟨[], by simp [System.runFrom, view, hold, PipeThread.inLoop]⟩
      · exact ⟨[], by simp [System.runFrom, view, hold, PipeThread.inLoop]⟩
      · exact ⟨[], by simp [System.runFrom, view, hold, PipeThread.inLoop]⟩
      · refine ⟨[.shut], one _ _ ?_⟩
        simp [Door.step, view, PipeThread.inLoop]

/-- The server on Windows is a door. -/
def refinesDoor : winPipeServer.Refinement door where
  view := view
  init := rfl
  step _ hl := view_step hl

/-! ### Behind a `Shutdown` -/

/-- A thread in front of `CreateNamedPipeW` has no client yet; and behind a `Shutdown` the
event is set, and the late workers are for late clients, but for one. -/
structure Inv (s : WinPipeServer) : Prop where
  fresh : s.thread = .creating → s.attached = none
  event : 0 < s.shutdowns → s.shutdownEvent = true
  early : s.shutdowns = 0 → s.late = 0 ∧ s.lateArrivals = 0
  bounded : s.late + s.attached.toList.length ≤ s.lateArrivals + 1

theorem inv_step {s s' : WinPipeServer} {l : WinPipeServer.Label} (h : Inv s)
    (hl : s.step l = some s') : Inv s' := by
  have hbounded := h.bounded
  cases does_of_step hl with
  | attach hfree hthread =>
      refine ⟨fun hcreating => ?_, h.event, fun hnone => ?_, ?_⟩
      · replace hcreating : s.thread = .creating := hcreating
        simp [hcreating] at hthread
      · replace hnone : s.shutdowns = 0 := hnone
        simp [attach, hnone, h.early hnone]
      · by_cases hcalled : 0 < s.shutdowns
        · simp only [attach, hcalled, if_true, Option.toList_some, List.length_singleton]
          simp only [hfree, Option.toList_none, List.length_nil] at hbounded
          omega
        · have hearly := h.early (by omega)
          simp [attach, hcalled, hearly]
  | shutdown =>
      exact ⟨h.fresh, fun _ => rfl, fun hnone => absurd hnone (Nat.succ_ne_zero _), hbounded⟩
  | start l c hl hthread hclient =>
      refine ⟨fun _ => rfl, h.event, fun hnone => ?_, ?_⟩
      · replace hnone : s.shutdowns = 0 := hnone
        simp [startWorker, hnone, h.early hnone]
      · simp only [hclient, Option.toList_some, List.length_singleton] at hbounded
        simp only [startWorker, Option.toList_none, List.length_nil]
        split_ifs <;> omega
  | move l thread hl hthread =>
      refine ⟨fun hcreating => ?_, h.event, h.early, hbounded⟩
      replace hcreating : thread = .creating := hcreating
      simp [hcreating] at hthread

theorem inv {s : WinPipeServer} (h : winPipeServer.Reachable s) : Inv s := by
  have hinit : Inv {} := ⟨fun _ => rfl, fun h => absurd h (Nat.lt_irrefl 0),
    fun _ => ⟨rfl, rfl⟩, Nat.zero_le 1⟩
  refine h.invariant (I := Inv) hinit ?_
  exact fun _ hs hl => inv_step hs hl

/-- The steps of the loop's thread. -/
def Label.isTurn : WinPipeServer.Label → Bool
  | .attach | .shutdown => false
  | _ => true

def Label.isAttach : WinPipeServer.Label → Bool
  | .attach => true
  | _ => false

/-- How many turns the loop has left behind a `Shutdown`, if no client comes. -/
def turnsLeft (s : WinPipeServer) : Nat :=
  match s.thread, s.attached with
  | .exited, _ => 0
  | .cancelling, _ => 1
  | .waiting, none => 2
  | .created, none => 3
  | .creating, _ => 4
  | _, some _ => 5

theorem turnsLeft_step {s s' : WinPipeServer} {l : WinPipeServer.Label}
    (h : Inv s ∧ 0 < s.shutdowns) (hl : s.step l = some s') :
    s'.turnsLeft + (if l.isTurn then 1 else 0) ≤ s.turnsLeft + if l.isAttach then 3 else 0 := by
  cases does_of_step hl with
  | attach hfree hthread =>
      obtain hthread | hthread | hthread := hthread <;>
        simp [turnsLeft, attach, hthread, hfree, Label.isTurn, Label.isAttach]
  | shutdown => simp [turnsLeft, Label.isTurn, Label.isAttach]
  | start l c hwhich hthread hclient =>
      have hfive : s.turnsLeft = 5 := by
        obtain hthread | hthread := hthread <;> simp [turnsLeft, hthread, hclient]
      have hfour : (s.startWorker c).turnsLeft = 4 := rfl
      rw [hfive, hfour]
      split_ifs <;> omega
  | move l thread hneither hthread =>
      have hless : turnsLeft { s with thread } + 1 ≤ s.turnsLeft := by
        obtain ⟨hold, rfl⟩ | ⟨hold, hfree, rfl⟩ | ⟨hold, rfl⟩ | ⟨hopen, rfl⟩ := hthread
        · simp [turnsLeft, hold, h.1.fresh hold]
        · simp [turnsLeft, hold, hfree]
        · cases hclient : s.attached <;> simp [turnsLeft, hold, hclient]
        · cases hold : s.thread <;> cases hclient : s.attached <;> simp_all [turnsLeft]
      split_ifs <;> omega

theorem exited_step {s s' : WinPipeServer} {l : WinPipeServer.Label} (hexited : s.thread = .exited)
    (hl : s.step l = some s') : s'.thread = .exited ∧ s'.workers = s.workers := by
  cases does_of_step hl with
  | attach hfree hthread => simp [hexited] at hthread
  | shutdown => exact ⟨hexited, rfl⟩
  | start l c hwhich hthread hclient => simp [hexited] at hthread
  | move l thread hneither hthread => simp [hexited] at hthread

/-- A client that attaches in front of `ConnectNamedPipe`, and is let in. -/
def oneMore : List WinPipeServer.Label := [.create true, .attach, .connect true]

theorem runFrom_oneMore {s : WinPipeServer} (hthread : s.thread = .creating)
    (hfree : s.attached = none) (hcalled : 0 < s.shutdowns) : ∃ s',
    winPipeServer.runFrom s oneMore = some s' ∧ s'.thread = .creating ∧ s'.attached = none ∧
      s'.shutdowns = s.shutdowns ∧ s'.late = s.late + 1 := by
  refine ⟨({ s with thread := .created } : WinPipeServer).attach.startWorker s.arrived, ?_, rfl,
    rfl, rfl, if_pos hcalled⟩
  simp [oneMore, System.runFrom, winPipeServer, step, hthread, hfree, attach]

/-- The loop lets in as many late clients as there are. -/
theorem exists_late (n : Nat) : ∃ s, winPipeServer.Reachable s ∧ s.thread = .creating ∧
    s.attached = none ∧ s.shutdowns = 1 ∧ s.late = n := by
  induction n with
  | zero =>
      have hcalled : winPipeServer.step {} .shutdown =
          some { shutdownEvent := true, shutdowns := 1 } := rfl
      exact ⟨_, System.Reachable.init.step hcalled, rfl, rfl, rfl, rfl⟩
  | succ n ih =>
      obtain ⟨s, hs, hthread, hfree, hcalled, rfl⟩ := ih
      obtain ⟨s', hrun, hthread', hfree', hcalled', hlate⟩ :=
        runFrom_oneMore hthread hfree (by omega)
      exact ⟨s', hs.runFrom hrun, hthread', hfree', hcalled'.trans hcalled, hlate⟩

end WinPipeServer

/-! ### The whole loop -/

section Loop

variable {s s' : WinPipeServer} {ls ls' : List WinPipeServer.Label}

open WinPipeServer

/-- **The accept loop on Windows.** However clients and calls of `Shutdown` come between its
steps: the workers are for the clients in the order in which they attached, one for each. Behind
a `Shutdown` the wait ends, and the loop has at most five turns, and starts at most one worker,
more than the clients that still attach make it; but for these there is no bound. -/
theorem winPipeServer_accepts (hrun : winPipeServer.run ls = some s)
    (hrun' : winPipeServer.runFrom s ls' = some s') :
    s.workers ++ s.attached.toList = List.range s.arrived ∧
    (s.thread = .exited → s'.thread = .exited ∧ s'.workers = s.workers) ∧
    (0 < s.shutdowns →
      (s.thread = .waiting → (winPipeServer.step s (.wait true)).isSome) ∧
      s.late ≤ s.lateArrivals + 1 ∧
      ls'.countP Label.isTurn ≤ 5 + 3 * ls'.countP Label.isAttach ∧
      ∀ n, ∃ t, winPipeServer.Reachable t ∧ 0 < t.shutdowns ∧ t.thread ≠ .exited ∧ t.late = n) := by
  have hreach := System.reachable_of_run hrun
  refine ⟨Door.in_order (refinesDoor.reachable hreach), ?_, fun hcalled => ⟨?_, ?_, ?_, ?_⟩⟩
  · intro hexited
    refine System.runFrom_keeps
      (I := fun t : WinPipeServer => t.thread = .exited ∧ t.workers = s.workers) ?_
      ⟨hexited, rfl⟩ hrun'
    intro t l t' ht hl
    obtain ⟨hexited', hworkers⟩ := exited_step ht.1 hl
    exact ⟨hexited', hworkers.trans ht.2⟩
  · intro hwaiting
    have hevent := (inv hreach).event hcalled
    cases hclient : s.attached <;> simp [winPipeServer, step, hwaiting, hclient, hevent]
  · have hbounded := (inv hreach).bounded
    omega
  · have hkeep : ∀ {t l t'}, Inv t ∧ 0 < t.shutdowns → winPipeServer.step t l = some t' →
        Inv t' ∧ 0 < t'.shutdowns := by
      intro t l t' ht hl
      refine ⟨inv_step ht.1 hl, ?_⟩
      cases does_of_step hl with
      | shutdown => exact Nat.succ_pos _
      | attach | start | move => exact ht.2
    have hvariant := System.runFrom_variant Label.isTurn Label.isAttach turnsLeft 3 hkeep
      turnsLeft_step ⟨inv hreach, hcalled⟩ hrun'
    have hfive : s.turnsLeft ≤ 5 := by
      unfold turnsLeft
      split <;> omega
    omega
  · intro n
    obtain ⟨t, ht, hthread, -, hone, hlate⟩ := exists_late n
    exact ⟨t, ht, by omega, by simp [hthread], hlate⟩

end Loop

/-- A client that attached in front of the `Shutdown`. -/
def attachedBefore : WinPipeServer where
  thread := .created
  attached := some 0
  arrived := 1
  shutdownEvent := true
  shutdowns := 1

/-- It is let in, and then the loop is left, in five turns. -/
theorem winPipeServer_accepts_attached :
    attachedBefore.workers ++ attachedBefore.attached.toList = [0] ∧
    (winPipeServer.runFrom attachedBefore [.connect true, .create true, .connect true, .wait true,
      .close]).map (fun s => (s.thread, s.workers)) = some (.exited, [0]) := by
  have hrun : winPipeServer.run [.create true, .attach, .shutdown] = some attachedBefore := rfl
  have hstay : winPipeServer.runFrom attachedBefore [] = some attachedBefore := rfl
  exact ⟨(winPipeServer_accepts hrun hstay).1, rfl⟩

end Dafeng.Endpoint
