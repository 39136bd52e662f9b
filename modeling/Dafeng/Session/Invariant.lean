import Dafeng.Session.Talk

/-!
# Dafeng.Session.Invariant

The invariant of the whole session: every connection keeps its own, and the one
the client holds keeps the stronger one.
-/

namespace Dafeng.Session

open Dafeng.Msgpack Dafeng.Protocol Dafeng.Daemon

/-- A call that reads or writes holds a connection. -/
structure Inv (reranker : RerankService) (s : State) : Prop where
  conns : ∀ c, (s.conns c).Ok reranker
  held : ∀ c, s.held = some c → c < s.nextConn ∧ (s.conns c).Held s.phase
  busy : s.held = none → s.phase.active = none
  unborn : ∀ c, s.nextConn ≤ c → s.conns c = .unborn

section Preservation

variable {mp : Unpacker} {reranker : RerankService} {s s' : State} {c : Nat} {f : Conn → Conn}

theorem setConn_conns (s : State) (c d : Nat) (f : Conn → Conn) :
    (s.setConn c f).conns d = if d = c then f (s.conns c) else s.conns d :=
  Function.update_apply _ _ _ _

@[simp] theorem setConn_self (s : State) (c : Nat) (f : Conn → Conn) :
    (s.setConn c f).conns c = f (s.conns c) :=
  Function.update_self _ _ _

theorem setConn_of_ne {d : Nat} (s : State) (f : Conn → Conn) (h : d ≠ c) :
    (s.setConn c f).conns d = s.conns d :=
  Function.update_of_ne h _ _

theorem forall_setConn {P : Conn → Prop} (h : ∀ d, P (s.conns d)) (hf : P (f (s.conns c)))
    (d : Nat) :
    P ((s.setConn c f).conns d) := by
  rw [setConn_conns]
  split_ifs
  · exact hf
  · exact h d

/-- A step of a worker, or of the client's end, on one connection. -/
theorem Inv.setConn (h : Inv reranker s) (hok : (f (s.conns c)).Ok reranker)
    (hheld : (s.conns c).Held s.phase → (f (s.conns c)).Held s.phase)
    (hborn : s.nextConn ≤ c → f .unborn = .unborn) : Inv reranker (s.setConn c f) where
  conns := forall_setConn h.conns hok
  held d hd := by
    obtain ⟨hlt, hHeld⟩ := h.held d hd
    refine ⟨hlt, ?_⟩
    rw [setConn_conns]
    split_ifs with hdc
    · subst hdc
      exact hheld hHeld
    · exact hHeld
  busy := h.busy
  unborn d hd := by
    have hu := h.unborn d hd
    rw [setConn_conns]
    split_ifs with hdc
    · subst hdc
      rw [hu]
      exact hborn hd
    · exact hu

/-- A step of the active call on the connection it holds. -/
theorem Inv.client (h : Inv reranker s) (phase : Phase) (hheld : s.held = some c)
    (hok : (f (s.conns c)).Ok reranker) (hHeld : (f (s.conns c)).Held phase) :
    Inv reranker { s.setConn c f with phase := phase } where
  conns := forall_setConn h.conns hok
  held d hd := by
    obtain rfl : c = d := Option.some.inj (hheld.symm.trans hd)
    refine ⟨(h.held c hheld).1, ?_⟩
    rw [show State.conns { s.setConn c f with phase := phase } = (s.setConn c f).conns from rfl,
      setConn_self]
    exact hHeld
  busy hnone := by
    have hnone' : s.held = none := hnone
    simp [hheld] at hnone'
  unborn d hd := by
    have hlt := (h.held c hheld).1
    have hdn : s.nextConn ≤ d := hd
    exact (setConn_of_ne s f (by omega)).trans (h.unborn d hd)

/-- A state that differs only in what the invariant does not read. -/
theorem Inv.of_eq (h : Inv reranker s) (hconns : s'.conns = s.conns) (hheld : s'.held = s.held)
    (hphase : s'.phase = s.phase) (hnext : s'.nextConn = s.nextConn) : Inv reranker s' where
  conns := by rw [hconns]; exact h.conns
  held := by rw [hconns, hheld, hphase, hnext]; exact h.held
  busy := by rw [hheld, hphase]; exact h.busy
  unborn := by rw [hconns, hnext]; exact h.unborn

theorem setConn_setConn (s : State) (c : Nat) (f g : Conn → Conn) :
    (s.setConn c f).setConn c g = s.setConn c (fun conn => g (f conn)) := by
  simp [State.setConn]

theorem connected_self (s : State) :
    s.connected.conns s.nextConn = { worker := .awaitHeader s.now } :=
  Function.update_self _ _ _

theorem connected_of_ne {d : Nat} (s : State) (h : d ≠ s.nextConn) :
    s.connected.conns d = s.conns d :=
  Function.update_of_ne h _ _

theorem reset_of_held (hheld : s.held = some c) :
    s.reset = { s.setConn c Conn.closeClient with held := none } := by
  rw [State.reset, hheld]

theorem reset_setConn (hheld : s.held = some c) (f : Conn → Conn) :
    (s.setConn c f).reset =
      { s.setConn c (fun conn => (f conn).closeClient) with held := none } := by
  rw [← setConn_setConn s c f Conn.closeClient]
  exact reset_of_held hheld

/-- Once no call is active, the client may hold no connection. -/
theorem Inv.release (h : Inv reranker s) (hheld : s.held = some c)
    (hok : (f (s.conns c)).Ok reranker) (phase : Phase) (hphase : phase.active = none) :
    Inv reranker { s.setConn c f with held := none, phase := phase } where
  conns := forall_setConn h.conns hok
  held := by simp
  busy _ := hphase
  unborn d hd := by
    have hlt := (h.held c hheld).1
    have hdn : s.nextConn ≤ d := hd
    exact (setConn_of_ne s f (by omega)).trans (h.unborn d hd)

theorem Inv.reset (h : Inv reranker s) (phase : Phase) (hphase : phase.active = none) :
    Inv reranker { s.reset with phase := phase } := by
  unfold State.reset
  cases hheld : s.held with
  | none => exact ⟨h.conns, by simp [hheld], fun _ => hphase, h.unborn⟩
  | some c => exact (h.release hheld (h.conns c).closeClient phase hphase).of_eq rfl rfl rfl rfl

/-- A call that holds a quiet connection starts to write on it. -/
theorem Inv.start {callId : Nat} {call : Call} (hconns : ∀ c, (s.conns c).Ok reranker)
    (hheld : s.held = some c) (hlt : c < s.nextConn) (hidle : (s.conns c).Held .idle)
    (hunborn : ∀ c, s.nextConn ≤ c → s.conns c = .unborn) :
    Inv reranker (s.start c callId call) := by
  have hquiet : Inv reranker { s.takeId call with phase := .idle } :=
    ⟨hconns, fun d hd => by
      obtain rfl : c = d := Option.some.inj (hheld.symm.trans hd)
      exact ⟨hlt, hidle⟩, fun _ => rfl, hunborn⟩
  have hcall : State.held { s.takeId call with phase := .idle } = some c := hheld
  unfold State.start
  by_cases henc : encodable (Active.message ⟨callId, call, s.nextRequestId⟩)
  · rw [if_pos henc]
    exact (hquiet.client (f := (·.send ⟨callId, _⟩)) _ hcall ((hconns c).send hidle.upward henc)
      (hidle.send (hconns c) (a := ⟨callId, call, s.nextRequestId⟩))).of_eq rfl rfl rfl rfl
  · rw [if_neg henc]
    exact hquiet.of_eq rfl rfl rfl rfl

/-- A served message got what it wants. -/
theorem dispatch_servedWell (moment : Moment) (st : ServerState) {msg : Message}
    (hm : encodable msg) :
    Conn.ServedWell reranker msg (dispatch reranker moment st msg).2 := by
  cases hreply : (dispatch reranker moment st msg).2 with
  | none => exact dispatch_silent_iff.mp hreply
  | some reply => exact ⟨(dispatch_answers hreply).2, dispatch_encodable hm hreply⟩

/-- **Preservation.** Every step keeps the invariant. -/
theorem Inv.step {l : Label} (h : Inv reranker s) (hs : Step mp reranker s l s') :
    Inv reranker s' := by
  cases hs with
  | @callHeld call c hphase hheld =>
      obtain ⟨hlt, hHeld⟩ := h.held c hheld
      rw [hphase] at hHeld
      exact .start h.conns hheld hlt hHeld h.unborn
  | callUnheld hphase hheld => exact ⟨h.conns, by simp [hheld], fun _ => rfl, h.unborn⟩
  | connect hphase =>
      refine .start ?_ rfl (Nat.lt_succ_self _) ?_ ?_
      · exact forall_setConn (f := fun _ => { worker := .awaitHeader s.now }) h.conns
          (.fresh reranker rfl rfl rfl (by simp) (by simp))
      · rw [connected_self]
        exact .fresh
      · intro d hd
        have hdn : s.nextConn + 1 ≤ d := hd
        exact (connected_of_ne s (by omega)).trans (h.unborn d (by omega))
  | connectFails hphase =>
      refine ⟨h.conns, fun c hc => ?_, fun _ => rfl, h.unborn⟩
      have htalk := (h.held c hc).2.talk
      rw [hphase] at htalk
      exact htalk.elim
  | @writeMore a rest c n hphase hheld hopen hrest =>
      obtain ⟨-, hHeld⟩ := h.held c hheld
      rw [hphase] at hHeld
      refine h.client _ hheld ((h.conns c).push (rest.drop n) ?_) (hHeld.push hrest)
      rw [List.take_append_drop]
      exact hHeld.upward
  | @writeCommit a rest c n hphase hheld hopen hrest hcommit =>
      obtain ⟨-, hHeld⟩ := h.held c hheld
      rw [hphase] at hHeld
      refine (h.client (f := (·.push (rest.take n))) .idle hheld
        ((h.conns c).push (rest.drop n) ?_) (hHeld.push_commit hrest hcommit)).of_eq
        rfl rfl rfl rfl
      rw [List.take_append_drop]
      exact hHeld.upward
  | @writeRequest a rest c n hphase hheld hopen hrest hcommit =>
      obtain ⟨-, hHeld⟩ := h.held c hheld
      rw [hphase] at hHeld
      refine h.client _ hheld ((h.conns c).push (rest.drop n) ?_)
        (hHeld.push_request hrest hcommit)
      rw [List.take_append_drop]
      exact hHeld.upward
  | @readHeader a c len hphase hheld hdown hlen =>
      obtain ⟨-, hHeld⟩ := h.held c hheld
      rw [hphase] at hHeld
      exact h.client _ hheld (h.conns c).pull (hHeld.pull_header hdown hlen)
  | @readBody a c len reply hphase hheld hdown hdec haccepts =>
      obtain ⟨-, hHeld⟩ := h.held c hheld
      rw [hphase] at hHeld
      exact (h.client (f := (·.pull len.toNat)) .idle hheld (h.conns c).pull
        (hHeld.pull_body (h.conns c) hdown hdec)).of_eq rfl rfl rfl rfl
  | @readReset a c n l hl hphase hheld =>
      rw [reset_setConn hheld]
      exact (h.release (f := fun conn => (conn.pull n).closeClient) hheld
        (h.conns c).pull.closeClient .idle rfl).of_eq rfl rfl rfl rfl
  | fail hl hphase => exact (h.reset .idle rfl).of_eq rfl rfl rfl rfl
  | sigpipe hclosed hphase => exact h.reset _ rfl
  | resetConnection hphase =>
      refine (h.reset .idle rfl).of_eq rfl rfl ?_ rfl
      rw [← hphase]
      unfold State.reset
      split <;> rfl
  | @serverHeader c since hworker hup =>
      refine h.setConn ((h.conns c).takeHeader hworker hup)
        (fun hHeld => hHeld.takeHeader hworker hup) fun hc => ?_
      simp [h.unborn c hc, Conn.unborn] at hworker
  | @serverReject c len moment hworker hup hdec =>
      refine h.setConn (h.conns c).rejectBody (fun hHeld => hHeld.rejectBody) fun hc => ?_
      simp [h.unborn c hc, Conn.unborn] at hworker
  | @serverBody c len moment msg hworker hup hdec =>
      refine (h.setConn (f := (·.takeBody len.toNat s.now msg
        (dispatch reranker moment s.server msg).2)) (c := c) ?_ ?_ ?_).of_eq rfl rfl rfl rfl
      · exact (h.conns c).takeBody hworker hup hdec (dispatch_servedWell moment s.server)
      · exact fun hHeld => hHeld.takeBody (h.conns c) hworker hup hdec
      · intro hc
        simp [h.unborn c hc, Conn.unborn] at hworker
  | @serverWrite c n rest hworker hopen =>
      refine h.setConn ((h.conns c).putReply hworker)
        (fun hHeld => hHeld.putReply hworker) fun hc => ?_
      simp [h.unborn c hc, Conn.unborn] at hworker
  | @serverClose c why =>
      exact h.setConn (h.conns c).closeWorker (fun hHeld => hHeld.closeWorker) fun _ => rfl
  | restart =>
      refine ⟨fun c => (h.conns c).closeWorker, fun c hc => ?_, h.busy, fun c hc => ?_⟩
      · obtain ⟨hlt, hHeld⟩ := h.held c hc
        exact ⟨hlt, hHeld.closeWorker⟩
      · dsimp only
        rw [h.unborn c hc]
        rfl
  | elapse => exact h.of_eq rfl rfl rfl rfl

end Preservation

/-- The invariant holds in every reachable state. -/
theorem inv_of_reachable {mp : Unpacker} {reranker : RerankService} {s : State}
    (h : (system mp reranker).Reachable s) : Inv reranker s :=
  h.invariant
    ⟨fun _ => .fresh reranker rfl rfl rfl (by simp [system, Conn.unborn])
      (by simp [system, Conn.unborn]), by simp [system], fun _ => rfl, fun _ _ => rfl⟩
    fun _ hinv hl => hinv.step (step_cases hl)

end Dafeng.Session
