import Dafeng.Session.Invariant

/-!
# Dafeng.Session.Records

The records of a session: they only grow, each message is recorded for the call
that sent it, and no call sends two.
-/

namespace Dafeng.Session

open Dafeng.Msgpack Dafeng.Protocol Dafeng.Daemon

/-! ### The records only grow -/

/-- What was sent and served on a connection stays recorded. -/
structure Conn.Grows (conn conn' : Conn) : Prop where
  sent : conn.sent <+: conn'.sent
  served : conn.served <+: conn'.served

namespace Conn.Grows

variable {conn conn' conn'' : Conn}

theorem of_eq (hsent : conn'.sent = conn.sent) (hserved : conn'.served = conn.served) :
    conn.Grows conn' :=
  ⟨hsent ▸ List.prefix_rfl, hserved ▸ List.prefix_rfl⟩

theorem refl (conn : Conn) : conn.Grows conn := .of_eq rfl rfl

theorem trans (h : conn.Grows conn') (h' : conn'.Grows conn'') : conn.Grows conn'' :=
  ⟨h.sent.trans h'.sent, h.served.trans h'.served⟩

end Conn.Grows

/-- What happened stays recorded. -/
structure Grows (s s' : State) : Prop where
  conns : ∀ c, (s.conns c).Grows (s'.conns c)
  calls : s.calls <+: s'.calls

/-- What is in a list stays at its position when the list grows. -/
theorem prefix_getElem? {α : Type} {xs ys : List α} (h : xs <+: ys) {i : Nat} {x : α}
    (hx : xs[i]? = some x) : ys[i]? = some x := by
  obtain ⟨rest, rfl⟩ := h
  rw [List.getElem?_append_left (List.getElem?_eq_some_iff.mp hx).1]
  exact hx

section Growth

variable {mp : Unpacker} {reranker : RerankService} {s s' : State}

theorem setConn_grows {c : Nat} {f : Conn → Conn} (hf : (s.conns c).Grows (f (s.conns c)))
    (d : Nat) : (s.conns d).Grows ((s.setConn c f).conns d) := by
  rw [setConn_conns]
  split_ifs with hdc
  · subst hdc
    exact hf
  · exact .refl _

/-- A step that records nothing on the connection it changes. -/
theorem setConn_silent {c : Nat} {f : Conn → Conn} (hsent : ∀ conn, (f conn).sent = conn.sent)
    (hserved : ∀ conn, (f conn).served = conn.served) : Grows s (s.setConn c f) :=
  ⟨setConn_grows (.of_eq (hsent _) (hserved _)), List.prefix_rfl⟩

theorem reset_grows (s : State) : Grows s s.reset := by
  unfold State.reset
  cases s.held with
  | none => exact ⟨fun _ => .refl _, List.prefix_rfl⟩
  | some c =>
      have hclose := setConn_silent (s := s) (c := c) (f := Conn.closeClient)
        (fun _ => rfl) (fun _ => rfl)
      exact ⟨hclose.conns, hclose.calls⟩

theorem start_grows (s : State) (c callId : Nat) (call : Call) (d : Nat) :
    (s.conns d).Grows ((s.start c callId call).conns d) := by
  unfold State.start
  dsimp only
  split
  · exact setConn_grows (s := s.takeId call) (f := (·.send _))
      ⟨List.prefix_append _ _, List.prefix_rfl⟩ d
  · exact .refl _

theorem start_calls (s : State) (c callId : Nat) (call : Call) :
    (s.start c callId call).calls = s.calls := by
  unfold State.start
  dsimp only
  split <;> rfl

/-- A new connection has sent and served as little as the one that was not there. -/
theorem connected_same (h : Inv reranker s) (d : Nat) :
    (s.connected.conns d).sent = (s.conns d).sent ∧
      (s.connected.conns d).served = (s.conns d).served := by
  by_cases hd : d = s.nextConn
  · subst hd
    rw [connected_self, h.unborn s.nextConn (Nat.le_refl _)]
    exact ⟨rfl, rfl⟩
  · rw [connected_of_ne s hd]
    exact ⟨rfl, rfl⟩

theorem Step.grows {l : Label} (h : Inv reranker s) (hs : Step mp reranker s l s') :
    Grows s s' := by
  cases hs with
  | @callHeld call c hphase hheld =>
      refine ⟨start_grows { s with calls := s.calls ++ [call] } c _ call, ?_⟩
      rw [start_calls]
      exact List.prefix_append _ _
  | callUnheld hphase hheld => exact ⟨fun _ => .refl _, List.prefix_append _ _⟩
  | @connect callId call hphase =>
      refine ⟨fun d => ?_, by rw [start_calls]; exact List.prefix_rfl⟩
      obtain ⟨hsent, hserved⟩ := connected_same h d
      exact (Conn.Grows.of_eq hsent hserved).trans (start_grows _ _ callId call d)
  | connectFails hphase => exact ⟨fun _ => .refl _, List.prefix_rfl⟩
  | @writeMore a rest c n =>
      obtain ⟨hconns, hcalls⟩ := setConn_silent (s := s) (c := c) (f := (·.push (rest.take n)))
        (fun _ => rfl) (fun _ => rfl)
      exact ⟨hconns, hcalls⟩
  | @writeCommit a rest c n =>
      obtain ⟨hconns, hcalls⟩ := setConn_silent (s := s) (c := c) (f := (·.push (rest.take n)))
        (fun _ => rfl) (fun _ => rfl)
      exact ⟨hconns, hcalls⟩
  | @writeRequest a rest c n =>
      obtain ⟨hconns, hcalls⟩ := setConn_silent (s := s) (c := c) (f := (·.push (rest.take n)))
        (fun _ => rfl) (fun _ => rfl)
      exact ⟨hconns, hcalls⟩
  | @readHeader a c len =>
      obtain ⟨hconns, hcalls⟩ := setConn_silent (s := s) (c := c)
        (f := (·.pull kFrameHeaderBytes)) (fun _ => rfl) (fun _ => rfl)
      exact ⟨hconns, hcalls⟩
  | @readBody a c len reply =>
      obtain ⟨hconns, hcalls⟩ := setConn_silent (s := s) (c := c) (f := (·.pull len.toNat))
        (fun _ => rfl) (fun _ => rfl)
      exact ⟨hconns, hcalls⟩
  | @readReset a c n =>
      obtain ⟨hconns, hcalls⟩ := setConn_silent (s := s) (c := c) (f := (·.pull n))
        (fun _ => rfl) (fun _ => rfl)
      obtain ⟨hconns', hcalls'⟩ := reset_grows (s.setConn c (·.pull n))
      exact ⟨fun d => (hconns d).trans (hconns' d), hcalls.trans hcalls'⟩
  | fail hl hphase =>
      obtain ⟨hconns, hcalls⟩ := reset_grows s
      exact ⟨hconns, hcalls⟩
  | sigpipe hclosed hphase =>
      obtain ⟨hconns, hcalls⟩ := reset_grows s
      exact ⟨hconns, hcalls⟩
  | resetConnection hphase => exact reset_grows s
  | serverHeader => exact setConn_silent (fun _ => rfl) (fun _ => rfl)
  | serverReject => exact setConn_silent (fun _ => rfl) (fun _ => rfl)
  | serverBody =>
      exact ⟨setConn_grows (f := (·.takeBody _ _ _ _)) ⟨List.prefix_rfl, List.prefix_append _ _⟩,
        List.prefix_rfl⟩
  | serverWrite => exact setConn_silent (fun _ => rfl) (fun _ => rfl)
  | serverClose => exact setConn_silent (fun _ => rfl) (fun _ => rfl)
  | restart => exact ⟨fun _ => .of_eq rfl rfl, List.prefix_rfl⟩
  | elapse => exact ⟨fun _ => .refl _, List.prefix_rfl⟩

end Growth

/-! ### Whose message is whose -/

/-- What the records say: a message is sent by the call it is recorded for, and
no call sends two. -/
structure Records (s : State) : Prop where
  sent : ∀ c, ∀ x ∈ (s.conns c).sent,
    ∃ call id, s.calls[x.callId]? = some call ∧ x.message = call.message id
  unique : ∀ {c pos : Nat} {x : Sent} {c' pos' : Nat} {x' : Sent}, (s.conns c).sent[pos]? = some x →
    (s.conns c').sent[pos']? = some x' → x.callId = x'.callId → c = c' ∧ pos = pos'
  connecting : ∀ callId call, s.phase = .connecting callId call →
    s.calls[callId]? = some call ∧ ∀ c, ∀ x ∈ (s.conns c).sent, x.callId ≠ callId

section Bookkeeping

variable {mp : Unpacker} {reranker : RerankService} {s s' : State}

/-- A step that sends nothing and begins no call. -/
theorem Records.of_same (h : Records s) (hsent : ∀ c, (s'.conns c).sent = (s.conns c).sent)
    (hcalls : s'.calls = s.calls)
    (hphase : ∀ callId call, s'.phase = .connecting callId call → s.phase = s'.phase) :
    Records s' where
  sent c x hx := by
    rw [hsent] at hx
    rw [hcalls]
    exact h.sent c x hx
  unique hx hx' hid := by
    rw [hsent] at hx hx'
    exact h.unique hx hx' hid
  connecting callId call hp := by
    rw [hcalls]
    obtain ⟨hcall, hnew⟩ := h.connecting callId call ((hphase callId call hp).trans hp)
    refine ⟨hcall, fun c x hx => ?_⟩
    rw [hsent] at hx
    exact hnew c x hx

theorem Records.lt (h : Records s) {c : Nat} {x : Sent} (hx : x ∈ (s.conns c).sent) :
    x.callId < s.calls.length := by
  obtain ⟨call, id, hcall, -⟩ := h.sent c x hx
  exact (List.getElem?_eq_some_iff.mp hcall).1

/-- A further call is recorded. -/
theorem Records.call (h : Records s) (call : Call) (phase : Phase)
    (hphase : phase = .idle ∨ phase = .connecting s.calls.length call) :
    Records { s with calls := s.calls ++ [call], phase := phase } where
  sent c x hx := by
    obtain ⟨call', id, hcall, hm⟩ := h.sent c x hx
    exact ⟨call', id, by rw [List.getElem?_append_left (h.lt hx)]; exact hcall, hm⟩
  unique := h.unique
  connecting callId call' hp := by
    rcases hphase with rfl | rfl
    · simp at hp
    · obtain ⟨rfl, rfl⟩ := Phase.connecting.inj hp
      exact ⟨by simp, fun c x hx => Nat.ne_of_lt (h.lt hx)⟩

/-- A call that has sent nothing starts to send. -/
theorem Records.start (h : Records s) {c callId : Nat} {call : Call}
    (hcall : s.calls[callId]? = some call)
    (hnew : ∀ d, ∀ x ∈ (s.conns d).sent, x.callId ≠ callId) :
    Records (s.start c callId call) := by
  unfold State.start
  dsimp only
  split
  · -- the connection's list of messages grows by one
    have hget : ∀ {d pos x}, ((s.setConn c (·.send ⟨callId, call.message s.nextRequestId⟩)).conns
        d).sent[pos]? = some x → (s.conns d).sent[pos]? = some x ∨
          d = c ∧ pos = (s.conns c).sent.length ∧ x = ⟨callId, call.message s.nextRequestId⟩ := by
      intro d pos x hx
      rw [setConn_conns] at hx
      split_ifs at hx with hdc
      · subst hdc
        rw [Conn.send, List.getElem?_append] at hx
        split_ifs at hx with hlt
        · exact .inl hx
        · rw [List.getElem?_singleton] at hx
          split_ifs at hx with hzero
          exact .inr ⟨rfl, by omega, (Option.some.inj hx).symm⟩
      · exact .inl hx
    refine ⟨?_, ?_, by simp⟩
    · intro d x hx
      obtain ⟨pos, hpos⟩ := List.mem_iff_getElem?.mp hx
      rcases hget hpos with hold | ⟨-, -, rfl⟩
      · exact h.sent d x (List.mem_of_getElem? hold)
      · exact ⟨call, s.nextRequestId, hcall, rfl⟩
    · intro d pos x d' pos' x' hx hx' hid
      rcases hget hx with hold | ⟨rfl, rfl, rfl⟩ <;> rcases hget hx' with hold' | ⟨rfl, rfl, rfl⟩
      · exact h.unique hold hold' hid
      · exact absurd hid (hnew d x (List.mem_of_getElem? hold))
      · exact absurd hid.symm (hnew d' x' (List.mem_of_getElem? hold'))
      · exact ⟨rfl, rfl⟩
  · exact h.of_same (fun _ => rfl) rfl (by simp [State.finish])

theorem setConn_sent {c : Nat} {f : Conn → Conn} (hf : ∀ conn, (f conn).sent = conn.sent)
    (d : Nat) : ((s.setConn c f).conns d).sent = (s.conns d).sent := by
  rw [setConn_conns]
  split_ifs with hdc
  · rw [hf, hdc]
  · rfl

theorem reset_calls (s : State) : s.reset.calls = s.calls := by
  unfold State.reset
  split <;> rfl

theorem reset_sent (s : State) (d : Nat) : (s.reset.conns d).sent = (s.conns d).sent := by
  unfold State.reset
  cases s.held with
  | none => rfl
  | some c => exact setConn_sent (c := c) (f := Conn.closeClient) (fun _ => rfl) d

/-- A step that sends nothing and begins no call. The connection that was held may
be let go. -/
structure Mute (s s' : State) : Prop where
  sent : ∀ c, (s'.conns c).sent = (s.conns c).sent
  calls : s'.calls = s.calls
  nextConn : s'.nextConn = s.nextConn
  held : s'.held = s.held ∨ s'.held = none
  phase : ∀ callId call, s'.phase = .connecting callId call → s.phase = s'.phase

/-- A step of one connection that sends nothing. -/
theorem Mute.setConn {c : Nat} {f : Conn → Conn} (hf : ∀ conn, (f conn).sent = conn.sent)
    (hconns : s'.conns = (s.setConn c f).conns) (hcalls : s'.calls = s.calls)
    (hnext : s'.nextConn = s.nextConn) (hheld : s'.held = s.held)
    (hphase : ∀ callId call, s'.phase = .connecting callId call → s.phase = s'.phase) :
    Mute s s' := by
  refine ⟨fun d => ?_, hcalls, hnext, .inl hheld, hphase⟩
  rw [hconns]
  exact setConn_sent hf d

theorem reset_nextConn (s : State) : s.reset.nextConn = s.nextConn := by
  unfold State.reset
  split <;> rfl

theorem reset_held (s : State) : s.reset.held = none := by
  unfold State.reset
  cases hheld : s.held with
  | none => exact hheld
  | some c => rfl

theorem reset_phase (s : State) : s.reset.phase = s.phase := by
  unfold State.reset
  split <;> rfl

theorem Mute.reset (s : State) : Mute s s.reset :=
  ⟨reset_sent s, reset_calls s, reset_nextConn s, .inr (reset_held s),
    fun _ _ _ => (reset_phase s).symm⟩

/-- A call that resets and fails. -/
theorem Mute.finish (h : Mute s s') (callId : Nat) (outcome : Outcome) :
    Mute s (s'.finish callId outcome) :=
  ⟨h.sent, h.calls, h.nextConn, h.held, by simp [State.finish]⟩

/-- **What a step sends**: nothing, or the message of a call, on the connection
that is held or on a new one; a call without a connection begins to connect. -/
theorem Step.sends {l : Label} (hs : Step mp reranker s l s') : Mute s s' ∨
    (∃ call c, s.phase = .idle ∧ s.held = some c ∧
      s' = State.start { s with calls := s.calls ++ [call] } c s.calls.length call) ∨
    (∃ call, s.phase = .idle ∧ s.held = none ∧
      s' = { s with calls := s.calls ++ [call], phase := .connecting s.calls.length call }) ∨
    ∃ callId call, s.phase = .connecting callId call ∧
      s' = s.connected.start s.nextConn callId call := by
  cases hs with
  | @callHeld call c hphase hheld => exact .inr (.inl ⟨call, c, hphase, hheld, rfl⟩)
  | @callUnheld call hphase hheld => exact .inr (.inr (.inl ⟨call, hphase, hheld, rfl⟩))
  | @connect callId call hphase => exact .inr (.inr (.inr ⟨callId, call, hphase, rfl⟩))
  | connectFails hphase =>
      exact .inl ⟨fun _ => rfl, rfl, rfl, .inl rfl, by simp [State.finish]⟩
  | writeMore => exact .inl (.setConn (f := (·.push _)) (fun _ => rfl) rfl rfl rfl rfl (by simp))
  | writeCommit =>
      exact .inl (.setConn (f := (·.push _)) (fun _ => rfl) rfl rfl rfl rfl
        (by simp [State.finish]))
  | writeRequest => exact .inl (.setConn (f := (·.push _)) (fun _ => rfl) rfl rfl rfl rfl (by simp))
  | readHeader => exact .inl (.setConn (f := (·.pull _)) (fun _ => rfl) rfl rfl rfl rfl (by simp))
  | readBody =>
      exact .inl (.setConn (f := (·.pull _)) (fun _ => rfl) rfl rfl rfl rfl
        (by simp [State.finish]))
  | @readReset a c n =>
      obtain ⟨hsent, hcalls, hnext, hheld, -⟩ := Mute.reset (s.setConn c (·.pull n))
      refine .inl ⟨fun d => (hsent d).trans ?_, hcalls, hnext, hheld, by simp [State.finish]⟩
      exact setConn_sent (f := (·.pull n)) (fun _ => rfl) d
  | fail hl hphase => exact .inl ((Mute.reset s).finish _ _)
  | sigpipe hclosed hphase =>
      obtain ⟨hsent, hcalls, hnext, hheld, -⟩ := Mute.reset s
      exact .inl ⟨hsent, hcalls, hnext, hheld, by simp⟩
  | resetConnection hphase => exact .inl (Mute.reset s)
  | serverHeader =>
      exact .inl (.setConn (f := Conn.takeHeader) (fun _ => rfl) rfl rfl rfl rfl fun _ _ _ => rfl)
  | serverReject =>
      exact .inl (.setConn (f := (·.rejectBody _)) (fun _ => rfl) rfl rfl rfl rfl fun _ _ _ => rfl)
  | serverBody =>
      exact .inl (.setConn (f := (·.takeBody _ _ _ _)) (fun _ => rfl) rfl rfl rfl rfl
        fun _ _ _ => rfl)
  | serverWrite =>
      exact .inl (.setConn (f := (·.putReply _ _ _)) (fun _ => rfl) rfl rfl rfl rfl
        fun _ _ _ => rfl)
  | serverClose =>
      exact .inl (.setConn (f := (·.closeWorker _)) (fun _ => rfl) rfl rfl rfl rfl
        fun _ _ _ => rfl)
  | restart => exact .inl ⟨fun _ => rfl, rfl, rfl, .inl rfl, fun _ _ _ => rfl⟩
  | elapse => exact .inl ⟨fun _ => rfl, rfl, rfl, .inl rfl, fun _ _ _ => rfl⟩

theorem Records.step {l : Label} (hinv : Inv reranker s) (h : Records s)
    (hs : Step mp reranker s l s') : Records s' := by
  rcases hs.sends with hmute | ⟨call, c, hphase, hheld, rfl⟩ | ⟨call, hphase, hheld, rfl⟩ |
    ⟨callId, call, hphase, rfl⟩
  · exact h.of_same hmute.sent hmute.calls hmute.phase
  · have hcalled := h.call call s.phase (.inl hphase)
    exact hcalled.start (by simp) fun d x hx => Nat.ne_of_lt (h.lt hx)
  · exact h.call _ _ (.inr rfl)
  · obtain ⟨hcall, hnew⟩ := h.connecting callId call hphase
    have hsent := fun d => (connected_same hinv d).1
    have hrec : Records s.connected := h.of_same hsent rfl fun _ _ _ => rfl
    refine hrec.start hcall fun d x hx => ?_
    rw [hsent] at hx
    exact hnew d x hx

end Bookkeeping

theorem records_of_reachable {mp : Unpacker} {reranker : RerankService} {s : State}
    (h : (system mp reranker).Reachable s) : Records s :=
  h.invariant
    ⟨by simp [system, Conn.unborn], by simp [system, Conn.unborn], by simp [system]⟩
    fun hs hrec hl => hrec.step (inv_of_reachable hs) (step_cases hl)

/-! ### The end of the process -/

section Killed

variable {mp : Unpacker} {reranker : RerankService} {s s' : State}

theorem start_phase (s : State) (c callId k : Nat) (call : Call) :
    (s.start c callId call).phase ≠ .killed k := by
  unfold State.start
  dsimp only
  split <;> simp [State.finish]

/-- The process ends in a `write` to a connection whose worker has ended. -/
theorem Step.killed {l : Label} (hs : Step mp reranker s l s') {k : Nat}
    (hphase' : s'.phase = .killed k) :
    s'.calls = s.calls ∧ (s.phase = .killed k ∨
      s.heldClosed = true ∧ ∃ a rest, s.phase = .writing a rest ∧ a.callId = k) := by
  cases hs with
  | callHeld hphase hheld => exact absurd hphase' (start_phase _ _ _ _ _)
  | connect hphase => exact absurd hphase' (start_phase _ _ _ _ _)
  | sigpipe hclosed hphase =>
      exact ⟨reset_calls s, .inr ⟨hclosed, _, _, hphase, Phase.killed.inj hphase'⟩⟩
  | resetConnection hphase =>
      rw [reset_phase, hphase] at hphase'
      cases hphase'
  | callUnheld | connectFails | writeMore | writeCommit | writeRequest | readHeader | readBody
  | readReset | fail => cases hphase'
  | _ => exact ⟨rfl, .inl hphase'⟩

end Killed

end Dafeng.Session
