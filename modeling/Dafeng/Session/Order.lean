import Dafeng.Library.Ranking
import Dafeng.Session.Commits

/-!
# Dafeng.Session.Order

The order in which commit events are stored.

A client that lets a connection go opens a new one, while the old one's worker
may still hold commits that it has not read. The events of one connection are
stored in the order of their calls, and no event is stored twice; across
connections the order is that of the calls exactly if no worker is overtaken by
that of a later connection.
-/

namespace Dafeng.Session

open Dafeng.Msgpack Dafeng.Protocol Dafeng.Daemon

section Order

variable {mp : Unpacker} {reranker : RerankService} {s s' : State}

/-! ### The order of what is sent -/

/-- Messages are sent in the order of the calls: on one connection, and from one
connection to the next. -/
structure SentInOrder (s : State) : Prop where
  sorted : ∀ c, ((s.conns c).sent.map Sent.callId).Pairwise (· < ·)
  older : ∀ c d, c < d → ∀ x ∈ (s.conns c).sent, ∀ y ∈ (s.conns d).sent, x.callId < y.callId
  recent : ∀ c, s.held = some c → c + 1 = s.nextConn
  latest : ∀ callId call, s.phase = .connecting callId call →
    ∀ c, ∀ x ∈ (s.conns c).sent, x.callId < callId

theorem SentInOrder.mute (h : SentInOrder s) (hmute : Mute s s') : SentInOrder s' where
  sorted c := by
    rw [hmute.sent]
    exact h.sorted c
  older c d := by
    rw [hmute.sent, hmute.sent]
    exact h.older c d
  recent c hheld := by
    rw [hmute.nextConn]
    rcases hmute.held with heq | hnone
    · exact h.recent c (heq ▸ hheld)
    · rw [hnone] at hheld
      cases hheld
  latest callId call hphase c x hx := by
    rw [hmute.sent] at hx
    exact h.latest callId call ((hmute.phase callId call hphase).trans hphase) c x hx

/-- What `start` sends. -/
theorem start_sends (s : State) (c callId : Nat) (call : Call) :
    Mute s (s.start c callId call) ∨
    (s.start c callId call).held = s.held ∧ (s.start c callId call).nextConn = s.nextConn ∧
      (∀ k call', (s.start c callId call).phase ≠ .connecting k call') ∧
      ∀ d, ((s.start c callId call).conns d).sent =
        if d = c then (s.conns c).sent ++ [⟨callId, call.message s.nextRequestId⟩]
        else (s.conns d).sent := by
  unfold State.start
  dsimp only
  split
  · refine .inr ⟨rfl, rfl, by simp, fun d => ?_⟩
    show ((Function.update s.conns c _) d).sent = _
    rw [Function.update_apply]
    split_ifs <;> rfl
  · exact .inl ⟨fun _ => rfl, rfl, rfl, .inl rfl, by simp [State.finish]⟩

/-- A call that is later than all that was sent sends on the newest connection. -/
theorem SentInOrder.start (h : SentInOrder s) {c callId : Nat} {call : Call}
    (hlast : c + 1 = s.nextConn) (hunborn : ∀ d, s.nextConn ≤ d → (s.conns d).sent = [])
    (hnew : ∀ d, ∀ x ∈ (s.conns d).sent, x.callId < callId) :
    SentInOrder (s.start c callId call) := by
  rcases start_sends s c callId call with hmute | ⟨hheld, hnext, hphase, hsent⟩
  · exact h.mute hmute
  · refine ⟨fun d => ?_, fun d e hde x hx y hy => ?_, fun d hd => ?_,
      fun k call' hp => absurd hp (hphase k call')⟩
    · rw [hsent]
      split_ifs
      · rw [List.map_append]
        refine List.pairwise_append.mpr ⟨h.sorted c, List.pairwise_singleton _ _, ?_⟩
        intro k hk k' hk'
        obtain ⟨x, hx, rfl⟩ := List.mem_map.mp hk
        obtain rfl := List.mem_singleton.mp hk'
        exact hnew c x hx
      · exact h.sorted d
    · rw [hsent] at hx hy
      have hec : e ≤ c := by
        by_contra hlt
        rw [if_neg (by omega), hunborn e (by omega)] at hy
        cases hy
      rw [if_neg (by omega)] at hx
      split_ifs at hy with he
      · rcases List.mem_append.mp hy with hy | hy
        · exact h.older d c (by omega) x hx y hy
        · obtain rfl := List.mem_singleton.mp hy
          exact hnew d x hx
      · exact h.older d e hde x hx y hy
    · rw [hheld] at hd
      rw [hnext]
      exact h.recent d hd

theorem SentInOrder.step {l : Label} (hinv : Inv reranker s) (hrec : Records s)
    (h : SentInOrder s) (hs : Step mp reranker s l s') : SentInOrder s' := by
  have hunborn : ∀ d, s.nextConn ≤ d → (s.conns d).sent = [] := by
    intro d hd
    rw [hinv.unborn d hd]
    rfl
  rcases hs.sends with hmute | ⟨call, c, hphase, hheld, rfl⟩ | ⟨call, hphase, hheld, rfl⟩ |
    ⟨callId, call, hphase, rfl⟩
  · exact h.mute hmute
  · have hcalled : SentInOrder { s with calls := s.calls ++ [call] } :=
      ⟨h.sorted, h.older, h.recent, h.latest⟩
    exact hcalled.start (h.recent c hheld) hunborn fun d x hx => hrec.lt hx
  · refine ⟨h.sorted, h.older, h.recent, fun callId call' hp c x hx => ?_⟩
    obtain ⟨rfl, -⟩ := Phase.connecting.inj hp
    exact hrec.lt hx
  · have hsent := fun d => (connected_same hinv d).1
    have hconnected : SentInOrder s.connected := by
      refine ⟨fun d => ?_, fun d e => ?_, fun d hd => ?_, fun callId' call' hp => ?_⟩
      · rw [hsent]
        exact h.sorted d
      · rw [hsent, hsent]
        exact h.older d e
      · obtain rfl := Option.some.inj hd
        rfl
      · simp only [hsent]
        exact h.latest callId' call' hp
    refine hconnected.start rfl (fun d hd => ?_) fun d x hx => ?_
    · rw [hsent]
      exact hunborn d (Nat.le_of_succ_le hd)
    · rw [hsent] at hx
      exact h.latest callId call hphase d x hx

theorem sentInOrder_of_reachable (h : (system mp reranker).Reachable s) : SentInOrder s :=
  h.invariant
    ⟨by simp [system, Conn.unborn], by simp [system, Conn.unborn], by simp [system],
      by simp [system]⟩
    fun hs hord hl => hord.step (inv_of_reachable hs) (records_of_reachable hs) (step_cases hl)

/-! ### The order of what is handed over -/

theorem delivery_of_reachable (h : (system mp reranker).Reachable s) : Delivery s :=
  h.invariant ⟨by simp [system, Conn.unborn], List.nodup_nil, rfl⟩ fun hs hdel hl =>
    hdel.step (inv_of_reachable hs) (step_cases hl)

/-- Each worker hands over in the order in which it serves. -/
theorem handed_inOrder (h : (system mp reranker).Reachable s) :
    s.handed.Pairwise fun x y => x.conn = y.conn → x.pos < y.pos := by
  refine h.invariant
    (I := fun s : State => s.handed.Pairwise fun x y => x.conn = y.conn → x.pos < y.pos)
    List.Pairwise.nil ?_
  intro s l s' hreach hs hl
  rcases (step_cases hl).serves (inv_of_reachable hreach) with
    hsilent | ⟨c, moment, len, msg, rfl, hworker, hup, hdec, rfl⟩
  · rw [hsilent.handed]
    exact hs
  · refine List.pairwise_append.mpr ⟨hs, by cases msg <;> simp [handing], ?_⟩
    intro x hx y hy hconn
    obtain ⟨d, pos, ev⟩ := x
    obtain ⟨ev', -, rfl⟩ := mem_handing.mp hy
    obtain ⟨reply, hserved⟩ := ((delivery_of_reachable hreach).iff d pos ev).mp hx
    obtain rfl : d = c := hconn
    exact (List.getElem?_eq_some_iff.mp hserved).1

/-! ### The order of the calls -/

/-- The call whose event was handed over. -/
def callOf (s : State) (x : Handed) : Option Nat := (s.conns x.conn).sent[x.pos]?.map Sent.callId

/-- The calls of two events are in order. -/
def Earlier (s : State) (x y : Handed) : Prop :=
  ∃ j k, callOf s x = some j ∧ callOf s y = some k ∧ j < k

/-- The event of a `RecordCommit` call. -/
def Call.event : Call → Option CommitEvent
  | .recordCommit ev => some ev
  | _ => none

/-- What is handed over is the event of a call. -/
theorem callOf_handed (hinv : Inv reranker s) (hrec : Records s) (hdel : Delivery s) {x : Handed}
    (hx : x ∈ s.handed) : ∃ k, (s.conns x.conn).sent[x.pos]? = some ⟨k, .commitEvent x.event⟩ ∧
      callOf s x = some k ∧ s.calls[k]? = some (.recordCommit x.event) := by
  obtain ⟨reply, hserved⟩ := (hdel.iff x.conn x.pos x.event).mp hx
  obtain ⟨⟨k, message⟩, hsent, hmsg⟩ := sent_of_served (hinv.conns x.conn) hserved
  obtain ⟨call, id, hcall, hm⟩ := hrec.sent x.conn _ (List.mem_of_getElem? hsent)
  dsimp only at hmsg hcall hm
  rw [hmsg] at hm hsent
  refine ⟨k, hsent, by rw [callOf, hsent]; rfl, ?_⟩
  cases call with
  | recordCommit ev =>
      obtain rfl := Message.commitEvent.inj hm
      exact hcall
  | _ => cases hm

/-- Two events of one connection come from calls in the order of their places. -/
theorem earlier_of_pos (hord : SentInOrder s) {x y : Handed} {j k : Nat}
    (hj : callOf s x = some j) (hk : callOf s y = some k) (hconn : x.conn = y.conn)
    (hlt : x.pos < y.pos) : j < k := by
  unfold callOf at hj hk
  rw [hconn] at hj
  obtain ⟨a, ha, rfl⟩ := Option.map_eq_some_iff.mp hj
  obtain ⟨b, hb, rfl⟩ := Option.map_eq_some_iff.mp hk
  obtain ⟨hxlt, rfl⟩ := List.getElem?_eq_some_iff.mp ha
  obtain ⟨hylt, rfl⟩ := List.getElem?_eq_some_iff.mp hb
  have hsorted := List.pairwise_iff_getElem.mp (hord.sorted y.conn) x.pos y.pos
    (by rwa [List.length_map]) (by rwa [List.length_map]) hlt
  simpa only [List.getElem_map] using hsorted

/-- An event of an earlier connection comes from an earlier call. -/
theorem earlier_of_conn (hord : SentInOrder s) {x y : Handed} {j k : Nat}
    (hj : callOf s x = some j) (hk : callOf s y = some k) (hlt : x.conn < y.conn) : j < k := by
  obtain ⟨a, ha, rfl⟩ := Option.map_eq_some_iff.mp hj
  obtain ⟨b, hb, rfl⟩ := Option.map_eq_some_iff.mp hk
  exact hord.older _ _ hlt a (List.mem_of_getElem? ha) b (List.mem_of_getElem? hb)

/-- **The order of the stored events.** Each event that was handed to the logger is
that of one `RecordCommit` call, no call's event is handed over twice, and the
events of one connection come in the order of their calls. All events do, and are
a subsequence of the calls' events, exactly if no event comes behind one of a
later connection. -/
theorem commits_ordered (h : (system mp reranker).Reachable s) :
    s.server.recorded = s.handed.map Handed.event ∧
    (∀ x ∈ s.handed, ∃ k, callOf s x = some k ∧ s.calls[k]? = some (.recordCommit x.event)) ∧
    (s.handed.Pairwise fun x y => callOf s x ≠ callOf s y) ∧
    (s.handed.Pairwise fun x y => x.conn = y.conn → Earlier s x y) ∧
    (s.handed.Pairwise (Earlier s) ↔ s.handed.Pairwise fun x y => x.conn ≤ y.conn) ∧
    (s.handed.Pairwise (Earlier s) →
      s.server.recorded.Sublist (s.calls.filterMap Call.event)) := by
  have hinv := inv_of_reachable h
  have hrec := records_of_reachable h
  have hdel := delivery_of_reachable h
  have hord := sentInOrder_of_reachable h
  have hcall := fun {x : Handed} (hx : x ∈ s.handed) => callOf_handed hinv hrec hdel hx
  -- on one connection
  have hsame : s.handed.Pairwise fun x y => x.conn = y.conn → Earlier s x y := by
    refine List.Pairwise.imp_of_mem ?_ (handed_inOrder h)
    intro x y hx hy hpos hconn
    obtain ⟨j, -, hj, -⟩ := hcall hx
    obtain ⟨k, -, hk, -⟩ := hcall hy
    exact ⟨j, k, hj, hk, earlier_of_pos hord hj hk hconn (hpos hconn)⟩
  refine ⟨hdel.recorded, fun x hx => ?_, ?_, hsame, ⟨?_, ?_⟩, ?_⟩
  · obtain ⟨k, -, hk⟩ := hcall hx
    exact ⟨k, hk⟩
  · refine List.Pairwise.imp_of_mem ?_ hdel.nodup
    intro x y hx hy hne heq
    obtain ⟨j, hsentx, hj, hcallx⟩ := hcall hx
    obtain ⟨k, hsenty, hk, hcally⟩ := hcall hy
    obtain rfl : j = k := Option.some.inj (hj.symm.trans (heq.trans hk))
    obtain ⟨hconn, hpos⟩ := hrec.unique hsentx hsenty rfl
    have hevent : x.event = y.event := by
      rw [hcallx] at hcally
      exact Call.recordCommit.inj (Option.some.inj hcally)
    apply hne
    cases x
    cases y
    simp_all only
  · refine List.Pairwise.imp ?_
    intro x y h
    obtain ⟨j, k, hj, hk, hlt⟩ := h
    by_contra hgt
    have hback := earlier_of_conn hord hk hj (Nat.lt_of_not_le hgt)
    omega
  · intro hconn
    refine List.Pairwise.imp_of_mem ?_ (hsame.and hconn)
    intro x y hx hy h
    obtain ⟨hsamexy, hle⟩ := h
    rcases Nat.lt_or_eq_of_le hle with hlt | heq
    · obtain ⟨j, -, hj, -⟩ := hcall hx
      obtain ⟨k, -, hk, -⟩ := hcall hy
      exact ⟨j, k, hj, hk, earlier_of_conn hord hj hk hlt⟩
    · exact hsamexy heq
  · intro hearlier
    have hsub : ((s.handed.map fun x => ((callOf s x).getD 0, x.event)).map Prod.snd).Sublist
        (s.calls.filterMap Call.event) := by
      refine sublist_of_increasing (n := 0) ?_ ?_
      · refine List.pairwise_map.mpr (hearlier.imp ?_)
        intro x y h
        obtain ⟨j, k, hj, hk, hlt⟩ := h
        rw [hj, hk]
        exact hlt
      · intro p hp
        obtain ⟨x, hx, rfl⟩ := List.mem_map.mp hp
        obtain ⟨k, -, hk, hcallx⟩ := hcall hx
        refine ⟨Nat.zero_le _, ?_⟩
        rw [hk]
        show s.calls[k - 0]?.bind Call.event = some x.event
        rw [Nat.sub_zero, hcallx]
        rfl
    rw [hdel.recorded]
    simpa only [List.map_map, Function.comp_def] using hsub

end Order

/-- The server is not restarted. -/
def unrestarted (_ : State) : Label → Bool
  | .restart => false
  | _ => true

/-- A commit whose connection is let go before the server reads it, and a second one
that the server reads first. -/
def overtakenRun : List Label :=
  [.call (.recordCommit { code := [103] }), .connect, .write 10, .write 19, .call .ping, .timeout,
    .call (.recordCommit { code := [104] }), .connect, .write 10, .write 19, .serverHeader 1,
    .serverBody 1 ⟨5, 60⟩, .serverHeader 0, .serverBody 0 ⟨5, 60⟩]

/-- The run leads to the second event before the first. -/
theorem overtaken :
    (((system .reference mockReverse).restrict unrestarted).run overtakenRun).map
        (fun s => (s.calls, s.server.recorded, s.handed)) =
      some ([.recordCommit { code := [103] }, .ping, .recordCommit { code := [104] }],
        [{ code := [104] }, { code := [103] }],
        [⟨1, 0, { code := [104] }⟩, ⟨0, 0, { code := [103] }⟩]) := by
  decide

theorem commits_ordered_overtaken :
    ∃ s, (system .reference mockReverse).Reachable s ∧ s.handed.length = 2 ∧
      ¬ s.handed.Pairwise (Earlier s) := by
  obtain ⟨s, hs, hproj⟩ := Option.map_eq_some_iff.mp overtaken
  simp only [Prod.mk.injEq] at hproj
  obtain ⟨-, -, hhanded⟩ := hproj
  have hreach := (System.reachable_of_run hs).of_restrict
  refine ⟨s, hreach, by simp [hhanded], fun hearlier => ?_⟩
  have hconn := (commits_ordered hreach).2.2.2.2.1.mp hearlier
  rw [hhanded] at hconn
  simp at hconn

/-- Without a restart the stored events can be out of the order of the calls. -/
theorem recorded_not_sublist :
    ¬ ∀ s, ((system .reference mockReverse).restrict unrestarted).Reachable s →
      s.server.recorded.Sublist (s.calls.filterMap Call.event) := by
  intro hall
  obtain ⟨s, hs, hproj⟩ := Option.map_eq_some_iff.mp overtaken
  simp only [Prod.mk.injEq] at hproj
  obtain ⟨hcalls, hrecorded, -⟩ := hproj
  have hsub := hall s (System.reachable_of_run hs)
  rw [hcalls, hrecorded] at hsub
  revert hsub
  decide

end Dafeng.Session
