import Dafeng.Daemon.Server
import Dafeng.Library.Containers
import Dafeng.Library.Transition

/-!
# Dafeng.Daemon.Counters

The counters of a server, one atomic access at a time.

A worker that has a rerank answer goes through an update section: two additions,
a load of the maximum, a loop of compare-and-exchange that may fail spuriously,
and a store of the model version. A thread in `GetStats` loads one counter after
another. The steps of all of them interleave.
-/

namespace Dafeng.Daemon.Counters

open Dafeng.Protocol

/-! ### The update section -/

/-- Where a worker stands in its update section, with the answer it counts. -/
inductive Worker
  | outside
  /-- before `rerank_count_.fetch_add` -/
  | addCount (resp : RerankResponse)
  /-- before `rerank_latency_sum_us_.fetch_add` -/
  | addSum (resp : RerankResponse)
  /-- before the load of `rerank_latency_max_us_` -/
  | loadMax (resp : RerankResponse)
  /-- at the head of the loop, with its local maximum -/
  | exchange (resp : RerankResponse) (prevMax : UInt32)
  /-- before the store of `rerank_model_version_` -/
  | storeVersion (resp : RerankResponse)
  deriving DecidableEq, Repr

/-- The next access of a worker. A `compare_exchange_weak` that fails loads the
maximum again, and it may fail where the maximum is as expected. -/
def Worker.step (st : ServerState) (spurious : Bool) : Worker → Option (ServerState × Worker)
  | .outside => none
  | .addCount resp => some ({ st with rerankCount := st.rerankCount + 1 }, .addSum resp)
  | .addSum resp =>
    some ({ st with rerankLatencySumUs := st.rerankLatencySumUs + resp.latencyUs.toUInt64 },
      .loadMax resp)
  | .loadMax resp => some (st, .exchange resp st.rerankLatencyMaxUs)
  | .exchange resp prevMax =>
    if prevMax < resp.latencyUs then
      if st.rerankLatencyMaxUs = prevMax ∧ spurious = false then
        some ({ st with rerankLatencyMaxUs := resp.latencyUs }, .storeVersion resp)
      else some (st, .exchange resp st.rerankLatencyMaxUs)
    else some (st, .storeVersion resp)
  | .storeVersion resp => some ({ st with rerankModelVersion := resp.modelVersion }, .outside)

/-! ### Snapshots -/

/-- The fields of a `StatsResponse` that `GetStats` fills. -/
inductive Field
  | rerankCount | pingCount | commitCount | errorCount | rerankLatencySumUs | rerankLatencyMaxUs
  | rerankModelVersion | uptimeSec
  deriving DecidableEq, Repr

/-- The loads of `GetStats`, in its order. -/
def loads : List Field :=
  [.rerankCount, .pingCount, .commitCount, .errorCount, .rerankLatencySumUs, .rerankLatencyMaxUs,
    .rerankModelVersion, .uptimeSec]

theorem mem_loads (f : Field) : f ∈ loads := by
  cases f <;> decide

/-- Fill a field from what is there now. -/
def Field.load (now s : StatsResponse) : Field → StatsResponse
  | .rerankCount => { s with rerankCount := now.rerankCount }
  | .pingCount => { s with pingCount := now.pingCount }
  | .commitCount => { s with commitCount := now.commitCount }
  | .errorCount => { s with errorCount := now.errorCount }
  | .rerankLatencySumUs => { s with rerankLatencySumUs := now.rerankLatencySumUs }
  | .rerankLatencyMaxUs => { s with rerankLatencyMaxUs := now.rerankLatencyMaxUs }
  | .rerankModelVersion => { s with rerankModelVersion := now.rerankModelVersion }
  | .uptimeSec => { s with uptimeSec := now.uptimeSec }

/-- The value of a counter. The model version is no counter. -/
def Field.value (s : StatsResponse) : Field → Nat
  | .rerankCount => s.rerankCount.toNat
  | .pingCount => s.pingCount.toNat
  | .commitCount => s.commitCount.toNat
  | .errorCount => s.errorCount.toNat
  | .rerankLatencySumUs => s.rerankLatencySumUs.toNat
  | .rerankLatencyMaxUs => s.rerankLatencyMaxUs.toNat
  | .rerankModelVersion => 0
  | .uptimeSec => s.uptimeSec.toNat

theorem Field.value_load (now s : StatsResponse) (f g : Field) :
    g.value (f.load now s) = if g = f then g.value now else g.value s := by
  cases f <;> cases g <;> rfl

/-- Loads that nothing interrupts read one state. -/
theorem foldl_load_getStats (st : ServerState) (now : Moment) :
    loads.foldl (fun s f => f.load (getStats st now) s) {} = getStats st now := rfl

/-- A thread in `GetStats`: the snapshots that were there when it began, the loads
it has yet to do, and what it has so far. -/
structure Reader where
  before : List StatsResponse
  todo : List Field := loads
  stats : StatsResponse := {}
  deriving DecidableEq, Repr

/-! ### The system -/

/-- What the additions come to, without a bound. -/
structure Totals where
  reranks : Nat := 0
  pings : Nat := 0
  commits : Nat := 0
  errors : Nat := 0
  latencyUs : Nat := 0
  deriving DecidableEq, Repr

/-- The counters with the threads that use them. The ghosts are the latencies of
the requests in the order they entered their sections, the totals, the snapshots
that were taken, and the pairs of snapshots taken one after the other. -/
structure State where
  shared : ServerState := {}
  uptimeSec : UInt64 := 0
  workers : List Worker := []
  readers : List Reader := []
  handled : List UInt32 := []
  totals : Totals := {}
  taken : List StatsResponse := []
  successive : List (StatsResponse × StatsResponse) := []
  deriving DecidableEq, Repr

inductive Label
  /-- a connection gets its worker -/
  | accept
  /-- a worker has an answer to a rerank request -/
  | begin (w : Nat) (resp : RerankResponse)
  /-- the next access of a worker -/
  | access (w : Nat) (spurious : Bool)
  | ping
  | commit (ev : CommitEvent)
  | error
  /-- a thread calls `GetStats` -/
  | call
  /-- the next load of a reader -/
  | load (r : Nat)
  /-- a reader returns its snapshot -/
  | answer (r : Nat)
  /-- the steady clock shows this time -/
  | elapse (uptimeSec : UInt64)
  deriving DecidableEq, Repr

/-- What `GetStats` would find now. -/
def State.now (s : State) : StatsResponse := getStats s.shared ⟨0, s.uptimeSec⟩

/-- What the next access of a worker adds. -/
def Worker.addTo (t : Totals) : Worker → Totals
  | .addCount _ => { t with reranks := t.reranks + 1 }
  | .addSum resp => { t with latencyUs := t.latencyUs + resp.latencyUs.toNat }
  | _ => t

def step (s : State) : Label → Option State
  | .accept => some { s with workers := s.workers ++ [.outside] }
  | .begin w resp =>
    if s.workers[w]? = some .outside then
      some { s with
        workers := s.workers.set w (.addCount resp)
        handled := s.handled ++ [resp.latencyUs] }
    else none
  | .access w spurious => do
    let k ← s.workers[w]?
    let (shared, k') ← k.step s.shared spurious
    some { s with shared, workers := s.workers.set w k', totals := k.addTo s.totals }
  | .ping => some { s with
      shared := { s.shared with pingCount := s.shared.pingCount + 1 }
      totals := { s.totals with pings := s.totals.pings + 1 } }
  | .commit ev => some { s with
      shared := { s.shared with
        recorded := s.shared.recorded ++ [ev]
        commitCount := s.shared.commitCount + 1 }
      totals := { s.totals with commits := s.totals.commits + 1 } }
  | .error => some { s with
      shared := { s.shared with errorCount := s.shared.errorCount + 1 }
      totals := { s.totals with errors := s.totals.errors + 1 } }
  | .call => some { s with readers := s.readers ++ [{ before := s.taken }] }
  | .load r => do
    let rd ← s.readers[r]?
    match rd.todo with
    | [] => none
    | f :: todo =>
      some { s with readers := s.readers.set r { rd with todo, stats := f.load s.now rd.stats } }
  | .answer r => do
    let rd ← s.readers[r]?
    if rd.todo = [] then
      some { s with
        readers := s.readers.eraseIdx r
        taken := s.taken ++ [rd.stats]
        successive := s.successive ++ rd.before.map (·, rd.stats) }
    else none
  | .elapse uptimeSec => if s.uptimeSec ≤ uptimeSec then some { s with uptimeSec } else none

/-- The counters of a server. -/
def system : System State Label := ⟨{}, step⟩

/-! ### What is pending -/

/-- What a worker has yet to add to the count. -/
def Worker.toCount : Worker → Nat
  | .addCount _ => 1
  | _ => 0

/-- What a worker has yet to add to the sum. -/
def Worker.toSum : Worker → Nat
  | .addCount resp | .addSum resp => resp.latencyUs.toNat
  | _ => 0

/-- The latency that a worker has yet to raise the maximum to. -/
def Worker.toMax : Worker → Option UInt32
  | .addCount resp | .addSum resp | .loadMax resp | .exchange resp _ => some resp.latencyUs
  | _ => none

/-- The exact value of a counter, which the shared one has modulo 2^64. -/
def State.total (s : State) : Field → Nat
  | .rerankCount => s.totals.reranks
  | .pingCount => s.totals.pings
  | .commitCount => s.totals.commits
  | .errorCount => s.totals.errors
  | .rerankLatencySumUs => s.totals.latencyUs
  | .rerankLatencyMaxUs => s.shared.rerankLatencyMaxUs.toNat
  | .rerankModelVersion => 0
  | .uptimeSec => s.uptimeSec.toNat

theorem access_cases {s s' : State} {w : Nat} {spurious : Bool}
    (h : system.step s (.access w spurious) = some s') :
    ∃ k k' shared, s.workers[w]? = some k ∧ k.step s.shared spurious = some (shared, k') ∧
      s' = { s with shared, workers := s.workers.set w k', totals := k.addTo s.totals } := by
  change (s.workers[w]?.bind fun k => (k.step s.shared spurious).bind fun p =>
    some { s with shared := p.1, workers := s.workers.set w p.2, totals := k.addTo s.totals }) =
      some s' at h
  obtain ⟨k, hk, h⟩ := Option.bind_eq_some_iff.mp h
  obtain ⟨⟨shared, k'⟩, hstep, h⟩ := Option.bind_eq_some_iff.mp h
  exact ⟨k, k', shared, hk, hstep, (Option.some.inj h).symm⟩

theorem begin_cases {s s' : State} {w : Nat} {resp : RerankResponse}
    (h : system.step s (.begin w resp) = some s') : s.workers[w]? = some .outside ∧
      s' = { s with
        workers := s.workers.set w (.addCount resp)
        handled := s.handled ++ [resp.latencyUs] } := by
  simp only [system, step] at h
  split_ifs at h with houtside
  exact ⟨houtside, (Option.some.inj h).symm⟩

theorem load_cases {s s' : State} {r : Nat} (h : system.step s (.load r) = some s') :
    ∃ rd f todo, s.readers[r]? = some rd ∧ rd.todo = f :: todo ∧
      s' = { s with
        readers := s.readers.set r { rd with todo, stats := f.load s.now rd.stats } } := by
  simp only [system, step] at h
  obtain ⟨rd, hrd, h⟩ := Option.bind_eq_some_iff.mp h
  cases htodo : rd.todo with
  | nil => simp [htodo] at h
  | cons f todo =>
      rw [htodo] at h
      exact ⟨rd, f, todo, hrd, htodo, (Option.some.inj h).symm⟩

theorem answer_cases {s s' : State} {r : Nat} (h : system.step s (.answer r) = some s') :
    ∃ rd, s.readers[r]? = some rd ∧ rd.todo = [] ∧
      s' = { s with
        readers := s.readers.eraseIdx r
        taken := s.taken ++ [rd.stats]
        successive := s.successive ++ rd.before.map (·, rd.stats) } := by
  simp only [system, step] at h
  obtain ⟨rd, hrd, h⟩ := Option.bind_eq_some_iff.mp h
  split_ifs at h with htodo
  exact ⟨rd, hrd, htodo, (Option.some.inj h).symm⟩

theorem elapse_cases {s s' : State} {uptimeSec : UInt64}
    (h : system.step s (.elapse uptimeSec) = some s') :
    s.uptimeSec ≤ uptimeSec ∧ s' = { s with uptimeSec } := by
  simp only [system, step] at h
  split_ifs at h with hle
  exact ⟨hle, (Option.some.inj h).symm⟩

/-! ### Counts and sums -/

theorem toNat_fetchAdd {a b : UInt64} {total : Nat} (h : a.toNat = total % 2 ^ 64) :
    (a + b).toNat = (total + b.toNat) % 2 ^ 64 := by
  rw [UInt64.toNat_add, h, Nat.mod_add_mod]

/-- The loop of the maximum: the exchange succeeds, or the maximum is loaded
again, or the loop is left with a maximum that is large enough. -/
theorem Worker.exchange_cases {st st' : ServerState} {spurious : Bool} {resp : RerankResponse}
    {prevMax : UInt32} {k' : Worker}
    (h : (Worker.exchange resp prevMax).step st spurious = some (st', k')) :
    (st.rerankLatencyMaxUs < resp.latencyUs ∧
      st' = { st with rerankLatencyMaxUs := resp.latencyUs } ∧ k' = .storeVersion resp) ∨
    (st' = st ∧ k' = .exchange resp st.rerankLatencyMaxUs) ∨
    (¬ prevMax < resp.latencyUs ∧ st' = st ∧ k' = .storeVersion resp) := by
  simp only [Worker.step] at h
  split_ifs at h with hless hswap
  · obtain ⟨rfl, rfl⟩ := Prod.mk.inj (Option.some.inj h)
    exact .inl ⟨hswap.1 ▸ hless, rfl, rfl⟩
  · obtain ⟨rfl, rfl⟩ := Prod.mk.inj (Option.some.inj h)
    exact .inr (.inl ⟨rfl, rfl⟩)
  · obtain ⟨rfl, rfl⟩ := Prod.mk.inj (Option.some.inj h)
    exact .inr (.inr ⟨hless, rfl, rfl⟩)

/-- An access adds to the totals what was pending. -/
theorem Worker.step_totals {st st' : ServerState} {spurious : Bool} {k k' : Worker}
    (h : k.step st spurious = some (st', k')) (t : Totals) :
    (k.addTo t).reranks + k'.toCount = t.reranks + k.toCount ∧
      (k.addTo t).latencyUs + k'.toSum = t.latencyUs + k.toSum := by
  cases k with
  | outside => cases h
  | addCount resp =>
      obtain ⟨rfl, rfl⟩ := Prod.mk.inj (Option.some.inj h)
      exact ⟨rfl, rfl⟩
  | addSum resp =>
      obtain ⟨rfl, rfl⟩ := Prod.mk.inj (Option.some.inj h)
      exact ⟨rfl, rfl⟩
  | loadMax resp =>
      obtain ⟨rfl, rfl⟩ := Prod.mk.inj (Option.some.inj h)
      exact ⟨rfl, rfl⟩
  | exchange resp prevMax =>
      obtain ⟨-, rfl, rfl⟩ | ⟨rfl, rfl⟩ | ⟨-, rfl, rfl⟩ := Worker.exchange_cases h
      · exact ⟨rfl, rfl⟩
      · exact ⟨rfl, rfl⟩
      · exact ⟨rfl, rfl⟩
  | storeVersion resp =>
      obtain ⟨rfl, rfl⟩ := Prod.mk.inj (Option.some.inj h)
      exact ⟨rfl, rfl⟩

/-- An access adds to a shared counter what it adds to the total. -/
theorem Worker.step_value {s : State} {st' : ServerState} {spurious : Bool} {w : Nat}
    {k k' : Worker} (h : k.step s.shared spurious = some (st', k'))
    (hvalue : ∀ f, f.value s.now = s.total f % 2 ^ 64) (f : Field) :
    let s' := { s with
      shared := st', workers := s.workers.set w k', totals := k.addTo s.totals }
    f.value s'.now = s'.total f % 2 ^ 64 := by
  have hf := hvalue f
  cases k with
  | outside => cases h
  | addCount resp =>
      obtain ⟨rfl, rfl⟩ := Prod.mk.inj (Option.some.inj h)
      cases f with
      | rerankCount => exact toNat_fetchAdd hf
      | _ => exact hf
  | addSum resp =>
      obtain ⟨rfl, rfl⟩ := Prod.mk.inj (Option.some.inj h)
      cases f with
      | rerankLatencySumUs => exact (toNat_fetchAdd hf).trans (by rw [UInt32.toNat_toUInt64]; rfl)
      | _ => exact hf
  | loadMax resp =>
      obtain ⟨rfl, rfl⟩ := Prod.mk.inj (Option.some.inj h)
      exact hf
  | exchange resp prevMax =>
      obtain ⟨-, rfl, rfl⟩ | ⟨rfl, rfl⟩ | ⟨-, rfl, rfl⟩ := Worker.exchange_cases h
      · cases f with
        | rerankLatencyMaxUs =>
            exact (Nat.mod_eq_of_lt (Nat.lt_trans resp.latencyUs.toNat_lt (by decide))).symm
        | _ => exact hf
      · exact hf
      · exact hf
  | storeVersion resp =>
      obtain ⟨rfl, rfl⟩ := Prod.mk.inj (Option.some.inj h)
      exact hf

/-- The shared counters are the totals modulo 2^64, and the totals are short of
the requests by what is pending. -/
structure Counted (s : State) : Prop where
  value : ∀ f, f.value s.now = s.total f % 2 ^ 64
  reranks : s.totals.reranks + (s.workers.map Worker.toCount).sum = s.handled.length
  latencyUs : s.totals.latencyUs + (s.workers.map Worker.toSum).sum =
    (s.handled.map UInt32.toNat).sum

theorem counted {s : State} (h : system.Reachable s) : Counted s := by
  refine h.invariant (I := Counted) ?_ ?_
  · exact ⟨fun f => by cases f <;> rfl, rfl, rfl⟩
  · intro s l s' _ ⟨hvalue, hreranks, hlatency⟩ hl
    cases l with
    | accept =>
        obtain rfl := Option.some.inj hl
        exact ⟨hvalue, by simpa [Worker.toCount] using hreranks,
          by simpa [Worker.toSum] using hlatency⟩
    | begin w resp =>
        obtain ⟨houtside, rfl⟩ := begin_cases hl
        have hcount := sum_map_set Worker.toCount houtside (.addCount resp)
        have hsum := sum_map_set Worker.toSum houtside (.addCount resp)
        refine ⟨hvalue, ?_, ?_⟩
        · simp only [Worker.toCount, List.length_append, List.length_singleton] at hcount ⊢
          omega
        · simp only [Worker.toSum, List.map_append, List.sum_append, List.map_cons, List.map_nil,
            List.sum_cons, List.sum_nil] at hsum ⊢
          omega
    | access w spurious =>
        obtain ⟨k, k', shared, hk, hstep, rfl⟩ := access_cases hl
        have hcount := sum_map_set Worker.toCount hk k'
        have hsum := sum_map_set Worker.toSum hk k'
        obtain ⟨hcount', hsum'⟩ := Worker.step_totals hstep s.totals
        exact ⟨Worker.step_value hstep hvalue, by dsimp only; omega, by dsimp only; omega⟩
    | ping =>
        obtain rfl := Option.some.inj hl
        refine ⟨fun f => ?_, hreranks, hlatency⟩
        have hf := hvalue f
        cases f with
        | pingCount => exact toNat_fetchAdd hf
        | _ => exact hf
    | commit ev =>
        obtain rfl := Option.some.inj hl
        refine ⟨fun f => ?_, hreranks, hlatency⟩
        have hf := hvalue f
        cases f with
        | commitCount => exact toNat_fetchAdd hf
        | _ => exact hf
    | error =>
        obtain rfl := Option.some.inj hl
        refine ⟨fun f => ?_, hreranks, hlatency⟩
        have hf := hvalue f
        cases f with
        | errorCount => exact toNat_fetchAdd hf
        | _ => exact hf
    | call =>
        obtain rfl := Option.some.inj hl
        exact ⟨hvalue, hreranks, hlatency⟩
    | load r =>
        obtain ⟨rd, f, todo, hrd, htodo, rfl⟩ := load_cases hl
        exact ⟨hvalue, hreranks, hlatency⟩
    | answer r =>
        obtain ⟨rd, hrd, htodo, rfl⟩ := answer_cases hl
        exact ⟨hvalue, hreranks, hlatency⟩
    | elapse uptimeSec =>
        obtain ⟨hle, rfl⟩ := elapse_cases hl
        refine ⟨fun f => ?_, hreranks, hlatency⟩
        have hf := hvalue f
        cases f with
        | uptimeSec => exact (Nat.mod_eq_of_lt uptimeSec.toNat_lt).symm
        | _ => exact hf

/-! ### The maximum -/

/-- No latency is dropped: it is below the maximum, or some worker has yet to
bring it there. A local maximum is never above the shared one. -/
structure Maximal (s : State) : Prop where
  covered : ∀ l ∈ s.handled, l ≤ s.shared.rerankLatencyMaxUs ∨ ∃ k ∈ s.workers, k.toMax = some l
  pending : ∀ k ∈ s.workers, ∀ l, k.toMax = some l → l ∈ s.handled
  loaded : ∀ resp prevMax, .exchange resp prevMax ∈ s.workers →
    prevMax ≤ s.shared.rerankLatencyMaxUs
  current : s.shared.rerankLatencyMaxUs = 0 ∨ s.shared.rerankLatencyMaxUs ∈ s.handled

/-- What an access does for the maximum: it does not lower it, it keeps the
pending latency or brings the maximum there, and what it loads is the maximum. -/
theorem Worker.step_max {st st' : ServerState} {spurious : Bool} {k k' : Worker}
    (h : k.step st spurious = some (st', k')) (hloaded : ∀ resp prevMax,
      k = .exchange resp prevMax → prevMax ≤ st.rerankLatencyMaxUs) :
    st.rerankLatencyMaxUs ≤ st'.rerankLatencyMaxUs ∧
    (st'.rerankLatencyMaxUs = st.rerankLatencyMaxUs ∨ k.toMax = some st'.rerankLatencyMaxUs) ∧
    (∀ l, k.toMax = some l → k'.toMax = some l ∨ l ≤ st'.rerankLatencyMaxUs) ∧
    (∀ l, k'.toMax = some l → k.toMax = some l) ∧
    ∀ resp prevMax, k' = .exchange resp prevMax → prevMax = st'.rerankLatencyMaxUs := by
  cases k with
  | outside => cases h
  | addCount resp =>
      obtain ⟨rfl, rfl⟩ := Prod.mk.inj (Option.some.inj h)
      exact ⟨UInt32.le_refl _, .inl rfl, fun l hl => .inl hl, fun l hl => hl, by simp⟩
  | addSum resp =>
      obtain ⟨rfl, rfl⟩ := Prod.mk.inj (Option.some.inj h)
      exact ⟨UInt32.le_refl _, .inl rfl, fun l hl => .inl hl, fun l hl => hl, by simp⟩
  | loadMax resp =>
      obtain ⟨rfl, rfl⟩ := Prod.mk.inj (Option.some.inj h)
      exact ⟨UInt32.le_refl _, .inl rfl, fun l hl => .inl hl, fun l hl => hl, by simp⟩
  | exchange resp prevMax =>
      obtain ⟨hless, rfl, rfl⟩ | ⟨rfl, rfl⟩ | ⟨hnot, rfl, rfl⟩ := Worker.exchange_cases h
      · refine ⟨UInt32.le_of_lt hless, .inr rfl, fun l hl => .inr ?_, by simp [toMax], by simp⟩
        obtain rfl := Option.some.inj hl
        exact UInt32.le_refl _
      · exact ⟨UInt32.le_refl _, .inl rfl, fun l hl => .inl hl, fun l hl => hl, by simp⟩
      · refine ⟨UInt32.le_refl _, .inl rfl, fun l hl => .inr ?_, by simp [toMax], by simp⟩
        obtain rfl := Option.some.inj hl
        exact UInt32.le_trans (UInt32.not_lt.mp hnot) (hloaded resp prevMax rfl)
  | storeVersion resp =>
      obtain ⟨rfl, rfl⟩ := Prod.mk.inj (Option.some.inj h)
      exact ⟨UInt32.le_refl _, .inl rfl, by simp [toMax], by simp [toMax], by simp⟩

/-- Where neither the maximum nor a worker moves, nothing is dropped. -/
theorem Maximal.of_eq {s s' : State} (hs : Maximal s)
    (hmax : s'.shared.rerankLatencyMaxUs = s.shared.rerankLatencyMaxUs)
    (hworkers : s'.workers = s.workers) (hhandled : s'.handled = s.handled) : Maximal s' := by
  obtain ⟨hcovered, hpending, hloaded, hcurrent⟩ := hs
  constructor
  · rw [hmax, hworkers, hhandled]
    exact hcovered
  · rw [hworkers, hhandled]
    exact hpending
  · rw [hmax, hworkers]
    exact hloaded
  · rw [hmax, hhandled]
    exact hcurrent

theorem maximal {s : State} (h : system.Reachable s) : Maximal s := by
  refine h.invariant (I := Maximal) ?_ ?_
  · exact ⟨by simp [system], by simp [system], by simp [system], .inl rfl⟩
  · intro s l s' _ hs hl
    obtain ⟨hcovered, hpending, hloaded, hcurrent⟩ := id hs
    cases l with
    | accept =>
        obtain rfl := Option.some.inj hl
        refine ⟨fun l hl => ?_, fun k hk l hl => ?_, fun resp prevMax hk => ?_, hcurrent⟩
        · exact (hcovered l hl).imp_right fun ⟨k, hk, hmax⟩ => ⟨k, List.mem_append_left _ hk, hmax⟩
        · rcases List.mem_append.mp hk with hk | hk
          · exact hpending k hk l hl
          · obtain rfl := List.mem_singleton.mp hk
            cases hl
        · rcases List.mem_append.mp hk with hk | hk
          · exact hloaded resp prevMax hk
          · cases List.mem_singleton.mp hk
    | begin w resp =>
        obtain ⟨houtside, rfl⟩ := begin_cases hl
        refine ⟨fun l hl => ?_, fun k hk l hl => ?_, fun resp' prevMax hk => ?_, ?_⟩
        · rcases List.mem_append.mp hl with hl | hl
          · refine (hcovered l hl).imp_right fun ⟨k, hk, hmax⟩ => ⟨k, ?_, hmax⟩
            refine (eq_or_mem_set houtside _ hk).resolve_left fun heq => ?_
            rw [heq] at hmax
            cases hmax
          · obtain rfl := List.mem_singleton.mp hl
            exact .inr ⟨_, mem_set_self houtside _, rfl⟩
        · rcases List.mem_or_eq_of_mem_set hk with hk | rfl
          · exact List.mem_append_left _ (hpending k hk l hl)
          · obtain rfl := Option.some.inj hl
            exact List.mem_append_right _ (List.mem_singleton_self _)
        · rcases List.mem_or_eq_of_mem_set hk with hk | hk
          · exact hloaded resp' prevMax hk
          · cases hk
        · exact hcurrent.imp_right (List.mem_append_left _)
    | access w spurious =>
        obtain ⟨k, k', shared, hk, hstep, rfl⟩ := access_cases hl
        have hmem := List.mem_of_getElem? hk
        obtain ⟨hraise, hsource, hkeep, hback, hfresh⟩ := Worker.step_max hstep
          fun resp prevMax heq => hloaded resp prevMax (heq ▸ hmem)
        refine ⟨fun l hmemh => ?_, fun j hj l hpend => ?_, fun resp prevMax hj => ?_, ?_⟩
        · rcases hcovered l hmemh with hle | ⟨j, hj, hmax⟩
          · exact .inl (UInt32.le_trans hle hraise)
          · rcases eq_or_mem_set hk k' hj with rfl | hj
            · rcases hkeep l hmax with hmax | hle
              · exact .inr ⟨k', mem_set_self hk k', hmax⟩
              · exact .inl hle
            · exact .inr ⟨j, hj, hmax⟩
        · rcases List.mem_or_eq_of_mem_set hj with hj | rfl
          · exact hpending j hj l hpend
          · exact hpending k hmem l (hback l hpend)
        · rcases List.mem_or_eq_of_mem_set hj with hj | hj
          · exact UInt32.le_trans (hloaded resp prevMax hj) hraise
          · exact hfresh resp prevMax hj.symm ▸ UInt32.le_refl _
        · rcases hsource with heq | hmax
          · rw [heq]
            exact hcurrent
          · exact .inr (hpending k hmem _ hmax)
    | ping =>
        obtain rfl := Option.some.inj hl
        exact hs.of_eq rfl rfl rfl
    | commit ev =>
        obtain rfl := Option.some.inj hl
        exact hs.of_eq rfl rfl rfl
    | error =>
        obtain rfl := Option.some.inj hl
        exact hs.of_eq rfl rfl rfl
    | call =>
        obtain rfl := Option.some.inj hl
        exact hs.of_eq rfl rfl rfl
    | load r =>
        obtain ⟨rd, f, todo, hrd, htodo, rfl⟩ := load_cases hl
        exact hs.of_eq rfl rfl rfl
    | answer r =>
        obtain ⟨rd, hrd, htodo, rfl⟩ := answer_cases hl
        exact hs.of_eq rfl rfl rfl
    | elapse uptimeSec =>
        obtain ⟨hle, rfl⟩ := elapse_cases hl
        exact hs.of_eq rfl rfl rfl

/-! ### Snapshots in order -/

/-- No step takes anything from a counter's exact value. -/
theorem total_le {s s' : State} {l : Label} (hs : Maximal s) (hl : system.step s l = some s')
    (f : Field) : s.total f ≤ s'.total f := by
  cases l with
  | accept =>
      obtain rfl := Option.some.inj hl
      exact Nat.le_refl _
  | begin w resp =>
      obtain ⟨-, rfl⟩ := begin_cases hl
      exact Nat.le_refl _
  | access w spurious =>
      obtain ⟨k, k', shared, hk, hstep, rfl⟩ := access_cases hl
      have hraise := (Worker.step_max hstep fun resp prevMax heq =>
        hs.loaded resp prevMax (heq ▸ List.mem_of_getElem? hk)).1
      cases f with
      | rerankLatencyMaxUs => exact UInt32.le_iff_toNat_le.mp hraise
      | rerankCount => cases k <;> simp [State.total, Worker.addTo]
      | rerankLatencySumUs => cases k <;> simp [State.total, Worker.addTo]
      | pingCount => cases k <;> exact Nat.le_refl _
      | commitCount => cases k <;> exact Nat.le_refl _
      | errorCount => cases k <;> exact Nat.le_refl _
      | rerankModelVersion => exact Nat.le_refl _
      | uptimeSec => exact Nat.le_refl _
  | ping =>
      obtain rfl := Option.some.inj hl
      cases f with
      | pingCount => exact Nat.le_succ _
      | _ => exact Nat.le_refl _
  | commit ev =>
      obtain rfl := Option.some.inj hl
      cases f with
      | commitCount => exact Nat.le_succ _
      | _ => exact Nat.le_refl _
  | error =>
      obtain rfl := Option.some.inj hl
      cases f with
      | errorCount => exact Nat.le_succ _
      | _ => exact Nat.le_refl _
  | call =>
      obtain rfl := Option.some.inj hl
      exact Nat.le_refl _
  | load r =>
      obtain ⟨rd, g, todo, hrd, htodo, rfl⟩ := load_cases hl
      exact Nat.le_refl _
  | answer r =>
      obtain ⟨rd, hrd, htodo, rfl⟩ := answer_cases hl
      exact Nat.le_refl _
  | elapse uptimeSec =>
      obtain ⟨hle, rfl⟩ := elapse_cases hl
      cases f with
      | uptimeSec => exact UInt64.le_iff_toNat_le.mp hle
      | _ => exact Nat.le_refl _

/-- What the snapshots say of a counter `f`: no more than there is, and as long as
it has not wrapped, no less than the snapshots before. -/
structure Ordered (f : Field) (s : State) : Prop where
  taken : ∀ a ∈ s.taken, f.value a ≤ s.total f
  before : ∀ rd ∈ s.readers, ∀ b ∈ rd.before, b ∈ s.taken
  read : ∀ rd ∈ s.readers, f ∉ rd.todo → f.value rd.stats ≤ s.total f ∧
    (s.total f < 2 ^ 64 → ∀ b ∈ rd.before, f.value b ≤ f.value rd.stats)
  successive : s.total f < 2 ^ 64 → ∀ p ∈ s.successive, f.value p.1 ≤ f.value p.2

/-- Where no snapshot is made, the order stays. -/
theorem Ordered.of_eq {f : Field} {s s' : State} (hs : Ordered f s) (hle : s.total f ≤ s'.total f)
    (hreaders : s'.readers = s.readers) (htaken : s'.taken = s.taken)
    (hsuccessive : s'.successive = s.successive) : Ordered f s' := by
  constructor
  · rw [htaken]
    exact fun a ha => Nat.le_trans (hs.taken a ha) hle
  · rw [hreaders, htaken]
    exact hs.before
  · rw [hreaders]
    intro rd hrd hf
    obtain ⟨hvalue, hafter⟩ := hs.read rd hrd hf
    exact ⟨Nat.le_trans hvalue hle, fun hfits => hafter (Nat.lt_of_le_of_lt hle hfits)⟩
  · rw [hsuccessive]
    exact fun hfits => hs.successive (Nat.lt_of_le_of_lt hle hfits)

theorem ordered (f : Field) {s : State} (h : system.Reachable s) : Ordered f s := by
  refine h.invariant (I := Ordered f) ?_ ?_
  · exact ⟨by simp [system], by simp [system], by simp [system], by simp [system]⟩
  · intro s l s' hreach hs hl
    have hle := total_le (maximal hreach) hl f
    cases l with
    | accept =>
        obtain rfl := Option.some.inj hl
        exact hs.of_eq hle rfl rfl rfl
    | begin w resp =>
        obtain ⟨-, rfl⟩ := begin_cases hl
        exact hs.of_eq hle rfl rfl rfl
    | access w spurious =>
        obtain ⟨k, k', shared, hk, hstep, rfl⟩ := access_cases hl
        exact hs.of_eq hle rfl rfl rfl
    | ping =>
        obtain rfl := Option.some.inj hl
        exact hs.of_eq hle rfl rfl rfl
    | commit ev =>
        obtain rfl := Option.some.inj hl
        exact hs.of_eq hle rfl rfl rfl
    | error =>
        obtain rfl := Option.some.inj hl
        exact hs.of_eq hle rfl rfl rfl
    | call =>
        obtain rfl := Option.some.inj hl
        refine ⟨hs.taken, fun rd hrd => ?_, fun rd hrd hf => ?_, hs.successive⟩
        · rcases List.mem_append.mp hrd with hrd | hrd
          · exact hs.before rd hrd
          · obtain rfl := List.mem_singleton.mp hrd
            exact fun b hb => hb
        · rcases List.mem_append.mp hrd with hrd | hrd
          · exact hs.read rd hrd hf
          · -- nothing is loaded yet
            obtain rfl := List.mem_singleton.mp hrd
            exact absurd (mem_loads f) hf
    | load r =>
        obtain ⟨rd, g, todo, hrd, htodo, rfl⟩ := load_cases hl
        have hmem := List.mem_of_getElem? hrd
        have hnow : f.value s.now = s.total f % 2 ^ 64 := (counted hreach).value f
        refine ⟨hs.taken, fun rd' hrd' => ?_, fun rd' hrd' hf => ?_, hs.successive⟩
        · rcases List.mem_or_eq_of_mem_set hrd' with hrd' | rfl
          · exact hs.before rd' hrd'
          · exact hs.before rd hmem
        · rcases List.mem_or_eq_of_mem_set hrd' with hrd' | rfl
          · exact hs.read rd' hrd' hf
          · show f.value (g.load s.now rd.stats) ≤ s.total f ∧ (s.total f < 2 ^ 64 →
              ∀ b ∈ rd.before, f.value b ≤ f.value (g.load s.now rd.stats))
            rw [Field.value_load]
            split_ifs with hfg
            · rw [hnow]
              refine ⟨Nat.mod_le _ _, fun hfits b hb => ?_⟩
              rw [Nat.mod_eq_of_lt hfits]
              exact hs.taken b (hs.before rd hmem b hb)
            · refine hs.read rd hmem ?_
              rw [htodo]
              exact List.not_mem_cons_of_ne_of_not_mem hfg hf
    | answer r =>
        obtain ⟨rd, hrd, htodo, rfl⟩ := answer_cases hl
        have hmem := List.mem_of_getElem? hrd
        obtain ⟨hvalue, hafter⟩ := hs.read rd hmem (by simp [htodo])
        refine ⟨fun a ha => ?_, fun rd' hrd' b hb => ?_, fun rd' hrd' hf => ?_,
          fun hfits p hp => ?_⟩
        · rcases List.mem_append.mp ha with ha | ha
          · exact hs.taken a ha
          · obtain rfl := List.mem_singleton.mp ha
            exact hvalue
        · exact List.mem_append_left _ (hs.before rd' (List.mem_of_mem_eraseIdx hrd') b hb)
        · exact hs.read rd' (List.mem_of_mem_eraseIdx hrd') hf
        · rcases List.mem_append.mp hp with hp | hp
          · exact hs.successive hfits p hp
          · obtain ⟨b, hb, rfl⟩ := List.mem_map.mp hp
            exact hafter hfits b hb
    | elapse uptimeSec =>
        obtain ⟨hle', rfl⟩ := elapse_cases hl
        exact hs.of_eq hle rfl rfl rfl

/-! ### Threads that nothing interrupts -/

/-- The counters after an update section as a whole. -/
def afterRerank (st : ServerState) (resp : RerankResponse) : ServerState :=
  { st with
    rerankCount := st.rerankCount + 1
    rerankLatencySumUs := st.rerankLatencySumUs + resp.latencyUs.toUInt64
    rerankLatencyMaxUs := max st.rerankLatencyMaxUs resp.latencyUs
    rerankModelVersion := resp.modelVersion }

theorem dispatch_rerankRequest (reranker : RerankService) (now : Moment) (st : ServerState)
    (req : RerankRequest) : (dispatch reranker now st (.rerankRequest req)).1 =
      afterRerank st (reranker.rerank req now.latencyUs) := rfl

theorem access_eq {s : State} {w : Nat} {spurious : Bool} {k k' : Worker} {shared : ServerState}
    (hk : s.workers[w]? = some k) (hstep : k.step s.shared spurious = some (shared, k')) :
    system.step s (.access w spurious) =
      some { s with shared, workers := s.workers.set w k', totals := k.addTo s.totals } := by
  change (s.workers[w]?.bind fun k => (k.step s.shared spurious).bind fun p =>
    some { s with shared := p.1, workers := s.workers.set w p.2, totals := k.addTo s.totals }) = _
  rw [hk, Option.bind_some, hstep, Option.bind_some]

/-- With the maximum just loaded, the loop takes one turn. -/
theorem Worker.exchange_fresh (st : ServerState) (resp : RerankResponse) :
    (Worker.exchange resp st.rerankLatencyMaxUs).step st false =
      some ({ st with rerankLatencyMaxUs := max st.rerankLatencyMaxUs resp.latencyUs },
        .storeVersion resp) := by
  rw [Worker.step]
  split_ifs with hless hsame
  · rw [UInt32.max_def, if_pos (UInt32.le_of_lt hless)]
  · exact absurd ⟨rfl, rfl⟩ hsame
  · rw [UInt32.max_def]
    split_ifs with hle
    · rw [← UInt32.le_antisymm hle (UInt32.not_lt.mp hless)]
    · rfl

/-- A worker that nothing interrupts does to the counters what `dispatch` does. -/
theorem section_uninterrupted {s : State} {w : Nat} (resp : RerankResponse)
    (hw : s.workers[w]? = some .outside) :
    system.runFrom s (.begin w resp :: List.replicate 5 (.access w false)) =
      some { s with
        shared := afterRerank s.shared resp
        handled := s.handled ++ [resp.latencyUs]
        totals := { s.totals with
          reranks := s.totals.reranks + 1
          latencyUs := s.totals.latencyUs + resp.latencyUs.toNat } } := by
  have haccess : ∀ {k k' : Worker} {st st' : ServerState} (handled : List UInt32) (t : Totals),
      k.step st false = some (st', k') →
      system.step { s with shared := st, workers := s.workers.set w k, handled, totals := t }
          (.access w false) =
        some { s with
          shared := st', workers := s.workers.set w k', handled, totals := k.addTo t } := by
    intro k k' st st' handled t hstep
    have hk : (s.workers.set w k)[w]? = some k :=
      List.getElem?_set_self (List.getElem?_eq_some_iff.mp hw).1
    rw [access_eq hk hstep]
    dsimp only
    rw [List.set_set]
  have hbegin : system.step s (.begin w resp) = some { s with
      workers := s.workers.set w (.addCount resp)
      handled := s.handled ++ [resp.latencyUs] } := if_pos hw
  have hback : s.workers.set w .outside = s.workers := by
    obtain ⟨hlt, hget⟩ := List.getElem?_eq_some_iff.mp hw
    rw [← hget, List.set_getElem_self]
  simp only [List.replicate, System.runFrom]
  rw [hbegin, Option.bind_some, haccess _ _ rfl, Option.bind_some, haccess _ _ rfl,
    Option.bind_some, haccess _ _ rfl, Option.bind_some, haccess _ _ (Worker.exchange_fresh _ resp),
    Option.bind_some, haccess _ _ rfl, Option.bind_some, hback]
  rfl

/-- Loads that nothing interrupts fill the fields from one state. -/
theorem loads_uninterrupted {r : Nat} {before : List StatsResponse} (todo : List Field) :
    ∀ {s : State} {stats : StatsResponse}, s.readers[r]? = some ⟨before, todo, stats⟩ →
      system.runFrom s (List.replicate todo.length (.load r)) =
        some { s with readers := s.readers.set r {
          before
          todo := []
          stats := todo.foldl (fun stats f => f.load s.now stats) stats } } := by
  induction todo with
  | nil =>
      intro s stats hr
      obtain ⟨hlt, hget⟩ := List.getElem?_eq_some_iff.mp hr
      rw [List.foldl_nil, ← hget, List.set_getElem_self]
      rfl
  | cons f todo ih =>
      intro s stats hr
      have hload : system.step s (.load r) = some { s with
          readers := s.readers.set r ⟨before, todo, f.load s.now stats⟩ } := by
        change (s.readers[r]?.bind fun rd => _) = _
        rw [hr]
        rfl
      have hset : (s.readers.set r ⟨before, todo, f.load s.now stats⟩)[r]? =
          some ⟨before, todo, f.load s.now stats⟩ :=
        List.getElem?_set_self (List.getElem?_eq_some_iff.mp hr).1
      rw [List.length_cons, List.replicate_succ, System.runFrom, hload, Option.bind_some, ih hset]
      dsimp only
      rw [List.set_set]
      rfl

/-- A snapshot that nothing interrupts is that of `getStats`. -/
theorem snapshot_uninterrupted {s : State} (hreaders : s.readers = []) :
    system.runFrom s (.call :: (List.replicate loads.length (.load 0) ++ [.answer 0])) =
      some { s with
        taken := s.taken ++ [getStats s.shared ⟨0, s.uptimeSec⟩]
        successive :=
          s.successive ++ s.taken.map (·, getStats s.shared ⟨0, s.uptimeSec⟩) } := by
  have hcall : system.step s .call = some { s with readers := [{ before := s.taken }] } := by
    show some ({ s with readers := s.readers ++ [{ before := s.taken }] } : State) = _
    rw [hreaders, List.nil_append]
  have hloads := @loads_uninterrupted 0 s.taken loads
    { s with readers := [{ before := s.taken }] } {} rfl
  rw [System.runFrom, hcall, Option.bind_some, System.runFrom_append, hloads, Option.bind_some]
  obtain ⟨shared, uptimeSec, workers, readers, handled, totals, taken, successive⟩ := s
  obtain rfl : readers = [] := hreaders
  rfl

/-! ### The counters -/

/-- The largest latency, 0 where there is none. -/
def largest (latencies : List UInt32) : UInt32 := latencies.foldr max 0

theorem toNat_max (a b : UInt32) : (max a b).toNat = max a.toNat b.toNat := by
  rw [UInt32.max_def]
  split_ifs with h <;> rw [UInt32.le_iff_toNat_le] at h <;> omega

theorem le_largest {l : UInt32} {ls : List UInt32} (h : l ∈ ls) : l ≤ largest ls := by
  induction ls with
  | nil => cases h
  | cons a ls ih =>
      rw [largest, List.foldr_cons, UInt32.le_iff_toNat_le, toNat_max]
      rcases List.mem_cons.mp h with rfl | h
      · exact Nat.le_max_left _ _
      · exact Nat.le_trans (UInt32.le_iff_toNat_le.mp (ih h)) (Nat.le_max_right _ _)

theorem largest_le {m : UInt32} {ls : List UInt32} (h : ∀ l ∈ ls, l ≤ m) : largest ls ≤ m := by
  induction ls with
  | nil => exact UInt32.zero_le
  | cons a ls ih =>
      have ha := UInt32.le_iff_toNat_le.mp (h a List.mem_cons_self)
      have hls := UInt32.le_iff_toNat_le.mp (ih fun l hl => h l (List.mem_cons_of_mem a hl))
      rw [largest, List.foldr_cons, UInt32.le_iff_toNat_le, toNat_max]
      exact Nat.max_le.mpr ⟨ha, hls⟩

theorem Maximal.le_largest {s : State} (hs : Maximal s) :
    s.shared.rerankLatencyMaxUs ≤ largest s.handled := by
  rcases hs.current with hzero | hmem
  · rw [hzero]
    exact UInt32.zero_le
  · exact Counters.le_largest hmem

/-- **The counters under concurrency.** In every reachable state the maximum is at
most the largest latency handled, and no step lowers it. Of two successive
snapshots the later has no lower maximum and no lower value of a counter that has
not wrapped. While no worker is inside its update section, count and sum are
those of the requests handled modulo 2^64, and the maximum is theirs. -/
theorem counters_exact (s : State) (h : system.Reachable s) :
    s.shared.rerankLatencyMaxUs ≤ largest s.handled ∧
    (∀ l s', system.step s l = some s' →
      s.shared.rerankLatencyMaxUs ≤ s'.shared.rerankLatencyMaxUs) ∧
    (∀ p ∈ s.successive, p.1.rerankLatencyMaxUs ≤ p.2.rerankLatencyMaxUs ∧
      p.1.uptimeSec ≤ p.2.uptimeSec ∧
      ∀ f, s.total f < 2 ^ 64 → Field.value p.1 f ≤ Field.value p.2 f) ∧
    ((∀ k ∈ s.workers, k = .outside) →
      s.shared.rerankCount = UInt64.ofNat s.handled.length ∧
      s.shared.rerankLatencySumUs = UInt64.ofNat (s.handled.map UInt32.toNat).sum ∧
      s.shared.rerankLatencyMaxUs = largest s.handled) := by
  have hmax := maximal h
  have hcount := counted h
  refine ⟨hmax.le_largest, ?_, ?_, ?_⟩
  · intro l s' hl
    exact UInt32.le_iff_toNat_le.mpr (total_le hmax hl .rerankLatencyMaxUs)
  · intro p hp
    have hordered := fun f hfits => (ordered f h).successive hfits p hp
    refine ⟨?_, ?_, hordered⟩
    · refine UInt32.le_iff_toNat_le.mpr (hordered .rerankLatencyMaxUs ?_)
      exact Nat.lt_trans s.shared.rerankLatencyMaxUs.toNat_lt (by decide)
    · exact UInt64.le_iff_toNat_le.mpr (hordered .uptimeSec s.uptimeSec.toNat_lt)
  · intro hquiet
    have hnothing : ∀ f : Worker → Nat, f .outside = 0 → (s.workers.map f).sum = 0 := by
      intro f hf
      refine List.sum_eq_zero_iff_forall_eq_nat.mpr fun n hn => ?_
      obtain ⟨k, hk, rfl⟩ := List.mem_map.mp hn
      rw [hquiet k hk, hf]
    have hreranks := hcount.reranks
    have hlatency := hcount.latencyUs
    rw [hnothing _ rfl, Nat.add_zero] at hreranks hlatency
    refine ⟨?_, ?_, UInt32.le_antisymm hmax.le_largest (largest_le fun l hl => ?_)⟩
    · rw [← UInt64.toNat_inj, UInt64.toNat_ofNat', ← hreranks]
      exact hcount.value .rerankCount
    · rw [← UInt64.toNat_inj, UInt64.toNat_ofNat', ← hlatency]
      exact hcount.value .rerankLatencySumUs
    · refine (hmax.covered l hl).resolve_right fun ⟨k, hk, hpend⟩ => ?_
      rw [hquiet k hk] at hpend
      cases hpend

/-- Two workers that loaded the same maximum: the one with the greater latency
finds it changed, and loads it again. -/
def race : List Label :=
  [.accept, .accept, .begin 0 { latencyUs := 7 }, .begin 1 { latencyUs := 9 },
    .access 0 false, .access 0 false, .access 0 false,
    .access 1 false, .access 1 false, .access 1 false,
    .access 0 false, .access 1 false, .access 1 true, .access 1 false,
    .access 1 false, .access 0 false]

theorem counters_exact_race :
    ∃ s, system.run race = some s ∧ s.shared.rerankLatencyMaxUs = largest [7, 9] := by
  have hend : (system.run race).map (fun s => (s.workers, s.handled)) =
      some ([.outside, .outside], [7, 9]) := by decide
  obtain ⟨s, hs, heq⟩ := Option.map_eq_some_iff.mp hend
  obtain ⟨hworkers, hhandled⟩ := Prod.mk.inj heq
  obtain ⟨-, -, hmax⟩ := (counters_exact s (System.reachable_of_run hs)).2.2.2 (by simp [hworkers])
  exact ⟨s, hs, by rw [hmax, hhandled]⟩

/-- One worker after `n` requests of the greatest latency. -/
theorem slow_requests (n : Nat) : ∃ s, system.Reachable s ∧ s.workers = [.outside] ∧
    s.readers = [] ∧ s.totals.latencyUs = n * 0xFFFFFFFF := by
  induction n with
  | zero => exact ⟨_, System.Reachable.init.step (l := .accept) rfl, rfl, rfl, rfl⟩
  | succ n ih =>
      obtain ⟨s, hs, hworkers, hreaders, hsum⟩ := ih
      have hrun := section_uninterrupted (s := s) (w := 0) { latencyUs := 0xFFFFFFFF }
        (by rw [hworkers]; rfl)
      refine ⟨_, hs.runFrom hrun, hworkers, hreaders, ?_⟩
      show s.totals.latencyUs + 0xFFFFFFFF = (n + 1) * 0xFFFFFFFF
      omega

/-- The sum of 2^32 + 1 such requests is the greatest there is: with one more
microsecond the next snapshot has a lower sum. -/
theorem sum_decreases : ¬ ∀ s, system.Reachable s → ∀ p ∈ s.successive, ∀ f,
    Field.value p.1 f ≤ Field.value p.2 f := by
  intro hall
  obtain ⟨s, hs, hworkers, hreaders, hsum⟩ := slow_requests (2 ^ 32 + 1)
  obtain ⟨s₁, hs₁, hworkers₁, hreaders₁, htaken₁, hsum₁⟩ : ∃ s₁, system.Reachable s₁ ∧
      s₁.workers[0]? = some .outside ∧ s₁.readers = [] ∧ s.now ∈ s₁.taken ∧
      s₁.totals.latencyUs = s.totals.latencyUs := by
    refine ⟨_, hs.runFrom (snapshot_uninterrupted hreaders), ?_, hreaders, ?_, rfl⟩
    · show s.workers[0]? = some .outside
      rw [hworkers]
      rfl
    · exact List.mem_append_right _ (List.mem_singleton_self _)
  obtain ⟨s₂, hs₂, hreaders₂, htaken₂, hsum₂⟩ : ∃ s₂, system.Reachable s₂ ∧ s₂.readers = [] ∧
      s.now ∈ s₂.taken ∧ s₂.totals.latencyUs = s₁.totals.latencyUs + 1 :=
    ⟨_, hs₁.runFrom (section_uninterrupted { latencyUs := 1 } hworkers₁), hreaders₁, htaken₁, rfl⟩
  have hle : Field.value s.now .rerankLatencySumUs ≤ Field.value s₂.now .rerankLatencySumUs := by
    refine hall _ (hs₂.runFrom (snapshot_uninterrupted hreaders₂)) (s.now, s₂.now) ?_ _
    exact List.mem_append_right _ (List.mem_map_of_mem htaken₂)
  rw [(counted hs).value, (counted hs₂).value] at hle
  simp only [State.total, hsum₂, hsum₁, hsum] at hle
  omega

end Dafeng.Daemon.Counters
