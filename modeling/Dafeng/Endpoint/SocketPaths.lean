import Dafeng.Library.Bytes
import Dafeng.Library.Transition
import Mathlib.Logic.Function.Basic

/-!
# Dafeng.Endpoint.SocketPaths

Who stands behind a socket path. `ListenEndpoint` of `src/common/endpoint_unix.cc` unlinks the
path, binds a new socket to it, takes the access of other users away and listens; `~UnixServer`
closes the socket and unlinks the path again. Nothing keeps two processes from doing so at the
same path, and a process that is killed leaves its path behind.

A socket is the number of its `bind`. What a path stands for outlives the process that bound it.
The empty path, which names no file, is left out.
-/

namespace Dafeng.Endpoint

abbrev Address := Bytes

namespace SocketPaths

/-- What a path stands for. A socket that no process of this system bound is another file: nobody
listens on it. -/
inductive Entry
  | directory
  | other
  | socket (ino : Nat)
  deriving DecidableEq, Repr

/-- The paths, and for each socket whether its file lets other users connect. -/
structure Names where
  entries : Address → Option Entry
  sockets : List Bool := []

/-- `unlink`, which leaves a directory where it is. -/
def Names.unlink (n : Names) (addr : Address) : Names :=
  if n.entries addr = some .directory then n
  else { n with entries := Function.update n.entries addr none }

/-- `bind` of a new socket to a path that stands for nothing. -/
def Names.bind (n : Names) (addr : Address) (opens : Bool) : Names where
  entries := Function.update n.entries addr (some (.socket n.sockets.length))
  sockets := n.sockets ++ [opens]

/-- `chmod` to the owner's access only, of whatever the path stands for now. -/
def Names.chmod (n : Names) (addr : Address) : Names :=
  match n.entries addr with
  | some (.socket ino) => { n with sockets := n.sockets.set ino false }
  | some .directory | some .other | none => n

/-- The length of `sun_path`, and whether the umask leaves a new socket open to other users. -/
structure Config where
  sunPath : Nat
  umaskOpens : Bool
  deriving DecidableEq, Repr

/-- A process in `ListenEndpoint`, with its `UnixServer`, or past it. -/
inductive Server
  | called (addr : Address)
  | unlinked (addr : Address)
  | opened (addr : Address)
  | bound (addr : Address) (ino : Nat)
  | permitted (addr : Address) (ino : Nat)
  | listening (addr : Address) (ino : Nat)
  /-- the socket is closed, and the path is yet to be unlinked -/
  | closed (addr : Address)
  | gone
  deriving DecidableEq, Repr

/-- The system calls, with whether they succeed where the paths do not decide it. -/
inductive Action
  | unlink
  | socket (ok : Bool)
  | bind (ok : Bool)
  | chmod (ok : Bool)
  | listen (ok : Bool)
  | close
  | remove
  | crash
  deriving DecidableEq, Repr

/-- The next call of a process. -/
def Server.act (cfg : Config) (n : Names) : Action → Server → Option (Names × Server)
  | .unlink, .called addr => some (n.unlink addr, .unlinked addr)
  | .socket ok, .unlinked addr =>
    -- the length of the path is looked at once there is a socket
    if ok && addr.length < cfg.sunPath then some (n, .opened addr) else some (n, .gone)
  | .bind ok, .opened addr =>
    if ok && (n.entries addr).isNone then
      some (n.bind addr cfg.umaskOpens, .bound addr n.sockets.length)
    else some (n, .gone)
  | .chmod ok, .bound addr ino => some (if ok then n.chmod addr else n, .permitted addr ino)
  | .listen ok, .permitted addr ino => some (n, if ok then .listening addr ino else .closed addr)
  | .close, .listening addr _ => some (n, .closed addr)
  | .remove, .closed addr => some (n.unlink addr, .gone)
  | .crash, _ => some (n, .gone)
  | _, _ => none

/-- The paths, and the processes in the order in which they were started. -/
structure Host where
  names : Names
  servers : List Server := []

inductive Label
  /-- a process calls `ListenEndpoint` -/
  | launch (addr : Address)
  | act (p : Nat) (action : Action)
  deriving DecidableEq, Repr

def step (cfg : Config) (s : Host) : Label → Option Host
  | .launch addr => some { s with servers := s.servers ++ [.called addr] }
  | .act p action => do
    let k ← s.servers[p]?
    let (names, k') ← k.act cfg s.names action
    some { names, servers := s.servers.set p k' }

/-- What is there before the first process starts. -/
def initial (directories others : Address → Bool) : Names where
  entries addr :=
    if directories addr then some .directory else if others addr then some .other else none

/-- The processes that listen at socket paths. -/
def host (cfg : Config) (directories others : Address → Bool) : System Host Label :=
  ⟨⟨initial directories others, []⟩, step cfg⟩

/-- Whether a process takes connections on a socket. -/
def Server.listensOn (ino : Nat) : Server → Bool
  | .listening _ i => i == ino
  | _ => false

/-- `ConnectEndpoint`: the process that the connection goes to. A user other than the owner is let
in only by the mode of the socket. -/
def connect (cfg : Config) (s : Host) (owner : Bool) (addr : Address) : Option Nat :=
  if addr.length < cfg.sunPath then
    match s.names.entries addr with
    | some (.socket ino) =>
      if owner || s.names.sockets[ino]?.getD false then s.servers.findIdx? (·.listensOn ino)
      else none
    | some .directory | some .other | none => none
  else none

/-- The socket that a process holds, with its path. -/
def Server.socket : Server → Option (Address × Nat)
  | .bound addr ino | .permitted addr ino | .listening addr ino => some (addr, ino)
  | .called _ | .unlinked _ | .opened _ | .closed _ | .gone => none

/-- Whether a process has taken the access of other users away. -/
def Server.hasPermitted : Server → Bool
  | .permitted _ _ | .listening _ _ => true
  | _ => false

/-- The path of a process that is past the check of its length. -/
def Server.checked : Server → Option Address
  | .opened addr | .bound addr _ | .permitted addr _ | .listening addr _ => some addr
  | .called _ | .unlinked _ | .closed _ | .gone => none

/-- What a call comes to: nothing at the paths, a path removed, a path bound to a new socket, or
the mode of a socket changed. -/
inductive Act (cfg : Config) (n : Names) : Server → Names → Server → Prop
  | quiet {k k' : Server} (hsocket : k'.socket = k.socket ∨ k'.socket = none)
      (hpermitted : k'.hasPermitted = true → k.hasPermitted = true)
      (hchecked : ∀ addr ∈ k'.checked, addr ∈ k.checked ∨ addr.length < cfg.sunPath) :
      Act cfg n k n k'
  | unlink {k k' : Server} {addr : Address} (hk : k = .called addr ∨ k = .closed addr)
      (hsocket : k'.socket = none) (hchecked : k'.checked = none) :
      Act cfg n k (n.unlink addr) k'
  | bind {addr : Address} (hfree : n.entries addr = none) :
      Act cfg n (.opened addr) (n.bind addr cfg.umaskOpens) (.bound addr n.sockets.length)
  | chmod {addr : Address} {ino : Nat} (ok : Bool) :
      Act cfg n (.bound addr ino) (if ok then n.chmod addr else n) (.permitted addr ino)

theorem act_cases {cfg : Config} {n n' : Names} {action : Action} {k k' : Server}
    (h : k.act cfg n action = some (n', k')) : Act cfg n k n' k' := by
  cases action with
  | unlink =>
      cases k with
      | called addr =>
          obtain ⟨rfl, rfl⟩ := Prod.mk.inj (Option.some.inj h)
          exact .unlink (.inl rfl) rfl rfl
      | _ => cases h
  | socket ok =>
      cases k with
      | unlinked addr =>
          simp only [Server.act] at h
          split_ifs at h with hok
          · obtain ⟨rfl, rfl⟩ := Prod.mk.inj (Option.some.inj h)
            refine .quiet (.inl rfl) (by simp [Server.hasPermitted]) fun a ha => .inr ?_
            obtain rfl := Option.some.inj ha
            simp only [Bool.and_eq_true, decide_eq_true_eq] at hok
            exact hok.2
          · obtain ⟨rfl, rfl⟩ := Prod.mk.inj (Option.some.inj h)
            exact .quiet (.inr rfl) (by simp [Server.hasPermitted]) (by simp [Server.checked])
      | _ => cases h
  | bind ok =>
      cases k with
      | opened addr =>
          simp only [Server.act] at h
          split_ifs at h with hok
          · obtain ⟨rfl, rfl⟩ := Prod.mk.inj (Option.some.inj h)
            simp only [Bool.and_eq_true, Option.isNone_iff_eq_none] at hok
            exact .bind hok.2
          · obtain ⟨rfl, rfl⟩ := Prod.mk.inj (Option.some.inj h)
            exact .quiet (.inr rfl) (by simp [Server.hasPermitted]) (by simp [Server.checked])
      | _ => cases h
  | chmod ok =>
      cases k with
      | bound addr ino =>
          obtain ⟨rfl, rfl⟩ := Prod.mk.inj (Option.some.inj h)
          exact .chmod ok
      | _ => cases h
  | listen ok =>
      cases k with
      | permitted addr ino =>
          obtain ⟨rfl, rfl⟩ := Prod.mk.inj (Option.some.inj h)
          cases ok with
          | true => exact .quiet (.inl rfl) (fun _ => rfl) fun a ha => .inl ha
          | false =>
              exact .quiet (.inr rfl) (by simp [Server.hasPermitted]) (by simp [Server.checked])
      | _ => cases h
  | close =>
      cases k with
      | listening addr ino =>
          obtain ⟨rfl, rfl⟩ := Prod.mk.inj (Option.some.inj h)
          exact .quiet (.inr rfl) (by simp [Server.hasPermitted]) (by simp [Server.checked])
      | _ => cases h
  | remove =>
      cases k with
      | closed addr =>
          obtain ⟨rfl, rfl⟩ := Prod.mk.inj (Option.some.inj h)
          exact .unlink (.inr rfl) rfl rfl
      | _ => cases h
  | crash =>
      obtain ⟨rfl, rfl⟩ := Prod.mk.inj (Option.some.inj h)
      exact .quiet (.inr rfl) (by simp [Server.hasPermitted]) (by simp [Server.checked])

theorem step_act_cases {cfg : Config} {s s' : Host} {p : Nat} {action : Action}
    (h : step cfg s (.act p action) = some s') :
    ∃ k names k', s.servers[p]? = some k ∧ k.act cfg s.names action = some (names, k') ∧
      s' = ⟨names, s.servers.set p k'⟩ := by
  change (s.servers[p]?.bind fun k => (k.act cfg s.names action).bind fun r =>
    some (⟨r.1, s.servers.set p r.2⟩ : Host)) = some s' at h
  obtain ⟨k, hk, h⟩ := Option.bind_eq_some_iff.mp h
  obtain ⟨⟨names, k'⟩, hact, h⟩ := Option.bind_eq_some_iff.mp h
  exact ⟨k, names, k', hk, hact, (Option.some.inj h).symm⟩

/-! ### Paths -/

section Names

variable {n : Names} {addr a : Address} {i : Nat}

theorem entries_unlink : (n.unlink addr).entries a =
    if a = addr ∧ n.entries addr ≠ some .directory then none else n.entries a := by
  unfold Names.unlink
  split_ifs with hdir hboth hboth
  · exact absurd hdir hboth.2
  · rfl
  · rw [hboth.1]
    exact Function.update_self _ _ _
  · exact Function.update_of_ne (fun h => hboth ⟨h, hdir⟩) _ _

theorem sockets_unlink : (n.unlink addr).sockets = n.sockets := by
  unfold Names.unlink
  split_ifs <;> rfl

theorem entries_chmod : (n.chmod addr).entries = n.entries := by
  unfold Names.chmod
  split <;> rfl

theorem length_chmod : (n.chmod addr).sockets.length = n.sockets.length := by
  unfold Names.chmod
  split <;> simp

/-- A mode changes only to the owner's access, and only behind the path. -/
theorem sockets_chmod : (n.chmod addr).sockets[i]? =
    if n.entries addr = some (.socket i) ∧ i < n.sockets.length then some false
    else n.sockets[i]? := by
  unfold Names.chmod
  split
  · next ino h =>
      rw [h, List.getElem?_set]
      by_cases hi : ino = i
      · subst hi
        by_cases hlt : ino < n.sockets.length <;> simp [hlt]
      · simp [hi]
  all_goals next h => simp [h]

end Names

/-! ### Sockets and their paths -/

/-- A process holds a socket that it bound to a path. -/
def Holds (s : Host) (p : Nat) (addr : Address) (ino : Nat) : Prop :=
  ∃ k, s.servers[p]? = some k ∧ k.socket = some (addr, ino)

/-- What is so in every state: a path stands for no socket to come, no two processes hold one
socket, a socket is found at no path but the one it was bound to, and at a path no socket is
older than one that is still held. -/
structure Inv (cfg : Config) (s : Host) : Prop where
  fresh : ∀ a i, s.names.entries a = some (.socket i) → i < s.names.sockets.length
  held : ∀ p a i, Holds s p a i → i < s.names.sockets.length
  own : ∀ p q a b i, Holds s p a i → Holds s q b i → p = q
  place : ∀ p a b i, Holds s p a i → s.names.entries b = some (.socket i) → b = a
  newest : ∀ p a i j, Holds s p a j → s.names.entries a = some (.socket i) → j ≤ i
  checked : ∀ k ∈ s.servers, ∀ a ∈ k.checked, a.length < cfg.sunPath

/-- What neither binds a socket nor holds another keeps the invariant. -/
theorem Inv.of_holds {cfg : Config} {s s' : Host} (hs : Inv cfg s)
    (hentries : ∀ a i, s'.names.entries a = some (.socket i) → s.names.entries a = some (.socket i))
    (hlength : s'.names.sockets.length = s.names.sockets.length)
    (hholds : ∀ p a i, Holds s' p a i → Holds s p a i)
    (hchecked : ∀ k ∈ s'.servers, ∀ a ∈ k.checked, a.length < cfg.sunPath) : Inv cfg s' where
  fresh a i h := hlength ▸ hs.fresh a i (hentries a i h)
  held p a i h := hlength ▸ hs.held p a i (hholds p a i h)
  own p q a b i hp hq := hs.own p q a b i (hholds p a i hp) (hholds q b i hq)
  place p a b i h hb := hs.place p a b i (hholds p a i h) (hentries b i hb)
  newest p a i j h ha := hs.newest p a i j (hholds p a j h) (hentries a i ha)
  checked := hchecked

section Holds

variable {s : Host} {names : Names} {p q i : Nat} {a : Address} {k k' : Server}

theorem holds_set (hp : s.servers[p]? = some k) :
    Holds ⟨names, s.servers.set p k'⟩ q a i ↔
      if p = q then k'.socket = some (a, i) else Holds s q a i := by
  obtain ⟨hlt, -⟩ := List.getElem?_eq_some_iff.mp hp
  unfold Holds
  split_ifs with hpq
  · subst hpq
    simp [hlt]
  · simp [hpq]

theorem holds_set_of_socket (hp : s.servers[p]? = some k)
    (hsocket : k'.socket = k.socket ∨ k'.socket = none)
    (h : Holds ⟨names, s.servers.set p k'⟩ q a i) : Holds s q a i := by
  rw [holds_set hp] at h
  split_ifs at h with hpq
  · rcases hsocket with hsame | hnone
    · exact ⟨k, hpq ▸ hp, hsame ▸ h⟩
    · rw [hnone] at h
      cases h
  · exact h

end Holds

theorem holds_launch {s : Host} {addr a : Address} {p i : Nat}
    (h : Holds { s with servers := s.servers ++ [.called addr] } p a i) : Holds s p a i := by
  obtain ⟨k, hk, hsocket⟩ := h
  rcases Nat.lt_trichotomy p s.servers.length with hlt | heq | hgt
  · exact ⟨k, (List.getElem?_append_left hlt).symm.trans hk, hsocket⟩
  · have hcalled : (s.servers ++ [Server.called addr])[p]? = some (.called addr) := by
      rw [heq, List.getElem?_concat_length]
    obtain rfl := Option.some.inj (hcalled.symm.trans hk)
    cases hsocket
  · rw [List.getElem?_eq_none (by simpa using Nat.succ_le_of_lt hgt)] at hk
    cases hk

theorem checked_set {cfg : Config} {s : Host} {p : Nat} {k k' : Server} (hs : Inv cfg s)
    (hk : s.servers[p]? = some k)
    (hchecked : ∀ a ∈ k'.checked, a ∈ k.checked ∨ a.length < cfg.sunPath) :
    ∀ k₁ ∈ s.servers.set p k', ∀ a ∈ k₁.checked, a.length < cfg.sunPath := by
  intro k₁ hk₁ a ha
  rcases List.mem_or_eq_of_mem_set hk₁ with hk₁ | rfl
  · exact hs.checked k₁ hk₁ a ha
  · rcases hchecked a ha with ha | hlt
    · exact hs.checked k (List.mem_of_getElem? hk) a ha
    · exact hlt

theorem entries_bind {n : Names} {addr a : Address} {opens : Bool} :
    (n.bind addr opens).entries a =
      if a = addr then some (.socket n.sockets.length) else n.entries a :=
  Function.update_apply ..

theorem inv_bind {cfg : Config} {s : Host} {p : Nat} {addr : Address} (hs : Inv cfg s)
    (hp : s.servers[p]? = some (.opened addr)) :
    Inv cfg ⟨s.names.bind addr cfg.umaskOpens,
      s.servers.set p (.bound addr s.names.sockets.length)⟩ := by
  have hlength : (s.names.bind addr cfg.umaskOpens).sockets.length =
      s.names.sockets.length + 1 := by simp [Names.bind]
  have hentries : ∀ a i, (s.names.bind addr cfg.umaskOpens).entries a = some (.socket i) →
      addr = a ∧ s.names.sockets.length = i ∨ addr ≠ a ∧ s.names.entries a = some (.socket i) := by
    intro a i h
    rw [entries_bind] at h
    split_ifs at h with ha
    · cases h
      exact .inl ⟨ha.symm, rfl⟩
    · exact .inr ⟨Ne.symm ha, h⟩
  have hholds : ∀ q a i, Holds ⟨s.names.bind addr cfg.umaskOpens,
      s.servers.set p (.bound addr s.names.sockets.length)⟩ q a i →
      p = q ∧ addr = a ∧ s.names.sockets.length = i ∨ p ≠ q ∧ Holds s q a i := by
    intro q a i h
    rw [holds_set hp] at h
    split_ifs at h with hpq
    · cases h
      exact .inl ⟨hpq, rfl, rfl⟩
    · exact .inr ⟨hpq, h⟩
  -- the new socket is no socket of before
  constructor
  · intro a i h
    rw [hlength]
    rcases hentries a i h with ⟨-, rfl⟩ | ⟨-, h⟩
    · exact Nat.lt_succ_self _
    · exact Nat.lt_succ_of_lt (hs.fresh a i h)
  · intro q a i h
    rw [hlength]
    rcases hholds q a i h with ⟨-, -, rfl⟩ | ⟨-, h⟩
    · exact Nat.lt_succ_self _
    · exact Nat.lt_succ_of_lt (hs.held q a i h)
  · intro q r a b i hq hr
    rcases hholds q a i hq with ⟨rfl, -, rfl⟩ | ⟨-, hq⟩
    · rcases hholds r b _ hr with ⟨rfl, -, -⟩ | ⟨-, hr⟩
      · rfl
      · exact absurd (hs.held r b _ hr) (Nat.lt_irrefl _)
    · rcases hholds r b i hr with ⟨-, -, rfl⟩ | ⟨-, hr⟩
      · exact absurd (hs.held q a _ hq) (Nat.lt_irrefl _)
      · exact hs.own q r a b i hq hr
  · intro q a b i hq hb
    rcases hholds q a i hq with ⟨rfl, rfl, rfl⟩ | ⟨-, hq⟩
    · rcases hentries b _ hb with ⟨rfl, -⟩ | ⟨-, hb⟩
      · rfl
      · exact absurd (hs.fresh b _ hb) (Nat.lt_irrefl _)
    · rcases hentries b i hb with ⟨-, rfl⟩ | ⟨-, hb⟩
      · exact absurd (hs.held q a _ hq) (Nat.lt_irrefl _)
      · exact hs.place q a b i hq hb
  · intro q a i j hq ha
    rcases hholds q a j hq with ⟨rfl, rfl, rfl⟩ | ⟨-, hq⟩
    · rcases hentries _ i ha with ⟨-, rfl⟩ | ⟨hne, -⟩
      · exact Nat.le_refl _
      · exact absurd rfl hne
    · rcases hentries a i ha with ⟨-, rfl⟩ | ⟨-, ha⟩
      · exact Nat.le_of_lt (hs.held q a j hq)
      · exact hs.newest q a i j hq ha
  · exact checked_set hs hp fun a ha => .inl ha

theorem inv_step {cfg : Config} {s s' : Host} {l : Label} (hs : Inv cfg s)
    (hl : step cfg s l = some s') : Inv cfg s' := by
  cases l with
  | launch addr =>
      obtain rfl := Option.some.inj hl
      refine hs.of_holds (fun _ _ h => h) rfl (fun p a i h => holds_launch h) fun k hk => ?_
      rcases List.mem_append.mp hk with hk | hk
      · exact hs.checked k hk
      · obtain rfl := List.mem_singleton.mp hk
        intro a ha
        cases ha
  | act p action =>
      obtain ⟨k, names, k', hk, hact, rfl⟩ := step_act_cases hl
      cases act_cases hact with
      | quiet hsocket hpermitted hcheck =>
          exact hs.of_holds (fun _ _ h => h) rfl (fun q a i h => holds_set_of_socket hk hsocket h)
            (checked_set hs hk hcheck)
      | unlink hcalled hsocket hcheck =>
          refine hs.of_holds (fun a i h => ?_) (congrArg List.length sockets_unlink)
            (fun q a i h => holds_set_of_socket hk (.inr hsocket) h)
            (checked_set hs hk (by simp [hcheck]))
          rw [entries_unlink] at h
          split_ifs at h
          exact h
      | bind hfree => exact inv_bind hs hk
      | @chmod addr ino ok =>
          have hsame : (if ok then s.names.chmod addr else s.names).entries = s.names.entries ∧
              (if ok then s.names.chmod addr else s.names).sockets.length =
                s.names.sockets.length := by
            cases ok
            · exact ⟨rfl, rfl⟩
            · exact ⟨entries_chmod, length_chmod⟩
          have hsocket : (Server.permitted addr ino).socket = (Server.bound addr ino).socket := rfl
          exact hs.of_holds (fun a i h => hsame.1 ▸ h) hsame.2
            (fun q a i h => holds_set_of_socket hk (.inl hsocket) h)
            (checked_set hs hk fun a ha => .inl ha)

theorem inv_init (cfg : Config) (directories others : Address → Bool) :
    Inv cfg (host cfg directories others).init := by
  have hentries : ∀ a i, (initial directories others).entries a ≠ some (.socket i) := by
    intro a i h
    simp only [initial] at h
    split_ifs at h <;> cases h
  have hholds : ∀ p a i, ¬ Holds (host cfg directories others).init p a i := by
    rintro p a i ⟨k, hk, -⟩
    simp [host] at hk
  exact ⟨fun a i h => absurd h (hentries a i), fun p a i h => absurd h (hholds p a i),
    fun p q a b i h => absurd h (hholds p a i), fun p a b i h => absurd h (hholds p a i),
    fun p a i j h => absurd h (hholds p a j), by simp [host]⟩

theorem inv {cfg : Config} {directories others : Address → Bool} {s : Host}
    (h : (host cfg directories others).Reachable s) : Inv cfg s :=
  h.invariant (inv_init cfg directories others) fun _ hs hl => inv_step hs hl

/-! ### Connections -/

theorem listensOn_iff {k : Server} {ino : Nat} :
    k.listensOn ino = true ↔ ∃ addr, k = .listening addr ino := by
  cases k <;> simp [Server.listensOn]

/-- A connection goes to a process that listens, at the path it asks for. -/
theorem connect_cases {cfg : Config} {s : Host} (hs : Inv cfg s) {owner : Bool} {addr : Address}
    {p : Nat} (h : connect cfg s owner addr = some p) :
    ∃ ino, s.names.entries addr = some (.socket ino) ∧
      s.servers[p]? = some (.listening addr ino) ∧
      (owner = true ∨ s.names.sockets[ino]? = some true) := by
  unfold connect at h
  split_ifs at h
  split at h
  · next ino hentry =>
      split_ifs at h with hmode
      obtain ⟨hlt, hlistens, -⟩ := List.findIdx?_eq_some_iff_getElem.mp h
      obtain ⟨a, hk⟩ := listensOn_iff.mp hlistens
      have hget : s.servers[p]? = some (.listening a ino) := by
        rw [List.getElem?_eq_getElem hlt, hk]
      have hplace := hs.place p a addr ino ⟨_, hget, rfl⟩ hentry
      refine ⟨ino, hentry, hplace ▸ hget, ?_⟩
      cases owner with
      | true => exact .inl rfl
      | false =>
          cases hsocket : s.names.sockets[ino]? with
          | none => simp [hsocket] at hmode
          | some open' =>
              cases open' with
              | true => exact .inr rfl
              | false => simp [hsocket] at hmode
  all_goals cases h

theorem entry_unlink {n : Names} {addr a : Address} {ino : Nat} :
    (n.unlink a).entries addr = some (.socket ino) ↔
      n.entries addr = some (.socket ino) ∧ a ≠ addr := by
  rw [entries_unlink]
  split_ifs with h
  · obtain ⟨rfl, -⟩ := h
    simp
  · refine ⟨fun hentry => ⟨hentry, ?_⟩, And.left⟩
    rintro rfl
    exact h ⟨rfl, by simp [hentry]⟩

/-- Long paths, an open umask, and nothing there yet but a stale file at one path. -/
def plain : System Host Label := host ⟨108, true⟩ (fun _ => false) (· == ascii "/tmp/d.sock")

/-- A process whose `chmod` is done. -/
def Guards (s : Host) (p : Nat) (addr : Address) (ino : Nat) : Prop :=
  ∃ k, s.servers[p]? = some k ∧ k.socket = some (addr, ino) ∧ k.hasPermitted = true

/-- A socket that a process has guarded and that its path still stands for is closed to others. -/
def Guarded (s : Host) : Prop :=
  ∀ p a i, Guards s p a i → s.names.entries a = some (.socket i) →
    s.names.sockets[i]? = some false

theorem guards_set {s : Host} {names : Names} {p q i : Nat} {a : Address} {k k' : Server}
    (hp : s.servers[p]? = some k) (h : Guards ⟨names, s.servers.set p k'⟩ q a i) :
    p = q ∧ k'.socket = some (a, i) ∧ k'.hasPermitted = true ∨ p ≠ q ∧ Guards s q a i := by
  obtain ⟨hlt, -⟩ := List.getElem?_eq_some_iff.mp hp
  obtain ⟨k₁, hk₁, hsocket, hpermitted⟩ := h
  by_cases hpq : p = q
  · subst hpq
    obtain rfl : k' = k₁ := by simpa [hlt] using hk₁
    exact .inl ⟨rfl, hsocket, hpermitted⟩
  · rw [List.getElem?_set_ne hpq] at hk₁
    exact .inr ⟨hpq, k₁, hk₁, hsocket, hpermitted⟩

theorem guarded_step {cfg : Config} {s s' : Host} {l : Label} (hinv : Inv cfg s) (hs : Guarded s)
    (hok : ∀ p, l ≠ .act p (.chmod false)) (hl : step cfg s l = some s') : Guarded s' := by
  cases l with
  | launch addr =>
      obtain rfl := Option.some.inj hl
      rintro p a i ⟨k, hk, hsocket, hpermitted⟩ hentry
      obtain ⟨k₁, hk₁, hsocket₁⟩ := holds_launch ⟨k, hk, hsocket⟩
      have hlt := (List.getElem?_eq_some_iff.mp hk₁).1
      obtain rfl : k₁ = k := by
        have hsame : (s.servers ++ [Server.called addr])[p]? = s.servers[p]? :=
          List.getElem?_append_left hlt
        exact Option.some.inj (hk₁.symm.trans (hsame.symm.trans hk))
      exact hs p a i ⟨k₁, hk₁, hsocket, hpermitted⟩ hentry
  | act p action =>
      obtain ⟨k, names, k', hk, hact, rfl⟩ := step_act_cases hl
      intro q a i hguards hentry
      have hholds : Guards s q a i → i < s.names.sockets.length := fun ⟨k₁, hk₁, hsocket, _⟩ =>
        hinv.held q a i ⟨k₁, hk₁, hsocket⟩
      cases act_cases hact with
      | quiet hsocket hpermitted =>
          rcases guards_set hk hguards with ⟨rfl, hheld, hguard⟩ | ⟨-, hguards⟩
          · rcases hsocket with hsame | hnone
            · exact hs p a i ⟨k, hk, hsame ▸ hheld, hpermitted hguard⟩ hentry
            · rw [hnone] at hheld
              cases hheld
          · exact hs q a i hguards hentry
      | unlink hcalled hnone =>
          rw [entry_unlink] at hentry
          rw [sockets_unlink]
          rcases guards_set hk hguards with ⟨rfl, hheld, -⟩ | ⟨-, hguards⟩
          · rw [hnone] at hheld
            cases hheld
          · exact hs q a i hguards hentry.1
      | @bind addr hfree =>
          rcases guards_set hk hguards with ⟨rfl, -, hguard⟩ | ⟨-, hguards⟩
          · cases hguard
          · have hlt := hholds hguards
            rw [entries_bind] at hentry
            split_ifs at hentry
            · cases hentry
              exact absurd hlt (Nat.lt_irrefl _)
            · show (s.names.sockets ++ [cfg.umaskOpens])[i]? = _
              rw [List.getElem?_append_left hlt]
              exact hs q a i hguards hentry
      | @chmod addr ino ok =>
          have hnames : (if ok then s.names.chmod addr else s.names) = s.names.chmod addr := by
            cases action with
            | chmod done =>
                cases done with
                | true => exact (Prod.mk.inj (Option.some.inj hact)).1.symm
                | false => exact absurd rfl (hok p)
            | _ => simp [Server.act] at hact
          show (if ok then s.names.chmod addr else s.names).sockets[i]? = _
          change (if ok then s.names.chmod addr else s.names).entries a = _ at hentry
          rw [hnames, entries_chmod] at hentry
          rw [hnames, sockets_chmod]
          rcases guards_set hk hguards with ⟨rfl, hheld, -⟩ | ⟨-, hguards⟩
          · -- the path stands for its own socket still
            cases hheld
            rw [if_pos ⟨hentry, hinv.fresh a i hentry⟩]
          · rw [hs q a i hguards hentry]
            split_ifs <;> rfl

/-- **Other users are kept out.** However the processes interleave at a path, and whatever the
umask: where every `chmod` succeeds, no connection of another user is ever taken, also not between
the `bind` and the `chmod` of a process, or where the `chmod` finds the socket of another one. -/
theorem connect_owner_only (cfg : Config) (directories others : Address → Bool) {ls : List Label}
    {s : Host} (hrun : (host cfg directories others).run ls = some s)
    (hok : ∀ p, .act p (.chmod false) ∉ ls) (addr : Address) :
    connect cfg s false addr = none := by
  have hguarded : Inv cfg s ∧ Guarded s := by
    have hstep : ∀ {t l t'}, Inv cfg t ∧ Guarded t → (∀ p, l ≠ .act p (.chmod false)) →
        (host cfg directories others).step t l = some t' → Inv cfg t' ∧ Guarded t' :=
      fun ht hcond hl => ⟨inv_step ht.1 hl, guarded_step ht.1 ht.2 hcond hl⟩
    have hcond : ∀ l ∈ ls, ∀ _ : Host, ∀ p, l ≠ .act p (.chmod false) := by
      rintro l hl - p rfl
      exact hok p hl
    have hinit : Guarded (host cfg directories others).init := by
      rintro p a i ⟨k, hk, -⟩
      simp [host] at hk
    exact System.runFrom_invariant hstep ⟨inv_init cfg directories others, hinit⟩ hrun
      (System.each_of_forall hcond _)
  cases hconnect : connect cfg s false addr with
  | none => rfl
  | some p =>
      obtain ⟨ino, hentry, hget, howner | hopen⟩ := connect_cases hguarded.1 hconnect
      · cases howner
      · have hclosed := hguarded.2 p addr ino ⟨_, hget, rfl, rfl⟩ hentry
        rw [hopen] at hclosed
        cases hclosed

/-- The `chmod` of the first process finds the socket of the second, which listens. -/
theorem connect_owner_only_crossed :
    let addr := ascii "/tmp/d.sock"
    ∃ s, plain.run [.launch addr, .launch addr, .act 0 .unlink, .act 0 (.socket true),
      .act 0 (.bind true), .act 1 .unlink, .act 1 (.socket true), .act 1 (.bind true),
      .act 0 (.chmod true), .act 0 (.listen true), .act 1 (.chmod true), .act 1 (.listen true)] =
        some s ∧
      connect ⟨108, true⟩ s true addr = some 1 ∧ connect ⟨108, true⟩ s false addr = none := by
  intro addr
  have hrun : ∃ s, plain.run [.launch addr, .launch addr, .act 0 .unlink, .act 0 (.socket true),
      .act 0 (.bind true), .act 1 .unlink, .act 1 (.socket true), .act 1 (.bind true),
      .act 0 (.chmod true), .act 0 (.listen true), .act 1 (.chmod true), .act 1 (.listen true)] =
        some s ∧ connect ⟨108, true⟩ s true addr = some 1 := ⟨_, rfl, rfl⟩
  obtain ⟨s, hrun, howner⟩ := hrun
  exact ⟨s, hrun, howner, connect_owner_only _ _ _ hrun (by simp) addr⟩

end SocketPaths

end Dafeng.Endpoint
