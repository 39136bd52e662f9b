import Dafeng.Library.Bytes
import Dafeng.Library.Transition

/-!
# Dafeng.Learning.GitSync

The last step of a learning round: `Init`, `CommitAll` and `Push` of `src/daemon/git_sync.cc` as
`RunLearningRound` calls them, on the `userdata` directory that the daemon and `dafeng-cli learn`
share.

Several rounds may be at this step at a time, in one process or in two. Each call into libgit2 is a
step of its own and may fail; `git_commit_create` also fails where the branch has moved since its
parent was looked up. What a round finds in the directory, which others write meanwhile, is left
open.
-/

namespace Dafeng.Learning.GitSync

/-- `GitSyncConfig`, with the two switches of `LearningRoundConfig`. -/
structure SyncConfig where
  commitToGit : Bool := true
  pushToRemote : Bool := false
  remoteName : Bytes := ascii "origin"
  pushUrl : Bytes := []
  pushEnabled : Bool := false
  deriving DecidableEq, Repr

/-- A commit: its tree, and its parent by its number. -/
structure Commit (τ : Type) where
  tree : τ
  parent : Option Nat
  deriving DecidableEq, Repr

/-- A repository: its commits in the order in which they were made, the tip of the branch that
HEAD names, and the remotes with their URLs. `master` is the tip of `refs/heads/master` where HEAD
names another branch. -/
structure Repository (τ : Type) where
  made : Bool := false
  commits : List (Commit τ) := []
  head : Option Nat := none
  headIsMaster : Bool := true
  master : Option Nat := none
  remotes : List (Bytes × Bytes) := []
  deriving DecidableEq, Repr

/-- A round in its last step, up to `result.committed` and `result.pushed`. -/
inductive Sync (τ : Type)
  | waiting
  | opened
  | staged (tree : τ)
  | treed (tree : τ)
  | parented (tree : τ) (parent : Option Nat)
  | committed
  | remote (url : Bytes)
  | done (committed pushed : Bool)
  deriving DecidableEq, Repr

/-- The calls into libgit2, with whether they succeed where the repository does not decide it. -/
inductive Action (τ : Type)
  /-- `git_repository_init_ext`, and `git_repository_open`; the user's configuration says whether
  a new repository starts on master -/
  | init (ok startsOnMaster : Bool)
  /-- `git_index_add_all` and `git_index_write`, with what the directory held -/
  | stage (found : Option τ)
  /-- `git_index_write_tree`, `git_tree_lookup` and `git_signature_now` -/
  | writeTree (ok : Bool)
  /-- `git_reference_name_to_id` of HEAD, and `git_commit_lookup` -/
  | findHead (found lookedUp : Bool)
  /-- `git_commit_create` -/
  | create (ok : Bool)
  /-- `git_remote_lookup` and `git_remote_create` -/
  | findRemote (ok : Bool)
  /-- `git_remote_push` -/
  | send (ok : Bool)
  deriving DecidableEq, Repr

/-- What a call leaves: the repository and the round, and what it staged, committed, which URL it
contacted, and the tip it sent there. -/
structure Outcome (τ : Type) where
  repo : Repository τ
  sync : Sync τ
  staged : Option τ := none
  landed : Option τ := none
  contacted : Option Bytes := none
  sent : Option Nat := none

variable {τ : Type}

/-- A repository is made once. -/
def Repository.init (repo : Repository τ) (startsOnMaster : Bool) : Repository τ :=
  if repo.made then repo else { repo with made := true, headIsMaster := startsOnMaster }

/-- A new commit, and the branch goes to it. -/
def Repository.commit (repo : Repository τ) (tree : τ) (parent : Option Nat) : Repository τ :=
  { repo with commits := repo.commits ++ [⟨tree, parent⟩], head := some repo.commits.length }

/-- What `refs/heads/master` stands for. -/
def Repository.masterTip (repo : Repository τ) : Option Nat :=
  if repo.headIsMaster then repo.head else repo.master

/-- Whether `Push` goes to the network. -/
def SyncConfig.pushes (cfg : SyncConfig) : Bool := cfg.pushEnabled && !cfg.pushUrl.isEmpty

/-- Behind `CommitAll`: whether `Push` is called, and whether it has anything to do. -/
def afterCommit (cfg : SyncConfig) : Sync τ :=
  if !cfg.pushToRemote then .done true false
  else if !cfg.pushes then .done true true
  else .committed

/-- The next call of a round. -/
def Sync.act (cfg : SyncConfig) (repo : Repository τ) : Action τ → Sync τ → Option (Outcome τ)
  | .init ok startsOnMaster, .waiting =>
    if ok then some { repo := repo.init startsOnMaster, sync := .opened }
    else some { repo, sync := .done false false }
  | .stage found, .opened =>
    match found with
    | some tree => some { repo, sync := .staged tree, staged := some tree }
    | none => some { repo, sync := .done false false }
  | .writeTree ok, .staged tree =>
    some { repo, sync := if ok then .treed tree else .done false false }
  | .findHead found lookedUp, .treed tree =>
    match repo.head with
    | some tip =>
      if !found then some { repo, sync := .parented tree none }
      else if lookedUp then some { repo, sync := .parented tree (some tip) }
      else some { repo, sync := .done false false }
    | none => some { repo, sync := .parented tree none }
  | .create ok, .parented tree parent =>
    if ok && repo.head == parent then
      some { repo := repo.commit tree parent, sync := afterCommit cfg, landed := some tree }
    else some { repo, sync := .done false false }
  | .findRemote ok, .committed =>
    if !ok then some { repo, sync := .done true false }
    else
      match repo.remotes.lookup cfg.remoteName with
      | some url => some { repo, sync := .remote url }
      | none =>
        some { repo := { repo with remotes := (cfg.remoteName, cfg.pushUrl) :: repo.remotes }
               sync := .remote cfg.pushUrl }
  | .send ok, .remote url =>
    match ok, repo.masterTip with
    | true, some tip =>
      some { repo, sync := .done true true, contacted := some url, sent := some tip }
    | true, none | false, _ => some { repo, sync := .done true false, contacted := some url }
  | _, _ => none

/-- The repository, and the rounds in the order in which they came to their last step. The last
four fields only record, each with the round: what was staged and committed, the URLs that were
contacted, and the tips that were sent. -/
structure Host (τ : Type) where
  repo : Repository τ
  syncs : List (SyncConfig × Sync τ) := []
  staged : List (Nat × τ) := []
  landed : List (Nat × τ) := []
  contacted : List (Nat × Bytes) := []
  sent : List (Nat × Nat) := []
  deriving DecidableEq, Repr

inductive Label (τ : Type)
  /-- a round has written its files -/
  | enter (cfg : SyncConfig)
  | act (p : Nat) (action : Action τ)
  deriving DecidableEq, Repr

/-- What the round `p` adds to a record. -/
def record {α : Type} (p : Nat) (a : Option α) : List (Nat × α) := (a.map (p, ·)).toList

/-- A round starts its last step. -/
def SyncConfig.enter (cfg : SyncConfig) : Sync τ :=
  if cfg.commitToGit then .waiting else .done false false

def step (s : Host τ) : Label τ → Option (Host τ)
  | .enter cfg => some { s with syncs := s.syncs ++ [(cfg, cfg.enter)] }
  | .act p action => do
    let (cfg, sync) ← s.syncs[p]?
    let o ← sync.act cfg s.repo action
    some {
      repo := o.repo
      syncs := s.syncs.set p (cfg, o.sync)
      staged := s.staged ++ record p o.staged
      landed := s.landed ++ record p o.landed
      contacted := s.contacted ++ record p o.contacted
      sent := s.sent ++ record p o.sent }

/-- Rounds on a directory that may have a repository already. -/
def learners (repo : Repository τ) : System (Host τ) (Label τ) := ⟨{ repo }, step⟩

/-! ### What a round leaves -/

/-- What one round recorded. -/
def mine {α : Type} (p : Nat) (entries : List (Nat × α)) : List α :=
  (entries.filter (·.1 == p)).map Prod.snd

theorem mine_record_self {α : Type} (p : Nat) (entries : List (Nat × α)) (a : Option α) :
    mine p (entries ++ record p a) = mine p entries ++ a.toList := by
  cases a <;> simp [mine, record]

theorem mine_record_other {α : Type} {p q : Nat} (h : q ≠ p) (entries : List (Nat × α))
    (a : Option α) : mine p (entries ++ record q a) = mine p entries := by
  cases a <;> simp [mine, record, h]

theorem mem_of_mem_mine {α : Type} {p : Nat} {entries : List (Nat × α)} {a : α}
    (h : a ∈ mine p entries) : (p, a) ∈ entries := by
  obtain ⟨⟨q, b⟩, hmem, rfl⟩ := List.mem_map.mp h
  obtain ⟨hentry, hq⟩ := List.mem_filter.mp hmem
  obtain rfl : q = p := eq_of_beq hq
  exact hentry

/-- Whether a round has made its commit. -/
def Sync.hasCommitted : Sync τ → Bool
  | .committed | .remote _ => true
  | .done made _ => made
  | .waiting | .opened | .staged _ | .treed _ | .parented _ _ => false

/-- A configuration whose rounds go to the network. -/
def SyncConfig.optedIn (cfg : SyncConfig) : Bool :=
  cfg.commitToGit && cfg.pushToRemote && cfg.pushes

/-- What a round has staged, committed, contacted and sent where it stands. -/
inductive Ledger (cfg : SyncConfig) :
    Sync τ → List τ → List τ → List Bytes → List Nat → Prop
  | waiting (h : cfg.commitToGit) : Ledger cfg .waiting [] [] [] []
  | opened (h : cfg.commitToGit) : Ledger cfg .opened [] [] [] []
  | staged (h : cfg.commitToGit) (tree : τ) : Ledger cfg (.staged tree) [tree] [] [] []
  | treed (h : cfg.commitToGit) (tree : τ) : Ledger cfg (.treed tree) [tree] [] [] []
  | parented (h : cfg.commitToGit) (tree : τ) (parent : Option Nat) :
      Ledger cfg (.parented tree parent) [tree] [] [] []
  | committed (h : cfg.optedIn) (tree : τ) : Ledger cfg .committed [tree] [tree] [] []
  | remote (h : cfg.optedIn) (tree : τ) (url : Bytes) :
      Ledger cfg (.remote url) [tree] [tree] [] []
  | failed (trees : List τ) (h : trees.length ≤ 1) : Ledger cfg (.done false false) trees [] [] []
  | kept (tree : τ) : Ledger cfg (.done true false) [tree] [tree] [] []
  | idle (h : cfg.pushToRemote) (hpush : cfg.pushes = false) (tree : τ) :
      Ledger cfg (.done true true) [tree] [tree] [] []
  | refused (h : cfg.optedIn) (tree : τ) (url : Bytes) :
      Ledger cfg (.done true false) [tree] [tree] [url] []
  | pushed (h : cfg.optedIn) (tree : τ) (url : Bytes) (tip : Nat) :
      Ledger cfg (.done true true) [tree] [tree] [url] [tip]

theorem ledger_enter (cfg : SyncConfig) : Ledger (τ := τ) cfg cfg.enter [] [] [] [] := by
  unfold SyncConfig.enter
  split_ifs with h
  · exact .waiting h
  · exact .failed [] (Nat.zero_le _)

theorem ledger_afterCommit (cfg : SyncConfig) (h : cfg.commitToGit) (tree : τ) :
    Ledger cfg (afterCommit cfg) [tree] [tree] [] [] := by
  unfold afterCommit
  split_ifs with hask hpush
  · exact .kept tree
  · exact .idle (by simpa using hask) (by simpa using hpush) tree
  · refine .committed ?_ tree
    simp only [Bool.not_eq_true', Bool.not_eq_false] at hask hpush
    rw [SyncConfig.optedIn, h, hask, hpush]
    rfl

/-- One call brings a round from one line of its ledger to the next. -/
theorem ledger_act {cfg : SyncConfig} {repo : Repository τ} {action : Action τ} {sync : Sync τ}
    {o : Outcome τ} {staged landed : List τ} {contacted : List Bytes} {sent : List Nat}
    (h : sync.act cfg repo action = some o) (hl : Ledger cfg sync staged landed contacted sent) :
    Ledger cfg o.sync (staged ++ o.staged.toList) (landed ++ o.landed.toList)
      (contacted ++ o.contacted.toList) (sent ++ o.sent.toList) := by
  unfold Sync.act at h
  split at h
  case h_1 ok startsOnMaster =>
    cases hl with
    | waiting hc =>
        split_ifs at h <;> obtain rfl := Option.some.inj h
        · exact .opened hc
        · exact .failed [] (Nat.zero_le _)
  case h_2 found =>
    cases hl with
    | opened hc =>
        split at h <;> obtain rfl := Option.some.inj h
        · exact .staged hc _
        · exact .failed [] (Nat.zero_le _)
  case h_3 ok tree =>
    cases hl with
    | staged hc tree =>
        obtain rfl := Option.some.inj h
        cases ok
        · exact .failed [tree] le_rfl
        · exact .treed hc tree
  case h_4 found lookedUp tree =>
    cases hl with
    | treed hc tree =>
        split at h
        · split_ifs at h <;> obtain rfl := Option.some.inj h
          · exact .parented hc tree none
          · exact .parented hc tree _
          · exact .failed [tree] le_rfl
        · obtain rfl := Option.some.inj h
          exact .parented hc tree none
  case h_5 ok tree parent =>
    cases hl with
    | parented hc tree parent =>
        split_ifs at h <;> obtain rfl := Option.some.inj h
        · exact ledger_afterCommit cfg hc tree
        · exact .failed [tree] le_rfl
  case h_6 ok =>
    cases hl with
    | committed ho tree =>
        split_ifs at h
        · obtain rfl := Option.some.inj h
          exact .kept tree
        · split at h <;> obtain rfl := Option.some.inj h
          · exact .remote ho tree _
          · exact .remote ho tree cfg.pushUrl
  case h_7 ok url =>
    cases hl with
    | remote ho tree url =>
        split at h <;> obtain rfl := Option.some.inj h
        · exact .pushed ho tree url _
        · exact .refused ho tree url
        · exact .refused ho tree url
  case h_8 => cases h

/-- What one call does to the repository: it is made, the branch takes a commit on its tip, a
remote is added, or it stays. -/
theorem act_cases {cfg : SyncConfig} {repo : Repository τ} {action : Action τ} {sync : Sync τ}
    {o : Outcome τ} (h : sync.act cfg repo action = some o) :
    (∃ startsOnMaster, sync = .waiting ∧
      o = { repo := repo.init startsOnMaster, sync := .opened }) ∨
    (∃ tree, sync = .parented tree repo.head ∧
      o = { repo := repo.commit tree repo.head, sync := afterCommit cfg, landed := some tree }) ∨
    (repo.remotes.lookup cfg.remoteName = none ∧ sync = .committed ∧
      o = { repo := { repo with remotes := (cfg.remoteName, cfg.pushUrl) :: repo.remotes }
            sync := .remote cfg.pushUrl }) ∨
    (o.repo = repo ∧ o.landed = none ∧
      (∀ tip ∈ o.sent, repo.masterTip = some tip ∧ ∃ url, sync = .remote url) ∧
      (∀ url ∈ o.contacted, sync = .remote url) ∧
      ∀ url, o.sync = .remote url → repo.remotes.lookup cfg.remoteName = some url) := by
  unfold Sync.act at h
  split at h
  case h_1 ok startsOnMaster =>
    split_ifs at h <;> obtain rfl := Option.some.inj h
    · exact .inl ⟨startsOnMaster, rfl, rfl⟩
    · exact .inr (.inr (.inr ⟨rfl, rfl, nofun, nofun, nofun⟩))
  case h_2 found =>
    right; right; right
    split at h <;> obtain rfl := Option.some.inj h <;> exact ⟨rfl, rfl, nofun, nofun, nofun⟩
  case h_3 ok tree =>
    obtain rfl := Option.some.inj h
    refine .inr (.inr (.inr ⟨rfl, rfl, nofun, nofun, fun url hurl => ?_⟩))
    cases ok <;> cases hurl
  case h_4 found lookedUp tree =>
    right; right; right
    split at h
    · split_ifs at h <;> obtain rfl := Option.some.inj h <;> exact ⟨rfl, rfl, nofun, nofun, nofun⟩
    · obtain rfl := Option.some.inj h
      exact ⟨rfl, rfl, nofun, nofun, nofun⟩
  case h_5 ok tree parent =>
    split_ifs at h with hok <;> obtain rfl := Option.some.inj h
    · obtain rfl : repo.head = parent := eq_of_beq (Bool.and_eq_true_iff.mp hok).2
      exact .inr (.inl ⟨tree, rfl, rfl⟩)
    · exact .inr (.inr (.inr ⟨rfl, rfl, nofun, nofun, nofun⟩))
  case h_6 ok =>
    split_ifs at h
    · obtain rfl := Option.some.inj h
      exact .inr (.inr (.inr ⟨rfl, rfl, nofun, nofun, nofun⟩))
    · split at h
      · rename_i url hurl
        obtain rfl := Option.some.inj h
        refine .inr (.inr (.inr ⟨rfl, rfl, nofun, nofun, fun url' hurl' => ?_⟩))
        obtain rfl := Sync.remote.inj hurl'
        exact hurl
      · rename_i hnone
        obtain rfl := Option.some.inj h
        exact .inr (.inr (.inl ⟨hnone, rfl, rfl⟩))
  case h_7 ok url =>
    right; right; right
    split at h
    · rename_i tip htip
      obtain rfl := Option.some.inj h
      refine ⟨rfl, rfl, fun tip' htip' => ?_, fun url' hurl' => ?_, nofun⟩
      · obtain rfl := Option.some.inj htip'
        exact ⟨htip, url, rfl⟩
      · rw [Option.some.inj hurl']
    · obtain rfl := Option.some.inj h
      exact ⟨rfl, rfl, nofun, fun url' hurl' => by rw [Option.some.inj hurl'], nofun⟩
    · obtain rfl := Option.some.inj h
      exact ⟨rfl, rfl, nofun, fun url' hurl' => by rw [Option.some.inj hurl'], nofun⟩
  case h_8 => cases h

/-- The branch stays, or takes what was committed on its tip. -/
theorem act_branch {cfg : SyncConfig} {repo : Repository τ} {action : Action τ} {sync : Sync τ}
    {o : Outcome τ} (h : sync.act cfg repo action = some o) :
    (o.landed = none ∧ o.repo.commits = repo.commits ∧ o.repo.head = repo.head) ∨
      ∃ tree, o.landed = some tree ∧ o.repo = repo.commit tree repo.head := by
  obtain ⟨b, -, rfl⟩ | ⟨tree, -, rfl⟩ | ⟨-, -, rfl⟩ | ⟨hrepo, hlanded, -⟩ := act_cases h
  · left
    unfold Repository.init
    split_ifs <;> exact ⟨rfl, rfl, rfl⟩
  · exact .inr ⟨tree, rfl, rfl⟩
  · exact .inl ⟨rfl, rfl, rfl⟩
  · exact .inl ⟨hlanded, by rw [hrepo], by rw [hrepo]⟩

/-! ### History -/

/-- The commits of these trees, each on the one before, from a parent on. -/
def chain (next : Nat) : Option Nat → List τ → List (Commit τ)
  | _, [] => []
  | parent, tree :: trees => ⟨tree, parent⟩ :: chain (next + 1) (some next) trees

/-- The tip behind `count` commits that were made from `next` on. -/
def tip (next : Nat) (parent : Option Nat) (count : Nat) : Option Nat :=
  if count = 0 then parent else some (next + count - 1)

theorem chain_concat (next : Nat) (parent : Option Nat) (trees : List τ) (tree : τ) :
    chain next parent (trees ++ [tree]) =
      chain next parent trees ++ [⟨tree, tip next parent trees.length⟩] := by
  induction trees generalizing next parent with
  | nil => rfl
  | cons t trees ih =>
      rw [List.cons_append, chain, ih, chain, List.cons_append]
      congr 4
      unfold tip
      rw [List.length_cons, if_neg (Nat.succ_ne_zero _)]
      split_ifs with h
      · rw [h]
        rfl
      · rw [show next + 1 + trees.length - 1 = next + (trees.length + 1) - 1 by omega]

theorem length_chain (next : Nat) (parent : Option Nat) (trees : List τ) :
    (chain next parent trees).length = trees.length := by
  induction trees generalizing next parent with
  | nil => rfl
  | cons t trees ih => rw [chain, List.length_cons, ih, List.length_cons]

/-- What holds of the repository and of each round, from a first repository on. -/
structure Inv (repo : Repository τ) (s : Host τ) : Prop where
  commits : s.repo.commits =
    repo.commits ++ chain repo.commits.length repo.head (s.landed.map Prod.snd)
  head : s.repo.head = tip repo.commits.length repo.head s.landed.length
  ledger : ∀ p cfg sync, s.syncs[p]? = some (cfg, sync) →
    Ledger cfg sync (mine p s.staged) (mine p s.landed) (mine p s.contacted) (mine p s.sent)
  known : ∀ p, s.syncs.length ≤ p →
    mine p s.staged = [] ∧ mine p s.landed = [] ∧ mine p s.contacted = [] ∧ mine p s.sent = []

theorem Inv.length_commits {repo : Repository τ} {s : Host τ} (hs : Inv repo s) :
    s.repo.commits.length = repo.commits.length + s.landed.length := by
  rw [hs.commits, List.length_append, length_chain, List.length_map]

theorem inv_init (repo : Repository τ) : Inv repo (learners repo).init where
  commits := (List.append_nil _).symm
  head := rfl
  ledger p cfg sync h := by cases h
  known p _ := ⟨rfl, rfl, rfl, rfl⟩

/-- A call is one of a round that entered, and only its records grow. -/
theorem step_act {s s' : Host τ} {p : Nat} {action : Action τ}
    (h : step s (.act p action) = some s') :
    ∃ cfg sync o, s.syncs[p]? = some (cfg, sync) ∧ sync.act cfg s.repo action = some o ∧
      s' = {
        repo := o.repo
        syncs := s.syncs.set p (cfg, o.sync)
        staged := s.staged ++ record p o.staged
        landed := s.landed ++ record p o.landed
        contacted := s.contacted ++ record p o.contacted
        sent := s.sent ++ record p o.sent } := by
  obtain ⟨⟨cfg, sync⟩, hget, h⟩ := Option.bind_eq_some_iff.mp h
  obtain ⟨o, hact, h⟩ := Option.bind_eq_some_iff.mp h
  exact ⟨cfg, sync, o, hget, hact, (Option.some.inj h).symm⟩

theorem inv_step {repo : Repository τ} {s s' : Host τ} {l : Label τ} (hs : Inv repo s)
    (h : step s l = some s') : Inv repo s' := by
  cases l with
  | enter cfg =>
      obtain rfl := Option.some.inj h
      refine ⟨hs.commits, hs.head, fun p cfg' sync hget => ?_, fun p hp => ?_⟩
      · rw [List.getElem?_append] at hget
        split_ifs at hget with hlt
        · exact hs.ledger p cfg' sync hget
        · obtain ⟨hst, hla, hco, hse⟩ := hs.known p (Nat.le_of_not_lt hlt)
          obtain ⟨rfl, rfl⟩ : cfg = cfg' ∧ cfg.enter = sync := by
            cases hsub : p - s.syncs.length with
            | zero => simpa [hsub] using hget
            | succ n => simp [hsub] at hget
          rw [hst, hla, hco, hse]
          exact ledger_enter cfg
      · rw [List.length_append] at hp
        exact hs.known p (by omega)
  | act p action =>
      obtain ⟨cfg, sync, o, hget, hact, rfl⟩ := step_act h
      have hp : p < s.syncs.length := (List.getElem?_eq_some_iff.mp hget).1
      refine ⟨?_, ?_, fun q cfg' sync' hq => ?_, fun q hq => ?_⟩
      · obtain ⟨hnone, hcommits, -⟩ | ⟨tree, hsome, hrepo⟩ := act_branch hact
        · simp only [hcommits, hnone, record, Option.map_none, Option.toList_none,
            List.append_nil]
          exact hs.commits
        · simp only [hrepo, hsome, Repository.commit, hs.commits, hs.head, record,
            Option.map_some, Option.toList_some, List.map_append, List.map_cons, List.map_nil,
            chain_concat, List.length_map, List.append_assoc]
      · obtain ⟨hnone, -, hhead⟩ | ⟨tree, hsome, hrepo⟩ := act_branch hact
        · simp only [hhead, hnone, record, Option.map_none, Option.toList_none, List.append_nil]
          exact hs.head
        · simp only [hrepo, hsome, Repository.commit, hs.length_commits, record,
            Option.map_some, Option.toList_some, List.length_append, List.length_singleton, tip,
            if_neg (Nat.succ_ne_zero _)]
          exact congrArg some (by omega)
      · by_cases hpq : q = p
        · subst hpq
          rw [List.getElem?_set_self hp] at hq
          obtain ⟨rfl, rfl⟩ := Prod.mk.inj (Option.some.inj hq)
          simp only [mine_record_self]
          exact ledger_act hact (hs.ledger q cfg sync hget)
        · rw [List.getElem?_set_ne (Ne.symm hpq)] at hq
          simp only [mine_record_other (Ne.symm hpq)]
          exact hs.ledger q cfg' sync' hq
      · rw [List.length_set] at hq
        simp only [mine_record_other (show p ≠ q by omega)]
        exact hs.known q hq

theorem Inv.reachable {repo : Repository τ} {s : Host τ} (h : (learners repo).Reachable s) :
    Inv repo s :=
  h.invariant (inv_init repo) fun _ hs hl => inv_step hs hl

/-- Two rounds that look up the same tip. -/
def race (cfg cfg' : SyncConfig) : List (Label Nat) :=
  [.enter cfg, .enter cfg', .act 0 (.init true true), .act 1 (.init true true),
    .act 0 (.stage (some 7)), .act 1 (.stage (some 8)), .act 0 (.writeTree true),
    .act 1 (.writeTree true), .act 0 (.findHead true true), .act 1 (.findHead true true),
    .act 0 (.create true), .act 1 (.create true)]

/-- Past `Init`. -/
def Sync.isOpen : Sync τ → Bool
  | .waiting | .done false _ => false
  | .opened | .staged _ | .treed _ | .parented _ _ | .committed | .remote _ | .done true _ => true

theorem Ledger.isOpen_of_sent {cfg : SyncConfig} {sync : Sync τ} {staged landed : List τ}
    {contacted : List Bytes} {sent : List Nat} (h : Ledger cfg sync staged landed contacted sent)
    {tip : Nat} (hmem : tip ∈ sent) : sync.isOpen := by
  cases h with
  | pushed h tree url tip => rfl
  | _ => cases hmem

theorem Ledger.optedIn_of_committed {cfg : SyncConfig} {staged landed : List τ}
    {contacted : List Bytes} {sent : List Nat}
    (h : Ledger cfg .committed staged landed contacted sent) : cfg.optedIn := by
  cases h with
  | committed h tree => exact h

theorem Ledger.landed_of_remote {cfg : SyncConfig} {url : Bytes} {staged landed : List τ}
    {contacted : List Bytes} {sent : List Nat}
    (h : Ledger cfg (.remote url) staged landed contacted sent) : ∃ tree, landed = [tree] := by
  cases h with
  | remote h tree url => exact ⟨tree, rfl⟩

/-- A repository that is made stays where it is, but for its commits and remotes. -/
theorem act_keeps {cfg : SyncConfig} {repo : Repository τ} {action : Action τ} {sync : Sync τ}
    {o : Outcome τ} (h : sync.act cfg repo action = some o) (hmade : repo.made) :
    o.repo.made ∧ o.repo.headIsMaster = repo.headIsMaster := by
  obtain ⟨b, -, rfl⟩ | ⟨tree, -, rfl⟩ | ⟨-, -, rfl⟩ | ⟨hrepo, -⟩ := act_cases h
  · simp [Repository.init, hmade]
  · exact ⟨hmade, rfl⟩
  · exact ⟨hmade, rfl⟩
  · exact ⟨hrepo ▸ hmade, by rw [hrepo]⟩

/-- A round that is open has a repository. -/
theorem act_made {cfg : SyncConfig} {repo : Repository τ} {action : Action τ} {sync : Sync τ}
    {o : Outcome τ} (h : sync.act cfg repo action = some o) (hs : sync.isOpen → repo.made)
    (ho : o.sync.isOpen) : o.repo.made := by
  have hkeeps : repo.made → o.repo.made := fun hmade => (act_keeps h hmade).1
  -- only the first call comes from a round that is not open, and it makes the repository
  unfold Sync.act at h
  split at h
  case h_1 ok startsOnMaster =>
    split_ifs at h <;> obtain rfl := Option.some.inj h
    · show (repo.init startsOnMaster).made
      unfold Repository.init
      split_ifs with hmade
      · exact hmade
      · rfl
    · cases ho
  case h_8 => cases h
  all_goals exact hkeeps (hs rfl)

/-- A remote stays. -/
theorem act_lookup {cfg : SyncConfig} {repo : Repository τ} {action : Action τ} {sync : Sync τ}
    {o : Outcome τ} (h : sync.act cfg repo action = some o) {name url : Bytes}
    (hurl : repo.remotes.lookup name = some url) : o.repo.remotes.lookup name = some url := by
  obtain ⟨b, -, rfl⟩ | ⟨tree, -, rfl⟩ | ⟨hnone, -, rfl⟩ | ⟨hrepo, -⟩ := act_cases h
  · unfold Repository.init
    split_ifs <;> exact hurl
  · exact hurl
  · have hne : (name == cfg.remoteName) = false := by
      rw [beq_eq_false_iff_ne]
      rintro rfl
      rw [hurl] at hnone
      cases hnone
    show List.lookup name ((cfg.remoteName, cfg.pushUrl) :: repo.remotes) = some url
    rw [List.lookup_cons, hne]
    exact hurl
  · rw [hrepo]
    exact hurl

/-- A new remote is one that the round asked for. -/
theorem lookup_act {cfg : SyncConfig} {repo : Repository τ} {action : Action τ} {sync : Sync τ}
    {o : Outcome τ} (h : sync.act cfg repo action = some o) {name url : Bytes}
    (hurl : o.repo.remotes.lookup name = some url) :
    repo.remotes.lookup name = some url ∨
      (sync = .committed ∧ cfg.remoteName = name ∧ cfg.pushUrl = url) := by
  obtain ⟨b, -, rfl⟩ | ⟨tree, -, rfl⟩ | ⟨-, hsync, rfl⟩ | ⟨hrepo, -⟩ := act_cases h
  · unfold Repository.init at hurl
    split_ifs at hurl <;> exact .inl hurl
  · exact .inl hurl
  · have hcons : List.lookup name ((cfg.remoteName, cfg.pushUrl) :: repo.remotes) = some url := hurl
    rw [List.lookup_cons] at hcons
    split at hcons
    · rename_i heq
      exact .inr ⟨hsync, (eq_of_beq heq).symm, Option.some.inj hcons⟩
    · exact .inl hcons
  · rw [hrepo] at hurl
    exact .inl hurl

theorem act_contacted {cfg : SyncConfig} {repo : Repository τ} {action : Action τ} {sync : Sync τ}
    {o : Outcome τ} (h : sync.act cfg repo action = some o) {url : Bytes}
    (hurl : o.contacted = some url) : sync = .remote url := by
  obtain ⟨b, -, rfl⟩ | ⟨tree, -, rfl⟩ | ⟨-, -, rfl⟩ | ⟨-, -, -, hall, -⟩ := act_cases h
  · cases hurl
  · cases hurl
  · cases hurl
  · exact hall url hurl

theorem act_sent {cfg : SyncConfig} {repo : Repository τ} {action : Action τ} {sync : Sync τ}
    {o : Outcome τ} (h : sync.act cfg repo action = some o) {t : Nat} (ht : o.sent = some t) :
    repo.masterTip = some t ∧ ∃ url, sync = .remote url := by
  obtain ⟨b, -, rfl⟩ | ⟨tree, -, rfl⟩ | ⟨-, -, rfl⟩ | ⟨-, -, hall, -⟩ := act_cases h
  · cases ht
  · cases ht
  · cases ht
  · exact hall t ht

/-- The remote that a round goes to is one of the repository. -/
theorem act_next {cfg : SyncConfig} {repo : Repository τ} {action : Action τ} {sync : Sync τ}
    {o : Outcome τ} (h : sync.act cfg repo action = some o) {url : Bytes}
    (hnext : o.sync = .remote url) : o.repo.remotes.lookup cfg.remoteName = some url := by
  obtain ⟨b, -, rfl⟩ | ⟨tree, -, rfl⟩ | ⟨-, -, rfl⟩ | ⟨hrepo, -, -, -, hall⟩ := act_cases h
  · cases hnext
  · have hafter : afterCommit cfg = .remote url := hnext
    unfold afterCommit at hafter
    split_ifs at hafter
  · obtain rfl := Sync.remote.inj hnext
    simp
  · rw [hrepo]
    exact hall url hnext

/-- A remote that a round may reach: it was there, or a round that asked for it added it. -/
def Allowed (repo : Repository τ) (syncs : List (SyncConfig × Sync τ)) (name url : Bytes) : Prop :=
  repo.remotes.lookup name = some url ∨
    ∃ cfg ∈ syncs.map Prod.fst, cfg.optedIn ∧ cfg.remoteName = name ∧ cfg.pushUrl = url

/-- The remotes, and what was sent to them. -/
structure Contacts (repo : Repository τ) (s : Host τ) : Prop where
  remotes : ∀ name url, s.repo.remotes.lookup name = some url → Allowed repo s.syncs name url
  next : ∀ (p : Nat) (cfg : SyncConfig) (url : Bytes), s.syncs[p]? = some (cfg, Sync.remote url) →
    s.repo.remotes.lookup cfg.remoteName = some url
  contacted : ∀ (p : Nat) (cfg : SyncConfig) (sync : Sync τ), s.syncs[p]? = some (cfg, sync) →
    ∀ url ∈ mine p s.contacted, s.repo.remotes.lookup cfg.remoteName = some url
  made : ∀ (p : Nat) (cfg : SyncConfig) (sync : Sync τ), s.syncs[p]? = some (cfg, sync) →
    sync.isOpen → s.repo.made
  sent : s.repo.headIsMaster → ∀ p, ∀ tip ∈ mine p s.sent,
    ∃ k, (s.landed.map Prod.fst)[k]? = some p ∧ repo.commits.length + k ≤ tip ∧
      tip < s.repo.commits.length

theorem contacts_init (repo : Repository τ) : Contacts repo (learners repo).init where
  remotes name url h := .inl h
  next p cfg url h := by cases h
  contacted p cfg sync h := by cases h
  made p cfg sync h := by cases h
  sent _ p tip h := by cases h

/-- A call of one round leaves the place of the others. -/
theorem getElem?_syncs_set {syncs : List (SyncConfig × Sync τ)} {p q : Nat} {cfg cfg' : SyncConfig}
    {sync sync' next : Sync τ} (hp : syncs[p]? = some (cfg, sync))
    (hq : (syncs.set p (cfg, next))[q]? = some (cfg', sync')) :
    (q = p ∧ cfg' = cfg ∧ sync' = next) ∨ (q ≠ p ∧ syncs[q]? = some (cfg', sync')) := by
  have hlt : p < syncs.length := (List.getElem?_eq_some_iff.mp hp).1
  by_cases hpq : q = p
  · subst hpq
    rw [List.getElem?_set_self hlt] at hq
    obtain ⟨rfl, rfl⟩ := Prod.mk.inj (Option.some.inj hq)
    exact .inl ⟨rfl, rfl, rfl⟩
  · rw [List.getElem?_set_ne (Ne.symm hpq)] at hq
    exact .inr ⟨hpq, hq⟩

theorem map_fst_syncs_set {syncs : List (SyncConfig × Sync τ)} {p : Nat} {cfg : SyncConfig}
    {sync : Sync τ} (hp : syncs[p]? = some (cfg, sync)) (next : Sync τ) :
    (syncs.set p (cfg, next)).map Prod.fst = syncs.map Prod.fst := by
  rw [List.map_set]
  have hfst : (syncs.map Prod.fst)[p]? = some cfg := by rw [List.getElem?_map, hp]; rfl
  obtain ⟨hlt, hget⟩ := List.getElem?_eq_some_iff.mp hfst
  rw [← hget, List.set_getElem_self]

theorem Allowed.mono {repo : Repository τ} {syncs syncs' : List (SyncConfig × Sync τ)}
    {name url : Bytes} (h : Allowed repo syncs name url)
    (hsub : syncs.map Prod.fst ⊆ syncs'.map Prod.fst) : Allowed repo syncs' name url := by
  obtain h | ⟨cfg, hmem, h⟩ := h
  · exact .inl h
  · exact .inr ⟨cfg, hsub hmem, h⟩

theorem contacts_enter {repo : Repository τ} {s : Host τ} (cfg : SyncConfig) (hi : Inv repo s)
    (hs : Contacts repo s) :
    Contacts repo { s with syncs := s.syncs ++ [(cfg, cfg.enter)] } := by
  -- the new round has no records, and is not open
  have hget : ∀ {p cfg' sync}, (s.syncs ++ [(cfg, cfg.enter)])[p]? = some (cfg', sync) →
      s.syncs[p]? = some (cfg', sync) ∨ (s.syncs.length ≤ p ∧ sync = cfg.enter) := by
    intro p cfg' sync h
    rw [List.getElem?_append] at h
    split_ifs at h with hlt
    · exact .inl h
    · refine .inr ⟨Nat.le_of_not_lt hlt, ?_⟩
      have hmem := List.mem_of_getElem? h
      rw [List.mem_singleton] at hmem
      exact (Prod.mk.inj hmem).2
  refine ⟨fun name url h => ?_, fun p cfg' url h => ?_, fun p cfg' sync h url hurl => ?_,
    fun p cfg' sync h hopen => ?_, hs.sent⟩
  · refine (hs.remotes name url h).mono ?_
    rw [List.map_append]
    exact List.subset_append_left _ _
  · obtain h | ⟨-, h⟩ := hget h
    · exact hs.next p cfg' url h
    · unfold SyncConfig.enter at h
      split_ifs at h
  · obtain h | ⟨hle, -⟩ := hget h
    · exact hs.contacted p cfg' sync h url hurl
    · rw [(hi.known p hle).2.2.1] at hurl
      cases hurl
  · obtain h | ⟨-, rfl⟩ := hget h
    · exact hs.made p cfg' sync h hopen
    · unfold SyncConfig.enter at hopen
      split_ifs at hopen <;> cases hopen

/-- What a round is about to send stands on its own commit. -/
theorem tip_own {repo : Repository τ} {s : Host τ} (hi : Inv repo s) {p : Nat} {cfg : SyncConfig}
    {url : Bytes} (hget : s.syncs[p]? = some (cfg, .remote url)) {t : Nat}
    (ht : s.repo.head = some t) :
    ∃ k, (s.landed.map Prod.fst)[k]? = some p ∧ repo.commits.length + k ≤ t ∧
      t < s.repo.commits.length := by
  obtain ⟨tree, hmine⟩ := (hi.ledger p cfg _ hget).landed_of_remote
  have hmem : p ∈ s.landed.map Prod.fst :=
    List.mem_map_of_mem (mem_of_mem_mine (hmine ▸ List.mem_singleton_self tree))
  obtain ⟨k, hlt, hk⟩ := List.mem_iff_getElem.mp hmem
  rw [List.length_map] at hlt
  rw [hi.head, tip, if_neg (by omega)] at ht
  obtain rfl := Option.some.inj ht
  refine ⟨k, List.getElem?_eq_some_iff.mpr ⟨_, hk⟩, by omega, ?_⟩
  rw [hi.length_commits]
  omega

theorem contacts_act {repo : Repository τ} {s : Host τ} {p : Nat} {cfg : SyncConfig}
    {sync : Sync τ} {action : Action τ} {o : Outcome τ} (hi : Inv repo s) (hs : Contacts repo s)
    (hget : s.syncs[p]? = some (cfg, sync)) (hact : sync.act cfg s.repo action = some o) :
    Contacts repo {
      repo := o.repo
      syncs := s.syncs.set p (cfg, o.sync)
      staged := s.staged ++ record p o.staged
      landed := s.landed ++ record p o.landed
      contacted := s.contacted ++ record p o.contacted
      sent := s.sent ++ record p o.sent } := by
  have hmem : cfg ∈ s.syncs.map Prod.fst := List.mem_map_of_mem (List.mem_of_getElem? hget)
  refine ⟨fun name url hurl => ?_, fun q cfg' url hq => ?_, fun q cfg' sync' hq url hurl => ?_,
    fun q cfg' sync' hq hopen => ?_, fun hmaster q t ht => ?_⟩
  · rw [Allowed, map_fst_syncs_set hget]
    obtain hold | ⟨hsync, hname, hpush⟩ := lookup_act hact hurl
    · exact hs.remotes name url hold
    · subst hsync
      have ho := (hi.ledger p cfg _ hget).optedIn_of_committed
      exact .inr ⟨cfg, hmem, ho, hname, hpush⟩
  · obtain ⟨rfl, rfl, hnext⟩ | ⟨-, hold⟩ := getElem?_syncs_set hget hq
    · exact act_next hact hnext.symm
    · exact act_lookup hact (hs.next q cfg' url hold)
  · have hmono : ∀ {name u : Bytes}, s.repo.remotes.lookup name = some u →
        o.repo.remotes.lookup name = some u := act_lookup hact
    obtain ⟨rfl, rfl, -⟩ | ⟨hne, hold⟩ := getElem?_syncs_set hget hq
    · rw [mine_record_self, List.mem_append, Option.mem_toList] at hurl
      obtain hold | hnew := hurl
      · exact hmono (hs.contacted q cfg' sync hget url hold)
      · obtain rfl := act_contacted hact hnew
        exact hmono (hs.next q cfg' url hget)
    · rw [mine_record_other (Ne.symm hne)] at hurl
      exact hmono (hs.contacted q cfg' sync' hold url hurl)
  · obtain ⟨rfl, rfl, rfl⟩ | ⟨-, hold⟩ := getElem?_syncs_set hget hq
    · exact act_made hact (hs.made q cfg' sync hget) hopen
    · exact (act_keeps hact (hs.made q cfg' sync' hold hopen)).1
  · -- where the repository was not made before this call, nothing was sent
    have hmade : s.repo.made := by
      have hsent : (∃ u, sync = .remote u) ∨ t ∈ mine q s.sent := by
        by_cases hpq : q = p
        · subst hpq
          rw [mine_record_self, List.mem_append, Option.mem_toList] at ht
          exact ht.symm.imp_left fun hnew => (act_sent hact hnew).2
        · rw [mine_record_other (Ne.symm hpq)] at ht
          exact .inr ht
      obtain ⟨u, rfl⟩ | hold := hsent
      · exact hs.made p cfg _ hget rfl
      · obtain hlt | hle := Nat.lt_or_ge q s.syncs.length
        · have hq : s.syncs[q]? = some s.syncs[q] := List.getElem?_eq_getElem hlt
          exact hs.made q _ _ hq ((hi.ledger q _ _ hq).isOpen_of_sent hold)
        · rw [(hi.known q hle).2.2.2] at hold
          cases hold
    rw [(act_keeps hact hmade).2] at hmaster
    have hgrow : s.repo.commits.length ≤ o.repo.commits.length := by
      obtain ⟨-, hcommits, -⟩ | ⟨tree, -, hrepo⟩ := act_branch hact
      · rw [hcommits]
      · simp [hrepo, Repository.commit]
    have hlift : (∃ k, (s.landed.map Prod.fst)[k]? = some q ∧ repo.commits.length + k ≤ t ∧
        t < s.repo.commits.length) → ∃ k,
          ((s.landed ++ record p o.landed).map Prod.fst)[k]? = some q ∧
            repo.commits.length + k ≤ t ∧ t < o.repo.commits.length := by
      rintro ⟨k, hk, hle, hlt⟩
      refine ⟨k, ?_, hle, by omega⟩
      rw [List.map_append, List.getElem?_append_left (List.getElem?_eq_some_iff.mp hk).1]
      exact hk
    by_cases hpq : q = p
    · subst hpq
      rw [mine_record_self, List.mem_append, Option.mem_toList] at ht
      obtain hold | hnew := ht
      · exact hlift (hs.sent hmaster q t hold)
      · obtain ⟨htip, u, rfl⟩ := act_sent hact hnew
        rw [Repository.masterTip, if_pos hmaster] at htip
        exact hlift (tip_own hi hget htip)
    · rw [mine_record_other (Ne.symm hpq)] at ht
      exact hlift (hs.sent hmaster q t ht)

theorem Contacts.reachable {repo : Repository τ} {s : Host τ} (h : (learners repo).Reachable s) :
    Contacts repo s := by
  refine h.invariant (contacts_init repo) fun {s l s'} hreach hs hl => ?_
  cases l with
  | enter cfg =>
      obtain rfl := Option.some.inj hl
      exact contacts_enter cfg (.reachable hreach) hs
  | act p action =>
      obtain ⟨cfg, sync, o, hget, hact, rfl⟩ := step_act hl
      exact contacts_act (.reachable hreach) hs hget hact

/-- A round that contacted a remote was to do so, once. -/
theorem Ledger.contacted_once {cfg : SyncConfig} {sync : Sync τ} {staged landed : List τ}
    {contacted : List Bytes} {sent : List Nat} (h : Ledger cfg sync staged landed contacted sent)
    {url : Bytes} (hurl : url ∈ contacted) :
    contacted = [url] ∧ cfg.optedIn ∧ sync.hasCommitted := by
  cases h with
  | refused ho tree url' =>
      obtain rfl := List.mem_singleton.mp hurl
      exact ⟨rfl, ho, rfl⟩
  | pushed ho tree url' tip =>
      obtain rfl := List.mem_singleton.mp hurl
      exact ⟨rfl, ho, rfl⟩
  | _ => cases hurl

/-- What a round says of its push. -/
theorem Ledger.sent_of_pushed {cfg : SyncConfig} {made : Bool} {staged landed : List τ}
    {contacted : List Bytes} {sent : List Nat}
    (h : Ledger cfg (.done made true) staged landed contacted sent) :
    made ∧ cfg.pushToRemote ∧ (sent.length = 1 ∨ cfg.pushes = false) := by
  cases h with
  | idle hask hpush tree => exact ⟨rfl, hask, .inr hpush⟩
  | pushed ho tree url tip =>
      rw [SyncConfig.optedIn, Bool.and_eq_true_iff, Bool.and_eq_true_iff] at ho
      exact ⟨rfl, ho.1.2, .inl rfl⟩

/-- **The network.** A round contacts a remote at most once, only where commits, pushes and the
network are all asked for and a URL is given, and after its own commit; the URL is one that the
repository had under that name before any round, or one that such a round was given. A round that
says it pushed has sent the branch, or had nothing to do; and what it sent, where the branch is
the one that is sent, stands on its own commit. -/
theorem contacts_optedIn {repo : Repository τ} {s : Host τ} (h : (learners repo).Reachable s)
    (p : Nat) (cfg : SyncConfig) (sync : Sync τ) (hp : s.syncs[p]? = some (cfg, sync)) :
    (∀ url ∈ mine p s.contacted, mine p s.contacted = [url] ∧ cfg.optedIn ∧ sync.hasCommitted ∧
        Allowed repo s.syncs cfg.remoteName url) ∧
      (∀ made, sync = .done made true → made ∧ cfg.pushToRemote ∧
        ((mine p s.sent).length = 1 ∨ cfg.pushes = false)) ∧
      (s.repo.headIsMaster → ∀ t ∈ mine p s.sent,
        ∃ k, (s.landed.map Prod.fst)[k]? = some p ∧ repo.commits.length + k ≤ t ∧
          t < s.repo.commits.length) := by
  have hs : Contacts repo s := .reachable h
  have hl := (Inv.reachable h).ledger p cfg sync hp
  refine ⟨fun url hurl => ?_, fun made hdone => ?_, fun hmaster => hs.sent hmaster p⟩
  · obtain ⟨hone, hopted, hmade⟩ := hl.contacted_once hurl
    exact ⟨hone, hopted, hmade, hs.remotes _ _ (hs.contacted p cfg sync hp url hurl)⟩
  · subst hdone
    exact hl.sent_of_pushed

/-- A configuration with a remote of one's own. -/
def mirrored : SyncConfig :=
  { pushToRemote := true, pushUrl := ascii "git@me:dict.git", pushEnabled := true }

/-- The first round adds its remote and sends its commit there. -/
theorem contacts_optedIn_mirrored : ∃ s,
    (learners {}).run (race mirrored {} ++ [.act 0 (.findRemote true), .act 0 (.send true)]) =
      some s ∧
    mine 0 s.sent = [0] ∧ (∃ k, (s.landed.map Prod.fst)[k]? = some 0 ∧ k ≤ 0) ∧
    Allowed {} s.syncs (ascii "origin") (ascii "git@me:dict.git") := by
  have hrun : ∃ s, (learners {}).run
        (race mirrored {} ++ [.act 0 (.findRemote true), .act 0 (.send true)]) = some s ∧
      s.syncs[0]? = some (mirrored, .done true true) ∧
      mine 0 s.contacted = [ascii "git@me:dict.git"] ∧ mine 0 s.sent = [0] ∧
      s.repo.headIsMaster = true :=
    ⟨_, rfl, rfl, rfl, rfl, rfl⟩
  obtain ⟨s, hrun, hp, hcontacted, hsent, hmaster⟩ := hrun
  obtain ⟨hurls, -, hown⟩ :=
    contacts_optedIn (System.reachable_of_run hrun) 0 mirrored (.done true true) hp
  refine ⟨s, hrun, hsent, ?_, ?_⟩
  · obtain ⟨k, hk, hle, -⟩ := hown hmaster 0 (hsent ▸ List.mem_singleton_self 0)
    exact ⟨k, hk, by simpa using hle⟩
  · exact (hurls _ (hcontacted ▸ List.mem_singleton_self _)).2.2.2

end Dafeng.Learning.GitSync
