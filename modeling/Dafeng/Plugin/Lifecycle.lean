import Dafeng.Library.Refinement
import Dafeng.Plugin.Context

/-!
# Dafeng.Plugin.Lifecycle

From the first call of the filter on: `dafeng_filter` of `rime.lua`, which runs `M.init` on the
first call for an `env`, and `attach_commit_hook`, whose callback records the commits.

An engine has one context for as long as it lives, and each filter that librime makes for it has
its own `env`. `rime.lua` exports a function, so that `M.fini` is never called. A client is the
number of its creation. What a call yields is `func`.
-/

namespace Dafeng.Plugin

/-! ### Init -/

/-- What an access to the engine comes to. -/
inductive Got (α : Type)
  | raised
  | nil
  | value (a : α)
  deriving DecidableEq, Repr

/-- `value or default`. -/
def Got.getD {α : Type} (default : α) : Got α → α
  | .value a => a
  | .raised | .nil => default

/-- What the keys under `dafeng_options` of the schema deliver. -/
structure ConfigReads where
  enabled : Got Bool := .nil
  timeoutMs : Got Int64 := .nil
  maxRerank : Got Int64 := .nil
  protectTopN : Got Int64 := .nil
  contextChars : Got Int64 := .nil
  deriving DecidableEq, Repr

/-- The `commit_notifier` of the context: its access raises, it or its `connect` is missing, or the
call of `connect` registers the callback and raises, or not. -/
inductive Notifier
  | raised
  | missing
  | connect (registers raises : Bool)
  deriving DecidableEq, Repr

/-- What `M.init` meets with. -/
structure InitReads where
  config : ConfigReads := {}
  create : Got Unit := .value ()
  notifier : Notifier := .connect true false
  deriving DecidableEq, Repr

/-- What `require` comes back with: `mod` of `rime.lua`, and the two modules that the filter
loads. -/
structure Modules where
  filter : Bool := true
  bridge : Bool := true
  rerank : Bool := true
  deriving DecidableEq, Repr

/-- The options before the schema is read. -/
def initialOptions : Options where
  enabled := false
  timeoutMs := some 30
  maxRerank := some 10
  protectTopN := some 3
  contextChars := some 20

/-- The options as `M.init` reads them, up to the access that raises, and whether one did. -/
def readOptions (config : ConfigReads) : Options × Bool :=
  match config.enabled with
  | .raised => (initialOptions, true)
  | enabled =>
    let o := { initialOptions with enabled := enabled.getD true }
    match config.timeoutMs with
    | .raised => (o, true)
    | timeoutMs =>
      let o := { o with timeoutMs := some (timeoutMs.getD 30) }
      match config.maxRerank with
      | .raised => (o, true)
      | maxRerank =>
        let o := { o with maxRerank := some (maxRerank.getD 10) }
        match config.protectTopN with
        | .raised => (o, true)
        | protectTopN =>
          let o := { o with protectTopN := some (protectTopN.getD 3) }
          match config.contextChars with
          | .raised => (o, true)
          | contextChars => ({ o with contextChars := some (contextChars.getD 20) }, false)

/-- The fields of an `env`, with the context of its engine. -/
structure FilterEnv where
  context : Nat
  initialized : Bool := false
  hookAttached : Bool := false
  client : Option Nat := none
  options : Option Options := none
  deriving DecidableEq, Repr

/-- What a call leaves: the `env`, whether it made a client and registered the callback, and
whether it raised an error. -/
structure InitResult where
  env : FilterEnv
  created : Bool := false
  registered : Bool := false
  raised : Bool := false
  deriving DecidableEq, Repr

/-- `attach_commit_hook`. -/
def attachCommitHook (notifier : Notifier) (env : FilterEnv) : InitResult :=
  if env.hookAttached then { env }
  else
    match notifier with
    | .raised => { env, raised := true }
    | .missing => { env }
    | .connect registers raises =>
      { env := if raises then env else { env with hookAttached := true }, registered := registers }

/-- `M.init`; `next` is the client that it may make. -/
def init (modules : Modules) (reads : InitReads) (next : Nat) (env : FilterEnv) : InitResult :=
  let env := { env with client := none, options := some initialOptions }
  if !modules.bridge || !modules.rerank then { env }
  else
    let (options, raised) := readOptions reads.config
    let env := { env with options := some options }
    if raised then { env, raised := true }
    else
      match reads.create with
      | .raised => { env, raised := true }
      | .nil => { env := { env with options := some { options with enabled := false } } }
      | .value () =>
        { attachCommitHook reads.notifier { env with client := some next } with created := true }

/-- `dafeng_filter` of `rime.lua`, up to the call of `mod.func`. -/
def dafengFilter (modules : Modules) (reads : InitReads) (next : Nat) (env : FilterEnv) :
    InitResult :=
  if !modules.filter || env.initialized then { env }
  else
    let r := init modules reads next env
    if r.raised then r else { r with env := { r.env with initialized := true } }

/-! ### The host -/

/-- A call of `client:record_commit`, with the `env` whose callback makes it. -/
structure Sent where
  env : Nat
  client : Nat
  call : CommitCall
  deriving DecidableEq, Repr

/-- All `env`s in the order in which they were made, the registered callbacks in the order of
their registration, each by its `env`, how many clients there are, and what was recorded. -/
structure Host where
  envs : List FilterEnv := []
  callbacks : List Nat := []
  clients : Nat := 0
  recorded : List Sent := []
  deriving DecidableEq, Repr

inductive Label
  /-- librime makes a filter for an engine with this context -/
  | make (context : Nat)
  /-- the filter is called for an `env` -/
  | filter (e : Nat) (reads : InitReads)
  /-- the context commits -/
  | commit (context : Nat) (ctx : CommitContext)
  deriving DecidableEq, Repr

/-- What the callback of an `env` sends at a commit of a context. -/
def Host.send (s : Host) (context : Nat) (ctx : CommitContext) (e : Nat) : Option Sent :=
  match s.envs[e]? with
  | none => none
  | some env =>
    if env.context = context then
      match env.options, env.client with
      | some options, some client => (commitHook options true ctx).map fun call => ⟨e, client, call⟩
      | _, _ => none
    else none

def step (modules : Modules) (s : Host) : Label → Option Host
  | .make context => some { s with envs := s.envs ++ [{ context }] }
  | .filter e reads => do
    let env ← s.envs[e]?
    let r := dafengFilter modules reads s.clients env
    some { s with
      envs := s.envs.set e r.env
      callbacks := s.callbacks ++ if r.registered then [e] else []
      clients := s.clients + if r.created then 1 else 0 }
  | .commit context ctx =>
    some { s with recorded := s.recorded ++ s.callbacks.filterMap (s.send context ctx) }

/-- The plugin in its host. -/
def plugin (modules : Modules) : System Host Label := ⟨{}, step modules⟩

/-! ### One `env` by itself -/

/-- What a first call of the filter for a fresh `env` settles: nothing where it raises, and
otherwise the options with which its callback is registered, if it is. -/
def settles (modules : Modules) (reads : InitReads) : Option (Option Options) :=
  let r := dafengFilter modules reads 0 { context := 0 }
  if !modules.filter || r.raised then none
  else some (if r.registered then r.env.options else none)

/-- Where an `env` stands: `before` others are made before it; it is there and was not settled; it
has its callback with these options, or none for good. -/
inductive Phase
  | absent (before : Nat)
  | fresh (context : Nat)
  | settled (context : Nat) (hook : Option Options)
  deriving DecidableEq, Repr

/-- What the `env` with number `e` does, and the calls it makes. -/
def alone (modules : Modules) (e : Nat) : Phase → Label → Phase × List CommitCall
  | .absent 0, .make context => (.fresh context, [])
  | .absent (before + 1), .make _ => (.absent before, [])
  | .fresh context, .filter e' reads =>
    if e' = e then
      match settles modules reads with
      | none => (.fresh context, [])
      | some hook => (.settled context hook, [])
    else (.fresh context, [])
  | .settled context (some options), .commit context' ctx =>
    (.settled context (some options),
      if context = context' then (commitHook options true ctx).toList else [])
  | phase, _ => (phase, [])

/-- Where the `env` with number `e` stands in the host. -/
def Host.phase (s : Host) (e : Nat) : Phase :=
  match s.envs[e]? with
  | none => .absent (e - s.envs.length)
  | some env =>
    if env.initialized then
      .settled env.context (if e ∈ s.callbacks then env.options else none)
    else .fresh env.context

/-- The calls that an `env` made. -/
def Host.sentBy (s : Host) (e : Nat) : List CommitCall :=
  (s.recorded.filter (·.env == e)).map Sent.call

/-- What is so in every state: an `env` registers once at most, when it is settled with a client,
and no client serves two of them. -/
structure Inv (s : Host) : Prop where
  fresh : ∀ (e : Nat) env, s.envs[e]? = some env → env.initialized = false →
    env.hookAttached = false ∧ e ∉ s.callbacks
  once : s.callbacks.Nodup
  hooked : ∀ e ∈ s.callbacks, ∃ env client options, s.envs[e]? = some env ∧
    env.initialized = true ∧ env.client = some client ∧ env.options = some options
  made : ∀ (e : Nat) env client, s.envs[e]? = some env → env.client = some client →
    client < s.clients
  own : ∀ (e e' : Nat) env env' client, s.envs[e]? = some env → s.envs[e']? = some env' →
    env.client = some client → env'.client = some client → e = e'
  sent : ∀ r ∈ s.recorded, ∃ env, s.envs[r.env]? = some env ∧ env.initialized = true ∧
    env.client = some r.client

/-! ### What a call of the filter does -/

/-- What a call of the filter comes to for an `env` that is not settled. -/
inductive Filtered (next : Nat) (env : FilterEnv) : Option (Option Options) → InitResult → Prop
  | undone {r : InitResult} (hcontext : r.env.context = env.context)
      (hinitialized : r.env.initialized = false) (hattached : r.env.hookAttached = false)
      (hregistered : r.registered = false)
      (hclient : r.env.client = env.client ∨ r.env.client = none ∨
        r.env.client = some next ∧ r.created = true) : Filtered next env none r
  | settled {r : InitResult} (hook : Option Options) (hcontext : r.env.context = env.context)
      (hinitialized : r.env.initialized = true) (hregistered : r.registered = hook.isSome)
      (hhook : hook.isSome = true → r.env.options = hook ∧ r.env.client = some next)
      (hclient : r.env.client = none ∨ r.env.client = some next ∧ r.created = true) :
      Filtered next env (some hook) r

theorem dafengFilter_fresh (modules : Modules) (reads : InitReads) (next : Nat) {env : FilterEnv}
    (hinitialized : env.initialized = false) (hattached : env.hookAttached = false) :
    Filtered next env (settles modules reads) (dafengFilter modules reads next env) := by
  unfold settles dafengFilter
  cases hfilter : modules.filter with
  | false => exact .undone rfl hinitialized hattached rfl (.inl rfl)
  | true =>
      simp only [hinitialized, Bool.not_true, Bool.or_self, Bool.false_eq_true, if_false]
      unfold init
      cases hmodules : !modules.bridge || !modules.rerank with
      | true => exact .settled none rfl rfl rfl (by simp) (.inl rfl)
      | false =>
          obtain ⟨options, raised⟩ := readOptions reads.config
          simp only [Bool.false_eq_true, if_false]
          cases raised with
          | true => exact .undone rfl hinitialized hattached rfl (.inr (.inl rfl))
          | false =>
              cases reads.create with
              | raised => exact .undone rfl hinitialized hattached rfl (.inr (.inl rfl))
              | nil => exact .settled none rfl rfl rfl (by simp) (.inl rfl)
              | value =>
                  simp only [attachCommitHook, hattached, Bool.false_eq_true, if_false]
                  cases reads.notifier with
                  | raised => exact .undone rfl hinitialized rfl rfl (.inr (.inr ⟨rfl, rfl⟩))
                  | missing => exact .settled none rfl rfl rfl (by simp) (.inr ⟨rfl, rfl⟩)
                  | connect registers raises =>
                      cases registers with
                      | false =>
                          cases raises <;>
                            exact .settled none rfl rfl rfl (by simp) (.inr ⟨rfl, rfl⟩)
                      | true =>
                          cases raises <;> exact .settled (some options) rfl rfl rfl
                            (fun _ => ⟨rfl, rfl⟩) (.inr ⟨rfl, rfl⟩)

theorem dafengFilter_initialized (modules : Modules) (reads : InitReads) (next : Nat)
    {env : FilterEnv} (h : env.initialized = true) :
    dafengFilter modules reads next env = { env } := by
  simp [dafengFilter, h]

theorem step_filter_cases {modules : Modules} {s s' : Host} {e : Nat} {reads : InitReads}
    (h : step modules s (.filter e reads) = some s') :
    ∃ env, s.envs[e]? = some env ∧ s' = { s with
      envs := s.envs.set e (dafengFilter modules reads s.clients env).env
      callbacks := s.callbacks ++
        if (dafengFilter modules reads s.clients env).registered then [e] else []
      clients := s.clients +
        if (dafengFilter modules reads s.clients env).created then 1 else 0 } := by
  obtain ⟨env, henv, h⟩ := Option.bind_eq_some_iff.mp h
  exact ⟨env, henv, (Option.some.inj h).symm⟩

theorem filter_initialized {modules : Modules} {s s' : Host} {e : Nat} {reads : InitReads}
    {env : FilterEnv} (henv : s.envs[e]? = some env) (hinitialized : env.initialized = true)
    (h : step modules s (.filter e reads) = some s') : s' = s := by
  obtain ⟨env', henv', rfl⟩ := step_filter_cases h
  obtain rfl := Option.some.inj (henv.symm.trans henv')
  obtain ⟨hlt, rfl⟩ := List.getElem?_eq_some_iff.mp henv
  rw [dafengFilter_initialized modules reads s.clients hinitialized]
  simp

/-! ### The invariant -/

section Set

variable {envs : List FilterEnv} {e e' : Nat} {env env' env₁ : FilterEnv}

theorem get_set_cases (henv : envs[e]? = some env) (h : (envs.set e env')[e']? = some env₁) :
    e' = e ∧ env₁ = env' ∨ e' ≠ e ∧ envs[e']? = some env₁ := by
  obtain ⟨hlt, -⟩ := List.getElem?_eq_some_iff.mp henv
  rw [List.getElem?_set] at h
  split_ifs at h with he
  · exact .inl ⟨he.symm, (Option.some.inj h).symm⟩
  · exact .inr ⟨Ne.symm he, h⟩

end Set

theorem Filtered.client_lt {next : Nat} {env : FilterEnv} {hook : Option (Option Options)}
    {r : InitResult} (h : Filtered next env hook r) {client : Nat}
    (hclient : r.env.client = some client) :
    env.client = some client ∨ client = next ∧ r.created = true := by
  cases h with
  | undone _ _ _ _ hcases =>
      rcases hcases with hsame | hnone | ⟨hnext, hcreated⟩
      · exact .inl (hsame ▸ hclient)
      · rw [hnone] at hclient
        cases hclient
      · rw [hnext] at hclient
        exact .inr ⟨(Option.some.inj hclient).symm, hcreated⟩
  | settled _ _ _ _ _ hcases =>
      rcases hcases with hnone | ⟨hnext, hcreated⟩
      · rw [hnone] at hclient
        cases hclient
      · rw [hnext] at hclient
        exact .inr ⟨(Option.some.inj hclient).symm, hcreated⟩

theorem inv_filter {s : Host} {e : Nat} {env : FilterEnv} {hook : Option (Option Options)}
    {r : InitResult} (hs : Inv s) (henv : s.envs[e]? = some env)
    (hinitialized : env.initialized = false) (hr : Filtered s.clients env hook r) :
    Inv { s with
      envs := s.envs.set e r.env
      callbacks := s.callbacks ++ if r.registered then [e] else []
      clients := s.clients + if r.created then 1 else 0 } := by
  obtain ⟨hlt, -⟩ := List.getElem?_eq_some_iff.mp henv
  obtain ⟨-, hnew⟩ := hs.fresh e env henv hinitialized
  -- an `env` that is settled already is not this one
  have hother : ∀ (e' : Nat) (env' : FilterEnv), s.envs[e']? = some env' → env'.initialized = true →
      (s.envs.set e r.env)[e']? = some env' := by
    intro e' env' henv' hinitialized'
    rw [List.getElem?_set_ne, henv']
    rintro rfl
    obtain rfl := Option.some.inj (henv.symm.trans henv')
    rw [hinitialized] at hinitialized'
    cases hinitialized'
  constructor
  · intro e' env' henv' hinitialized'
    rcases get_set_cases henv henv' with ⟨rfl, rfl⟩ | ⟨hne, henv'⟩
    · cases hr with
      | undone _ _ hattached hregistered =>
          refine ⟨hattached, ?_⟩
          rw [hregistered]
          simpa using hnew
      | settled _ _ hinit =>
          rw [hinitialized'] at hinit
          cases hinit
    · obtain ⟨hattached, hnot⟩ := hs.fresh e' env' henv' hinitialized'
      refine ⟨hattached, fun hmem => ?_⟩
      rcases List.mem_append.mp hmem with hmem | hmem
      · exact hnot hmem
      · split_ifs at hmem
        · exact hne (List.mem_singleton.mp hmem)
        · cases hmem
  · show (s.callbacks ++ if r.registered then [e] else []).Nodup
    split_ifs
    · exact List.nodup_append.mpr ⟨hs.once, List.nodup_singleton e, fun a ha b hb hab => hnew <| by
        rw [← List.mem_singleton.mp hb, ← hab]
        exact ha⟩
    · rw [List.append_nil]
      exact hs.once
  · intro e' hmem
    rcases List.mem_append.mp hmem with hmem | hmem
    · obtain ⟨env', client, options, henv', hinitialized', hclient, hoptions⟩ := hs.hooked e' hmem
      exact ⟨env', client, options, hother e' env' henv' hinitialized', hinitialized', hclient,
        hoptions⟩
    · split_ifs at hmem with hregistered
      · obtain rfl := List.mem_singleton.mp hmem
        cases hr with
        | undone _ _ _ hno =>
            rw [hno] at hregistered
            cases hregistered
        | settled hook _ hinit hsome hhook =>
            obtain ⟨hoptions, hclient⟩ := hhook (hsome ▸ hregistered)
            obtain ⟨options, rfl⟩ := Option.isSome_iff_exists.mp (hsome ▸ hregistered)
            exact ⟨r.env, s.clients, options, by simp [hlt], hinit, hclient, hoptions⟩
      · cases hmem
  · intro e' env' client henv' hclient
    show client < s.clients + if r.created then 1 else 0
    rcases get_set_cases henv henv' with ⟨rfl, rfl⟩ | ⟨-, henv'⟩
    · rcases hr.client_lt hclient with hsame | ⟨rfl, hcreated⟩
      · exact Nat.lt_add_right _ (hs.made e' env client henv hsame)
      · rw [if_pos hcreated]
        exact Nat.lt_succ_self _
    · exact Nat.lt_add_right _ (hs.made e' env' client henv' hclient)
  · intro e₁ e₂ env₁ env₂ client h₁ h₂ hclient₁ hclient₂
    rcases get_set_cases henv h₁ with ⟨rfl, rfl⟩ | ⟨-, hget₁⟩
    · rcases get_set_cases henv h₂ with ⟨rfl, -⟩ | ⟨-, hget₂⟩
      · rfl
      · rcases hr.client_lt hclient₁ with hsame | ⟨rfl, -⟩
        · exact hs.own e₁ e₂ env env₂ client henv hget₂ hsame hclient₂
        · exact absurd (hs.made e₂ env₂ _ hget₂ hclient₂) (Nat.lt_irrefl _)
    · rcases get_set_cases henv h₂ with ⟨rfl, rfl⟩ | ⟨-, hget₂⟩
      · rcases hr.client_lt hclient₂ with hsame | ⟨rfl, -⟩
        · exact hs.own e₁ e₂ env₁ env client hget₁ henv hclient₁ hsame
        · exact absurd (hs.made e₁ env₁ _ hget₁ hclient₁) (Nat.lt_irrefl _)
      · exact hs.own e₁ e₂ env₁ env₂ client hget₁ hget₂ hclient₁ hclient₂
  · intro sent hsent
    obtain ⟨env', henv', hinitialized', hclient⟩ := hs.sent sent hsent
    exact ⟨env', hother sent.env env' henv' hinitialized', hinitialized', hclient⟩

theorem send_cases {s : Host} {context e : Nat} {ctx : CommitContext} {r : Sent}
    (h : s.send context ctx e = some r) : ∃ env client options call, s.envs[e]? = some env ∧
      env.context = context ∧ env.client = some client ∧ env.options = some options ∧
      commitHook options true ctx = some call ∧ r = ⟨e, client, call⟩ := by
  unfold Host.send at h
  cases henv : s.envs[e]? with
  | none => simp [henv] at h
  | some env =>
      simp only [henv] at h
      split_ifs at h with hcontext
      cases hoptions : env.options with
      | none => simp [hoptions] at h
      | some options =>
          cases hclient : env.client with
          | none => simp [hoptions, hclient] at h
          | some client =>
              simp only [hoptions, hclient] at h
              obtain ⟨call, hcall, hr⟩ := Option.map_eq_some_iff.mp h
              exact ⟨env, client, options, call, rfl, hcontext, hclient, hoptions, hcall, hr.symm⟩

theorem get_append_env {envs : List FilterEnv} {env : FilterEnv} (e : Nat) {env' : FilterEnv}
    (h : (envs ++ [env])[e]? = some env') :
    envs[e]? = some env' ∨ e = envs.length ∧ env' = env := by
  rw [List.getElem?_append] at h
  split_ifs at h with hlt
  · exact .inl h
  · obtain ⟨hzero, hsame⟩ := List.getElem?_eq_some_iff.mp h
    have hlen : e - envs.length = 0 := by simpa using hzero
    refine .inr ⟨by omega, ?_⟩
    rw [← hsame]
    simp

theorem inv_step {modules : Modules} {s s' : Host} {l : Label} (hs : Inv s)
    (hl : step modules s l = some s') : Inv s' := by
  cases l with
  | make context =>
      obtain rfl := Option.some.inj hl
      have hkeep : ∀ {e : Nat} {env}, s.envs[e]? = some env →
          (s.envs ++ [({ context } : FilterEnv)])[e]? = some env := fun henv => by
        rw [List.getElem?_append_left (List.getElem?_eq_some_iff.mp henv).1, henv]
      have hlast : ∀ e ∈ s.callbacks, e < s.envs.length := fun e he => by
        obtain ⟨env, -, -, henv, -⟩ := hs.hooked e he
        exact (List.getElem?_eq_some_iff.mp henv).1
      constructor
      · intro e env henv hinitialized
        rcases get_append_env e henv with henv | ⟨rfl, rfl⟩
        · exact hs.fresh e env henv hinitialized
        · exact ⟨rfl, fun hmem => Nat.lt_irrefl _ (hlast _ hmem)⟩
      · exact hs.once
      · intro e he
        obtain ⟨env, client, options, henv, hrest⟩ := hs.hooked e he
        exact ⟨env, client, options, hkeep henv, hrest⟩
      · intro e env client henv hclient
        rcases get_append_env e henv with henv | ⟨-, rfl⟩
        · exact hs.made e env client henv hclient
        · cases hclient
      · intro e₁ e₂ env₁ env₂ client h₁ h₂ hclient₁ hclient₂
        rcases get_append_env e₁ h₁ with h₁ | ⟨-, rfl⟩
        · rcases get_append_env e₂ h₂ with h₂ | ⟨-, rfl⟩
          · exact hs.own e₁ e₂ env₁ env₂ client h₁ h₂ hclient₁ hclient₂
          · cases hclient₂
        · cases hclient₁
      · intro sent hsent
        obtain ⟨env, henv, hrest⟩ := hs.sent sent hsent
        exact ⟨env, hkeep henv, hrest⟩
  | filter e reads =>
      obtain ⟨env, henv, rfl⟩ := step_filter_cases hl
      cases hinitialized : env.initialized with
      | true =>
          rw [filter_initialized henv hinitialized hl]
          exact hs
      | false =>
          exact inv_filter hs henv hinitialized (dafengFilter_fresh modules reads s.clients
            hinitialized (hs.fresh e env henv hinitialized).1)
  | commit context ctx =>
      obtain rfl := Option.some.inj hl
      refine ⟨hs.fresh, hs.once, hs.hooked, hs.made, hs.own, fun sent hsent => ?_⟩
      rcases List.mem_append.mp hsent with hsent | hsent
      · exact hs.sent sent hsent
      · obtain ⟨e, he, hsend⟩ := List.mem_filterMap.mp hsent
        obtain ⟨env, client, options, call, henv, -, hclient, -, -, rfl⟩ := send_cases hsend
        obtain ⟨env', -, -, henv', hinitialized, -⟩ := hs.hooked e he
        obtain rfl := Option.some.inj (henv.symm.trans henv')
        exact ⟨env, henv, hinitialized, hclient⟩

theorem inv_init : Inv {} := by
  constructor <;> simp

/-! ### Every `env` by itself -/

theorem phase_none {s : Host} {e : Nat} (h : s.envs[e]? = none) :
    s.phase e = .absent (e - s.envs.length) := by
  simp [Host.phase, h]

theorem phase_fresh {s : Host} {e : Nat} {env : FilterEnv} (h : s.envs[e]? = some env)
    (hinitialized : env.initialized = false) : s.phase e = .fresh env.context := by
  simp [Host.phase, h, hinitialized]

theorem phase_settled {s : Host} {e : Nat} {env : FilterEnv} (h : s.envs[e]? = some env)
    (hinitialized : env.initialized = true) :
    s.phase e = .settled env.context (if e ∈ s.callbacks then env.options else none) := by
  simp [Host.phase, h, hinitialized]

theorem phase_congr {s s' : Host} {e : Nat} (henv : s'.envs[e]? = s.envs[e]?)
    (hlength : s'.envs.length = s.envs.length) (hcallback : e ∈ s'.callbacks ↔ e ∈ s.callbacks) :
    s'.phase e = s.phase e := by
  simp only [Host.phase, henv, hlength, hcallback]

/-- Of the callbacks, an `env` has one. -/
theorem filter_filterMap_send {s : Host} (context : Nat) (ctx : CommitContext) (e : Nat)
    {callbacks : List Nat} (hnodup : callbacks.Nodup) :
    (callbacks.filterMap (s.send context ctx)).filter (·.env == e) =
      if e ∈ callbacks then (s.send context ctx e).toList else [] := by
  induction callbacks with
  | nil => rfl
  | cons e' callbacks ih =>
      obtain ⟨hnot, hnodup⟩ := List.nodup_cons.mp hnodup
      have ih := ih hnodup
      have henv : ∀ r ∈ s.send context ctx e', r.env = e' := fun r hr => by
        obtain ⟨-, -, -, -, -, -, -, -, -, rfl⟩ := send_cases hr
        rfl
      by_cases he : e = e'
      · subst he
        rw [if_neg hnot] at ih
        rw [if_pos List.mem_cons_self]
        cases hsend : s.send context ctx e with
        | none => rw [List.filterMap_cons_none hsend, ih]; rfl
        | some r =>
            rw [List.filterMap_cons_some hsend, List.filter_cons_of_pos, ih]
            · rfl
            · simpa using henv r hsend
      · have hmem : e ∈ e' :: callbacks ↔ e ∈ callbacks := by simp [he]
        simp only [hmem]
        rw [← ih]
        cases hsend : s.send context ctx e' with
        | none => rw [List.filterMap_cons_none hsend]
        | some r =>
            rw [List.filterMap_cons_some hsend, List.filter_cons_of_neg]
            have hr := henv r hsend
            simp only [beq_iff_eq]
            omega

theorem sentBy_commit {s : Host} (hs : Inv s) (context : Nat) (ctx : CommitContext) (e : Nat) :
    Host.sentBy { s with recorded := s.recorded ++ s.callbacks.filterMap (s.send context ctx) } e =
      s.sentBy e ++ if e ∈ s.callbacks then ((s.send context ctx e).map Sent.call).toList
        else [] := by
  unfold Host.sentBy
  rw [List.filter_append, List.map_append, filter_filterMap_send context ctx e hs.once]
  congr 1
  split_ifs
  · cases s.send context ctx e <;> rfl
  · rfl

theorem alone_filter_ne (modules : Modules) (reads : InitReads) {e e' : Nat} (he : e' ≠ e)
    (phase : Phase) : alone modules e phase (.filter e' reads) = (phase, []) := by
  cases phase with
  | absent before => cases before <;> rfl
  | fresh context => simp [alone, he]
  | settled context hook => cases hook <;> rfl

/-- A step moves an `env` as if it were alone. -/
theorem alone_step {modules : Modules} {s s' : Host} {l : Label} (e : Nat) (hs : Inv s)
    (hl : step modules s l = some s') :
    s'.phase e = (alone modules e (s.phase e) l).1 ∧
      s'.sentBy e = s.sentBy e ++ (alone modules e (s.phase e) l).2 := by
  cases l with
  | make context =>
      obtain rfl := Option.some.inj hl
      have hlength : (s.envs ++ [({ context } : FilterEnv)]).length = s.envs.length + 1 := by simp
      rcases Nat.lt_trichotomy e s.envs.length with hlt | rfl | hgt
      · have hkeep : (s.envs ++ [({ context } : FilterEnv)])[e]? = s.envs[e]? :=
          List.getElem?_append_left hlt
        have henv : s.envs[e]? = some s.envs[e] := List.getElem?_eq_getElem hlt
        cases hinitialized : s.envs[e].initialized with
        | false =>
            rw [phase_fresh (hkeep.trans henv) hinitialized, phase_fresh henv hinitialized]
            exact ⟨rfl, (List.append_nil _).symm⟩
        | true =>
            rw [phase_settled (hkeep.trans henv) hinitialized, phase_settled henv hinitialized]
            dsimp only
            cases (if e ∈ s.callbacks then s.envs[e].options else none) <;>
              exact ⟨rfl, (List.append_nil _).symm⟩
      · rw [phase_none (List.getElem?_eq_none (Nat.le_refl _)), Nat.sub_self]
        refine ⟨?_, (List.append_nil _).symm⟩
        have hnew : (Host.envs { s with envs := s.envs ++ [{ context }] })[s.envs.length]? =
          some { context } := List.getElem?_concat_length
        exact phase_fresh hnew rfl
      · obtain ⟨before, hbefore⟩ := Nat.exists_eq_add_of_lt hgt
        rw [phase_none (List.getElem?_eq_none (Nat.le_of_lt hgt)),
          show e - s.envs.length = before + 1 by omega]
        refine ⟨?_, (List.append_nil _).symm⟩
        rw [phase_none (List.getElem?_eq_none (by rw [hlength]; exact hgt))]
        show Phase.absent (e - (s.envs ++ [({ context } : FilterEnv)]).length) = .absent before
        rw [hlength, show e - (s.envs.length + 1) = before by omega]
  | filter e' reads =>
      obtain ⟨env, henv, rfl⟩ := step_filter_cases hl
      cases hinitialized : env.initialized with
      | true =>
          rw [filter_initialized henv hinitialized hl]
          by_cases he : e = e'
          · subst he
            rw [phase_settled henv hinitialized]
            cases (if e ∈ s.callbacks then env.options else none) <;>
              exact ⟨rfl, (List.append_nil _).symm⟩
          · rw [alone_filter_ne modules reads (Ne.symm he)]
            exact ⟨rfl, (List.append_nil _).symm⟩
      | false =>
          obtain ⟨hattached, hnot⟩ := hs.fresh e' env henv hinitialized
          have hr := dafengFilter_fresh modules reads s.clients hinitialized hattached
          obtain ⟨hlt, -⟩ := List.getElem?_eq_some_iff.mp henv
          by_cases he : e = e'
          · subst he
            rw [phase_fresh henv hinitialized]
            have halone : alone modules e (.fresh env.context) (.filter e reads) =
                match settles modules reads with
                | none => (.fresh env.context, [])
                | some hook => (.settled env.context hook, []) := by simp [alone]
            rw [halone]
            generalize settles modules reads = hook at hr
            generalize dafengFilter modules reads s.clients env = r at hr
            have hself : (s.envs.set e r.env)[e]? = some r.env := by simp [hlt]
            cases hr with
            | undone hcontext hinit =>
                refine ⟨?_, (List.append_nil _).symm⟩
                rw [phase_fresh hself hinit, hcontext]
            | settled hook hcontext hinit hregistered hhook =>
                refine ⟨?_, (List.append_nil _).symm⟩
                rw [phase_settled hself hinit, hcontext]
                cases hook with
                | none => simp [hregistered, hnot]
                | some options => simp [hregistered, (hhook rfl).1]
          · rw [alone_filter_ne modules reads (Ne.symm he)]
            refine ⟨phase_congr ?_ (List.length_set ..) ?_, (List.append_nil _).symm⟩
            · exact List.getElem?_set_ne (Ne.symm he)
            · rw [List.mem_append]
              refine or_iff_left fun hmem => ?_
              split_ifs at hmem
              · exact he (List.mem_singleton.mp hmem)
              · cases hmem
  | commit context ctx =>
      obtain rfl := Option.some.inj hl
      have hphase : Host.phase { s with
          recorded := s.recorded ++ s.callbacks.filterMap (s.send context ctx) } e = s.phase e :=
        phase_congr rfl rfl Iff.rfl
      rw [sentBy_commit hs, hphase]
      have hhooked : e ∈ s.callbacks → ∃ env, s.envs[e]? = some env ∧ env.initialized = true :=
        fun he => by
          obtain ⟨env, -, -, henv, hinitialized, -⟩ := hs.hooked e he
          exact ⟨env, henv, hinitialized⟩
      cases henv : s.envs[e]? with
      | none =>
          have hnot : e ∉ s.callbacks := fun he => by
            obtain ⟨env, henv', -⟩ := hhooked he
            rw [henv] at henv'
            cases henv'
          rw [phase_none henv, if_neg hnot]
          cases e - s.envs.length <;> exact ⟨rfl, rfl⟩
      | some env =>
          cases hinitialized : env.initialized with
          | false =>
              have hnot := (hs.fresh e env henv hinitialized).2
              rw [phase_fresh henv hinitialized, if_neg hnot]
              exact ⟨rfl, rfl⟩
          | true =>
              rw [phase_settled henv hinitialized]
              by_cases he : e ∈ s.callbacks
              · obtain ⟨env', client, options, henv', -, hclient, hoptions⟩ := hs.hooked e he
                obtain rfl := Option.some.inj (henv.symm.trans henv')
                rw [if_pos he, if_pos he, hoptions]
                refine ⟨rfl, congrArg _ ?_⟩
                show ((s.send context ctx e).map Sent.call).toList =
                  if env.context = context then (commitHook options true ctx).toList else []
                simp only [Host.send, henv, hoptions, hclient]
                split_ifs
                · cases commitHook options true ctx <;> rfl
                · rfl
              · rw [if_neg he, if_neg he]
                exact ⟨rfl, rfl⟩

/-- **Each session records by itself.** In every run, with any number of engines, filters made for
them and failures of `M.init`: an `env` sends what it sends alone. That is nothing before its
first call that comes through, and from then on each commit of its own context once, in order; and
no two `env`s send through one client. -/
theorem records_by_itself (modules : Modules) {ls : List Label} {s : Host}
    (hrun : (plugin modules).run ls = some s) :
    (∀ e, s.sentBy e = (System.outputs (alone modules e) (.absent e) ls).2) ∧
    ∀ r ∈ s.recorded, ∀ r' ∈ s.recorded, r.client = r'.client ↔ r.env = r'.env := by
  have hkeep : ∀ {t l t'}, Inv t → (plugin modules).step t l = some t' → Inv t' :=
    fun ht hl => inv_step ht hl
  refine ⟨fun e => ?_, fun r hr r' hr' => ?_⟩
  · exact (System.runFrom_outputs (fun t : Host => t.phase e) (fun t => t.sentBy e) hkeep
      (fun ht hl => alone_step e ht hl) inv_init hrun).2
  · have hs := System.runFrom_keeps hkeep inv_init hrun
    obtain ⟨env, henv, -, hclient⟩ := hs.sent r hr
    obtain ⟨env', henv', -, hclient'⟩ := hs.sent r' hr'
    constructor
    · intro hsame
      exact hs.own r.env r'.env env env' r.client henv henv' hclient (hsame ▸ hclient')
    · intro hsame
      obtain rfl := Option.some.inj ((hsame ▸ henv).symm.trans henv')
      exact Option.some.inj (hclient.symm.trans hclient')

/-- A commit of "a" with the code "k". -/
def plainCommit : CommitContext where
  commitText := .returned (some [0x61])
  input := .returned (some [0x6B])
  historyRepr := none

/-- The schema is selected a second time in one engine: the second filter records too, and the
commit before the first call is not recorded. -/
theorem records_by_itself_twice : ∃ s, (plugin {}).run [.make 0, .commit 0 plainCommit,
      .filter 0 {}, .commit 0 plainCommit, .make 0, .filter 1 {}, .commit 0 plainCommit] = some s ∧
    s.sentBy 0 = [⟨[0x6B], [0x61], []⟩, ⟨[0x6B], [0x61], []⟩] ∧
    s.sentBy 1 = [⟨[0x6B], [0x61], []⟩] := by
  have hrun : ∃ s, (plugin {}).run [.make 0, .commit 0 plainCommit, .filter 0 {},
      .commit 0 plainCommit, .make 0, .filter 1 {}, .commit 0 plainCommit] = some s := ⟨_, rfl⟩
  obtain ⟨s, hrun⟩ := hrun
  have halone := (records_by_itself {} hrun).1
  exact ⟨s, hrun, halone 0, halone 1⟩

end Dafeng.Plugin
