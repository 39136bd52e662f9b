import Mathlib.Data.List.TakeWhile
import Dafeng.Plugin.EndToEnd

/-!
# Dafeng.Plugin.LuaStack

The Lua stack under `l_rerank` (`dafeng_lua_bridge.c`). Lua gives a C function
`LUA_MINSTACK` free slots above its arguments; who needs more asks with
`luaL_checkstack`, which the bridge does not. The stack is modelled above the
arguments, with every value, and with the height that each push has reached.
What the checks of the auxiliary library push for themselves is not a push of the
bridge.
-/

namespace Dafeng.Plugin

open Dafeng.Protocol Dafeng.Session

/-- A Lua value. `number` carries the text that it converts to, `client` whether its pointer
is still there; `other` is a boolean, a function, a thread or another userdata. -/
inductive LuaValue
  | nil
  | integer (i : Int64)
  | number (text : Bytes)
  | string (s : Bytes)
  | table (fields : List (Bytes × LuaValue)) (items : List LuaValue)
  | client (live : Bool)
  | other

/-- The values above the arguments, the top first, and the height after each push. -/
structure LuaStack where
  values : List LuaValue := []
  pushes : List Nat := []

namespace LuaStack

def push (s : LuaStack) (v : LuaValue) : LuaStack :=
  { values := v :: s.values, pushes := s.pushes ++ [s.values.length + 1] }

/-- `lua_pop(L, n)`. -/
def pop (s : LuaStack) (n : Nat) : LuaStack := { s with values := s.values.drop n }

/-- `lua_setfield(L, -2, name)`. -/
def setField (s : LuaStack) (name : Bytes) : LuaStack :=
  match s.values with
  | v :: .table fields items :: rest =>
      { s with values := .table (fields ++ [(name, v)]) items :: rest }
  | _ => s

/-- `lua_rawseti(L, -2, i)`, where `i` is the position behind the items. -/
def rawSetI (s : LuaStack) : LuaStack :=
  match s.values with
  | v :: .table fields items :: rest => { s with values := .table fields (items ++ [v]) :: rest }
  | _ => s

section

variable {s : LuaStack} {v : LuaValue} {fields : List (Bytes × LuaValue)}
  {items rest : List LuaValue}

@[simp] theorem push_values (s : LuaStack) (v : LuaValue) : (s.push v).values = v :: s.values := rfl

@[simp] theorem push_pushes (s : LuaStack) (v : LuaValue) :
    (s.push v).pushes = s.pushes ++ [s.values.length + 1] :=
  rfl

@[simp] theorem setField_pushes (s : LuaStack) (name : Bytes) :
    (s.setField name).pushes = s.pushes := by
  unfold setField
  split <;> rfl

@[simp] theorem rawSetI_pushes (s : LuaStack) : s.rawSetI.pushes = s.pushes := by
  unfold rawSetI
  split <;> rfl

theorem setField_values (hs : s.values = v :: .table fields items :: rest) (name : Bytes) :
    (s.setField name).values = .table (fields ++ [(name, v)]) items :: rest := by
  simp [setField, hs]

theorem rawSetI_values (hs : s.values = v :: .table fields items :: rest) :
    s.rawSetI.values = .table fields (items ++ [v]) :: rest := by
  simp [rawSetI, hs]

end

end LuaStack

/-! ### The function -/

/-- `luaL_checkstring`; none is an error that is raised. -/
def checkString : LuaValue → Option Bytes
  | .string s => some s
  | .number text => some text
  | .integer i => some (ascii (toString i.toInt))
  | _ => none

/-- `luaL_optstring`. -/
def optString (v : LuaValue) (default : Bytes) : Option Bytes :=
  match v with
  | .nil => some default
  | v => checkString v

/-- `luaL_checktype(L, idx, LUA_TTABLE)` and `lua_rawlen`: the values from 1 to the length. -/
def checkTable : LuaValue → Option (List LuaValue)
  | .table _ items => some items
  | _ => none

/-- The arguments. One that is missing is nil. -/
structure RerankArgs where
  self : LuaValue
  code : LuaValue
  ctx : LuaValue
  cands : LuaValue
  app : LuaValue
  timeoutMs : LuaValue

/-- What the function calls: `luaL_optinteger` with the cast to `int`, `malloc` for so many
pointers, and the client. -/
structure LuaHost where
  optInteger : LuaValue → Option Int32
  allocates : Nat → Bool
  rerank : Bytes → Bytes → List Bytes → Bytes → Int32 → Option RerankResult

/-- How a C function ends: with so many results on top of the stack, or with an error. -/
inductive Exit
  | returned (results : Nat) (s : LuaStack)
  | raised (s : LuaStack)

def Exit.stack : Exit → LuaStack
  | .returned _ s => s
  | .raised s => s

/-- The loop that pushes the candidates, one on top of the other; it stops where one of them is
no string. -/
def pushCandidates (s : LuaStack) : List LuaValue → LuaStack × Option (List Bytes)
  | [] => (s, some [])
  | v :: vs =>
      match checkString v with
      | none => (s.push v, none)
      | some text =>
          ((pushCandidates (s.push v) vs).1, (pushCandidates (s.push v) vs).2.map (text :: ·))

/-- The loop over the indices of the result. -/
def pushIndices (s : LuaStack) : List Int32 → LuaStack
  | [] => s
  | i :: is => pushIndices ((s.push (.integer (i.toInt64 + 1))).rawSetI) is

/-- The table for a result. -/
def pushResult (s : LuaStack) (result : RerankResult) : LuaStack :=
  let s := (s.push (.table [] [])).push (.table [] [])
  let s := (pushIndices s result.indices).setField (ascii "indices")
  let s := (s.push (.integer (.ofNat result.latencyUs.toNat))).setField (ascii "latency_us")
  (s.push (.integer (.ofNat result.modelVersion.toNat))).setField (ascii "model_version")

/-- The arguments behind the client. -/
def checkArgs (host : LuaHost) (args : RerankArgs) :
    Option (Bytes × Bytes × List LuaValue × Bytes × Int32) := do
  let code ← checkString args.code
  let ctx ← optString args.ctx []
  let cands ← checkTable args.cands
  let app ← optString args.app []
  let timeoutMs ← host.optInteger args.timeoutMs
  return (code, ctx, cands, app, timeoutMs)

/-- `l_rerank` behind the checks. -/
def rerankCandidates (host : LuaHost) (code ctx : Bytes) (cands : List LuaValue) (app : Bytes)
    (timeoutMs : Int32) : Exit :=
  if cands.length = 0 then
    let s := (LuaStack.push {} (.table [] [])).push (.table [] [])
    let s := s.setField (ascii "indices")
    .returned 1 ((s.push (.integer 0)).setField (ascii "latency_us"))
  else if host.allocates cands.length = false then .returned 1 (LuaStack.push {} .nil)
  else
    match pushCandidates {} cands with
    | (s, none) => .raised s
    | (s, some texts) =>
        match host.rerank code ctx texts app timeoutMs with
        | none => .returned 1 ((s.pop cands.length).push .nil)
        | some result => .returned 1 (pushResult (s.pop cands.length) result)

/-- `l_rerank`. -/
def lRerankC (host : LuaHost) (args : RerankArgs) : Exit :=
  match args.self with
  | .client false => .returned 1 (LuaStack.push {} .nil)
  | .client true =>
      match checkArgs host args with
      | none => .raised {}
      | some (code, ctx, cands, app, timeoutMs) =>
          rerankCandidates host code ctx cands app timeoutMs
  | _ => .raised {}

/-! ### How high the stack gets -/

/-- On a normal exit there is one result, and nothing else above the arguments. -/
def Exit.LeavesResult : Exit → Prop
  | .returned results s => results = 1 ∧ s.values.length = 1
  | .raised _ => True

/-- The candidate passes `luaL_checkstring`. -/
def isText (v : LuaValue) : Bool := (checkString v).isSome

/-- How many candidates are pushed: all, or up to the first that is no string. -/
def pushedCount (vs : List LuaValue) : Nat := min vs.length ((vs.takeWhile isText).length + 1)

section Heights

variable {s : LuaStack} {vs : List LuaValue}

theorem pushCandidates_pushes (s : LuaStack) (vs : List LuaValue) :
    (pushCandidates s vs).1.pushes =
      s.pushes ++ List.range' (s.values.length + 1) (pushedCount vs) := by
  induction vs generalizing s with
  | nil => simp [pushCandidates, pushedCount]
  | cons v vs ih =>
      cases hv : checkString v with
      | none =>
          have hcount : pushedCount (v :: vs) = 1 := by
            simp [pushedCount, isText, hv]
          simp [pushCandidates, hv, hcount]
      | some text =>
          have hcount : pushedCount (v :: vs) = pushedCount vs + 1 := by
            simp [pushedCount, isText, hv]
          simp [pushCandidates, hv, hcount, ih, List.range'_succ]

/-- Where the loop goes through, every candidate stands on the stack. -/
theorem pushCandidates_values {texts : List Bytes}
    (h : (pushCandidates s vs).2 = some texts) :
    (pushCandidates s vs).1.values = vs.reverse ++ s.values ∧
      vs.map checkString = texts.map some := by
  induction vs generalizing s texts with
  | nil =>
      obtain rfl : [] = texts := Option.some.inj h
      simp [pushCandidates]
  | cons v vs ih =>
      cases hv : checkString v with
      | none => simp [pushCandidates, hv] at h
      | some text =>
          simp only [pushCandidates, hv, Option.map_eq_some_iff] at h
          obtain ⟨texts', htexts', rfl⟩ := h
          obtain ⟨hvalues, hmap⟩ := ih htexts'
          simp [pushCandidates, hv, hvalues, hmap]

/-- An index goes over the two tables and into the upper one. -/
theorem pushIndices_spec {fields : List (Bytes × LuaValue)} {items rest : List LuaValue}
    (hs : s.values = .table fields items :: rest) (is : List Int32) :
    (pushIndices s is).values =
        .table fields (items ++ is.map fun i => .integer (i.toInt64 + 1)) :: rest ∧
      (pushIndices s is).pushes = s.pushes ++ List.replicate is.length (rest.length + 2) := by
  induction is generalizing s items with
  | nil => simp [pushIndices, hs]
  | cons i is ih =>
      have hstep : ((s.push (.integer (i.toInt64 + 1))).rawSetI).values =
          .table fields (items ++ [.integer (i.toInt64 + 1)]) :: rest :=
        LuaStack.rawSetI_values (by simp [hs])
      obtain ⟨hvalues, hpushes⟩ := ih hstep
      refine ⟨by simpa [pushIndices] using hvalues, ?_⟩
      simpa [pushIndices, hs, List.replicate_succ] using hpushes

/-- The table of a result. -/
def resultTable (result : RerankResult) : LuaValue :=
  .table
    [(ascii "indices", .table [] (result.indices.map fun i => .integer (i.toInt64 + 1))),
      (ascii "latency_us", .integer (.ofNat result.latencyUs.toNat)),
      (ascii "model_version", .integer (.ofNat result.modelVersion.toNat))] []

/-- From an empty stack, the table of a result takes three slots and stays alone. -/
theorem pushResult_spec (hs : s.values = []) (result : RerankResult) :
    (pushResult s result).values = [resultTable result] ∧
      (pushResult s result).pushes =
        s.pushes ++ ([1, 2] ++ List.replicate result.indices.length 3 ++ [2, 2]) := by
  have htables : ((s.push (.table [] [])).push (.table [] [])).values =
      [.table [] [], .table [] []] := by
    simp [hs]
  obtain ⟨hvalues, hpushes⟩ := pushIndices_spec htables result.indices
  unfold pushResult
  dsimp only
  generalize pushIndices ((s.push (.table [] [])).push (.table [] [])) result.indices = t
    at hvalues hpushes
  have hindices := LuaStack.setField_values hvalues (ascii "indices")
  have hlatency := LuaStack.setField_values
    (s := (t.setField (ascii "indices")).push (.integer (.ofNat result.latencyUs.toNat)))
    (by rw [LuaStack.push_values, hindices]) (ascii "latency_us")
  have hversion := LuaStack.setField_values
    (s := ((((t.setField (ascii "indices")).push
      (.integer (.ofNat result.latencyUs.toNat))).setField (ascii "latency_us")).push
        (.integer (.ofNat result.modelVersion.toNat))))
    (by rw [LuaStack.push_values, hlatency]) (ascii "model_version")
  refine ⟨by simpa [resultTable] using hversion, ?_⟩
  simp [hindices, hlatency, hpushes, hs]

/-- The candidates that the loop goes through; none where the call ends before it. -/
def tableReached (host : LuaHost) (args : RerankArgs) : List LuaValue :=
  match args.self, checkArgs host args with
  | .client true, some (_, _, cands, _, _) => if host.allocates cands.length then cands else []
  | _, _ => []

/-- The loop ends within the slots that are free: the table is short enough, or one of its first
entries is no string, and the check raises an error. -/
def StaysWithin (host : LuaHost) (args : RerankArgs) : Prop :=
  (tableReached host args).length ≤ luaMinStack ∨
    ∃ v ∈ (tableReached host args).take luaMinStack, isText v = false

theorem pushedCount_le_iff (vs : List LuaValue) (n : Nat) :
    pushedCount vs ≤ n ↔ vs.length ≤ n ∨ ∃ v ∈ vs.take n, isText v = false := by
  induction vs generalizing n with
  | nil => simp [pushedCount]
  | cons v vs ih =>
      cases n with
      | zero => simp [pushedCount]
      | succ n =>
          by_cases hv : isText v = true
          · have hcount : pushedCount (v :: vs) = pushedCount vs + 1 := by
              simp [pushedCount, hv]
            simp [hcount, ih, hv]
          · have hcount : pushedCount (v :: vs) = 1 := by
              simp [pushedCount, hv]
            simp [hcount, Bool.not_eq_true _ |>.mp hv]

theorem range'_le_iff (k n : Nat) : (∀ h ∈ List.range' 1 k, h ≤ n) ↔ k ≤ n := by
  constructor
  · intro h
    by_contra hk
    exact absurd (h k (by simp [List.mem_range'_1]; omega)) hk
  · intro hk h hh
    have hmem := List.mem_range'_1.mp hh
    omega

/-- Behind the checks, the loop decides. -/
theorem rerankCandidates_spec (host : LuaHost) (code ctx : Bytes) (cands : List LuaValue)
    (app : Bytes) (timeoutMs : Int32) :
    (rerankCandidates host code ctx cands app timeoutMs).LeavesResult ∧
      ((∀ h ∈ (rerankCandidates host code ctx cands app timeoutMs).stack.pushes,
          h ≤ luaMinStack) ↔
        host.allocates cands.length = false ∨ pushedCount cands ≤ luaMinStack) := by
  unfold rerankCandidates
  split_ifs with hempty halloc
  · obtain rfl := List.length_eq_zero_iff.mp hempty
    constructor
    · simp [Exit.LeavesResult, LuaStack.setField]
    · simp [Exit.stack, pushedCount, luaMinStack, LuaStack.setField]
  · simp [Exit.LeavesResult, Exit.stack, halloc, luaMinStack]
  · have hpushes := pushCandidates_pushes {} cands
    have hvalues := @pushCandidates_values {} cands
    cases hp : pushCandidates {} cands with
    | mk s texts =>
        rw [hp] at hpushes hvalues
        simp only [List.nil_append, List.length_nil, Nat.zero_add] at hpushes
        have hloop : (∀ h ∈ s.pushes, h ≤ luaMinStack) ↔
            host.allocates cands.length = false ∨ pushedCount cands ≤ luaMinStack := by
          rw [hpushes, range'_le_iff]
          simp [halloc]
        cases texts with
        | none => exact ⟨trivial, hloop⟩
        | some texts =>
            have hall : s.values = cands.reverse ++ [] := (hvalues rfl).1
            have hpop : (s.pop cands.length).values = [] := by
              simp [LuaStack.pop, hall]
            have hkept : (s.pop cands.length).pushes = s.pushes := rfl
            dsimp only
            cases host.rerank code ctx texts app timeoutMs with
            | none =>
                refine ⟨by simp [Exit.LeavesResult, hpop], ?_⟩
                rw [← hloop]
                simp [Exit.stack, hpop, hkept, luaMinStack, or_imp, forall_and]
            | some result =>
                obtain ⟨hresult, hpushed⟩ := pushResult_spec hpop result
                refine ⟨by simp [Exit.LeavesResult, hresult], ?_⟩
                rw [← hloop]
                simp [Exit.stack, hpushed, hkept, luaMinStack, or_imp, forall_and]

/-- **Within the free slots exactly when the table is short.** -/
theorem l_rerank_stack_iff (host : LuaHost) (args : RerankArgs) :
    ((∀ h ∈ (lRerankC host args).stack.pushes, h ≤ luaMinStack) ∧
        (lRerankC host args).LeavesResult) ↔ StaysWithin host args := by
  have hstays : StaysWithin host args ↔ pushedCount (tableReached host args) ≤ luaMinStack :=
    (pushedCount_le_iff _ _).symm
  rw [hstays]
  unfold lRerankC tableReached
  cases hself : args.self with
  | client live =>
      cases live with
      | false => simp [Exit.LeavesResult, Exit.stack, luaMinStack, pushedCount]
      | true =>
          cases hchecked : checkArgs host args with
          | none => simp [Exit.LeavesResult, Exit.stack, pushedCount]
          | some checked =>
              obtain ⟨code, ctx, cands, app, timeoutMs⟩ := checked
              have hspec := rerankCandidates_spec host code ctx cands app timeoutMs
              dsimp only
              rw [and_iff_left hspec.1, hspec.2]
              split_ifs with halloc
              · simp [halloc]
              · simp [halloc, pushedCount]
  | _ => simp [Exit.LeavesResult, Exit.stack, pushedCount]

end Heights

/-! ### The calls of the filter -/

section Filter

/-- The arguments that `compute_order` passes. -/
def filterArgs (live : Bool) (code ctx : Bytes) (sub : List Bytes) (app : Bytes)
    (timeoutMs : Int64) : RerankArgs where
  self := .client live
  code := .string code
  ctx := .string ctx
  cands := .table [] (sub.map .string)
  app := .string app
  timeoutMs := .integer timeoutMs

/-- The bridge over a `DafengClient::Rerank` that comes back. -/
def bridgeHost (bridge : Bridge) (rerank : RerankRequest → Int → Outcome) : LuaHost where
  optInteger
    | .nil => some 30
    | .integer i => some i.toInt32
    | _ => none
  allocates _ := bridge.pointers
  rerank code ctx texts app timeoutMs :=
    dafengClientRerank bridge.copied
      (rerank (bridgeRequest code ctx texts app) (max timeoutMs.toInt 0))

/-- What Lua code sees of the table: its `indices`, where they are integers. -/
def indicesOf : LuaValue → Option (Option (List Int64))
  | .table fields _ =>
      some ((fields.lookup (ascii "indices")).bind fun
        | .table _ items => items.mapM fun
          | .integer i => some i
          | _ => none
        | _ => none)
  | _ => none

/-- What `pcall(client:rerank(...))` comes back with. -/
def Exit.outcome : Exit → CallOutcome
  | .returned _ s => .returned (s.values.head?.bind indicesOf)
  | .raised _ => .raised

theorem indicesOf_resultTable (result : RerankResult) :
    indicesOf (resultTable result) = some (some (result.indices.map fun i => i.toInt64 + 1)) := by
  have hitems : ∀ is : List Int32, (is.map fun i => LuaValue.integer (i.toInt64 + 1)).mapM
      (fun | .integer i => some i | _ => none) = some (is.map fun i => i.toInt64 + 1) := by
    intro is
    induction is with
    | nil => rfl
    | cons i is ih => simp [ih]
  simp [indicesOf, resultTable, hitems]

theorem pushCandidates_strings (s : LuaStack) (sub : List Bytes) :
    (pushCandidates s (sub.map .string)).2 = some sub := by
  induction sub generalizing s with
  | nil => rfl
  | cons text sub ih => simp [pushCandidates, checkString, ih]

theorem checkArgs_filterArgs {host : LuaHost} {timeoutMs : Int64} {t : Int32}
    (htimeout : host.optInteger (.integer timeoutMs) = some t) (live : Bool) (code ctx : Bytes)
    (sub : List Bytes) (app : Bytes) :
    checkArgs host (filterArgs live code ctx sub app timeoutMs) =
      some (code, ctx, sub.map .string, app, t) := by
  simp [checkArgs, filterArgs, checkString, optString, checkTable, htimeout]

/-- The stack machine computes what the bridge is modelled to answer: where the machine
stays within its slots, the bridge comes back with the outcome of the machine, and
elsewhere the stack is overrun. -/
theorem outcome_lRerankC (bridge : Bridge) (rerank : RerankRequest → Int → Outcome)
    (code ctx : Bytes) (sub : List Bytes) (app : Bytes) (timeoutMs : Int64) :
    lRerank bridge (fun req t => some (rerank req t)) code ctx sub app timeoutMs =
      if ∀ h ∈ (lRerankC (bridgeHost bridge rerank)
          (filterArgs bridge.present code ctx sub app timeoutMs)).stack.pushes, h ≤ luaMinStack
      then .ok (lRerankC (bridgeHost bridge rerank)
        (filterArgs bridge.present code ctx sub app timeoutMs)).outcome
      else .error .stackOverrun := by
  have hchecked : checkArgs (bridgeHost bridge rerank)
      (filterArgs bridge.present code ctx sub app timeoutMs) =
        some (code, ctx, sub.map .string, app, timeoutMs.toInt32) :=
    checkArgs_filterArgs rfl bridge.present code ctx sub app
  have hcall : (bridgeHost bridge rerank).rerank code ctx sub app timeoutMs.toInt32 =
      dafengClientRerank bridge.copied
        (rerank (bridgeRequest code ctx sub app) (max timeoutMs.toInt32.toInt 0)) := rfl
  have halloc : (bridgeHost bridge rerank).allocates sub.length = bridge.pointers := rfl
  have hcount : pushedCount (sub.map .string) = sub.length := by
    have hall : (sub.map LuaValue.string).takeWhile isText = sub.map .string := by
      rw [List.takeWhile_eq_self_iff]
      intro v hv
      obtain ⟨text, -, rfl⟩ := List.mem_map.mp hv
      rfl
    rw [pushedCount, hall, List.length_map]
    omega
  unfold lRerankC
  rw [hchecked]
  cases hpresent : bridge.present with
  | false => simp [filterArgs, lRerank, hpresent, Exit.outcome, Exit.stack, indicesOf, luaMinStack]
  | true =>
      have hspec := (rerankCandidates_spec (bridgeHost bridge rerank) code ctx
        (sub.map .string) app timeoutMs.toInt32).2
      rw [List.length_map, halloc, hcount] at hspec
      simp only [filterArgs, hspec]
      simp only [rerankCandidates, lRerank, hpresent, Bool.true_eq_false, if_false,
        List.length_map, halloc]
      by_cases hempty : sub.length = 0
      · rw [if_pos hempty, if_pos hempty, if_pos (.inr (by omega))]
        simp [Exit.outcome, LuaStack.setField, indicesOf]
      · rw [if_neg hempty, if_neg hempty]
        by_cases hpointers : bridge.pointers = false
        · rw [if_pos hpointers, if_pos hpointers, if_pos (.inl hpointers)]
          simp [Exit.outcome, indicesOf]
        · rw [if_neg hpointers, if_neg hpointers]
          by_cases hslots : luaMinStack < sub.length
          · rw [if_pos hslots, if_neg (by simp [hpointers]; omega)]
          · rw [if_neg hslots, if_pos (.inr (by omega))]
            have hstrings := pushCandidates_strings {} sub
            have hvalues := (pushCandidates_values hstrings).1
            cases hp : pushCandidates {} (sub.map .string) with
            | mk s texts =>
                rw [hp] at hstrings hvalues
                obtain rfl : texts = some sub := hstrings
                have hall : s.values = (sub.map .string).reverse ++ [] := hvalues
                have hpop : (s.pop sub.length).values = [] := by
                  simp [LuaStack.pop, hall]
                dsimp only
                rw [hcall]
                cases dafengClientRerank bridge.copied (rerank (bridgeRequest code ctx sub app)
                    (max timeoutMs.toInt32.toInt 0)) with
                | none => simp [Exit.outcome, indicesOf]
                | some result =>
                    simp [Exit.outcome, (pushResult_spec hpop result).1, indicesOf_resultTable]

theorem tableReached_filterArgs_length (host : LuaHost) (live : Bool) (code ctx : Bytes)
    (sub : List Bytes) (app : Bytes) (timeoutMs : Int64) :
    (tableReached host (filterArgs live code ctx sub app timeoutMs)).length ≤ sub.length := by
  unfold tableReached
  cases htimeout : host.optInteger (.integer timeoutMs) with
  | none =>
      have hchecked : checkArgs host (filterArgs live code ctx sub app timeoutMs) = none := by
        simp [checkArgs, filterArgs, checkString, optString, checkTable, htimeout]
      simp [hchecked]
  | some t =>
      rw [checkArgs_filterArgs htimeout]
      cases live with
      | false => simp [filterArgs]
      | true =>
          simp only [filterArgs]
          split_ifs <;> simp

/-- A `max_candidates_to_rerank` of at most 20 keeps every call of the filter within. -/
theorem staysWithin_filter {options : Options} {m : Int64} {n : Int} (hm : m.toInt ≤ luaMinStack)
    (host : LuaHost) (live : Bool) (code ctx : Bytes) (candTexts : List (Option Bytes))
    (app : Bytes) (timeoutMs : Int64) :
    StaysWithin host (filterArgs live code ctx
      (subTexts candTexts (protectN options n + 1) (rerankEnd options m n)) app timeoutMs) := by
  have hlen := tableReached_filterArgs_length host live code ctx
    (subTexts candTexts (protectN options n + 1) (rerankEnd options m n)) app timeoutMs
  have hsub : (subTexts candTexts (protectN options n + 1) (rerankEnd options m n)).length ≤
      luaMinStack := by
    rw [subTexts, List.length_map, luaRange_length]
    by_cases hsum : protectN options n + m.toInt < 2 ^ 63
    · have hlow := m.le_toInt
      have hnonneg := protectN_nonneg options n
      rw [rerankEnd, luaWrap_eq (by omega) hsum]
      omega
    · have := @rerankEnd_lt_protectN options m n (by omega)
      omega
  exact .inl (hlen.trans hsub)

/-- With `max_candidates_to_rerank` at 21 and as many candidates behind the protected ones, the
filter passes a table of 21 strings. -/
def wideCall : RerankArgs :=
  filterArgs true (ascii "abcd") [] (subTexts (List.replicate 24 (some (ascii "a"))) 4 24) [] 30

/-- A client that does not answer. -/
def silentHost : LuaHost where
  optInteger _ := some 30
  allocates _ := true
  rerank _ _ _ _ _ := none

theorem l_rerank_overflows :
    ¬((∀ h ∈ (lRerankC silentHost wideCall).stack.pushes, h ≤ luaMinStack) ∧
      (lRerankC silentHost wideCall).LeavesResult) := by
  rintro ⟨hlow, -⟩
  have hpushed : 21 ∈ (lRerankC silentHost wideCall).stack.pushes := by decide
  exact absurd (hlow 21 hpushed) (by decide)

end Filter

end Dafeng.Plugin
