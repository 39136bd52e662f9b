import Dafeng.Library.Transition
import Mathlib.Data.List.Range
import Mathlib.Data.List.ReduceOption

/-!
# Dafeng.Plugin.Handles

What the Lua bridge owns: the clients behind the userdata of `dafeng_lua_bridge.c`, and the blocks
that `l_rerank` gets from `malloc`.

A script can call the functions of the bridge in any order and with any values, `__gc` among them,
which stands in the metatable where every script finds it. The collector runs `__gc` whenever Lua
allocates, and so does any other finalizer, also in the middle of an `l_rerank`. Clients and blocks
are the numbers of their creation.
-/

namespace Dafeng.Plugin.Handles

/-- A first argument: the userdata with this number, another userdata, which has other things
where a handle has its client, or no userdata at all. -/
inductive Value
  | client (u : Nat)
  | foreign
  | other
  deriving DecidableEq, Repr

/-- An `l_rerank` that has not returned: its handle has been checked, it has `cand_ptrs`, or it
builds its table, with the indices of the result if there are any. -/
inductive Frame
  | checked (u : Nat)
  | holding (u block : Nat)
  | building (block : Option Nat)
  deriving DecidableEq, Repr

/-- How `l_client_create` ends: no client, a userdata with the client, or a client for which there
was no memory to make a userdata. -/
inductive Create
  | failed
  | kept
  | orphaned
  deriving DecidableEq, Repr

/-- What `dafeng_client_rerank` comes back with: nothing, no indices, or a block of them. -/
inductive Answer
  | failed
  | empty
  | indices
  deriving DecidableEq, Repr

/-- The userdata, with the calls in progress, the innermost first. `fault` is a use or a second
`delete` of a client that is gone, or the use of a foreign userdata as a handle. -/
structure State where
  created : Nat := 0
  handles : List (Option Nat) := []
  destroyed : List Nat := []
  orphaned : List Nat := []
  frames : List Frame := []
  allocated : Nat := 0
  freed : List Nat := []
  lost : List Nat := []
  fault : Bool := false
  deriving DecidableEq, Repr

inductive Label
  | create (outcome : Create)
  /-- `l_client_gc`, by the collector or by a script -/
  | finalize (v : Value)
  /-- `l_record_commit`, `l_is_connected` or `l_reset_connection` -/
  | touch (v : Value)
  /-- `l_rerank` begins -/
  | rerank (v : Value)
  /-- `malloc` of `cand_ptrs` -/
  | allocate (ok : Bool)
  | ask (answer : Answer)
  /-- the innermost call returns -/
  | finish
  /-- the innermost call raises an error -/
  | raise
  deriving DecidableEq, Repr

/-- A client is used. -/
def State.useClient (s : State) (c : Nat) : State :=
  { s with fault := s.fault || s.destroyed.contains c }

/-- `dafeng_client_destroy`, and the handle is cleared. -/
def State.destroy (s : State) (u c : Nat) : State :=
  { s with
    handles := s.handles.set u none
    destroyed := s.destroyed ++ [c]
    fault := s.fault || s.destroyed.contains c }

/-- `free`. -/
def State.free (s : State) (block : Nat) : State := { s with freed := s.freed ++ [block] }

def step (s : State) : Label → Option State
  | .create .failed => some s
  | .create .kept =>
    some { s with created := s.created + 1, handles := s.handles ++ [some s.created] }
  | .create .orphaned =>
    some { s with created := s.created + 1, orphaned := s.orphaned ++ [s.created] }
  | .finalize (.client u) => do
    let handle ← s.handles[u]?
    match handle with
    | some c => some (s.destroy u c)
    | none => some s
  | .finalize .foreign => some { s with fault := true }
  | .finalize .other => some s
  | .touch (.client u) => do
    let handle ← s.handles[u]?
    match handle with
    | some c => some (s.useClient c)
    | none => some s
  -- `luaL_checkudata` refuses all other values
  | .touch .foreign | .touch .other => some s
  | .rerank (.client u) => do
    let handle ← s.handles[u]?
    match handle with
    | some _ => some { s with frames := .checked u :: s.frames }
    | none => some s
  | .rerank .foreign | .rerank .other => some s
  | .allocate ok =>
    match s.frames with
    | .checked u :: frames =>
      if ok then
        some { s with frames := .holding u s.allocated :: frames, allocated := s.allocated + 1 }
      else some { s with frames }
    | _ => none
  | .ask answer =>
    match s.frames with
    | .holding u block :: frames => do
      -- the handle is read again: it may have been cleared since it was checked
      let handle ← s.handles[u]?
      match handle, answer with
      | none, _ => some ({ s with frames }.free block)
      | some c, .failed => some (({ s with frames }.useClient c).free block)
      | some c, .empty =>
        some (({ s with frames := .building none :: frames }.useClient c).free block)
      | some c, .indices =>
        some (({ s with
          frames := .building (some s.allocated) :: frames
          allocated := s.allocated + 1 }.useClient c).free block)
    | _ => none
  | .finish =>
    match s.frames with
    | .checked _ :: frames | .building none :: frames => some { s with frames }
    | .building (some block) :: frames => some ({ s with frames }.free block)
    | _ => none
  | .raise =>
    match s.frames with
    | .checked _ :: frames | .building none :: frames => some { s with frames }
    | .holding _ block :: frames | .building (some block) :: frames =>
      some { s with frames, lost := s.lost ++ [block] }
    | [] => none

/-- The bridge, from when it is loaded. -/
def bridge : System State Label := ⟨{}, step⟩

/-! ### The ledger -/

/-- The blocks that a call has. -/
def Frame.blocks : Frame → List Nat
  | .checked _ => []
  | .holding _ block => [block]
  | .building block => block.toList

/-- Every client is in one place: behind one handle, destroyed once, or lost. So is every block:
with a call in progress, freed once, or lost. -/
structure Ledger (s : State) : Prop where
  clients : (s.handles.reduceOption ++ s.destroyed ++ s.orphaned).Perm (List.range s.created)
  blocks : (s.frames.flatMap Frame.blocks ++ s.freed ++ s.lost).Perm (List.range s.allocated)

section Blocks

variable {held rest freed lost : List Nat} {n : Nat}

end Blocks

/-- Whether a step is the error of a call. -/
def raises : Label → Bool
  | .raise => true
  | _ => false

end Dafeng.Plugin.Handles
