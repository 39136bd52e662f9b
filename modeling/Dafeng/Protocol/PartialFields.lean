import Dafeng.Library.Containers
import Dafeng.Protocol.RoundTrip

/-!
# Dafeng.Protocol.PartialFields

What a field of a decoded message holds when its entry does not convert. `MapGet`
converts into the field itself and swallows the exception: a scalar keeps its default,
but a list keeps what was filled in before the bad element.
-/

namespace Dafeng.Protocol

open Dafeng.Msgpack

/-! ### Complete fields -/

def asUInt8 (v : Value) : Option UInt8 := (asUInt 0xff v).map UInt8.ofNat

def asUInt32 (v : Value) : Option UInt32 := (asUInt 0xffffffff v).map UInt32.ofNat

def asUInt64 (v : Value) : Option UInt64 := (asUInt 0xffffffffffffffff v).map UInt64.ofNat

/-- The complete value of the first entry with the key, or the default. -/
def Complete {α : Type} (convert : Value → Option α) (kvs : List (Value × Value)) (key : Bytes)
    (default field : α) : Prop :=
  (∃ v, lookupKey key kvs = some v ∧ convert v = some field) ∨ field = default

/-- Every field of a message is complete. -/
def AllOrNothing (mp : Unpacker) (kvs : List (Value × Value)) : Message → Prop
  | .rerankRequest m =>
    let d : RerankRequest := {}
    Complete asUInt32 kvs kKeyId d.requestId m.requestId ∧
      Complete asStr kvs kKeyCode d.code m.code ∧
      Complete asStr kvs kKeyContext d.contextBefore m.contextBefore ∧
      Complete (asVector asStr) kvs kKeyCandidates d.candidates m.candidates ∧
      Complete asStr kvs kKeyAppId d.appId m.appId
  | .rerankResponse m =>
    let d : RerankResponse := {}
    Complete asUInt32 kvs kKeyId d.requestId m.requestId ∧
      Complete (asVector asInt32) kvs kKeyOrder d.reorderedIndices m.reorderedIndices ∧
      Complete (asVector (asFloat mp)) kvs kKeyScores d.scores m.scores ∧
      Complete asUInt32 kvs kKeyLatencyUs d.latencyUs m.latencyUs ∧
      Complete asUInt8 kvs kKeyModelVersion d.modelVersion m.modelVersion
  | .commitEvent m =>
    let d : CommitEvent := {}
    Complete asStr kvs kKeyCode d.code m.code ∧
      Complete asStr kvs kKeyText d.committedText m.committedText ∧
      Complete asStr kvs kKeyContext d.contextBefore m.contextBefore
  | .ping m =>
    let d : PingMessage := {}
    Complete asUInt32 kvs kKeyId d.requestId m.requestId
  | .pong m =>
    let d : PongMessage := {}
    Complete asUInt32 kvs kKeyId d.requestId m.requestId
  | .error m =>
    let d : ErrorMessage := {}
    Complete asUInt32 kvs kKeyId d.requestId m.requestId ∧
      Complete asInt32 kvs kKeyErrCode d.code m.code ∧
      Complete asStr kvs kKeyErrMsg d.message m.message
  | .statsRequest m =>
    let d : StatsRequest := {}
    Complete asUInt32 kvs kKeyId d.requestId m.requestId
  | .statsResponse m =>
    let d : StatsResponse := {}
    Complete asUInt32 kvs kKeyId d.requestId m.requestId ∧
      Complete asUInt64 kvs kKeyRerankCount d.rerankCount m.rerankCount ∧
      Complete asUInt64 kvs kKeyPingCount d.pingCount m.pingCount ∧
      Complete asUInt64 kvs kKeyCommitCount d.commitCount m.commitCount ∧
      Complete asUInt64 kvs kKeyErrorCount d.errorCount m.errorCount ∧
      Complete asUInt64 kvs kKeyRerankLatSum d.rerankLatencySumUs m.rerankLatencySumUs ∧
      Complete asUInt32 kvs kKeyRerankLatMax d.rerankLatencyMaxUs m.rerankLatencyMaxUs ∧
      Complete asUInt8 kvs kKeyRerankModelVer d.rerankModelVersion m.rerankModelVersion ∧
      Complete asUInt64 kvs kKeyUptimeSec d.uptimeSec m.uptimeSec

/-- If the first entry with the key has a list, then one whose elements all convert. -/
def GoodList {α : Type} (convert : Value → Option α) (kvs : List (Value × Value)) (key : Bytes) :
    Prop :=
  ∀ xs, lookupKey key kvs = some (.arr xs) → ∀ x ∈ xs, convert x ≠ none

/-- The lists that a decoder looks up are good. -/
def GoodLists (mp : Unpacker) (kvs : List (Value × Value)) : MessageType → Prop
  | .rerankRequest => GoodList asStr kvs kKeyCandidates
  | .rerankResponse => GoodList asInt32 kvs kKeyOrder ∧ GoodList (asFloat mp) kvs kKeyScores
  | _ => True

section Fields

variable {α : Type} {kvs : List (Value × Value)} {key : Bytes}

theorem complete_scalar (convert : Value → Option α) (out : α) :
    Complete convert kvs key out (mapGet (convertScalar convert) (.map kvs) key out).1 := by
  rw [mapGet, mapGetLoop_eq]
  cases hlookup : lookupKey key kvs with
  | none => exact .inr rfl
  | some v =>
      dsimp only
      rw [convertScalar]
      cases hconvert : convert v with
      | none => exact .inr rfl
      | some a => exact .inl ⟨v, hlookup, hconvert⟩

/-- A list with a bad element has the length of the array all the same. -/
theorem complete_list_iff (convert : Value → Option α) (default : α) :
    Complete (asVector convert) kvs key []
        (mapGet (convertVector default convert) (.map kvs) key []).1 ↔
      GoodList convert kvs key := by
  rw [mapGet, mapGetLoop_eq]
  constructor
  · intro h xs hxs x hx
    rw [hxs] at h
    cases h with
    | inl hwhole =>
        obtain ⟨v, hv, hconvert⟩ := hwhole
        obtain rfl := Option.some.inj (hxs.symm.trans hv)
        refine mapM_ne_none_iff.mp ?_ x hx
        rw [show xs.mapM convert = _ from hconvert]
        exact Option.some_ne_none _
    | inr hnil =>
        have hlen : xs.length = 0 := by
          have hfill := fillVector_length convert xs (resize default xs.length [])
          rw [resize_length, show (fillVector convert xs _).1 = [] from hnil] at hfill
          exact hfill.symm
        rw [List.length_eq_zero_iff.mp hlen] at hx
        cases hx
  · intro hgood
    cases hlookup : lookupKey key kvs with
    | none => exact .inr rfl
    | some v =>
        cases v with
        | arr xs =>
            obtain ⟨as, has⟩ := Option.ne_none_iff_exists'.mp
              (mapM_ne_none_iff.mpr (hgood xs hlookup))
            refine .inl ⟨_, hlookup, ?_⟩
            dsimp only
            rw [convertVector_of_asVector (show asVector convert (.arr xs) = some as from has)]
            exact has
        | _ => exact .inr rfl

end Fields

/-! ### Decoded messages -/

/-- The entries of the map in a body. -/
def bodyEntries (mp : Unpacker) (data : Bytes) : List (Value × Value) :=
  match unpackBody mp data with
  | some (.map kvs) => kvs
  | _ => []

theorem decodeBody_eq_some {mp : Unpacker} {data : Bytes} {msg : Message}
    (h : decodeBody mp data = some msg) :
    ∃ t, decodeMessage mp (.map (bodyEntries mp data)) t = some msg := by
  unfold decodeBody at h
  unfold bodyEntries
  cases hobj : unpackBody mp data with
  | none =>
      rw [hobj] at h
      cases h
  | some obj =>
      rw [hobj] at h
      dsimp only at h
      cases obj with
      | map kvs =>
          cases htype : mapGetType (.map kvs) with
          | none =>
              rw [htype] at h
              cases h
          | some t =>
              rw [htype] at h
              exact ⟨t, h⟩
      | _ => cases h

/-- **All or nothing.** The fields of a decoded message are complete exactly where no
list that the decoder looks up has an element that does not convert. -/
theorem all_or_nothing_iff (mp : Unpacker) {data : Bytes} {msg : Message}
    (h : decodeBody mp data = some msg) :
    AllOrNothing mp (bodyEntries mp data) msg ↔ GoodLists mp (bodyEntries mp data) msg.type := by
  obtain ⟨t, hmsg⟩ := decodeBody_eq_some h
  cases t with
  | rerankRequest =>
      obtain rfl := Option.some.inj hmsg
      refine ⟨fun hall => (complete_list_iff asStr []).mp hall.2.2.2.1, fun hgood => ?_⟩
      exact ⟨complete_scalar _ _, complete_scalar _ _, complete_scalar _ _,
        (complete_list_iff asStr []).mpr hgood, complete_scalar _ _⟩
  | rerankResponse =>
      obtain rfl := Option.some.inj hmsg
      refine ⟨fun hall => ⟨(complete_list_iff asInt32 0).mp hall.2.1,
        (complete_list_iff (asFloat mp) 0).mp hall.2.2.1⟩, fun hgood => ?_⟩
      exact ⟨complete_scalar _ _, (complete_list_iff asInt32 0).mpr hgood.1,
        (complete_list_iff (asFloat mp) 0).mpr hgood.2, complete_scalar _ _, complete_scalar _ _⟩
  | commitEvent =>
      obtain rfl := Option.some.inj hmsg
      exact iff_of_true ⟨complete_scalar _ _, complete_scalar _ _, complete_scalar _ _⟩ trivial
  | ping =>
      obtain rfl := Option.some.inj hmsg
      exact iff_of_true (complete_scalar _ _) trivial
  | pong =>
      obtain rfl := Option.some.inj hmsg
      exact iff_of_true (complete_scalar _ _) trivial
  | error =>
      obtain rfl := Option.some.inj hmsg
      exact iff_of_true ⟨complete_scalar _ _, complete_scalar _ _, complete_scalar _ _⟩ trivial
  | statsRequest =>
      obtain rfl := Option.some.inj hmsg
      exact iff_of_true (complete_scalar _ _) trivial
  | statsResponse =>
      obtain rfl := Option.some.inj hmsg
      exact iff_of_true ⟨complete_scalar _ _, complete_scalar _ _, complete_scalar _ _,
        complete_scalar _ _, complete_scalar _ _, complete_scalar _ _, complete_scalar _ _,
        complete_scalar _ _, complete_scalar _ _⟩ trivial
  | invalid => cases hmsg
  | unnamed n => cases hmsg

/-- What this version of the program sends is complete. -/
theorem all_or_nothing_reply :
    let m : RerankResponse := { requestId := 7, reorderedIndices := [1, 0], scores := [0, 0] }
    AllOrNothing .reference (entries (.rerankResponse m)) (.rerankResponse m) := by
  intro m
  have hdecode : decodeBody .reference (encodeBody (.rerankResponse m)) =
      some (.rerankResponse m) :=
    (decodeBody_encoded .reference _).trans (if_pos (by decide))
  have hentries : bodyEntries .reference (encodeBody (.rerankResponse m)) =
      entries (.rerankResponse m) := by
    rw [bodyEntries, unpackBody_encodeBody, if_pos (by decide)]
  have hgood : GoodLists .reference (entries (.rerankResponse m)) .rerankResponse := by
    refine ⟨fun xs hxs x hx => ?_, fun xs hxs x hx => ?_⟩
    · obtain rfl := Value.arr.inj (Option.some.inj hxs)
      obtain ⟨i, -, rfl⟩ := List.mem_map.mp hx
      rw [asInt32_int32Value]
      exact Option.some_ne_none i
    · obtain rfl := Value.arr.inj (Option.some.inj hxs)
      obtain ⟨bits, -, rfl⟩ := List.mem_map.mp hx
      exact Option.some_ne_none bits
  rw [← hentries] at hgood ⊢
  exact (all_or_nothing_iff .reference hdecode).mpr hgood

/-- A reply whose second index is not a number. -/
def halfOrder : Value :=
  .map [(.str kKeyType, .uint 2), (.str kKeyOrder, .arr [.uint 3, .nil, .uint 1])]

theorem decodeBody_halfOrder : decodeBody .reference (pack halfOrder) =
    some (.rerankResponse { reorderedIndices := [3, 0, 0] }) := by
  rw [decodeBody, unpackBody_pack .reference (by decide)]
  rfl

/-- Its list of indices is neither complete nor empty. -/
theorem partial_order : ¬ ∀ (mp : Unpacker) (data : Bytes) (msg : Message),
    decodeBody mp data = some msg → AllOrNothing mp (bodyEntries mp data) msg := by
  intro hall
  have hcomplete := (hall .reference _ _ decodeBody_halfOrder).2.1
  rw [bodyEntries, unpackBody_pack .reference (by decide)] at hcomplete
  cases hcomplete with
  | inl hwhole =>
      obtain ⟨v, hv, hconvert⟩ := hwhole
      obtain rfl := Option.some.inj hv
      cases hconvert
  | inr hnil => cases hnil

end Dafeng.Protocol
