import Mathlib.Data.List.Nodup
import Mathlib.Data.List.Perm.Basic
import Dafeng.Protocol.RoundTrip

/-!
# Dafeng.Protocol.Compatibility

Maps that another version of the program sends: their entries stand in another order,
some fields are missing, and there are entries that this version does not know.
-/

namespace Dafeng.Protocol

open Dafeng.Msgpack

/-- The key of an entry that an encoder writes. -/
def keyOf (kv : Value × Value) : Bytes := (asStr kv.1).getD []

/-- The entries of a message whose keys stay. -/
def keptEntries (stays : Bytes → Bool) (m : Message) : List (Value × Value) :=
  (entries m).filter fun kv => stays (keyOf kv)

/-- An entry without a string key, or with one that a decoder does not look up. -/
def Unknown (t : MessageType) (kv : Value × Value) : Prop :=
  ∀ s, kv.1 = .str s → s ∉ knownKeys t

theorem keyEquals_iff {key : Value} {literal : Bytes} :
    keyEquals key literal = true ↔ key = .str literal := by
  unfold keyEquals
  cases key with
  | str s => simp only [Bool.and_eq_true, beq_iff_eq, Value.str.injEq]; grind
  | _ => simp

theorem keyEquals_of_unknown {t : MessageType} {kv : Value × Value} (h : Unknown t kv)
    {key : Bytes} (hkey : key ∈ knownKeys t) : keyEquals kv.1 key = false := by
  rw [Bool.eq_false_iff]
  intro heq
  exact h key (keyEquals_iff.mp heq) hkey

/-! ### Lookup in any order -/

theorem lookupKey_eq (key : Bytes) (kvs : List (Value × Value)) :
    lookupKey key kvs = (kvs.filter fun kv => keyEquals kv.1 key).head?.map Prod.snd := by
  rw [lookupKey, List.head?_filter]

/-- The order does not matter where at most one entry has the key. -/
theorem lookupKey_perm {key : Bytes} {kvs kvs' : List (Value × Value)} (h : kvs.Perm kvs')
    (hone : (kvs'.filter fun kv => keyEquals kv.1 key).length ≤ 1) :
    lookupKey key kvs = lookupKey key kvs' := by
  have hfilter := h.filter fun kv => keyEquals kv.1 key
  rw [lookupKey_eq, lookupKey_eq]
  cases hkvs : kvs'.filter fun kv => keyEquals kv.1 key with
  | nil =>
      rw [hkvs, List.perm_nil] at hfilter
      rw [hfilter]
  | cons kv rest =>
      have hnil : rest = [] := by
        rw [hkvs, List.length_cons] at hone
        exact List.length_eq_zero_iff.mp (by omega)
      rw [hkvs, hnil, List.perm_singleton] at hfilter
      rw [hfilter, hnil]

/-! ### The keys of a message -/

/-- The entries of a body, by their keys: the version, and what the decoder knows. -/
theorem map_keyOf_entries (m : Message) :
    (entries m).map keyOf = kKeyVersion :: knownKeys m.type := by
  cases m <;> rfl

theorem nodup_keys (m : Message) : ((entries m).map keyOf).Nodup := by
  rw [map_keyOf_entries]
  cases m <;> exact of_decide_eq_true rfl

theorem entry_key {m : Message} {kv : Value × Value} (h : kv ∈ entries m) :
    kv.1 = .str (keyOf kv) := by
  have hall : (entries m).map Prod.fst = (entries m).map fun kv => .str (keyOf kv) := by
    cases m <;> rfl
  exact List.map_inj_left.mp hall kv h

/-- At most one entry of a message has a key. -/
theorem length_filter_entries (m : Message) (key : Bytes) :
    ((entries m).filter fun kv => keyEquals kv.1 key).length ≤ 1 := by
  have hcount := List.nodup_iff_count_le_one.mp (nodup_keys m) key
  rw [List.count, List.countP_map, List.countP_eq_length_filter] at hcount
  have hsame : (entries m).filter (fun kv => keyEquals kv.1 key) =
      (entries m).filter ((· == key) ∘ keyOf) := by
    refine List.filter_congr fun kv hkv => ?_
    rw [Bool.eq_iff_iff, keyEquals_iff, entry_key hkv]
    simp
  rwa [hsame]

section Kept

variable {m : Message} {stays : Bytes → Bool} {extra kvs : List (Value × Value)}

theorem lookupKey_keptEntries (key : Bytes) : lookupKey key (keptEntries stays m) =
    if stays key then lookupKey key (entries m) else none := by
  -- an entry with the key stays exactly when the key does
  have hfilter : (keptEntries stays m).filter (fun kv => keyEquals kv.1 key) =
      (entries m).filter fun kv => keyEquals kv.1 key && stays key := by
    rw [keptEntries, List.filter_filter]
    refine List.filter_congr fun kv hkv => ?_
    cases heq : keyEquals kv.1 key with
    | false => rfl
    | true =>
        have hkey : keyOf kv = key := by
          have hstr := keyEquals_iff.mp heq
          rw [entry_key hkv] at hstr
          exact Value.str.inj hstr
        rw [hkey]
  rw [lookupKey_eq, hfilter]
  cases hstays : stays key with
  | true =>
      simp only [Bool.and_true, if_true]
      exact (lookupKey_eq key (entries m)).symm
  | false => simp

theorem lookupKey_kept (hextra : ∀ kv ∈ extra, Unknown m.type kv)
    (hperm : kvs.Perm (keptEntries stays m ++ extra)) {key : Bytes}
    (hkey : key ∈ knownKeys m.type) :
    lookupKey key kvs = if stays key then lookupKey key (entries m) else none := by
  have hnone : extra.filter (fun kv => keyEquals kv.1 key) = [] := by
    refine List.filter_eq_nil_iff.mpr fun kv hkv => ?_
    rw [keyEquals_of_unknown (hextra kv hkv) hkey]
    exact Bool.false_ne_true
  have hsub : ((keptEntries stays m).filter fun kv => keyEquals kv.1 key).Sublist
      ((entries m).filter fun kv => keyEquals kv.1 key) :=
    List.filter_sublist.filter _
  have hlen := hsub.length_le
  have hone := length_filter_entries m key
  rw [lookupKey_perm hperm, lookupKey_eq, List.filter_append, hnone, List.append_nil,
    ← lookupKey_eq, lookupKey_keptEntries]
  rw [List.filter_append, hnone, List.append_nil]
  omega

/-- **Forward compatibility.** A body whose map has the entries of a message in any
order, without some that are not the type, and with any that the decoder does not know,
decodes to the message with the default in each field that is missing. -/
theorem decodeBody_kept (mp : Unpacker) (htype : stays kKeyType = true)
    (hextra : ∀ kv ∈ extra, Unknown m.type kv)
    (hperm : kvs.Perm (keptEntries stays m ++ extra)) :
    (∀ data, unpackBody mp data = some (.map kvs) →
      decodeBody mp data = some (keepFields stays m)) ∧
    ((pack (.map kvs)).length ≤ kMaxFrameBodyBytes →
      decodeBody mp (pack (.map kvs)) = some (keepFields stays m)) := by
  have hlookup := fun key (hkey : key ∈ knownKeys m.type) => lookupKey_kept hextra hperm hkey
  have hdecode : ∀ data, unpackBody mp data = some (.map kvs) →
      decodeBody mp data = some (keepFields stays m) := by
    intro data hdata
    have hmtype : lookupKey kKeyType kvs = lookupKey kKeyType (entries m) := by
      rw [hlookup kKeyType (by cases m <;> exact List.mem_cons_self), htype, if_pos rfl]
    rw [decodeBody, hdata]
    dsimp only
    rw [mapGetType_of_lookup hmtype]
    exact decodeMessage_of_lookup mp hlookup
  exact ⟨hdecode, fun hcap => hdecode _ (unpackBody_pack mp hcap)⟩

end Kept

/-- A ping from a later version: a flag behind a key of its own, a number for a key, and
no version. -/
theorem decodeBody_kept_ping :
    decodeBody .reference (pack (.map [(.str (ascii "flag"), .bool true), (.uint 7, .nil),
      (.str kKeyId, .uint 42), (.str kKeyType, .uint 4)])) =
      some (.ping { requestId := 42 }) := by
  have hextra : ∀ kv ∈ [(Value.uint 7, Value.nil), (Value.str (ascii "flag"), Value.bool true)],
      Unknown .ping kv := by
    intro kv hkv s hs
    simp only [List.mem_cons, List.not_mem_nil, or_false] at hkv
    cases hkv with
    | inl hnum =>
        rw [hnum] at hs
        cases hs
    | inr hflag =>
        rw [hflag] at hs
        rw [← Value.str.inj hs]
        decide
  exact (@decodeBody_kept (.ping { requestId := 42 }) (fun key => key != kKeyVersion) _ _
    .reference (by decide) hextra (List.reverse_perm _)).2 (by decide)

end Dafeng.Protocol
