import Dafeng.Protocol.Codec

/-!
# Dafeng.Protocol.RoundTrip

Decoding undoes encoding, for every message whose body is within the size cap.

An encoder writes exactly one MessagePack map (`encodeBody_eq_pack`): its
hard-coded count is the number of its entries. A decoder reads a field through
the first entry with the field's key (`lookupKey`), so the round trip comes
down to one lookup and one conversion for each field.
-/

namespace Dafeng.Protocol

open Dafeng.Msgpack

/-! ### What the encoders write -/

/-- The object that `pk.pack(int32_t)` writes. -/
def int32Value (i : Int32) : Value :=
  if 0 ≤ i.toInt then .uint (UInt64.ofNat i.toInt.toNat)
  else .nint ⟨(-i.toInt - 1).toNat % 2 ^ 63, Nat.mod_lt _ (by decide)⟩

/-- The entries of `PackHeader`. -/
def headerEntries (t : MessageType) : List (Value × Value) :=
  [(.str kKeyVersion, .uint kProtocolVersion.toUInt64), (.str kKeyType, .uint t.toTag.toUInt64)]

/-- The entries an encoder writes after the header. -/
def fieldEntries : Message → List (Value × Value)
  | .rerankRequest m =>
    [(.str kKeyId, .uint m.requestId.toUInt64), (.str kKeyCode, .str m.code),
      (.str kKeyContext, .str m.contextBefore),
      (.str kKeyCandidates, .arr (m.candidates.map .str)), (.str kKeyAppId, .str m.appId)]
  | .rerankResponse m =>
    [(.str kKeyId, .uint m.requestId.toUInt64),
      (.str kKeyOrder, .arr (m.reorderedIndices.map int32Value)),
      (.str kKeyScores, .arr (m.scores.map .f32)),
      (.str kKeyLatencyUs, .uint m.latencyUs.toUInt64),
      (.str kKeyModelVersion, .uint m.modelVersion.toUInt64)]
  | .commitEvent m =>
    [(.str kKeyCode, .str m.code), (.str kKeyText, .str m.committedText),
      (.str kKeyContext, .str m.contextBefore)]
  | .ping m => [(.str kKeyId, .uint m.requestId.toUInt64)]
  | .pong m => [(.str kKeyId, .uint m.requestId.toUInt64)]
  | .error m =>
    [(.str kKeyId, .uint m.requestId.toUInt64), (.str kKeyErrCode, int32Value m.code),
      (.str kKeyErrMsg, .str m.message)]
  | .statsRequest m => [(.str kKeyId, .uint m.requestId.toUInt64)]
  | .statsResponse m =>
    [(.str kKeyId, .uint m.requestId.toUInt64), (.str kKeyRerankCount, .uint m.rerankCount),
      (.str kKeyPingCount, .uint m.pingCount), (.str kKeyCommitCount, .uint m.commitCount),
      (.str kKeyErrorCount, .uint m.errorCount),
      (.str kKeyRerankLatSum, .uint m.rerankLatencySumUs),
      (.str kKeyRerankLatMax, .uint m.rerankLatencyMaxUs.toUInt64),
      (.str kKeyRerankModelVer, .uint m.rerankModelVersion.toUInt64),
      (.str kKeyUptimeSec, .uint m.uptimeSec)]

/-- All entries of a message's body, in the order written. -/
def entries (m : Message) : List (Value × Value) := headerEntries m.type ++ fieldEntries m

theorem int32_toInt_bounds (i : Int32) : -2 ^ 31 ≤ i.toInt ∧ i.toInt < 2 ^ 31 :=
  ⟨i.le_toInt, i.toInt_lt⟩

theorem pack_int32Value (i : Int32) : pack (int32Value i) = packInt32 i := by
  have hb := int32_toInt_bounds i
  unfold int32Value packInt32
  split_ifs with h
  · rw [pack, UInt64.toNat_ofNat_of_lt']
    exact (by omega : i.toInt.toNat < 2 ^ 64)
  · rw [pack]
    congr 1
    exact Nat.mod_eq_of_lt (by omega)

theorem pack_arr_map {α : Type} {f : α → Bytes} {g : α → Value} (h : ∀ x, pack (g x) = f x)
    (xs : List α) : pack (.arr (xs.map g)) = packVector f xs := by
  rw [pack, packAll_eq, List.length_map, List.flatMap_map, packVector]
  simp only [h]

theorem pack_uint (n : UInt64) : pack (.uint n) = packUInt n.toNat := by rw [pack]

theorem pack_str (s : Bytes) : pack (.str s) = packStr s := by rw [pack]

theorem pack_f32 (bits : UInt32) : pack (.f32 bits) = packF32 bits := by rw [pack]

theorem pack_strs (xs : List Bytes) : pack (.arr (xs.map .str)) = packVector packStr xs :=
  pack_arr_map pack_str xs

theorem pack_f32s (xs : List UInt32) : pack (.arr (xs.map .f32)) = packVector packF32 xs :=
  pack_arr_map pack_f32 xs

theorem pack_int32s (xs : List Int32) :
    pack (.arr (xs.map int32Value)) = packVector packInt32 xs :=
  pack_arr_map pack_int32Value xs

theorem packEntries_nil : packEntries [] = [] := by rw [packEntries]

theorem packEntries_cons (key : Bytes) (v : Value) (kvs : List (Value × Value)) :
    packEntries ((.str key, v) :: kvs) = packKey key ++ (pack v ++ packEntries kvs) := by
  rw [packEntries, pack_str, packKey]

theorem pack_map (kvs : List (Value × Value)) :
    pack (.map kvs) = packMapHeader kvs.length ++ packEntries kvs := by
  rw [pack]

/-- A body with `n` entries: the header's two, and those of the fields. -/
theorem pack_entries {m : Message} {n : Nat} (hn : (fieldEntries m).length + 2 = n) :
    pack (.map (entries m)) =
      packMapHeader n ++ (packHeader m.type ++ packEntries (fieldEntries m)) := by
  rw [pack_map, entries, headerEntries, packHeader]
  simp only [List.cons_append, List.nil_append, packEntries_cons, pack_uint, List.length_cons,
    hn, List.append_assoc, UInt32.toNat_toUInt64, UInt8.toNat_toUInt64]

/-- **One map.** A body is the packed map of the message's entries; the counts
written by the encoders match. -/
theorem encodeBody_eq_pack (m : Message) : encodeBody m = pack (.map (entries m)) := by
  cases m with
  | rerankRequest m =>
      rw [pack_entries (n := 7) rfl, encodeBody, encodeRerankRequest, fieldEntries]
      simp only [List.flatten_cons, List.flatten_nil, packEntries_cons, packEntries_nil, pack_uint,
        pack_str, pack_strs, UInt32.toNat_toUInt64, Message.type]
  | rerankResponse m =>
      rw [pack_entries (n := 7) rfl, encodeBody, encodeRerankResponse, fieldEntries]
      simp only [List.flatten_cons, List.flatten_nil, packEntries_cons, packEntries_nil, pack_uint,
        pack_int32s, pack_f32s, UInt32.toNat_toUInt64, UInt8.toNat_toUInt64, Message.type]
  | commitEvent m =>
      rw [pack_entries (n := 5) rfl, encodeBody, encodeCommitEvent, fieldEntries]
      simp only [List.flatten_cons, List.flatten_nil, packEntries_cons, packEntries_nil, pack_str,
        Message.type]
  | ping m =>
      rw [pack_entries (n := 3) rfl, encodeBody, encodePing, fieldEntries]
      simp only [List.flatten_cons, List.flatten_nil, packEntries_cons, packEntries_nil, pack_uint,
        UInt32.toNat_toUInt64, Message.type]
  | pong m =>
      rw [pack_entries (n := 3) rfl, encodeBody, encodePong, fieldEntries]
      simp only [List.flatten_cons, List.flatten_nil, packEntries_cons, packEntries_nil, pack_uint,
        UInt32.toNat_toUInt64, Message.type]
  | error m =>
      rw [pack_entries (n := 5) rfl, encodeBody, encodeError, fieldEntries]
      simp only [List.flatten_cons, List.flatten_nil, packEntries_cons, packEntries_nil, pack_uint,
        pack_str, pack_int32Value, UInt32.toNat_toUInt64, Message.type]
  | statsRequest m =>
      rw [pack_entries (n := 3) rfl, encodeBody, encodeStatsRequest, fieldEntries]
      simp only [List.flatten_cons, List.flatten_nil, packEntries_cons, packEntries_nil, pack_uint,
        UInt32.toNat_toUInt64, Message.type]
  | statsResponse m =>
      rw [pack_entries (n := 11) rfl, encodeBody, encodeStatsResponse, fieldEntries]
      simp only [List.flatten_cons, List.flatten_nil, packEntries_cons, packEntries_nil, pack_uint,
        UInt32.toNat_toUInt64, UInt8.toNat_toUInt64, Message.type]

/-! ### Lookup by key -/

/-- The value of the first entry with a key. -/
def lookupKey (key : Bytes) (kvs : List (Value × Value)) : Option Value :=
  (kvs.find? fun kv => keyEquals kv.1 key).map Prod.snd

theorem lookupKey_cons (key : Bytes) (kv : Value × Value) (kvs : List (Value × Value)) :
    lookupKey key (kv :: kvs) =
      if keyEquals kv.1 key then some kv.2 else lookupKey key kvs := by
  unfold lookupKey
  rw [List.find?_cons]
  cases keyEquals kv.1 key <;> rfl

/-- `MapGet` converts the value of the first entry with the key, if there is one. -/
theorem mapGetLoop_eq {α : Type} (convert : Value → α → α × Bool) (key : Bytes) (out : α)
    (kvs : List (Value × Value)) :
    mapGetLoop convert key out kvs =
      match lookupKey key kvs with
      | some v => convert v out
      | none => (out, false) := by
  induction kvs with
  | nil => rfl
  | cons kv kvs ih =>
      rw [lookupKey_cons, mapGetLoop]
      split_ifs with h
      · rfl
      · exact ih

theorem mapGetTypeLoop_eq (kvs : List (Value × Value)) :
    mapGetTypeLoop kvs =
      (lookupKey kKeyType kvs).bind fun v => (asUInt 0xff v).map fun t => .ofTag (UInt8.ofNat t)
      := by
  induction kvs with
  | nil => rfl
  | cons kv kvs ih =>
      rw [lookupKey_cons, mapGetTypeLoop]
      split_ifs with h
      · rfl
      · exact ih

/-- `MapGet` on an entry that may be missing. -/
theorem mapGet_of_lookup {α : Type} {convert : Value → α → α × Bool} {key : Bytes} {out a : α}
    {kvs : List (Value × Value)} {v : Value} {b : Bool}
    (h : lookupKey key kvs = if b then some v else none) (hconvert : (convert v out).1 = a) :
    (mapGet convert (.map kvs) key out).1 = if b then a else out := by
  rw [mapGet, mapGetLoop_eq, h]
  cases b with
  | true => exact hconvert
  | false => rfl

/-! ### Each field converts back -/

section Fields

variable {kvs : List (Value × Value)} {key : Bytes} {b : Bool}

theorem getUInt8_of_lookup {n out : UInt8}
    (h : lookupKey key kvs = if b then some (.uint n.toUInt64) else none) :
    getUInt8 (.map kvs) key out = if b then n else out := by
  refine mapGet_of_lookup h ?_
  have hn := n.toNat_lt
  rw [convertScalar, asUInt, if_pos (by simp; omega)]
  simp

theorem getUInt32_of_lookup {n out : UInt32}
    (h : lookupKey key kvs = if b then some (.uint n.toUInt64) else none) :
    getUInt32 (.map kvs) key out = if b then n else out := by
  refine mapGet_of_lookup h ?_
  have hn := n.toNat_lt
  rw [convertScalar, asUInt, if_pos (by simp; omega)]
  simp

theorem getUInt64_of_lookup {n out : UInt64}
    (h : lookupKey key kvs = if b then some (.uint n) else none) :
    getUInt64 (.map kvs) key out = if b then n else out := by
  refine mapGet_of_lookup h ?_
  have hn := n.toNat_lt
  rw [convertScalar, asUInt, if_pos (by omega)]
  simp

theorem asInt32_int32Value (i : Int32) : asInt32 (int32Value i) = some i := by
  have hb := int32_toInt_bounds i
  unfold int32Value
  split_ifs with h
  · have hnat : (UInt64.ofNat i.toInt.toNat).toNat = i.toInt.toNat :=
      UInt64.toNat_ofNat_of_lt' (by rw [UInt64.size]; omega)
    rw [asInt32, hnat, if_pos (by omega)]
    congr 1
    rw [← Int32.toInt_inj, Int32.toInt_ofNat_of_lt (by omega)]
    omega
  · have hmod : (-i.toInt - 1).toNat % 2 ^ 63 = (-i.toInt - 1).toNat :=
      Nat.mod_eq_of_lt (by omega)
    simp only [asInt32, hmod]
    rw [if_pos (by omega)]
    congr 1
    rw [← Int32.toInt_inj, Int32.toInt_ofInt_of_le (by omega) (by omega)]
    omega

theorem getInt32_of_lookup {i out : Int32}
    (h : lookupKey key kvs = if b then some (int32Value i) else none) :
    getInt32 (.map kvs) key out = if b then i else out := by
  refine mapGet_of_lookup h ?_
  rw [convertScalar, asInt32_int32Value]

theorem getStr_of_lookup {s out : Bytes}
    (h : lookupKey key kvs = if b then some (.str s) else none) :
    getStr (.map kvs) key out = if b then s else out :=
  mapGet_of_lookup h rfl

theorem getStrs_of_lookup {s out : List Bytes}
    (h : lookupKey key kvs = if b then some (.arr (s.map .str)) else none) :
    getStrs (.map kvs) key out = if b then s else out := by
  refine mapGet_of_lookup h ?_
  rw [convertVector_map fun _ => by rw [asStr]]

theorem getInt32s_of_lookup {i out : List Int32}
    (h : lookupKey key kvs = if b then some (.arr (i.map int32Value)) else none) :
    getInt32s (.map kvs) key out = if b then i else out := by
  refine mapGet_of_lookup h ?_
  rw [convertVector_map asInt32_int32Value]

theorem getFloats_of_lookup {mp : Unpacker} {f out : List UInt32}
    (h : lookupKey key kvs = if b then some (.arr (f.map .f32)) else none) :
    getFloats mp (.map kvs) key out = if b then f else out := by
  refine mapGet_of_lookup h ?_
  rw [convertVector_map fun _ => by rw [asFloat]]

end Fields

/-! ### A map with some of the fields -/

/-- The keys that `DecodeBody` looks up in a message of a type. -/
def knownKeys : MessageType → List Bytes
  | .rerankRequest => [kKeyType, kKeyId, kKeyCode, kKeyContext, kKeyCandidates, kKeyAppId]
  | .rerankResponse =>
    [kKeyType, kKeyId, kKeyOrder, kKeyScores, kKeyLatencyUs, kKeyModelVersion]
  | .commitEvent => [kKeyType, kKeyCode, kKeyText, kKeyContext]
  | .error => [kKeyType, kKeyId, kKeyErrCode, kKeyErrMsg]
  | .statsResponse =>
    [kKeyType, kKeyId, kKeyRerankCount, kKeyPingCount, kKeyCommitCount, kKeyErrorCount,
      kKeyRerankLatSum, kKeyRerankLatMax, kKeyRerankModelVer, kKeyUptimeSec]
  | .ping | .pong | .statsRequest => [kKeyType, kKeyId]
  | .invalid | .unnamed _ => [kKeyType]

/-- The message with the fields whose keys stay, and the defaults of the others. -/
def keepFields (stays : Bytes → Bool) : Message → Message
  | .rerankRequest m =>
    let d : RerankRequest := {}
    .rerankRequest {
      requestId := if stays kKeyId then m.requestId else d.requestId
      code := if stays kKeyCode then m.code else d.code
      contextBefore := if stays kKeyContext then m.contextBefore else d.contextBefore
      candidates := if stays kKeyCandidates then m.candidates else d.candidates
      appId := if stays kKeyAppId then m.appId else d.appId }
  | .rerankResponse m =>
    let d : RerankResponse := {}
    .rerankResponse {
      requestId := if stays kKeyId then m.requestId else d.requestId
      reorderedIndices := if stays kKeyOrder then m.reorderedIndices else d.reorderedIndices
      scores := if stays kKeyScores then m.scores else d.scores
      latencyUs := if stays kKeyLatencyUs then m.latencyUs else d.latencyUs
      modelVersion := if stays kKeyModelVersion then m.modelVersion else d.modelVersion }
  | .commitEvent m =>
    let d : CommitEvent := {}
    .commitEvent {
      code := if stays kKeyCode then m.code else d.code
      committedText := if stays kKeyText then m.committedText else d.committedText
      contextBefore := if stays kKeyContext then m.contextBefore else d.contextBefore }
  | .ping m =>
    let d : PingMessage := {}
    .ping { requestId := if stays kKeyId then m.requestId else d.requestId }
  | .pong m =>
    let d : PongMessage := {}
    .pong { requestId := if stays kKeyId then m.requestId else d.requestId }
  | .error m =>
    let d : ErrorMessage := {}
    .error {
      requestId := if stays kKeyId then m.requestId else d.requestId
      code := if stays kKeyErrCode then m.code else d.code
      message := if stays kKeyErrMsg then m.message else d.message }
  | .statsRequest m =>
    let d : StatsRequest := {}
    .statsRequest { requestId := if stays kKeyId then m.requestId else d.requestId }
  | .statsResponse m =>
    let d : StatsResponse := {}
    .statsResponse {
      requestId := if stays kKeyId then m.requestId else d.requestId
      rerankCount := if stays kKeyRerankCount then m.rerankCount else d.rerankCount
      pingCount := if stays kKeyPingCount then m.pingCount else d.pingCount
      commitCount := if stays kKeyCommitCount then m.commitCount else d.commitCount
      errorCount := if stays kKeyErrorCount then m.errorCount else d.errorCount
      rerankLatencySumUs :=
        if stays kKeyRerankLatSum then m.rerankLatencySumUs else d.rerankLatencySumUs
      rerankLatencyMaxUs :=
        if stays kKeyRerankLatMax then m.rerankLatencyMaxUs else d.rerankLatencyMaxUs
      rerankModelVersion :=
        if stays kKeyRerankModelVer then m.rerankModelVersion else d.rerankModelVersion
      uptimeSec := if stays kKeyUptimeSec then m.uptimeSec else d.uptimeSec }

theorem keepFields_all (m : Message) : keepFields (fun _ => true) m = m := by
  cases m <;> rfl

theorem ofTag_toTag {t : MessageType} (h : ∀ n, t ≠ .unnamed n) : .ofTag t.toTag = t := by
  cases t with
  | unnamed n => exact absurd rfl (h n)
  | _ => rfl

section Map

variable {m : Message} {stays : Bytes → Bool} {kvs : List (Value × Value)}

theorem mapGetType_of_lookup (h : lookupKey kKeyType kvs = lookupKey kKeyType (entries m)) :
    mapGetType (.map kvs) = some m.type := by
  have hlookup : lookupKey kKeyType (entries m) = some (.uint m.type.toTag.toUInt64) := rfl
  have hn := m.type.toTag.toNat_lt
  rw [mapGetType, mapGetTypeLoop_eq, h, hlookup, Option.bind_some, asUInt,
    if_pos (by simp; omega), Option.map_some, UInt8.toNat_toUInt64, UInt8.ofNat_toNat,
    ofTag_toTag (by cases m <;> simp [Message.type])]

/-- A decoder reads only the first entries with the keys it knows. -/
theorem decodeMessage_of_lookup (mp : Unpacker) (h : ∀ key ∈ knownKeys m.type,
      lookupKey key kvs = if stays key then lookupKey key (entries m) else none) :
    decodeMessage mp (.map kvs) m.type = some (keepFields stays m) := by
  cases m with
  | rerankRequest m =>
      have hkey : ∀ key ∈ knownKeys .rerankRequest, _ := h
      refine congrArg (fun m => some (Message.rerankRequest m)) ?_
      rw [decodeRerankRequest, getUInt32_of_lookup (n := m.requestId) (hkey kKeyId (by decide)),
        getStr_of_lookup (s := m.code) (hkey kKeyCode (by decide)),
        getStr_of_lookup (s := m.contextBefore) (hkey kKeyContext (by decide)),
        getStrs_of_lookup (s := m.candidates) (hkey kKeyCandidates (by decide)),
        getStr_of_lookup (s := m.appId) (hkey kKeyAppId (by decide))]
  | rerankResponse m =>
      have hkey : ∀ key ∈ knownKeys .rerankResponse, _ := h
      refine congrArg (fun m => some (Message.rerankResponse m)) ?_
      rw [decodeRerankResponse, getUInt32_of_lookup (n := m.requestId) (hkey kKeyId (by decide)),
        getInt32s_of_lookup (i := m.reorderedIndices) (hkey kKeyOrder (by decide)),
        getFloats_of_lookup (f := m.scores) (hkey kKeyScores (by decide)),
        getUInt32_of_lookup (n := m.latencyUs) (hkey kKeyLatencyUs (by decide)),
        getUInt8_of_lookup (n := m.modelVersion) (hkey kKeyModelVersion (by decide))]
  | commitEvent m =>
      have hkey : ∀ key ∈ knownKeys .commitEvent, _ := h
      refine congrArg (fun m => some (Message.commitEvent m)) ?_
      rw [decodeCommitEvent, getStr_of_lookup (s := m.code) (hkey kKeyCode (by decide)),
        getStr_of_lookup (s := m.committedText) (hkey kKeyText (by decide)),
        getStr_of_lookup (s := m.contextBefore) (hkey kKeyContext (by decide))]
  | ping m =>
      have hkey : ∀ key ∈ knownKeys .ping, _ := h
      refine congrArg (fun m => some (Message.ping m)) ?_
      rw [decodePing, getUInt32_of_lookup (n := m.requestId) (hkey kKeyId (by decide))]
  | pong m =>
      have hkey : ∀ key ∈ knownKeys .pong, _ := h
      refine congrArg (fun m => some (Message.pong m)) ?_
      rw [decodePong, getUInt32_of_lookup (n := m.requestId) (hkey kKeyId (by decide))]
  | error m =>
      have hkey : ∀ key ∈ knownKeys .error, _ := h
      refine congrArg (fun m => some (Message.error m)) ?_
      rw [decodeError, getUInt32_of_lookup (n := m.requestId) (hkey kKeyId (by decide)),
        getInt32_of_lookup (i := m.code) (hkey kKeyErrCode (by decide)),
        getStr_of_lookup (s := m.message) (hkey kKeyErrMsg (by decide))]
  | statsRequest m =>
      have hkey : ∀ key ∈ knownKeys .statsRequest, _ := h
      refine congrArg (fun m => some (Message.statsRequest m)) ?_
      rw [decodeStatsRequest, getUInt32_of_lookup (n := m.requestId) (hkey kKeyId (by decide))]
  | statsResponse m =>
      have hkey : ∀ key ∈ knownKeys .statsResponse, _ := h
      refine congrArg (fun m => some (Message.statsResponse m)) ?_
      rw [decodeStatsResponse, getUInt32_of_lookup (n := m.requestId) (hkey kKeyId (by decide)),
        getUInt64_of_lookup (n := m.rerankCount) (hkey kKeyRerankCount (by decide)),
        getUInt64_of_lookup (n := m.pingCount) (hkey kKeyPingCount (by decide)),
        getUInt64_of_lookup (n := m.commitCount) (hkey kKeyCommitCount (by decide)),
        getUInt64_of_lookup (n := m.errorCount) (hkey kKeyErrorCount (by decide)),
        getUInt64_of_lookup (n := m.rerankLatencySumUs) (hkey kKeyRerankLatSum (by decide)),
        getUInt32_of_lookup (n := m.rerankLatencyMaxUs) (hkey kKeyRerankLatMax (by decide)),
        getUInt8_of_lookup (n := m.rerankModelVersion) (hkey kKeyRerankModelVer (by decide)),
        getUInt64_of_lookup (n := m.uptimeSec) (hkey kKeyUptimeSec (by decide))]

end Map

/-! ### The round trip -/

theorem mapGetType_entries (m : Message) : mapGetType (.map (entries m)) = some m.type :=
  mapGetType_of_lookup rfl

theorem decodeMessage_entries (mp : Unpacker) (m : Message) :
    decodeMessage mp (.map (entries m)) m.type = some m := by
  have h := decodeMessage_of_lookup mp fun key
    (_ : key ∈ knownKeys m.type) => (if_pos rfl).symm
  rwa [keepFields_all] at h

/-- A packed value within the cap is what a body holds. -/
theorem unpackBody_pack (mp : Unpacker) {v : Value} (h : (pack v).length ≤ kMaxFrameBodyBytes) :
    unpackBody mp (pack v) = some v := by
  have hpos := pack_length_pos v
  have hfit := packable_of_length v (Nat.lt_of_le_of_lt h (by decide))
  rw [unpackBody, if_neg (by omega), mp.unpack_pack_self hfit, Option.map_some]

theorem encodeBody_ne_nil (m : Message) : (encodeBody m).length ≠ 0 := by
  have hpos := pack_length_pos (.map (entries m))
  rw [encodeBody_eq_pack]
  omega

/-- A body above the cap is refused unread; any other gives its object back. -/
theorem unpackBody_encodeBody (mp : Unpacker) (m : Message) :
    unpackBody mp (encodeBody m) =
      if (encodeBody m).length ≤ kMaxFrameBodyBytes then some (.map (entries m)) else none := by
  by_cases hcap : (encodeBody m).length ≤ kMaxFrameBodyBytes
  · rw [if_pos hcap]
    rw [encodeBody_eq_pack] at hcap ⊢
    exact unpackBody_pack mp hcap
  · rw [if_neg hcap, unpackBody, if_pos (by omega)]

/-- Within the cap a body decodes to the message it was made from. -/
theorem decodeBody_encoded (mp : Unpacker) (m : Message) : decodeBody mp (encodeBody m) =
    if (encodeBody m).length ≤ kMaxFrameBodyBytes then some m else none := by
  unfold decodeBody
  rw [unpackBody_encodeBody]
  by_cases hcap : (encodeBody m).length ≤ kMaxFrameBodyBytes
  · simp only [if_pos hcap, mapGetType_entries, decodeMessage_entries]
  · simp only [if_neg hcap]

/-- Within the cap a body shows the tag of its message. -/
theorem peekMessageType_encoded (mp : Unpacker) (m : Message) :
    peekMessageType mp (encodeBody m) =
      if (encodeBody m).length ≤ kMaxFrameBodyBytes then some m.type else none := by
  unfold peekMessageType
  rw [unpackBody_encodeBody]
  by_cases hcap : (encodeBody m).length ≤ kMaxFrameBodyBytes
  · simp only [if_pos hcap, mapGetType_entries]
  · simp only [if_neg hcap]

/-- **Decode undoes encode.** Within the cap a body decodes to the message it
was made from and shows its tag; above the cap neither function returns
anything. -/
theorem decodeBody_encodeBody (mp : Unpacker) (m : Message) :
    decodeBody mp (encodeBody m) =
        (if (encodeBody m).length ≤ kMaxFrameBodyBytes then some m else none) ∧
      peekMessageType mp (encodeBody m) =
        (if (encodeBody m).length ≤ kMaxFrameBodyBytes then some m.type else none) :=
  ⟨decodeBody_encoded mp m, peekMessageType_encoded mp m⟩

/-- A commit, through the reader that is proved here. -/
theorem decodeBody_encodeBody_commit :
    let m : Message := .commitEvent { code := ascii "wo", committedText := [0xe6, 0x88, 0x91] }
    decodeBody .reference (encodeBody m) = some m ∧
      peekMessageType .reference (encodeBody m) = some .commitEvent :=
  decodeBody_encodeBody .reference
    (.commitEvent { code := ascii "wo", committedText := [0xe6, 0x88, 0x91] })

end Dafeng.Protocol
