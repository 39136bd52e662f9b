import Dafeng.Library.MsgpackObject
import Dafeng.Protocol.Types

/-!
# Dafeng.Protocol.Codec

`src/common/protocol.cc`: the body encoders with their hard-coded map counts,
the decoders that look every field up by its key, and the frame header.

The MessagePack reader is the parameter `mp`. A packer throws on a string or
list of `2 ^ 32` elements or more: `encodable` says that it does not, and
`encodeBody` is the body of an encodable message.
-/

namespace Dafeng.Protocol

open Dafeng.Msgpack

/-! ### Keys and limits -/

def kKeyVersion : Bytes := ascii "v"
def kKeyType : Bytes := ascii "t"
def kKeyId : Bytes := ascii "id"
def kKeyCode : Bytes := ascii "code"
def kKeyContext : Bytes := ascii "ctx"
def kKeyCandidates : Bytes := ascii "cands"
def kKeyAppId : Bytes := ascii "app"
def kKeyOrder : Bytes := ascii "order"
def kKeyScores : Bytes := ascii "scores"
def kKeyLatencyUs : Bytes := ascii "lat_us"
def kKeyModelVersion : Bytes := ascii "mver"
def kKeyText : Bytes := ascii "text"
def kKeyErrCode : Bytes := ascii "ec"
def kKeyErrMsg : Bytes := ascii "em"
def kKeyRerankCount : Bytes := ascii "rc"
def kKeyPingCount : Bytes := ascii "pc"
def kKeyCommitCount : Bytes := ascii "cc"
def kKeyErrorCount : Bytes := ascii "ec_total"
def kKeyRerankLatSum : Bytes := ascii "rls"
def kKeyRerankLatMax : Bytes := ascii "rlmax"
def kKeyRerankModelVer : Bytes := ascii "rmv"
def kKeyUptimeSec : Bytes := ascii "ut"

def kFrameHeaderBytes : Nat := 4
def kMaxFrameBodyBytes : Nat := 2 ^ 20

/-! ### Encoders

A body is what the packer was given, piece by piece.
-/

def packKey (key : Bytes) : Bytes := packStr key

def packHeader (t : MessageType) : Bytes :=
  packKey kKeyVersion ++ packUInt kProtocolVersion.toNat ++
  packKey kKeyType ++ packUInt t.toTag.toNat

/-- `pk.pack(int32_t)`. -/
def packInt32 (i : Int32) : Bytes :=
  if 0 ≤ i.toInt then packUInt i.toInt.toNat else packNInt (-i.toInt - 1).toNat

/-- `pk.pack(std::vector<T>)`. -/
def packVector {α : Type} (f : α → Bytes) (xs : List α) : Bytes :=
  packArrayHeader xs.length ++ xs.flatMap f

def encodeRerankRequest (msg : RerankRequest) : Bytes :=
  [packMapHeader 7, packHeader .rerankRequest,
    packKey kKeyId, packUInt msg.requestId.toNat,
    packKey kKeyCode, packStr msg.code,
    packKey kKeyContext, packStr msg.contextBefore,
    packKey kKeyCandidates, packVector packStr msg.candidates,
    packKey kKeyAppId, packStr msg.appId].flatten

def encodeRerankResponse (msg : RerankResponse) : Bytes :=
  [packMapHeader 7, packHeader .rerankResponse,
    packKey kKeyId, packUInt msg.requestId.toNat,
    packKey kKeyOrder, packVector packInt32 msg.reorderedIndices,
    packKey kKeyScores, packVector packF32 msg.scores,
    packKey kKeyLatencyUs, packUInt msg.latencyUs.toNat,
    packKey kKeyModelVersion, packUInt msg.modelVersion.toNat].flatten

def encodeCommitEvent (msg : CommitEvent) : Bytes :=
  [packMapHeader 5, packHeader .commitEvent,
    packKey kKeyCode, packStr msg.code,
    packKey kKeyText, packStr msg.committedText,
    packKey kKeyContext, packStr msg.contextBefore].flatten

def encodePing (msg : PingMessage) : Bytes :=
  [packMapHeader 3, packHeader .ping,
    packKey kKeyId, packUInt msg.requestId.toNat].flatten

def encodePong (msg : PongMessage) : Bytes :=
  [packMapHeader 3, packHeader .pong,
    packKey kKeyId, packUInt msg.requestId.toNat].flatten

def encodeError (msg : ErrorMessage) : Bytes :=
  [packMapHeader 5, packHeader .error,
    packKey kKeyId, packUInt msg.requestId.toNat,
    packKey kKeyErrCode, packInt32 msg.code,
    packKey kKeyErrMsg, packStr msg.message].flatten

def encodeStatsRequest (msg : StatsRequest) : Bytes :=
  [packMapHeader 3, packHeader .statsRequest,
    packKey kKeyId, packUInt msg.requestId.toNat].flatten

def encodeStatsResponse (msg : StatsResponse) : Bytes :=
  [packMapHeader 11, packHeader .statsResponse,
    packKey kKeyId, packUInt msg.requestId.toNat,
    packKey kKeyRerankCount, packUInt msg.rerankCount.toNat,
    packKey kKeyPingCount, packUInt msg.pingCount.toNat,
    packKey kKeyCommitCount, packUInt msg.commitCount.toNat,
    packKey kKeyErrorCount, packUInt msg.errorCount.toNat,
    packKey kKeyRerankLatSum, packUInt msg.rerankLatencySumUs.toNat,
    packKey kKeyRerankLatMax, packUInt msg.rerankLatencyMaxUs.toNat,
    packKey kKeyRerankModelVer, packUInt msg.rerankModelVersion.toNat,
    packKey kKeyUptimeSec, packUInt msg.uptimeSec.toNat].flatten

/-- `EncodeBody(const Message&)`. -/
def encodeBody : Message → Bytes
  | .rerankRequest m => encodeRerankRequest m
  | .rerankResponse m => encodeRerankResponse m
  | .commitEvent m => encodeCommitEvent m
  | .ping m => encodePing m
  | .pong m => encodePong m
  | .error m => encodeError m
  | .statsRequest m => encodeStatsRequest m
  | .statsResponse m => encodeStatsResponse m

/-- The size check a packer makes on a string or a list. -/
def fits {α : Type} (xs : List α) : Bool := decide (xs.length < 2 ^ 32)

/-- `EncodeBody` throws no `container_size_overflow`. -/
def encodable : Message → Bool
  | .rerankRequest m =>
    fits m.code && fits m.contextBefore && fits m.candidates && m.candidates.all fits &&
      fits m.appId
  | .rerankResponse m => fits m.reorderedIndices && fits m.scores
  | .commitEvent m => fits m.code && fits m.committedText && fits m.contextBefore
  | .error m => fits m.message
  | .ping _ | .pong _ | .statsRequest _ | .statsResponse _ => true

/-! ### Decoder -/

/-- `KeyEquals`: the key is a string of the literal's length and bytes. -/
def keyEquals (key : Value) (literal : Bytes) : Bool :=
  match key with
  | .str s => s.length == literal.length && s == literal
  | _ => false

/-- The loop of `MapGet`: the first entry with the key decides. -/
def mapGetLoop {α : Type} (convert : Value → α → α × Bool) (key : Bytes) (out : α) :
    List (Value × Value) → α × Bool
  | [] => (out, false)
  | (k, v) :: kvs => if keyEquals k key then convert v out else mapGetLoop convert key out kvs

/-- `MapGet(map_obj, key, out)`: the new contents of `out`, and the result. -/
def mapGet {α : Type} (convert : Value → α → α × Bool) (mapObj : Value) (key : Bytes) (out : α) :
    α × Bool :=
  match mapObj with
  | .map kvs => mapGetLoop convert key out kvs
  | _ => (out, false)

/-- The loop of `MapGetType`. -/
def mapGetTypeLoop : List (Value × Value) → Option MessageType
  | [] => none
  | (k, v) :: kvs =>
    if keyEquals k kKeyType then (asUInt 0xff v).map fun t => .ofTag (UInt8.ofNat t)
    else mapGetTypeLoop kvs

def mapGetType : Value → Option MessageType
  | .map kvs => mapGetTypeLoop kvs
  | _ => none

section Fields

variable (mp : Unpacker) (obj : Value) (key : Bytes)

def getUInt8 (out : UInt8) : UInt8 :=
  (mapGet (convertScalar fun v => (asUInt 0xff v).map UInt8.ofNat) obj key out).1

def getUInt32 (out : UInt32) : UInt32 :=
  (mapGet (convertScalar fun v => (asUInt 0xffffffff v).map UInt32.ofNat) obj key out).1

def getUInt64 (out : UInt64) : UInt64 :=
  (mapGet (convertScalar fun v => (asUInt 0xffffffffffffffff v).map UInt64.ofNat) obj key out).1

def getInt32 (out : Int32) : Int32 := (mapGet (convertScalar asInt32) obj key out).1

def getStr (out : Bytes) : Bytes := (mapGet (convertScalar asStr) obj key out).1

def getStrs (out : List Bytes) : List Bytes := (mapGet (convertVector [] asStr) obj key out).1

def getInt32s (out : List Int32) : List Int32 :=
  (mapGet (convertVector 0 asInt32) obj key out).1

def getFloats (out : List UInt32) : List UInt32 :=
  (mapGet (convertVector 0 (asFloat mp)) obj key out).1

end Fields

def decodeRerankRequest (obj : Value) : RerankRequest :=
  let m : RerankRequest := {}
  { requestId := getUInt32 obj kKeyId m.requestId
    code := getStr obj kKeyCode m.code
    contextBefore := getStr obj kKeyContext m.contextBefore
    candidates := getStrs obj kKeyCandidates m.candidates
    appId := getStr obj kKeyAppId m.appId }

def decodeRerankResponse (mp : Unpacker) (obj : Value) : RerankResponse :=
  let m : RerankResponse := {}
  { requestId := getUInt32 obj kKeyId m.requestId
    reorderedIndices := getInt32s obj kKeyOrder m.reorderedIndices
    scores := getFloats mp obj kKeyScores m.scores
    latencyUs := getUInt32 obj kKeyLatencyUs m.latencyUs
    modelVersion := getUInt8 obj kKeyModelVersion m.modelVersion }

def decodeCommitEvent (obj : Value) : CommitEvent :=
  let m : CommitEvent := {}
  { code := getStr obj kKeyCode m.code
    committedText := getStr obj kKeyText m.committedText
    contextBefore := getStr obj kKeyContext m.contextBefore }

def decodePing (obj : Value) : PingMessage :=
  let m : PingMessage := {}
  { requestId := getUInt32 obj kKeyId m.requestId }

def decodePong (obj : Value) : PongMessage :=
  let m : PongMessage := {}
  { requestId := getUInt32 obj kKeyId m.requestId }

def decodeError (obj : Value) : ErrorMessage :=
  let m : ErrorMessage := {}
  { requestId := getUInt32 obj kKeyId m.requestId
    code := getInt32 obj kKeyErrCode m.code
    message := getStr obj kKeyErrMsg m.message }

def decodeStatsRequest (obj : Value) : StatsRequest :=
  let m : StatsRequest := {}
  { requestId := getUInt32 obj kKeyId m.requestId }

def decodeStatsResponse (obj : Value) : StatsResponse :=
  let m : StatsResponse := {}
  { requestId := getUInt32 obj kKeyId m.requestId
    rerankCount := getUInt64 obj kKeyRerankCount m.rerankCount
    pingCount := getUInt64 obj kKeyPingCount m.pingCount
    commitCount := getUInt64 obj kKeyCommitCount m.commitCount
    errorCount := getUInt64 obj kKeyErrorCount m.errorCount
    rerankLatencySumUs := getUInt64 obj kKeyRerankLatSum m.rerankLatencySumUs
    rerankLatencyMaxUs := getUInt32 obj kKeyRerankLatMax m.rerankLatencyMaxUs
    rerankModelVersion := getUInt8 obj kKeyRerankModelVer m.rerankModelVersion
    uptimeSec := getUInt64 obj kKeyUptimeSec m.uptimeSec }

/-- The `switch` of `DecodeBody`. -/
def decodeMessage (mp : Unpacker) (obj : Value) : MessageType → Option Message
  | .rerankRequest => some (.rerankRequest (decodeRerankRequest obj))
  | .rerankResponse => some (.rerankResponse (decodeRerankResponse mp obj))
  | .commitEvent => some (.commitEvent (decodeCommitEvent obj))
  | .ping => some (.ping (decodePing obj))
  | .pong => some (.pong (decodePong obj))
  | .error => some (.error (decodeError obj))
  | .statsRequest => some (.statsRequest (decodeStatsRequest obj))
  | .statsResponse => some (.statsResponse (decodeStatsResponse obj))
  | .invalid => none
  | .unnamed _ => none

/-- The object in a body, if its size is acceptable and it can be unpacked.
Bytes after the object are ignored. -/
def unpackBody (mp : Unpacker) (data : Bytes) : Option Value :=
  if data.length = 0 ∨ kMaxFrameBodyBytes < data.length then none
  else (mp.unpack data).map Prod.fst

/-- `DecodeBody(data, size)`. -/
def decodeBody (mp : Unpacker) (data : Bytes) : Option Message :=
  match unpackBody mp data with
  | none => none
  | some obj =>
    match mapGetType obj with
    | none => none
    | some t => decodeMessage mp obj t

/-- `PeekMessageType(data, size)`. -/
def peekMessageType (mp : Unpacker) (data : Bytes) : Option MessageType :=
  match unpackBody mp data with
  | none => none
  | some obj => mapGetType obj

/-! ### Framing -/

/-- `WriteFrameLength(length, out4)`. -/
def writeFrameLength (length : UInt32) : Bytes :=
  [((length >>> 24) &&& 0xff).toUInt8, ((length >>> 16) &&& 0xff).toUInt8,
    ((length >>> 8) &&& 0xff).toUInt8, (length &&& 0xff).toUInt8]

/-- `ReadFrameLength(header, size)`. -/
def readFrameLength (header : Bytes) : Option UInt32 :=
  match header with
  | b₀ :: b₁ :: b₂ :: b₃ :: _ =>
    let length := (b₀.toUInt32 <<< 24) ||| (b₁.toUInt32 <<< 16) ||| (b₂.toUInt32 <<< 8) |||
      b₃.toUInt32
    if length = 0 ∨ kMaxFrameBodyBytes < length.toNat then none else some length
  | _ => none

/-- `EncodeFrame(body)`. The size is cast to `uint32_t`. -/
def encodeFrame (body : Bytes) : Bytes := writeFrameLength (UInt32.ofNat body.length) ++ body

end Dafeng.Protocol
