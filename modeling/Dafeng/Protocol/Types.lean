import Dafeng.Library.Bytes

/-!
# Dafeng.Protocol.Types

The messages of `include/dafeng/types.h`, with the defaults of their fields. A
score is a `float` and is kept as its 32 bits.
-/

namespace Dafeng.Protocol

/-- `kProtocolVersion`. -/
def kProtocolVersion : UInt32 := 1

/-- `enum class MessageType : uint8_t`. A cast from `uint8_t` can also produce a
value without a name (`unnamed`). -/
inductive MessageType
  | invalid
  | rerankRequest
  | rerankResponse
  | commitEvent
  | ping
  | pong
  | error
  | statsRequest
  | statsResponse
  | unnamed (t : UInt8)
  deriving DecidableEq, Repr

namespace MessageType

/-- `static_cast<uint8_t>(t)`. -/
def toTag : MessageType → UInt8
  | invalid => 0
  | rerankRequest => 1
  | rerankResponse => 2
  | commitEvent => 3
  | ping => 4
  | pong => 5
  | error => 6
  | statsRequest => 7
  | statsResponse => 8
  | unnamed t => t

/-- `static_cast<MessageType>(t)`. -/
def ofTag (t : UInt8) : MessageType :=
  if t = 0 then invalid else if t = 1 then rerankRequest else if t = 2 then rerankResponse
  else if t = 3 then commitEvent else if t = 4 then ping else if t = 5 then pong
  else if t = 6 then error else if t = 7 then statsRequest else if t = 8 then statsResponse
  else unnamed t

end MessageType

structure RerankRequest where
  requestId : UInt32 := 0
  code : Bytes := []
  contextBefore : Bytes := []
  candidates : List Bytes := []
  appId : Bytes := []
  deriving DecidableEq, Repr

structure RerankResponse where
  requestId : UInt32 := 0
  reorderedIndices : List Int32 := []
  scores : List UInt32 := []
  latencyUs : UInt32 := 0
  modelVersion : UInt8 := 0
  deriving DecidableEq, Repr

structure CommitEvent where
  code : Bytes := []
  committedText : Bytes := []
  contextBefore : Bytes := []
  deriving DecidableEq, Repr

structure PingMessage where
  requestId : UInt32 := 0
  deriving DecidableEq, Repr

structure PongMessage where
  requestId : UInt32 := 0
  deriving DecidableEq, Repr

structure ErrorMessage where
  requestId : UInt32 := 0
  code : Int32 := 0
  message : Bytes := []
  deriving DecidableEq, Repr

structure StatsRequest where
  requestId : UInt32 := 0
  deriving DecidableEq, Repr

structure StatsResponse where
  requestId : UInt32 := 0
  rerankCount : UInt64 := 0
  pingCount : UInt64 := 0
  commitCount : UInt64 := 0
  errorCount : UInt64 := 0
  rerankLatencySumUs : UInt64 := 0
  rerankLatencyMaxUs : UInt32 := 0
  rerankModelVersion : UInt8 := 0
  uptimeSec : UInt64 := 0
  deriving DecidableEq, Repr

/-- `Message`, the variant of `protocol.h`. -/
inductive Message
  | rerankRequest (m : RerankRequest)
  | rerankResponse (m : RerankResponse)
  | commitEvent (m : CommitEvent)
  | ping (m : PingMessage)
  | pong (m : PongMessage)
  | error (m : ErrorMessage)
  | statsRequest (m : StatsRequest)
  | statsResponse (m : StatsResponse)
  deriving DecidableEq, Repr

/-- The tag a message travels under. -/
def Message.type : Message → MessageType
  | .rerankRequest _ => .rerankRequest
  | .rerankResponse _ => .rerankResponse
  | .commitEvent _ => .commitEvent
  | .ping _ => .ping
  | .pong _ => .pong
  | .error _ => .error
  | .statsRequest _ => .statsRequest
  | .statsResponse _ => .statsResponse

end Dafeng.Protocol
