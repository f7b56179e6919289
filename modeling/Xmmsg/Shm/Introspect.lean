import Xmmsg.Shm.Segment

/-!
# What an observer reports

The answers of `IntrospectReader` in `introspect_reader.hpp`. The record is one for all its
readers: the call `Snapshot` that fills it, the tool that decides from it what is in use,
and the printers. Process ids are the model's, the other numbers as wide as the source has
them.
-/

namespace Xmmsg.Shm

inductive IntrospectOpenStatus where
  | ok
  | foreign
  | versionSkew
  | notReady
  | unavailable
  deriving DecidableEq, Repr

/-- How the read of the last publish ended. -/
inductive MasterReadResult where
  | empty
  | value
  | stalled
  deriving DecidableEq, Repr

structure IntrospectSubSlot where
  index : Nat := 0
  state : SlotState := .free
  pid : Nat := 0
  alive : Bool := false
  historyKind : UInt32 := 0
  queueDepth : UInt32 := 0
  lastConsumedOrdinal : UInt64 := 0
  takeCount : UInt64 := 0
  dropCount : UInt64 := 0
  overwriteCount : UInt64 := 0
  deadlineMissCount : UInt64 := 0
  deriving DecidableEq

structure IntrospectSnapshot where
  -- identity
  layoutVersion : UInt32 := 0
  envelopeVersion : UInt32 := 0
  schemaHash : UInt64 := 0
  payloadSize : UInt64 := 0
  payloadAlign : UInt64 := 0
  totalSize : UInt64 := 0
  maxSubscribers : UInt32 := 0
  ringCapacity : UInt32 := 0
  creatorHistoryKind : UInt32 := 0
  creatorQueueDepth : UInt32 := 0
  -- the publisher
  pubPid : Nat := 0
  pubAlive : Bool := false
  pubEpoch : UInt32 := 0
  pubPublishCount : UInt64 := 0
  pubBytes : UInt64 := 0
  acceptedOrdinal : UInt64 := 0
  -- refusals
  refusalCount : UInt64 := 0
  refusedSchemaHash : UInt64 := 0
  refusedPayloadSize : UInt64 := 0
  refusedPid : Nat := 0
  -- the last publish
  master : MasterReadResult := .empty
  lastPublishStampNs : Int64 := 0
  lastOriginStampNs : Int64 := 0
  lastOrdinal : UInt64 := 0
  subscribers : List IntrospectSubSlot := []
  activeSubscriberCount : UInt32 := 0
  deriving DecidableEq

/-- The publisher is there. -/
def IntrospectSnapshot.pubLive (s : IntrospectSnapshot) : Bool := s.pubPid != 0 && s.pubAlive

/-- `any_sub_alive`. -/
def IntrospectSnapshot.subLive (s : IntrospectSnapshot) : Bool :=
  s.subscribers.any fun sub => sub.state = .active && sub.alive

end Xmmsg.Shm
