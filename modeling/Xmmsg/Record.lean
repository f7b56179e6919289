import Mathlib.Logic.Function.Basic

/-!
# The values every reach carries

`qos.hpp`, `status.hpp`, `envelope.hpp`, `mail_record.hpp` and `sample.hpp`:
the declarations made at wiring, the statuses handed back, the record every
transport cell holds, and the sample a take verb returns.

Two reductions. Stamps and durations are integers of nanoseconds. The envelope's
24 telemetry context bytes are one opaque number, and a sample carries the bytes
themselves rather than what the telemetry library extracts from them.
-/

namespace Xmmsg

/-- `History`: a depth-one slot, or a bounded FIFO of the declared depth. -/
inductive History where
  | latestOnly
  | queue (depth : Nat)
  deriving DecidableEq, Repr

/-- `History::depth`; the latest-only slot declares depth one. -/
def History.depth : History → Nat
  | .latestOnly => 1
  | .queue depth => depth

/-- `history.kind() == History::Kind::kLatestOnly`. -/
def History.isLatest : History → Bool
  | .latestOnly => true
  | .queue _ => false

inductive Reliability where
  | bestEffort
  | reliable
  deriving DecidableEq, Repr

inductive Ownership where
  | exclusive
  | shared
  deriving DecidableEq, Repr

/-- The per-endpoint declaration passed to `Advertise` and `Subscribe`. -/
structure Qos where
  history : History := .latestOnly
  reliability : Reliability := .bestEffort
  deadline : Option Int := none
  ownership : Ownership := .exclusive
  deriving DecidableEq, Repr

inductive PublishStatus where
  | ok
  | wouldBlock
  deriving DecidableEq, Repr

inductive AdvertiseStatus where
  | ok
  | ownershipRefused
  | typeMismatch
  | unsupportedReach
  deriving DecidableEq, Repr

inductive SubscribeStatus where
  | ok
  | typeMismatch
  | unsupportedReach
  deriving DecidableEq, Repr

inductive CallStatus where
  | ok
  | deadlineExpired
  | noServer
  deriving DecidableEq, Repr

inductive ReplyStatus where
  | ok
  | expired
  deriving DecidableEq, Repr

/-- The per-message header. -/
structure Envelope where
  context : Nat := 0
  publishStampNs : Int := 0
  originStampNs : Int := 0
  hopCount : Nat := 0
  flags : Nat := 0
  deriving DecidableEq, Repr, Inhabited

/-- What every mailbox, ring cell and master slot holds. The ordinal numbers
the accepted publishes of one topic from one. -/
structure MailRecord (T : Type) where
  envelope : Envelope
  ordinal : Nat
  payload : T
  deriving DecidableEq, Repr

/-- Lineage handed to a publish by `PublishDerived`. -/
structure DerivedInfo where
  originNs : Int
  hops : Nat
  deriving DecidableEq, Repr

/-- The arguments of one publish, with the outside readings it makes: the
calling thread's telemetry context and the clock. -/
structure Message (T : Type) where
  value : T
  derived : Option DerivedInfo := none
  context : Nat := 0
  now : Int := 0
  deriving DecidableEq, Repr

/-- The record a publish builds once it owns its ordinal. Both reaches spell
the same assignments. -/
def Message.record {T : Type} (m : Message T) (ordinal : Nat) : MailRecord T where
  envelope :=
    { context := m.context
      publishStampNs := m.now
      originStampNs := match m.derived with
        | some d => d.originNs
        | none => m.now
      hopCount := match m.derived with
        | some d => d.hops
        | none => 0
      flags := 0 }
  ordinal := ordinal
  payload := m.value

@[simp] theorem Message.record_ordinal {T : Type} (m : Message T) (n : Nat) :
    (m.record n).ordinal = n := rfl

inductive Freshness where
  | fresh
  | stale
  | none
  deriving DecidableEq, Repr

inductive AgeClass where
  | measured
  | advisory
  deriving DecidableEq, Repr

/-- What a take verb hands back; the field defaults are the `kNone` sample. -/
structure Sample (T : Type) [Inhabited T] where
  value : T := default
  context : Nat := 0
  stamp : Int := 0
  originStamp : Int := 0
  hopCount : Nat := 0
  freshness : Freshness := .none
  ageClass : AgeClass := .measured
  deriving DecidableEq, Repr

/-- The deadline verdict of a take: the age is measured against the publish
stamp, and without a declared deadline nothing is ever stale. -/
def isStale (deadline : Option Int) (now : Int) (stamp : Int) : Bool :=
  match deadline with
  | some d => decide (now - stamp > d)
  | none => false

/-- The sample filled from a record that a take obtained. -/
def MailRecord.sample {T : Type} [Inhabited T] (r : MailRecord T) (stale : Bool) :
    Sample T where
  value := r.payload
  context := r.envelope.context
  stamp := r.envelope.publishStampNs
  originStamp := r.envelope.originStampNs
  hopCount := r.envelope.hopCount
  freshness := if stale then .stale else .fresh
  ageClass := .measured

end Xmmsg
