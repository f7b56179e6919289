import Xmmsg.InProc.Steps

/-!
# The wiring registry of one in-process domain

`DomainState` with its topics, the four wiring verbs of `Domain`, the four endpoint
destructors and the move operations of `Endpoint`. All of it runs under the wiring
mutex or touches one handle only, so a program is a list of operations here.

An endpoint handle is a C++ object that holds a pointer; the impl it points to is
what registers and unregisters. Handles and impls are therefore kept apart, as in
the source: `handles` says which handle objects exist and what they point to,
`heap` which impls are allocated. Moves change the first, and only deleting an
impl runs a destructor.

The counters are integers, so that a decrement too many would show. The records an
impl's core carries and the telemetry gauges are not part of this state: no
operation here reads them. `SchemaHashOf` enters as a parameter, a hash per payload
type; `typeid` is the type itself. `RpcTag` is the library's own tag, never a
payload.
-/

namespace Xmmsg.InProc

open Xmmsg.Sys

/-- `kFnv1aPrime`. -/
def kFnv1aPrime : UInt64 := 0x100000001B3

/-- What `typeid` tells apart: a payload type, or the tag of a request-response
pair. -/
inductive TypeId (τ : Type) where
  | payload (t : τ)
  | rpcTag (req rsp : τ)
  deriving DecidableEq, Repr

inductive EndpointKind (τ : Type) where
  | publisher (t : τ)
  | subscriber (t : τ)
  | server (req rsp : τ)
  | client (req rsp : τ)
  deriving DecidableEq, Repr

variable {τ : Type}

namespace EndpointKind

def typeId : EndpointKind τ → TypeId τ
  | .publisher t | .subscriber t => .payload t
  | .server req rsp | .client req rsp => .rpcTag req rsp

/-- `is_publisher_`: a server is its topic's one peer. -/
def isPublisher : EndpointKind τ → Bool
  | .publisher _ | .server _ _ => true
  | .subscriber _ | .client _ _ => false

/-- `SchemaHashOf` of a pub/sub endpoint, `RpcSchemaHash` of an RPC one. -/
def hash (schemaHashOf : τ → UInt64) : EndpointKind τ → UInt64
  | .publisher t | .subscriber t => schemaHashOf t
  | .server req rsp | .client req rsp => (schemaHashOf req * kFnv1aPrime) ^^^ schemaHashOf rsp

end EndpointKind

/-- `TopicBase`, with the fan-out table of a pub/sub topic. -/
structure TopicBase (τ : Type) where
  schemaHash : UInt64
  type : TypeId τ
  publisherCount : Int := 0
  subscriberCount : Int := 0
  declaredOwnership : Ownership := .exclusive
  subSlots : List (Option Nat) := List.replicate kMaxSubscribers none
  deriving DecidableEq, Repr

/-- The first free slot takes the core; a full table takes nothing. -/
def fillSlot (core : Nat) : List (Option Nat) → Option (List (Option Nat))
  | [] => none
  | none :: slots => some (some core :: slots)
  | some c :: slots => (fillSlot core slots).map (some c :: ·)

/-- The first slot that holds the core is cleared. -/
def clearSlot (core : Nat) : List (Option Nat) → Option (List (Option Nat))
  | [] => none
  | none :: slots => (clearSlot core slots).map (none :: ·)
  | some c :: slots =>
      if c = core then some (none :: slots) else (clearSlot core slots).map (some c :: ·)

namespace TopicBase

def addPublisher (e : TopicBase τ) (qos : Qos) : AdvertiseStatus × TopicBase τ :=
  if e.publisherCount > 0 ∧ (e.declaredOwnership = .exclusive ∨ qos.ownership = .exclusive) then
    (.ownershipRefused, e)
  else
    (.ok, { e with declaredOwnership := qos.ownership, publisherCount := e.publisherCount + 1 })

def removePublisher (e : TopicBase τ) : TopicBase τ :=
  { e with publisherCount := e.publisherCount - 1 }

/-- Past `kMaxSubscribers` the core stays unconnected and the handle is still
`kOk`; a build with assertions stops there. -/
def addSubscriber (e : TopicBase τ) (core : Nat) : AdvertiseStatus × TopicBase τ :=
  match fillSlot core e.subSlots with
  | some slots => (.ok, { e with subSlots := slots, subscriberCount := e.subscriberCount + 1 })
  | none => (.ok, e)

def removeSubscriber (e : TopicBase τ) (core : Nat) : TopicBase τ :=
  match clearSlot core e.subSlots with
  | some slots => { e with subSlots := slots, subscriberCount := e.subscriberCount - 1 }
  | none => e

def addServer (e : TopicBase τ) : AdvertiseStatus × TopicBase τ :=
  if e.publisherCount > 0 then (.ownershipRefused, e)
  else (.ok, { e with publisherCount := e.publisherCount + 1 })

def removeServer (e : TopicBase τ) : TopicBase τ :=
  { e with publisherCount := e.publisherCount - 1 }

def addClient (e : TopicBase τ) : AdvertiseStatus × TopicBase τ :=
  (.ok, { e with subscriberCount := e.subscriberCount + 1 })

def removeClient (e : TopicBase τ) : TopicBase τ :=
  { e with subscriberCount := e.subscriberCount - 1 }

end TopicBase

/-- `EndpointImpl` and its four subclasses. `status` is `advertise_status_` of a
publisher or server and `subscribe_status_` of a subscriber or client; `registered`
is a core that is there, or `registered_`; `topic` stands for `topic_` and `state_`,
which are set together. -/
structure EndpointImpl (τ : Type) where
  kind : EndpointKind τ
  qos : Qos := {}
  status : AdvertiseStatus := .unsupportedReach
  registered : Bool := false
  topic : Option String := none
  deriving DecidableEq, Repr

/-- `DomainState`: `topics_` and `endpoint_count_`. -/
structure DomainState (τ : Type) where
  topics : String → Option (TopicBase τ) := fun _ => none
  endpointCount : Int := 0

namespace DomainState

def setTopic (s : DomainState τ) (topic : String) (e : TopicBase τ) : DomainState τ :=
  { s with topics := Function.update s.topics topic (some e) }

variable [DecidableEq τ] (schemaHashOf : τ → UInt64)

/-- What the four wiring verbs do: find or create the entry, check its identity,
add the endpoint, and hand out the impl that remembers the outcome. -/
def wire (s : DomainState τ) (topic : String) (impl : EndpointImpl τ)
    (add : TopicBase τ → AdvertiseStatus × TopicBase τ) : DomainState τ × EndpointImpl τ :=
  let hash := impl.kind.hash schemaHashOf
  let e := (s.topics topic).getD { schemaHash := hash, type := impl.kind.typeId }
  if e.schemaHash ≠ hash ∨ e.type ≠ impl.kind.typeId then
    (s.setTopic topic e, { impl with status := .typeMismatch })
  else
    match add e with
    | (.ok, e') =>
        ({ s.setTopic topic e' with endpointCount := s.endpointCount + 1 },
          { impl with status := .ok, registered := true, topic := some topic })
    | (st, e') => (s.setTopic topic e', { impl with status := st })

def advertise (s : DomainState τ) (topic : String) (t : τ) (qos : Qos) :
    DomainState τ × EndpointImpl τ :=
  s.wire schemaHashOf topic { kind := .publisher t, qos := qos } (·.addPublisher qos)

def subscribe (s : DomainState τ) (core : Nat) (topic : String) (t : τ) (qos : Qos) :
    DomainState τ × EndpointImpl τ :=
  s.wire schemaHashOf topic { kind := .subscriber t, qos := qos } (·.addSubscriber core)

def serve (s : DomainState τ) (topic : String) (req rsp : τ) : DomainState τ × EndpointImpl τ :=
  s.wire schemaHashOf topic { kind := .server req rsp } (·.addServer)

def client (s : DomainState τ) (topic : String) (req rsp : τ) : DomainState τ × EndpointImpl τ :=
  s.wire schemaHashOf topic { kind := .client req rsp } (·.addClient)

end DomainState

/-- What the destructor of an impl at address `core` takes out of its topic. -/
def EndpointKind.remove (kind : EndpointKind τ) (core : Nat) (e : TopicBase τ) : TopicBase τ :=
  match kind with
  | .publisher _ => e.removePublisher
  | .subscriber _ => e.removeSubscriber core
  | .server _ _ => e.removeServer
  | .client _ _ => e.removeClient

/-- `~PubImpl`, `~SubImpl`, `~ServerImpl`, `~ClientImpl`. Entries never leave
`topics_`, so the entry `topic_` points to is the one under its name. -/
def DomainState.unregister (s : DomainState τ) (core : Nat) (impl : EndpointImpl τ) :
    DomainState τ :=
  match impl.registered, impl.topic with
  | true, some topic =>
      match s.topics topic with
      | some e =>
          { s.setTopic topic (impl.kind.remove core e) with
            endpointCount := s.endpointCount - 1 }
      | none => s
  | _, _ => s

/-- A program's endpoints: the impls allocated, by address, and the handle objects
that exist, each with its `impl_`. The core of a subscriber goes by the address of
its impl. -/
structure Program (τ : Type) where
  state : DomainState τ := {}
  heap : List (Nat × EndpointImpl τ) := []
  allocs : Nat := 0
  handles : Nat → Option (Option Nat) := fun _ => none

/-- One operation. `live` is false for a verb called on a moved-from `Domain`. -/
inductive WireOp (τ : Type) where
  | advertise (v : Nat) (live : Bool) (topic : String) (t : τ) (qos : Qos)
  | subscribe (v : Nat) (live : Bool) (topic : String) (t : τ) (qos : Qos)
  | serve (v : Nat) (live : Bool) (topic : String) (req rsp : τ)
  | client (v : Nat) (live : Bool) (topic : String) (req rsp : τ)
  | moveConstruct (v u : Nat)
  | moveAssign (v u : Nat)
  | destroy (v : Nat)

namespace Program

/-- `delete impl_`. -/
def delete (w : Program τ) : Option Nat → Program τ
  | none => w
  | some i =>
      match w.heap.lookup i with
      | none => w
      | some impl =>
          { w with
            state := w.state.unregister i impl
            heap := w.heap.eraseP (·.1 == i) }

/-- A wiring verb returns: its impl is on the heap and handle `v` holds it. -/
def mint (w : Program τ) (v : Nat) (r : DomainState τ × EndpointImpl τ) : Program τ where
  state := r.1
  heap := (w.allocs, r.2) :: w.heap
  allocs := w.allocs + 1
  handles := Function.update w.handles v (some (some w.allocs))

def point (w : Program τ) (v : Nat) (h : Option (Option Nat)) : Program τ :=
  { w with handles := Function.update w.handles v h }

end Program

section Operations

variable [DecidableEq τ] (schemaHashOf : τ → UInt64)

/-- What a wiring verb returns. -/
def WireOp.result (w : Program τ) : WireOp τ → Option (Nat × DomainState τ × EndpointImpl τ)
  | .advertise v live topic t qos => some (v,
      if live then w.state.advertise schemaHashOf topic t qos
      else (w.state, { kind := .publisher t, qos := qos }))
  | .subscribe v live topic t qos => some (v,
      if live then w.state.subscribe schemaHashOf w.allocs topic t qos
      else (w.state, { kind := .subscriber t, qos := qos }))
  | .serve v live topic req rsp => some (v,
      if live then w.state.serve schemaHashOf topic req rsp
      else (w.state, { kind := .server req rsp }))
  | .client v live topic req rsp => some (v,
      if live then w.state.client schemaHashOf topic req rsp
      else (w.state, { kind := .client req rsp }))
  | _ => none

def programStep (w : Program τ) (op : WireOp τ) : Option (Program τ) :=
  match op.result schemaHashOf w with
  | some (v, r) => if w.handles v = none then some (w.mint v r) else none
  | none =>
      match op with
      | .moveConstruct v u =>
          match w.handles v, w.handles u with
          | none, some p => some ((w.point v (some p)).point u (some none))
          | _, _ => none
      | .moveAssign v u =>
          match w.handles v, w.handles u with
          | some p, some q =>
              if v = u then some w
              else some (((w.delete p).point v (some q)).point u (some none))
          | _, _ => none
      | .destroy v =>
          match w.handles v with
          | some p => some ((w.delete p).point v none)
          | none => none
      | _ => none

/-- Programs over one domain, from the start of the process. -/
def program : Machine (Program τ) (WireOp τ) where
  start w := w = {}
  step := programStep schemaHashOf

end Operations

end Xmmsg.InProc
