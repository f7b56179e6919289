import Mathlib.Algebra.Group.Nat.Defs
import Xmmsg.Record
import Xmmsg.Sys.Machine

/-!
# One RPC topic, one access at a time

The RPC half of `in_process.hpp`: `RpcTopic::Call`, `TakeRequest` and `Reply`
over eight preallocated call slots. Every access to a slot is a step of its own,
the atomics on the state word and the plain reads and writes of the other fields
alike, so that a claimant's half-filled slot and a server's half-copied request
are states of the model.

Waiting is `EventCount::WaitUntil`, of which the code uses two facts: it returns
true right after an evaluation of the predicate that returned true, and false
only after one that returned false. A wait is therefore a loop of evaluations
with a choice after each false one, to evaluate again or to give up; the choice
is the action `expire`, so a deadline may pass at any point it can be noticed.
Notifications change nothing a later evaluation would not see and are no steps.
-/

namespace Xmmsg.Rpc

open Xmmsg.Sys

/-- `RpcTopic::kMaxInFlight`. -/
def kMaxInFlight : Nat := 8

/-- `RpcTopic::kIndexBits`. -/
def kIndexBits : Nat := 4

inductive CallSlotState where
  | free
  | claimed
  | pending
  | taken
  | replied
  | abandoned
  deriving DecidableEq, Repr

/-- `CallSlot`: one atomic word and the plain fields it guards. -/
structure CallSlot (Req Rsp : Type) where
  state : CallSlotState := .free
  correlation : Nat := 0
  envelope : Envelope := {}
  request : Req
  response : Rsp

/-- The shared fields of `RpcTopic`. `nextCorrelation` counts the draws made;
the 64-bit counter holds it modulo `2 ^ 64`. -/
structure RpcTopic (Req Rsp : Type) where
  slots : Nat → CallSlot Req Rsp
  nextCorrelation : Nat := 0
  publisherCount : Nat := 0

/-- `((next_correlation_.fetch_add(1) + 1) << kIndexBits) | index`, in 64-bit
arithmetic. -/
def token (n index : Nat) : Nat := ((n + 1) <<< kIndexBits) % 2 ^ 64 ||| index

/-- `correlation & ((1u << kIndexBits) - 1u)`. -/
def tokenIndex (correlation : Nat) : Nat := correlation &&& (1 <<< kIndexBits - 1)

/-- `Result<Rsp>`. -/
structure Result (Rsp : Type) where
  status : CallStatus := .noServer
  value : Rsp

/-- `Request<Req>`, minted by `TakeRequest` only. -/
structure Request (Req : Type) where
  value : Req
  context : Nat
  stamp : Int
  correlation : Nat

/-- Where a `Call` stands; `i` is its slot, `t` its correlation token. -/
inductive CallPc (Rsp : Type) where
  | entry
  | scan (waiting : Bool) (i : Nat)         -- TryClaim, slot by slot
  | draw (i : Nat)                          -- next_correlation_.fetch_add
  | fillCorrelation (i t : Nat)
  | fillContext (i t : Nat)
  | fillStamp (i t : Nat)
  | fillOrigin (i t : Nat) (now : Int)
  | fillHops (i t : Nat)
  | fillFlags (i t : Nat)
  | fillRequest (i t : Nat)
  | post (i t : Nat)                        -- state.store(kPending)
  | await (i t : Nat)                       -- the reply predicate
  | unheard (i t : Nat)                     -- it evaluated to false
  | casPending (i t : Nat)
  | casTaken (i t : Nat)
  | readResponse (i t : Nat) (late : Bool)
  | release (i t : Nat) (v : Rsp)
  | done (t : Option Nat) (r : Result Rsp)

/-- One execution of `Call`. -/
structure CallEp (Req Rsp : Type) where
  request : Req
  context : Nat
  pc : CallPc Rsp

/-- Where a server thread stands in `TakeRequest`. -/
inductive TakePc (Req : Type) where
  | idle
  | scan (i : Nat)
  | copyRequest (i : Nat)
  | copyContext (i : Nat) (v : Req)
  | copyStamp (i : Nat) (v : Req) (ctx : Nat)
  | copyCorrelation (i : Nat) (v : Req) (ctx : Nat) (stamp : Int)

/-- Where a `Reply` stands; `t` is the correlation it was called with. -/
inductive ReplyPc (Rsp : Type) where
  | idle
  | load (t : Nat) (v : Rsp)
  | compare (t : Nat) (v : Rsp)             -- observed kTaken
  | write (t : Nat) (v : Rsp)
  | cas (t : Nat) (v : Rsp)
  | reload (t : Nat) (v : Rsp)
  | recompare (t : Nat) (v : Rsp)           -- observed kAbandoned
  | reclaim (t : Nat) (v : Rsp)
  | done (t : Nat) (v : Rsp) (status : ReplyStatus)

inductive CallAct where
  | go (now : Int)
  | expire
  deriving DecidableEq, Repr

section Steps

variable {Req Rsp : Type}

def RpcTopic.setSlot (h : RpcTopic Req Rsp) (i : Nat) (s : CallSlot Req Rsp) :
    RpcTopic Req Rsp :=
  { h with slots := Function.update h.slots i s }

def RpcTopic.setState (h : RpcTopic Req Rsp) (i : Nat) (st : CallSlotState) :
    RpcTopic Req Rsp :=
  h.setSlot i { h.slots i with state := st }

def CallEp.at' (c : CallEp Req Rsp) (pc : CallPc Rsp) : CallEp Req Rsp :=
  { c with pc := pc }

/-- One access of `Call`. `rsp` is the default response of a result that carries
none. -/
def callStep (rsp : Rsp) (h : RpcTopic Req Rsp) (c : CallEp Req Rsp) :
    CallAct → Option (RpcTopic Req Rsp × CallEp Req Rsp)
  | .expire =>
      match c.pc with
      | .scan true i =>
          if i < kMaxInFlight then none
          else some (h, c.at' (.done none { status := .deadlineExpired, value := rsp }))
      | .unheard i t => some (h, c.at' (.casPending i t))
      | _ => none
  | .go now =>
      match c.pc with
      | .entry =>
          if h.publisherCount = 0 then
            some (h, c.at' (.done none { status := .noServer, value := rsp }))
          else some (h, c.at' (.scan false 0))
      | .scan waiting i =>
          if i < kMaxInFlight then
            match (h.slots i).state with
            | .free => some (h.setState i .claimed, c.at' (.draw i))
            | _ => some (h, c.at' (.scan waiting (i + 1)))
          else
            -- TryClaim came back empty-handed: the predicate of the wait is
            -- TryClaim again
            some (h, c.at' (.scan true 0))
      | .draw i =>
          some ({ h with nextCorrelation := h.nextCorrelation + 1 },
            c.at' (.fillCorrelation i (token h.nextCorrelation i)))
      | .fillCorrelation i t =>
          some (h.setSlot i { h.slots i with correlation := t }, c.at' (.fillContext i t))
      | .fillContext i t =>
          let s := h.slots i
          some (h.setSlot i { s with envelope := { s.envelope with context := c.context } },
            c.at' (.fillStamp i t))
      | .fillStamp i t =>
          let s := h.slots i
          some (h.setSlot i { s with envelope := { s.envelope with publishStampNs := now } },
            c.at' (.fillOrigin i t now))
      | .fillOrigin i t now =>
          let s := h.slots i
          some (h.setSlot i { s with envelope := { s.envelope with originStampNs := now } },
            c.at' (.fillHops i t))
      | .fillHops i t =>
          let s := h.slots i
          some (h.setSlot i { s with envelope := { s.envelope with hopCount := 0 } },
            c.at' (.fillFlags i t))
      | .fillFlags i t =>
          let s := h.slots i
          some (h.setSlot i { s with envelope := { s.envelope with flags := 0 } },
            c.at' (.fillRequest i t))
      | .fillRequest i t =>
          some (h.setSlot i { h.slots i with request := c.request }, c.at' (.post i t))
      | .post i t => some (h.setState i .pending, c.at' (.await i t))
      | .await i t =>
          match (h.slots i).state with
          | .replied => some (h, c.at' (.readResponse i t false))
          | _ => some (h, c.at' (.unheard i t))
      | .unheard i t => some (h, c.at' (.await i t))
      | .casPending i t =>
          match (h.slots i).state with
          | .pending =>
              some (h.setState i .free,
                c.at' (.done (some t) { status := .deadlineExpired, value := rsp }))
          | _ => some (h, c.at' (.casTaken i t))
      | .casTaken i t =>
          match (h.slots i).state with
          | .taken =>
              some (h.setState i .abandoned,
                c.at' (.done (some t) { status := .deadlineExpired, value := rsp }))
          | _ => some (h, c.at' (.readResponse i t true))
      | .readResponse i t _ => some (h, c.at' (.release i t (h.slots i).response))
      | .release i t v =>
          some (h.setState i .free, c.at' (.done (some t) { status := .ok, value := v }))
      | .done _ _ => none

/-- One access of `TakeRequest`; the third component is the request handed back,
if this access was the last. -/
def takeStep (h : RpcTopic Req Rsp) :
    TakePc Req → RpcTopic Req Rsp × TakePc Req × Option (Request Req)
  | .idle => (h, .scan 0, none)
  | .scan i =>
      if i < kMaxInFlight then
        match (h.slots i).state with
        | .pending => (h.setState i .taken, .copyRequest i, none)
        | _ => (h, .scan (i + 1), none)
      else (h, .idle, none)
  | .copyRequest i => (h, .copyContext i (h.slots i).request, none)
  | .copyContext i v => (h, .copyStamp i v (h.slots i).envelope.context, none)
  | .copyStamp i v ctx =>
      (h, .copyCorrelation i v ctx (h.slots i).envelope.publishStampNs, none)
  | .copyCorrelation i v ctx stamp =>
      (h, .idle, some ⟨v, ctx, stamp, (h.slots i).correlation⟩)

/-- One access of `Reply`. -/
def replyStep (h : RpcTopic Req Rsp) :
    ReplyPc Rsp → Option (RpcTopic Req Rsp × ReplyPc Rsp)
  | .idle => none
  | .load t v =>
      match (h.slots (tokenIndex t)).state with
      | .taken => some (h, .compare t v)
      | _ => some (h, .reload t v)
  | .compare t v =>
      if (h.slots (tokenIndex t)).correlation = t then some (h, .write t v)
      else some (h, .reload t v)
  | .write t v =>
      some (h.setSlot (tokenIndex t) { h.slots (tokenIndex t) with response := v },
        .cas t v)
  | .cas t v =>
      match (h.slots (tokenIndex t)).state with
      | .taken => some (h.setState (tokenIndex t) .replied, .done t v .ok)
      | _ => some (h, .reload t v)
  | .reload t v =>
      match (h.slots (tokenIndex t)).state with
      | .abandoned => some (h, .recompare t v)
      | _ => some (h, .done t v .expired)
  | .recompare t v =>
      if (h.slots (tokenIndex t)).correlation = t then some (h, .reclaim t v)
      else some (h, .done t v .expired)
  | .reclaim t v => some (h.setState (tokenIndex t) .free, .done t v .expired)
  | .done _ _ _ => none

end Steps

/-- The topic, every `Call` made so far, the server threads, the requests handed
to the application and every `Reply` made or to be made. -/
structure World (Req Rsp : Type) where
  topic : RpcTopic Req Rsp
  calls : Nat → Option (CallEp Req Rsp) := fun _ => none
  takes : Nat → TakePc Req := fun _ => .idle
  requests : List (Request Req) := []
  replies : Nat → ReplyPc Rsp := fun _ => .idle

inductive Act (Req Rsp : Type) where
  | addServer
  | removeServer
  | newCall (c : Nat) (request : Req) (context : Nat)
  | call (c : Nat) (a : CallAct)
  | take (k : Nat)
  | newReply (r : Nat) (correlation : Nat) (response : Rsp)
  | reply (r : Nat)

namespace World

variable {Req Rsp : Type}

/-- The next access of one call, server thread or reply, the start of a new one,
or the server registering and leaving. A reply is made for a request that was
handed out, or for the empty request, whose correlation is zero. -/
def step (rsp : Rsp) (w : World Req Rsp) : Act Req Rsp → Option (World Req Rsp)
  | .addServer =>
      if w.topic.publisherCount > 0 then none
      else some { w with topic := { w.topic with
        publisherCount := w.topic.publisherCount + 1 } }
  | .removeServer =>
      if w.topic.publisherCount > 0 then
        some { w with topic := { w.topic with
          publisherCount := w.topic.publisherCount - 1 } }
      else none
  | .newCall c request context =>
      match w.calls c with
      | none =>
          some { w with
            calls := Function.update w.calls c (some ⟨request, context, .entry⟩) }
      | some _ => none
  | .call c a =>
      match w.calls c with
      | none => none
      | some ep =>
          match callStep rsp w.topic ep a with
          | none => none
          | some (h, ep') =>
              some { w with topic := h, calls := Function.update w.calls c (some ep') }
  | .take k =>
      match takeStep w.topic (w.takes k) with
      | (h, pc, q) =>
          some { w with
            topic := h
            takes := Function.update w.takes k pc
            requests := w.requests ++ q.toList }
  | .newReply r correlation response =>
      match w.replies r with
      | .idle =>
          if correlation = 0 then
            some { w with
              replies := Function.update w.replies r (.done correlation response .expired) }
          else if w.requests.any (fun q => q.correlation == correlation) then
            some { w with
              replies := Function.update w.replies r (.load correlation response) }
          else none
      | _ => none
  | .reply r =>
      match replyStep w.topic (w.replies r) with
      | none => none
      | some (h, pc) => some { w with topic := h, replies := Function.update w.replies r pc }

/-- A new topic: all slots free, nothing called, taken or replied. -/
def Fresh (req : Req) (rsp : Rsp) (w : World Req Rsp) : Prop :=
  w = { topic := { slots := fun _ => { request := req, response := rsp } } }

end World

/-- The machine of one RPC topic; `req` and `rsp` are the default-constructed
payloads. -/
def machine {Req Rsp : Type} (req : Req) (rsp : Rsp) :
    Machine (World Req Rsp) (Act Req Rsp) where
  start := World.Fresh req rsp
  step := World.step rsp

end Xmmsg.Rpc
