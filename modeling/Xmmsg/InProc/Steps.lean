import Xmmsg.Record
import Xmmsg.Sys.Fifo
import Xmmsg.Sys.Machine

/-!
# One in-process topic, one access at a time

`Topic<T>` of `in_process.hpp`: wiring (`AddPublisher`, `AddSubscriber` and their
inverses), the publish path (`PublishFrom`, `Deliver`) and the two take verbs,
each cut at every access to a word another thread may touch.

Wiring runs under `DomainState::mutex_` and publishes of declared-shared
publishers under the topic's `shared_write_mutex_`; both are modelled by their
holder, and a thread that wants a held mutex makes no step. `AddPublisher` and
`RemovePublisher` touch only what the wiring mutex guards and are one step each.
The mailbox is an atomic register and the ring a bounded FIFO.

The telemetry instruments have no reader in the library and are left out.
-/

namespace Xmmsg.InProc

open Xmmsg.Sys

/-- `Topic::kMaxSubscribers`. -/
def kMaxSubscribers : Nat := 64

/-- Exactly one of `SubCore::latest` and `SubCore::queue` is engaged, by declared
history. -/
inductive Mailbox (T : Type) where
  | latest (cell : Option (MailRecord T))
  | queue (ring : Fifo (MailRecord T))

/-- `SubCore`; a baseline of `kBaselineUnset` is `none`. -/
structure SubCore (T : Type) where
  box : Mailbox T
  deadline : Option Int := none
  takeCount : Nat := 0
  dropCount : Nat := 0
  overwriteCount : Nat := 0
  deadlineMissCount : Nat := 0
  lastConsumedOrdinal : Option Nat := none
  staleLatched : Bool := false

/-- The `SubCore` constructor. -/
def SubCore.new {T : Type} (qos : Qos) : SubCore T where
  box := match qos.history with
    | .latestOnly => .latest none
    | .queue depth => .queue (.empty depth)
  deadline := qos.deadline

/-- `latest->Store(record)`. -/
def SubCore.store {T : Type} (c : SubCore T) (r : MailRecord T) : SubCore T :=
  match c.box with
  | .latest _ => { c with box := .latest (some r) }
  | .queue _ => c

/-- `queue != nullptr && queue->Full()`. -/
def SubCore.full {T : Type} (c : SubCore T) : Bool :=
  match c.box with
  | .latest _ => false
  | .queue q => q.full

/-- The shared state of a topic. Cores are named by the subscriber they were made
for and live as long as the topic does. -/
structure Topic (T : Type) where
  subSlots : Nat → Option Nat := fun _ => none
  cores : Nat → SubCore T := fun _ => SubCore.new {}
  master : Option (MailRecord T) := none
  acceptedOrdinal : Nat := 0
  publisherCount : Nat := 0
  subscriberCount : Nat := 0
  declaredOwnership : Ownership := .exclusive
  wiringMutex : Option Nat := none
  sharedWriteMutex : Option Nat := none

namespace Topic

variable {T : Type}

def setSlot (h : Topic T) (i : Nat) (s : Option Nat) : Topic T :=
  { h with subSlots := Function.update h.subSlots i s }

def setCore (h : Topic T) (k : Nat) (c : SubCore T) : Topic T :=
  { h with cores := Function.update h.cores k c }

end Topic

/-! ## Subscribers -/

/-- Where a subscriber stands inside `TakeLatest` or `TryTake`. -/
inductive TakePc (T : Type) where
  | idle
  | load                                    -- latest->Load
  | pop                                     -- queue->TryPop
  | count (r : MailRecord T)                -- Now(), take_count.fetch_add
  | base (r : MailRecord T) (stale : Bool)  -- last_consumed_ordinal.load
  | charge (r : MailRecord T) (stale : Bool) (last : Nat)
  | store (r : MailRecord T) (stale : Bool)
  | latch (r : MailRecord T) (stale : Bool) -- the deadline-miss latch
  | ret (r : Option (MailRecord T × Bool))  -- the sample is handed back

/-- Where a subscriber stands; from `create` to `unlock` and from `find` to
`leave` it holds the wiring mutex. -/
inductive SubPc (T : Type) where
  | unwired
  | create
  | loadMaster
  | seed (r : MailRecord T)
  | scan (i : Nat)
  | attach (i : Nat)
  | retain                                  -- sub_retained_, subscriber_count_
  | unlock
  | wired (t : TakePc T)
  | find (i : Nat)                          -- RemoveSubscriber
  | clear (i : Nat)
  | uncount
  | leave
  | gone

structure SubEp (T : Type) where
  qos : Qos := {}
  pc : SubPc T := .unwired

inductive SubAct where
  | subscribe
  | go (now : Int)
  | takeLatest
  | tryTake
  | destroy
  deriving DecidableEq, Repr

section Steps

variable {T : Type}

def SubEp.at' (ep : SubEp T) (pc : SubPc T) : SubEp T := { ep with pc := pc }

/-- One access of a take verb on the core of subscriber `k`; the core is the only
thing a take touches. -/
def takeStep (c : SubCore T) (now : Int) : TakePc T → Option (SubCore T × TakePc T)
  | .idle => none
  | .load =>
      match c.box with
      | .latest (some r) => some (c, .count r)
      | _ => some (c, .ret none)
  | .pop =>
      match c.box with
      | .queue q =>
          match q.tryPop with
          | some (r, q') => some ({ c with box := .queue q' }, .count r)
          | none => some (c, .ret none)
      | .latest _ => some (c, .ret none)
  | .count r =>
      let stale := isStale c.deadline now r.envelope.publishStampNs
      some ({ c with takeCount := c.takeCount + 1 },
        match c.box with
        | .latest _ => .base r stale
        | .queue _ => .latch r stale)
  | .base r stale =>
      match c.lastConsumedOrdinal with
      | none => some (c, .latch r stale)
      | some last =>
          if last < r.ordinal then some (c, .charge r stale last)
          else some (c, .latch r stale)
  | .charge r stale last =>
      some ({ c with overwriteCount := c.overwriteCount + (r.ordinal - last - 1) },
        .store r stale)
  | .store r stale =>
      some ({ c with lastConsumedOrdinal := some r.ordinal }, .latch r stale)
  | .latch r stale =>
      some ({ c with
          staleLatched := stale
          deadlineMissCount :=
            if stale && !c.staleLatched then c.deadlineMissCount + 1
            else c.deadlineMissCount },
        .ret (some (r, stale)))
  | .ret _ => some (c, .idle)

/-- One access of subscriber `k`: `Subscribe`, a take, or the destructor. -/
def subStep (h : Topic T) (k : Nat) (ep : SubEp T) : SubAct → Option (Topic T × SubEp T)
  | .subscribe =>
      match ep.pc, h.wiringMutex with
      | .unwired, none => some ({ h with wiringMutex := some k }, ep.at' .create)
      | _, _ => none
  | .takeLatest =>
      match ep.pc, (h.cores k).box with
      | .wired .idle, .latest _ => some (h, ep.at' (.wired .load))
      | _, _ => none
  | .tryTake =>
      match ep.pc, (h.cores k).box with
      | .wired .idle, .queue _ => some (h, ep.at' (.wired .pop))
      | _, _ => none
  | .destroy =>
      match ep.pc, h.wiringMutex with
      | .wired .idle, none => some ({ h with wiringMutex := some k }, ep.at' (.find 0))
      | _, _ => none
  | .go now =>
      match ep.pc with
      | .unwired => none
      | .create =>
          some (h.setCore k (.new ep.qos),
            ep.at' (if ep.qos.history.isLatest then .loadMaster else .scan 0))
      | .loadMaster =>
          match h.master with
          | some r => some (h, ep.at' (.seed r))
          | none => some (h, ep.at' (.scan 0))
      | .seed r => some (h.setCore k ((h.cores k).store r), ep.at' (.scan 0))
      | .scan i =>
          if i < kMaxSubscribers then
            match h.subSlots i with
            | none => some (h, ep.at' (.attach i))
            | some _ => some (h, ep.at' (.scan (i + 1)))
          else some (h, ep.at' .unlock)     -- unconnected
      | .attach i => some (h.setSlot i (some k), ep.at' .retain)
      | .retain =>
          some ({ h with subscriberCount := h.subscriberCount + 1 }, ep.at' .unlock)
      | .unlock => some ({ h with wiringMutex := none }, ep.at' (.wired .idle))
      | .wired t =>
          match takeStep (h.cores k) now t with
          | some (c, t') => some (h.setCore k c, ep.at' (.wired t'))
          | none => none
      | .find i =>
          if i < kMaxSubscribers then
            if h.subSlots i = some k then some (h, ep.at' (.clear i))
            else some (h, ep.at' (.find (i + 1)))
          else some (h, ep.at' .leave)
      | .clear i => some (h.setSlot i none, ep.at' .uncount)
      | .uncount =>
          some ({ h with subscriberCount := h.subscriberCount - 1 }, ep.at' .leave)
      | .leave => some ({ h with wiringMutex := none }, ep.at' .gone)
      | .gone => none

end Steps

/-! ## Publishers -/

/-- Where a publisher stands. `k` is the core whose pointer the fan-out has
loaded from slot `i`. -/
inductive PubPc (T : Type) where
  | unadvertised
  | idle
  | lock (m : Message T)
  -- the reliable pre-check
  | check (m : Message T) (i : Nat)
  | probe (m : Message T) (i k : Nat)
  | refuse
  -- the record
  | clock (m : Message T)
  | draw (m : Message T)                    -- accepted_ordinal_.fetch_add
  | master (r : MailRecord T)
  -- the fan-out, slot by slot
  | visit (r : MailRecord T) (i : Nat)
  | base (r : MailRecord T) (i k : Nat)
  | stamp (r : MailRecord T) (i k : Nat)
  | store (r : MailRecord T) (i k : Nat)
  | push (r : MailRecord T) (i k : Nat)
  | drop (r : MailRecord T) (i k : Nat)
  | countPublish
  | countBytes
  | ret (st : PublishStatus)
  | refused
  | gone

structure PubEp (T : Type) where
  qos : Qos := {}
  pc : PubPc T := .unadvertised
  publishCount : Nat := 0
  refusedCount : Nat := 0
  bytes : Nat := 0

inductive PubAct (T : Type) where
  | advertise
  | publish (m : Message T)
  | go (now : Int)
  | destroy

section Steps

variable {T : Type}

def PubEp.at' (ep : PubEp T) (pc : PubPc T) : PubEp T := { ep with pc := pc }

/-- The first access of `Deliver`. -/
def PubEp.deliver (ep : PubEp T) (m : Message T) : PubEp T :=
  ep.at' (if ep.qos.reliability = .reliable then .check m 0 else .clock m)

/-- One access of publisher `p`; `size` is `sizeof(T)`. The clock is read after
the pre-check and, for shared publishers, under the write mutex. -/
def pubStep (size : Nat) (h : Topic T) (p : Nat) (ep : PubEp T) :
    PubAct T → Option (Topic T × PubEp T)
  | .advertise =>
      match ep.pc, h.wiringMutex with
      | .unadvertised, none =>
          if h.publisherCount > 0 ∧
              (h.declaredOwnership = .exclusive ∨ ep.qos.ownership = .exclusive) then
            some (h, ep.at' .refused)
          else
            some ({ h with
                declaredOwnership := ep.qos.ownership
                publisherCount := h.publisherCount + 1 },
              ep.at' .idle)
      | _, _ => none
  | .publish m =>
      match ep.pc with
      | .idle =>
          if ep.qos.ownership = .shared then some (h, ep.at' (.lock m))
          else some (h, ep.deliver m)
      | _ => none
  | .destroy =>
      match ep.pc, h.wiringMutex with
      | .idle, none =>
          some ({ h with publisherCount := h.publisherCount - 1 }, ep.at' .gone)
      | .refused, _ => some (h, ep.at' .gone)
      | _, _ => none
  | .go now =>
      match ep.pc with
      | .unadvertised => none
      | .idle => none
      | .lock m =>
          match h.sharedWriteMutex with
          | none => some ({ h with sharedWriteMutex := some p }, ep.deliver m)
          | some _ => none
      | .check m i =>
          if i < kMaxSubscribers then
            match h.subSlots i with
            | some k => some (h, ep.at' (.probe m i k))
            | none => some (h, ep.at' (.check m (i + 1)))
          else some (h, ep.at' (.clock m))
      | .probe m i k =>
          if (h.cores k).full then some (h, ep.at' .refuse)
          else some (h, ep.at' (.check m (i + 1)))
      | .refuse =>
          some (h, { ep with
            refusedCount := ep.refusedCount + 1, pc := .ret .wouldBlock })
      | .clock m => some (h, ep.at' (.draw { m with now := now }))
      | .draw m =>
          some ({ h with acceptedOrdinal := h.acceptedOrdinal + 1 },
            ep.at' (.master (m.record (h.acceptedOrdinal + 1))))
      | .master r => some ({ h with master := some r }, ep.at' (.visit r 0))
      | .visit r i =>
          if i < kMaxSubscribers then
            match h.subSlots i with
            | none => some (h, ep.at' (.visit r (i + 1)))
            | some k =>
                match (h.cores k).box with
                | .latest _ => some (h, ep.at' (.base r i k))
                | .queue _ => some (h, ep.at' (.push r i k))
          else some (h, ep.at' .countPublish)
      | .base r i k =>
          match (h.cores k).lastConsumedOrdinal with
          | none => some (h, ep.at' (.stamp r i k))
          | some _ => some (h, ep.at' (.store r i k))
      | .stamp r i k =>
          match (h.cores k).lastConsumedOrdinal with
          | none =>
              some (h.setCore k { h.cores k with
                  lastConsumedOrdinal := some (r.ordinal - 1) },
                ep.at' (.store r i k))
          | some _ => some (h, ep.at' (.store r i k))
      | .store r i k =>
          some (h.setCore k ((h.cores k).store r), ep.at' (.visit r (i + 1)))
      | .push r i k =>
          match (h.cores k).box with
          | .queue q =>
              match q.tryPush r with
              | some q' =>
                  some (h.setCore k { h.cores k with box := .queue q' },
                    ep.at' (.visit r (i + 1)))
              | none => some (h, ep.at' (.drop r i k))
          | .latest _ => some (h, ep.at' (.visit r (i + 1)))
      | .drop r i k =>
          some (h.setCore k { h.cores k with dropCount := (h.cores k).dropCount + 1 },
            ep.at' (.visit r (i + 1)))
      | .countPublish =>
          some (h, { ep with publishCount := ep.publishCount + 1, pc := .countBytes })
      | .countBytes => some (h, { ep with bytes := ep.bytes + size, pc := .ret .ok })
      | .ret _ =>
          some (if ep.qos.ownership = .shared then { h with sharedWriteMutex := none } else h,
            ep.at' .idle)
      | .refused => none
      | .gone => none

end Steps

/-! ## The world -/

structure World (T : Type) where
  topic : Topic T := {}
  subs : Nat → SubEp T
  pubs : Nat → PubEp T

inductive Act (T : Type) where
  | sub (k : Nat) (a : SubAct)
  | pub (p : Nat) (a : PubAct T)

namespace World

variable {T : Type}

/-- A new topic and handles not wired yet, with whatever declarations. -/
def Fresh (w : World T) : Prop :=
  w.topic = {} ∧ (∀ k, (w.subs k).pc = .unwired) ∧
    ∀ p, (w.pubs p).pc = .unadvertised ∧ (w.pubs p).publishCount = 0 ∧
      (w.pubs p).refusedCount = 0 ∧ (w.pubs p).bytes = 0

def putSub (w : World T) (k : Nat) (h : Topic T) (ep : SubEp T) : World T :=
  { w with topic := h, subs := Function.update w.subs k ep }

def putPub (w : World T) (p : Nat) (h : Topic T) (ep : PubEp T) : World T :=
  { w with topic := h, pubs := Function.update w.pubs p ep }

def step (size : Nat) (w : World T) : Act T → Option (World T)
  | .sub k a =>
      match subStep w.topic k (w.subs k) a with
      | some (h, ep) => some (w.putSub k h ep)
      | none => none
  | .pub p a =>
      match pubStep size w.topic p (w.pubs p) a with
      | some (h, ep) => some (w.putPub p h ep)
      | none => none

section Access

variable (w : World T) (k p : Nat) (h : Topic T) (ep : SubEp T) (pb : PubEp T)

@[simp] theorem putSub_topic : (w.putSub k h ep).topic = h := rfl
@[simp] theorem putSub_pubs : (w.putSub k h ep).pubs = w.pubs := rfl
@[simp] theorem putSub_self : (w.putSub k h ep).subs k = ep := by simp [putSub]
theorem putSub_ne {k' : Nat} (hk : k' ≠ k) :
    (w.putSub k h ep).subs k' = w.subs k' := by simp [putSub, hk]

@[simp] theorem putPub_topic : (w.putPub p h pb).topic = h := rfl
@[simp] theorem putPub_subs : (w.putPub p h pb).subs = w.subs := rfl
@[simp] theorem putPub_self : (w.putPub p h pb).pubs p = pb := by simp [putPub]
theorem putPub_ne {p' : Nat} (hp : p' ≠ p) :
    (w.putPub p h pb).pubs p' = w.pubs p' := by simp [putPub, hp]

end Access

end World

/-- The machine of one in-process topic. -/
def machine (T : Type) (size : Nat) : Machine (World T) (Act T) where
  start := World.Fresh
  step := World.step size

theorem step_cases {T : Type} {size : Nat} {w w' : World T} {a : Act T}
    (h : w.step size a = some w') :
    (∃ k b h' ep', a = .sub k b ∧ subStep w.topic k (w.subs k) b = some (h', ep') ∧
      w' = w.putSub k h' ep') ∨
    (∃ p b h' ep', a = .pub p b ∧ pubStep size w.topic p (w.pubs p) b = some (h', ep') ∧
      w' = w.putPub p h' ep') := by
  cases a with
  | sub k b =>
      rw [World.step] at h
      split at h
      · next h' ep' hs =>
          cases h
          exact .inl ⟨k, b, h', ep', rfl, hs, rfl⟩
      · cases h
  | pub p b =>
      rw [World.step] at h
      split at h
      · next h' ep' hs =>
          cases h
          exact .inr ⟨p, b, h', ep', rfl, hs, rfl⟩
      · cases h

end Xmmsg.InProc
