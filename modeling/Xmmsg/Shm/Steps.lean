import Xmmsg.Shm.Segment
import Xmmsg.Sys.Machine

/-!
# The participants of one shm topic, one atomic operation at a time

`posix_shm.hpp`: `ShmSubImpl` (claim, take, destructor) and `ShmPubImpl` (claim
with repair, publish, destructor), each cut at every access to a shared word.
A program counter names the access an endpoint is about to make, together with
the local variables that are live there; `subStep` and `pubStep` perform it.

A world is one segment, the endpoints wired or about to be wired to it, and the
set of dead processes. Any number of endpoints share a process. A process may
die between any two accesses of any of its endpoints; its pid is never used
again, and `ProcessAlive` answers exactly. The clock readings a take or publish
makes are inputs of the step, and a sleep is no step at all.

The telemetry instruments, and the drop delta a queue take emits to them, have
no reader in the library and are left out.
-/

namespace Xmmsg.Shm

open Xmmsg.Sys

/-! ## Subscriber endpoints -/

/-- Where a wired subscriber stands inside `TakeLatestSample` or
`TryTakeSample`. -/
inductive TakePc (T : Type) where
  | idle
  | load                                    -- LoadBounded of the own mailbox
  | pop                                     -- TryPop of the own ring
  | count (r : MailRecord T)                -- Now(), take_count.fetch_add
  | miss (r : MailRecord T) (stale : Bool)  -- the deadline-miss latch
  | base (r : MailRecord T) (stale : Bool)  -- last_consumed_ordinal.load
  | charge (r : MailRecord T) (stale : Bool) (last : Nat)
  | store (r : MailRecord T) (stale : Bool)
  | ret (r : Option (MailRecord T × Bool))  -- the sample is handed back

/-- Where a subscriber endpoint stands. The index is the slot being tried, held
or released. -/
inductive SubPc (T : Type) where
  | unwired
  | casFree (i : Nat)
  | loadPid (i : Nat)
  | probePid (i pid : Nat)
  | casActive (i : Nat)
  -- the dead-owner path waits out a publisher that may be mid-fan-out
  | loadPubPid (i : Nat)
  | probePub (i pid : Nat)
  | loadStart (i : Nat)
  | poll (i start spin : Nat)
  -- exclusive owner of the region between kClaimed and kActive
  | storePid (i : Nat)
  | storeKind (i : Nat)
  | storeDepth (i : Nat)
  | storeBase (i : Nat)
  | storeTake (i : Nat)
  | storeDrop (i : Nat)
  | storeOverwrite (i : Nat)
  | storeMiss (i : Nat)
  | initLatest (i : Nat)
  | loadMaster (i : Nat)
  | seedBegin (i : Nat) (r : MailRecord T)
  | seedEnd (i : Nat) (r : MailRecord T)
  | initRing (i : Nat)
  | storeActive (i : Nat)
  | wired (i : Nat) (t : TakePc T)
  | released (i : Nat)                      -- state is Free, pid still to clear
  | refused
  | gone

/-- `ShmSubImpl`: the process it lives in, its declarations, its cache. -/
structure SubEp (T : Type) where
  pid : Nat
  history : History := .latestOnly
  deadline : Option Int := none
  pc : SubPc T := .unwired
  cached : Option (MailRecord T) := none
  staleLatched : Bool := false

inductive SubAct where
  | go (now : Int)
  | takeLatest
  | tryTake
  | destroy
  deriving DecidableEq, Repr

namespace SubEp

variable {T : Type}

/-- Move to the next access. -/
def at' (ep : SubEp T) (pc : SubPc T) : SubEp T := { ep with pc := pc }

@[simp] theorem at'_pc (ep : SubEp T) (pc : SubPc T) : (ep.at' pc).pc = pc := rfl

@[simp] theorem at'_pid (ep : SubEp T) (pc : SubPc T) : (ep.at' pc).pid = ep.pid :=
  rfl

@[simp] theorem at'_history (ep : SubEp T) (pc : SubPc T) :
    (ep.at' pc).history = ep.history := rfl

@[simp] theorem at'_cached (ep : SubEp T) (pc : SubPc T) :
    (ep.at' pc).cached = ep.cached := rfl

end SubEp

section Steps

variable {T : Type}

/-- One access of `TakeLatestSample` or `TryTakeSample` by the endpoint wired at
slot `i`. -/
def takeStep (h : Segment T) (ep : SubEp T) (i : Nat) (now : Int) :
    TakePc T → Option (Segment T × SubEp T)
  | .idle => none
  | .load =>
      match h.latest i with
      | .full r => some (h, { ep with cached := some r, pc := .wired i (.count r) })
      | .empty | .torn =>
          -- never written, crash-repaired, or the writer died mid-store
          match ep.cached with
          | some r => some (h, ep.at' (.wired i (.count r)))
          | none => some (h, ep.at' (.wired i (.ret none)))
  | .pop =>
      match (h.ring i).tryPop with
      | some (r, q) => some (h.setRing i q, ep.at' (.wired i (.count r)))
      | none => some (h, ep.at' (.wired i (.ret none)))
  | .count r =>
      let s := h.subSlots i
      some (h.setSlot i { s with takeCount := s.takeCount + 1 },
        ep.at' (.wired i (.miss r (isStale ep.deadline now r.envelope.publishStampNs))))
  | .miss r stale =>
      let s := h.subSlots i
      let next := if ep.history.isLatest then .base r stale else .ret (some (r, stale))
      if stale then
        if ep.staleLatched then some (h, ep.at' (.wired i next))
        else
          some (h.setSlot i { s with deadlineMissCount := s.deadlineMissCount + 1 },
            { ep with staleLatched := true, pc := .wired i next })
      else some (h, { ep with staleLatched := false, pc := .wired i next })
  | .base r stale =>
      match (h.subSlots i).lastConsumedOrdinal with
      | none => some (h, ep.at' (.wired i (.ret (some (r, stale)))))
      | some last =>
          if last < r.ordinal then some (h, ep.at' (.wired i (.charge r stale last)))
          else some (h, ep.at' (.wired i (.ret (some (r, stale)))))
  | .charge r stale last =>
      let s := h.subSlots i
      some (h.setSlot i { s with overwriteCount := s.overwriteCount + (r.ordinal - last - 1) },
        ep.at' (.wired i (.store r stale)))
  | .store r stale =>
      let s := h.subSlots i
      some (h.setSlot i { s with lastConsumedOrdinal := some r.ordinal },
        ep.at' (.wired i (.ret (some (r, stale)))))
  | .ret _ => some (h, ep.at' (.wired i .idle))

/-- One access of `ClaimSubscriberSlot`, a take, or the destructor. -/
def subStep (alive : Nat → Bool) (h : Segment T) (ep : SubEp T) :
    SubAct → Option (Segment T × SubEp T)
  | .takeLatest =>
      match ep.pc with
      | .wired i .idle =>
          if ep.history.isLatest then some (h, ep.at' (.wired i .load)) else none
      | _ => none
  | .tryTake =>
      match ep.pc with
      | .wired i .idle =>
          if ep.history.isLatest then none else some (h, ep.at' (.wired i .pop))
      | _ => none
  | .destroy =>
      match ep.pc with
      | .wired i .idle =>
          some (h.setSlot i { h.subSlots i with state := .free }, ep.at' (.released i))
      | .refused => some (h, ep.at' .gone)
      | _ => none
  | .go now =>
      match ep.pc with
      | .unwired => some (h, ep.at' (.casFree 0))
      | .casFree i =>
          if i < kShmMaxSubscribers then
            match (h.subSlots i).state with
            | .free =>
                some (h.setSlot i { h.subSlots i with state := .claimed },
                  ep.at' (.storePid i))
            | .claimed => some (h, ep.at' (.casFree (i + 1)))
            | .active => some (h, ep.at' (.loadPid i))
          else some (h, ep.at' .refused)
      | .loadPid i => some (h, ep.at' (.probePid i (h.subSlots i).pid))
      | .probePid i pid =>
          if alive pid then some (h, ep.at' (.casFree (i + 1)))
          else some (h, ep.at' (.casActive i))
      | .casActive i =>
          match (h.subSlots i).state with
          | .active =>
              some (h.setSlot i { h.subSlots i with state := .claimed },
                ep.at' (.loadPubPid i))
          | _ => some (h, ep.at' (.casFree (i + 1)))
      | .loadPubPid i => some (h, ep.at' (.probePub i h.pubPid))
      | .probePub i pid =>
          if alive pid then some (h, ep.at' (.loadStart i))
          else some (h, ep.at' (.storePid i))
      | .loadStart i => some (h, ep.at' (.poll i h.acceptedOrdinal 0))
      | .poll i start spin =>
          if spin < 20 then
            if h.acceptedOrdinal ≥ start + 2 then some (h, ep.at' (.storePid i))
            else some (h, ep.at' (.poll i start (spin + 1)))
          else some (h, ep.at' (.storePid i))
      | .storePid i =>
          some (h.setSlot i { h.subSlots i with pid := ep.pid }, ep.at' (.storeKind i))
      | .storeKind i =>
          some (h.setSlot i { h.subSlots i with
              historyKind := if ep.history.isLatest then 0 else 1 },
            ep.at' (.storeDepth i))
      | .storeDepth i =>
          some (h.setSlot i { h.subSlots i with queueDepth := ep.history.depth },
            ep.at' (.storeBase i))
      | .storeBase i =>
          some (h.setSlot i { h.subSlots i with lastConsumedOrdinal := none },
            ep.at' (.storeTake i))
      | .storeTake i =>
          some (h.setSlot i { h.subSlots i with takeCount := 0 }, ep.at' (.storeDrop i))
      | .storeDrop i =>
          some (h.setSlot i { h.subSlots i with dropCount := 0 },
            ep.at' (.storeOverwrite i))
      | .storeOverwrite i =>
          some (h.setSlot i { h.subSlots i with overwriteCount := 0 },
            ep.at' (.storeMiss i))
      | .storeMiss i =>
          some (h.setSlot i { h.subSlots i with deadlineMissCount := 0 },
            ep.at' (if ep.history.isLatest then .initLatest i else .initRing i))
      | .initLatest i => some (h.setLatest i .empty, ep.at' (.loadMaster i))
      | .loadMaster i =>
          match h.master with
          | .full r => some (h, ep.at' (.seedBegin i r))
          | .empty | .torn => some (h, ep.at' (.storeActive i))
      | .seedBegin i r => some (h.setLatest i .torn, ep.at' (.seedEnd i r))
      | .seedEnd i r => some (h.setLatest i (.full r), ep.at' (.storeActive i))
      | .initRing i =>
          let depth := if ep.history.depth = 0 then 1 else ep.history.depth
          some (h.setRing i (.empty depth), ep.at' (.storeActive i))
      | .storeActive i =>
          some (h.setSlot i { h.subSlots i with state := .active },
            ep.at' (.wired i .idle))
      | .wired i t => takeStep h ep i now t
      | .released i =>
          some (h.setSlot i { h.subSlots i with pid := 0 }, ep.at' .gone)
      | .refused => none
      | .gone => none

end Steps

/-! ## Publisher endpoints -/

/-- Where a publisher endpoint stands in `ClaimPublisherSlot`, `Publish` or its
destructor. -/
inductive PubPc (T : Type) where
  | unwired
  | casZero
  | probeOwner (owner : Nat)
  | casOwner (owner : Nat)
  | bumpEpoch
  -- sole writer now: repair what the previous owner poisoned
  | repairMaster
  | repairState (i : Nat)
  | repairKind (i : Nat)
  | repairCell (i : Nat)
  | idle
  | draw (m : Message T)                    -- accepted_ordinal.fetch_add
  | masterBegin (r : MailRecord T)
  | masterEnd (r : MailRecord T)
  -- the fan-out, slot by slot
  | loadState (r : MailRecord T) (i : Nat)
  | loadKind (r : MailRecord T) (i : Nat)
  | loadBase (r : MailRecord T) (i : Nat)
  | stamp (r : MailRecord T) (i : Nat)
  | cellBegin (r : MailRecord T) (i : Nat)
  | cellEnd (r : MailRecord T) (i : Nat)
  | push (r : MailRecord T) (i : Nat)
  | drop (r : MailRecord T) (i : Nat)
  | countLocal
  | countShared
  | bytesShared
  | casRelease
  | refused
  | gone

/-- `ShmPubImpl`. -/
structure PubEp (T : Type) where
  pid : Nat
  ownsPublisherSlot : Bool := false
  pc : PubPc T := .unwired
  publishCount : Nat := 0
  bytes : Nat := 0

inductive PubAct (T : Type) where
  | go
  | publish (m : Message T)
  | destroy

/-- Move to the next access. -/
def PubEp.at' {T : Type} (ep : PubEp T) (pc : PubPc T) : PubEp T :=
  { ep with pc := pc }

@[simp] theorem PubEp.at'_pc {T : Type} (ep : PubEp T) (pc : PubPc T) :
    (ep.at' pc).pc = pc := rfl

@[simp] theorem PubEp.at'_pid {T : Type} (ep : PubEp T) (pc : PubPc T) :
    (ep.at' pc).pid = ep.pid := rfl

@[simp] theorem PubEp.at'_owns {T : Type} (ep : PubEp T) (pc : PubPc T) :
    (ep.at' pc).ownsPublisherSlot = ep.ownsPublisherSlot := rfl

section Steps

variable {T : Type}

/-- One access of `ClaimPublisherSlot`, `Publish` or the destructor; `size` is
`sizeof(T)`. -/
def pubStep (size : Nat) (alive : Nat → Bool) (h : Segment T) (ep : PubEp T) :
    PubAct T → Option (Segment T × PubEp T)
  | .publish m =>
      match ep.pc with
      | .idle => some (h, ep.at' (.draw m))
      | _ => none
  | .destroy =>
      match ep.pc with
      | .idle => some (h, ep.at' .casRelease)
      | .refused => some (h, ep.at' .gone)
      | _ => none
  | .go =>
      match ep.pc with
      | .unwired => some (h, ep.at' .casZero)
      | .casZero =>
          if h.pubPid = 0 then
            some ({ h with pubPid := ep.pid },
              { ep with ownsPublisherSlot := true, pc := .bumpEpoch })
          else some (h, ep.at' (.probeOwner h.pubPid))
      | .probeOwner owner =>
          if alive owner then some (h, ep.at' .refused)
          else some (h, ep.at' (.casOwner owner))
      | .casOwner owner =>
          if h.pubPid = owner then
            some ({ h with pubPid := ep.pid },
              { ep with ownsPublisherSlot := true, pc := .bumpEpoch })
          else some (h, ep.at' .refused)
      | .bumpEpoch =>
          some ({ h with pubEpoch := h.pubEpoch + 1 }, ep.at' .repairMaster)
      | .repairMaster =>
          some ({ h with master := h.master.repair }, ep.at' (.repairState 0))
      | .repairState i =>
          if i < kShmMaxSubscribers then
            match (h.subSlots i).state with
            | .active => some (h, ep.at' (.repairKind i))
            | _ => some (h, ep.at' (.repairState (i + 1)))
          else some (h, ep.at' .idle)
      | .repairKind i =>
          if (h.subSlots i).historyKind = 0 then some (h, ep.at' (.repairCell i))
          else some (h, ep.at' (.repairState (i + 1)))
      | .repairCell i =>
          some (h.setLatest i (h.latest i).repair, ep.at' (.repairState (i + 1)))
      | .idle => none
      | .draw m =>
          some ({ h with acceptedOrdinal := h.acceptedOrdinal + 1 },
            ep.at' (.masterBegin (m.record (h.acceptedOrdinal + 1))))
      | .masterBegin r => some ({ h with master := .torn }, ep.at' (.masterEnd r))
      | .masterEnd r => some ({ h with master := .full r }, ep.at' (.loadState r 0))
      | .loadState r i =>
          if i < kShmMaxSubscribers then
            match (h.subSlots i).state with
            | .active => some (h, ep.at' (.loadKind r i))
            | _ => some (h, ep.at' (.loadState r (i + 1)))
          else some (h, ep.at' .countLocal)
      | .loadKind r i =>
          if (h.subSlots i).historyKind = 0 then some (h, ep.at' (.loadBase r i))
          else some (h, ep.at' (.push r i))
      | .loadBase r i =>
          match (h.subSlots i).lastConsumedOrdinal with
          | none => some (h, ep.at' (.stamp r i))
          | some _ => some (h, ep.at' (.cellBegin r i))
      | .stamp r i =>
          match (h.subSlots i).lastConsumedOrdinal with
          | none =>
              some (h.setSlot i { h.subSlots i with
                  lastConsumedOrdinal := some (r.ordinal - 1) },
                ep.at' (.cellBegin r i))
          | some _ => some (h, ep.at' (.cellBegin r i))
      | .cellBegin r i => some (h.setLatest i .torn, ep.at' (.cellEnd r i))
      | .cellEnd r i => some (h.setLatest i (.full r), ep.at' (.loadState r (i + 1)))
      | .push r i =>
          match (h.ring i).tryPush r with
          | some q => some (h.setRing i q, ep.at' (.loadState r (i + 1)))
          | none => some (h, ep.at' (.drop r i))
      | .drop r i =>
          let s := h.subSlots i
          some (h.setSlot i { s with dropCount := s.dropCount + 1 },
            ep.at' (.loadState r (i + 1)))
      | .countLocal =>
          some (h, { ep with
            publishCount := ep.publishCount + 1
            bytes := ep.bytes + size
            pc := .countShared })
      | .countShared =>
          some ({ h with pubPublishCount := h.pubPublishCount + 1 },
            ep.at' .bytesShared)
      | .bytesShared => some ({ h with pubBytes := h.pubBytes + size }, ep.at' .idle)
      | .casRelease =>
          some (if h.pubPid = ep.pid then { h with pubPid := 0 } else h, ep.at' .gone)
      | .refused => none
      | .gone => none

end Steps

/-! ## The world -/

/-- One segment, everybody who may touch it, and who has died. -/
structure World (T : Type) where
  seg : Segment T := {}
  dead : Nat → Bool := fun _ => false
  subs : Nat → SubEp T
  pubs : Nat → PubEp T

inductive Act (T : Type) where
  | die (pid : Nat)
  | sub (e : Nat) (a : SubAct)
  | pub (e : Nat) (a : PubAct T)

namespace World

variable {T : Type}

/-- `ProcessAlive`, exact: pid zero is nobody. -/
def alive (w : World T) (pid : Nat) : Bool := pid != 0 && !w.dead pid

/-- A fresh segment: nobody wired, nobody dead, every endpoint in some
process. -/
def Fresh (w : World T) : Prop :=
  w.seg = {} ∧ (∀ pid, w.dead pid = false) ∧
    (∀ e, (w.subs e).pid ≠ 0 ∧ (w.subs e).pc = .unwired ∧ (w.subs e).cached = none) ∧
    ∀ e, (w.pubs e).pid ≠ 0 ∧ (w.pubs e).pc = .unwired ∧
      (w.pubs e).ownsPublisherSlot = false

/-- Subscriber endpoint `e` has moved to `ep`, leaving the segment as `h`. -/
def putSub (w : World T) (e : Nat) (h : Segment T) (ep : SubEp T) : World T :=
  { w with seg := h, subs := Function.update w.subs e ep }

/-- Publisher endpoint `e` has moved to `ep`, leaving the segment as `h`. -/
def putPub (w : World T) (e : Nat) (h : Segment T) (ep : PubEp T) : World T :=
  { w with seg := h, pubs := Function.update w.pubs e ep }

def kill (w : World T) (pid : Nat) : World T :=
  { w with dead := Function.update w.dead pid true }

/-- The next access of one endpoint, or the death of one process. -/
def step (size : Nat) (w : World T) : Act T → Option (World T)
  | .die pid => some (w.kill pid)
  | .sub e a =>
      if w.alive (w.subs e).pid then
        match subStep w.alive w.seg (w.subs e) a with
        | some (h, ep) => some (w.putSub e h ep)
        | none => none
      else none
  | .pub e a =>
      if w.alive (w.pubs e).pid then
        match pubStep size w.alive w.seg (w.pubs e) a with
        | some (h, ep) => some (w.putPub e h ep)
        | none => none
      else none

section Access

variable (w : World T) (e : Nat) (h : Segment T) (ep : SubEp T) (pb : PubEp T)
  (pid : Nat)

@[simp] theorem putSub_seg : (w.putSub e h ep).seg = h := rfl
@[simp] theorem putSub_pubs : (w.putSub e h ep).pubs = w.pubs := rfl
@[simp] theorem putSub_dead : (w.putSub e h ep).dead = w.dead := rfl
@[simp] theorem putSub_self : (w.putSub e h ep).subs e = ep := by simp [putSub]
theorem putSub_ne {e' : Nat} (he : e' ≠ e) :
    (w.putSub e h ep).subs e' = w.subs e' := by simp [putSub, he]
theorem putSub_putSub (h' : Segment T) (ep' : SubEp T) :
    (w.putSub e h ep).putSub e h' ep' = w.putSub e h' ep' := by simp [putSub]

@[simp] theorem putPub_seg : (w.putPub e h pb).seg = h := rfl
@[simp] theorem putPub_subs : (w.putPub e h pb).subs = w.subs := rfl
@[simp] theorem putPub_dead : (w.putPub e h pb).dead = w.dead := rfl
@[simp] theorem putPub_self : (w.putPub e h pb).pubs e = pb := by simp [putPub]
theorem putPub_ne {e' : Nat} (he : e' ≠ e) :
    (w.putPub e h pb).pubs e' = w.pubs e' := by simp [putPub, he]
theorem putPub_putPub (h' : Segment T) (pb' : PubEp T) :
    (w.putPub e h pb).putPub e h' pb' = w.putPub e h' pb' := by simp [putPub]

@[simp] theorem kill_seg : (w.kill pid).seg = w.seg := rfl
@[simp] theorem kill_subs : (w.kill pid).subs = w.subs := rfl
@[simp] theorem kill_pubs : (w.kill pid).pubs = w.pubs := rfl

@[simp] theorem putSub_alive : (w.putSub e h ep).alive = w.alive := rfl
@[simp] theorem putPub_alive : (w.putPub e h pb).alive = w.alive := rfl

/-- A death makes nobody alive. -/
theorem alive_of_kill {q : Nat} (hq : (w.kill pid).alive q = true) :
    w.alive q = true := by
  by_cases hp : q = pid
  · simp [alive, kill, hp] at hq
  · simpa [alive, kill, hp] using hq

end Access

end World

/-- The machine of one shm topic. -/
def machine (T : Type) (size : Nat) : Machine (World T) (Act T) where
  start := World.Fresh
  step := World.step size

/-! ## What a step of the world is

Three shapes, read off `World.step` once: a process dies and nothing else moves,
or one live endpoint makes one access. -/

theorem step_cases {T : Type} {size : Nat} {w w' : World T} {a : Act T}
    (h : w.step size a = some w') :
    (∃ pid, a = .die pid ∧ w' = w.kill pid) ∨
    (∃ e b h' ep', a = .sub e b ∧ w.alive (w.subs e).pid = true ∧
      subStep w.alive w.seg (w.subs e) b = some (h', ep') ∧
      w' = w.putSub e h' ep') ∨
    (∃ e b h' ep', a = .pub e b ∧ w.alive (w.pubs e).pid = true ∧
      pubStep size w.alive w.seg (w.pubs e) b = some (h', ep') ∧
      w' = w.putPub e h' ep') := by
  cases a with
  | die pid =>
      rw [World.step] at h
      cases h
      exact .inl ⟨pid, rfl, rfl⟩
  | sub e b =>
      rw [World.step] at h
      split at h
      · next hal =>
          split at h
          · next h' ep' hs =>
              cases h
              exact .inr (.inl ⟨e, b, h', ep', rfl, hal, hs, rfl⟩)
          · cases h
      · cases h
  | pub e b =>
      rw [World.step] at h
      split at h
      · next hal =>
          split at h
          · next h' ep' hs =>
              cases h
              exact .inr (.inr ⟨e, b, h', ep', rfl, hal, hs, rfl⟩)
          · cases h
      · cases h

end Xmmsg.Shm
