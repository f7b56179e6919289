import Xmmsg.Calls
import Xmmsg.Shm.Steps
import Xmmsg.Sys.Script

/-!
# Whole calls on one shm topic

The verbs of `posix_shm.hpp` as functions, for processes that make one call at a
time: `ClaimPublisherSlot`, `ClaimSubscriberSlot` and the destructors, `Publish`
with its loop over the sixteen slots, and the two take verbs. The state is the one
of `Steps.lean`, with every endpoint at rest; the wiring gates that read nothing but
declarations are in front of these functions, not in them.

A claim that waits out a publisher sees no ordinal advance here, and its polls change
nothing.
-/

namespace Xmmsg.Shm

open Xmmsg.Sys

variable {T : Type}

namespace Segment

/-! ## Publishers -/

/-- The repair of one mailbox by a new publisher. -/
def repairSlot (h : Segment T) (i : Nat) : Segment T :=
  if (h.subSlots i).state = .active ∧ (h.subSlots i).historyKind = 0 then
    h.setLatest i (h.latest i).repair
  else h

/-- `ClaimPublisherSlot` of process `me`. -/
def claimPublisherSlot (alive : Nat → Bool) (h : Segment T) (me : Nat) :
    AdvertiseStatus × Segment T :=
  if h.pubPid ≠ 0 ∧ alive h.pubPid = true then (.ownershipRefused, h)
  else
    let h := { h with pubPid := me, pubEpoch := h.pubEpoch + 1, master := h.master.repair }
    (.ok, (List.range kShmMaxSubscribers).foldl repairSlot h)

/-- `~ShmPubImpl`. -/
def releasePublisherSlot (h : Segment T) (me : Nat) : Segment T :=
  if h.pubPid = me then { h with pubPid := 0 } else h

/-- The body of the fan-out loop. -/
def visit (r : MailRecord T) (h : Segment T) (i : Nat) : Segment T :=
  let s := h.subSlots i
  if s.state = .active then
    if s.historyKind = 0 then
      let base := match s.lastConsumedOrdinal with
        | none => r.ordinal - 1
        | some last => last
      (h.setSlot i { s with lastConsumedOrdinal := some base }).setLatest i (.full r)
    else
      match (h.ring i).tryPush r with
      | some q => h.setRing i q
      | none => h.setSlot i { s with dropCount := s.dropCount + 1 }
  else h

def fanOut (h : Segment T) (r : MailRecord T) : Segment T :=
  (List.range kShmMaxSubscribers).foldl (visit r) h

/-- The segment's own counters. -/
def countPublish (size : Nat) (h : Segment T) : Segment T :=
  { h with pubPublishCount := h.pubPublishCount + 1, pubBytes := h.pubBytes + size }

/-- `ShmPubImpl::Publish`, as far as the segment goes. -/
def publish (size : Nat) (h : Segment T) (m : Message T) : Segment T :=
  let r := m.record (h.acceptedOrdinal + 1)
  let h := { h with acceptedOrdinal := h.acceptedOrdinal + 1, master := .full r }
  (h.fanOut r).countPublish size

/-- `ShmPubImpl::MatchedCount`. -/
def publisherMatched (alive : Nat → Bool) (h : Segment T) : Nat :=
  (List.range kShmMaxSubscribers).countP fun i =>
    decide ((h.subSlots i).state = .active) && alive (h.subSlots i).pid

/-- `ShmSubImpl::MatchedCount`. -/
def subscriberMatched (alive : Nat → Bool) (h : Segment T) : Nat :=
  if alive h.pubPid then 1 else 0

/-! ## Subscribers -/

/-- The slot `ClaimSubscriberSlot` gets: the first that is free, or held by a dead
process. -/
def claimable (alive : Nat → Bool) (h : Segment T) : Option Nat :=
  (List.range kShmMaxSubscribers).find? fun i =>
    match (h.subSlots i).state with
    | .free => true
    | .claimed => false
    | .active => !alive (h.subSlots i).pid

/-- What the owner has stored into its slot when it turns `kActive`. -/
def freshSlot (ep : SubEp T) : SubSlot where
  state := .active
  pid := ep.pid
  historyKind := if ep.history.isLatest then 0 else 1
  queueDepth := ep.history.depth
  lastConsumedOrdinal := none
  takeCount := 0
  dropCount := 0
  overwriteCount := 0
  deadlineMissCount := 0

/-- The stores of the owner between `kClaimed` and `kActive`. -/
def occupy (h : Segment T) (i : Nat) (ep : SubEp T) : Segment T :=
  let h := h.setSlot i (freshSlot ep)
  if ep.history.isLatest then
    match h.master with
    | .full r => h.setLatest i (.full r)
    | _ => h.setLatest i .empty
  else h.setRing i (.empty (if ep.history.depth = 0 then 1 else ep.history.depth))

/-- `~ShmSubImpl`. -/
def releaseSubscriberSlot (h : Segment T) (i : Nat) : Segment T :=
  h.setSlot i { h.subSlots i with state := .free, pid := 0 }

/-- `FillSample`, at slot `i`. -/
def fillSample (h : Segment T) (ep : SubEp T) (i : Nat) (now : Int) (r : MailRecord T) :
    Bool × Segment T × SubEp T :=
  let s := h.subSlots i
  let stale := isStale ep.deadline now r.envelope.publishStampNs
  let misses := if stale && !ep.staleLatched then s.deadlineMissCount + 1 else s.deadlineMissCount
  (stale, h.setSlot i { s with takeCount := s.takeCount + 1, deadlineMissCount := misses },
    { ep with staleLatched := stale })

/-- The ordinal-gap accounting of `TakeLatestSample`. -/
def charge (h : Segment T) (i : Nat) (r : MailRecord T) : Segment T :=
  let s := h.subSlots i
  match s.lastConsumedOrdinal with
  | none => h
  | some last =>
      if last < r.ordinal then
        h.setSlot i { s with
          overwriteCount := s.overwriteCount + (r.ordinal - last - 1)
          lastConsumedOrdinal := some r.ordinal }
      else h

/-- `TakeLatestSample`; a queue subscriber has no mailbox. -/
def takeLatestSample (h : Segment T) (ep : SubEp T) (i : Nat) (now : Int) :
    Option (MailRecord T × Bool) × Segment T × SubEp T :=
  if ep.history.isLatest then
    let ep := match h.latest i with
      | .full r => { ep with cached := some r }
      | _ => ep
    match ep.cached with
    | some r =>
        let (stale, h, ep) := h.fillSample ep i now r
        (some (r, stale), h.charge i r, ep)
    | none => (none, h, ep)
  else (none, h, ep)

/-- `TryTakeSample`; a latest-only subscriber has no ring. -/
def tryTakeSample (h : Segment T) (ep : SubEp T) (i : Nat) (now : Int) :
    Option (MailRecord T × Bool) × Segment T × SubEp T :=
  if ep.history.isLatest then (none, h, ep)
  else
    match (h.ring i).tryPop with
    | some (r, q) =>
        let (stale, h, ep) := (h.setRing i q).fillSample ep i now r
        (some (r, stale), h, ep)
    | none => (none, h, ep)

end Segment

def SubSlot.counter (s : SubSlot) : Counter → Nat
  | .take => s.takeCount
  | .drop => s.dropCount
  | .overwrite => s.overwriteCount
  | .deadlineMiss => s.deadlineMissCount

/-! ## The calls -/

namespace World

variable [Inhabited T]

/-- `Publish` on handle `p`; on a refused handle it does nothing. -/
def publish (size : Nat) (w : World T) (p : Nat) (m : Message T) :
    Option (Answer T × World T) :=
  let ep := w.pubs p
  match ep.pc with
  | .idle =>
      some (.published .ok, w.putPub p (w.seg.publish size m)
        { ep with publishCount := ep.publishCount + 1, bytes := ep.bytes + size })
  | .refused => some (.published .ok, w)
  | _ => none

/-- A take verb on the slot of subscriber `k`; a refused handle has none. -/
def take (w : World T) (k : Nat)
    (verb : Segment T → SubEp T → Nat → Option (MailRecord T × Bool) × Segment T × SubEp T) :
    Option (Answer T × World T) :=
  match (w.subs k).pc with
  | .wired i .idle =>
      let (r, h, ep) := verb w.seg (w.subs k) i
      some (.sample (sampleOf r), w.putSub k h ep)
  | .refused => some (.sample {}, w)
  | _ => none

def call (size : Nat) (w : World T) : Op T → Option (Answer T × World T)
  | .advertise p =>
      match (w.pubs p).pc with
      | .unwired =>
          match w.seg.claimPublisherSlot w.alive (w.pubs p).pid with
          | (.ok, h) => some (.advertised .ok,
              w.putPub p h { w.pubs p with ownsPublisherSlot := true, pc := .idle })
          | (st, h) => some (.advertised st, w.putPub p h ((w.pubs p).at' .refused))
      | _ => none
  | .publish p value context now =>
      w.publish size p { value := value, context := context, now := now }
  | .publishDerived p value upstream context now =>
      w.publish size p
        { value := value, derived := derivedInfo upstream, context := context, now := now }
  | .publishCount p =>
      match (w.pubs p).pc with
      | .idle | .refused => some (.number (w.pubs p).publishCount, w)
      | _ => none
  | .publisherMatched p =>
      match (w.pubs p).pc with
      | .idle => some (.number (w.seg.publisherMatched w.alive), w)
      | .refused => some (.number 0, w)
      | _ => none
  | .destroyPublisher p =>
      match (w.pubs p).pc with
      | .idle => some (.done,
          w.putPub p (w.seg.releasePublisherSlot (w.pubs p).pid) ((w.pubs p).at' .gone))
      | .refused => some (.done, w.putPub p w.seg ((w.pubs p).at' .gone))
      | _ => none
  | .subscribe k =>
      match (w.subs k).pc with
      | .unwired =>
          match w.seg.claimable w.alive with
          | some i => some (.subscribed .ok,
              w.putSub k (w.seg.occupy i (w.subs k)) ((w.subs k).at' (.wired i .idle)))
          | none => some (.subscribed .unsupportedReach,
              w.putSub k w.seg ((w.subs k).at' .refused))
      | _ => none
  | .takeLatest k now => w.take k fun h ep i => h.takeLatestSample ep i now
  | .tryTake k now => w.take k fun h ep i => h.tryTakeSample ep i now
  | .count k c =>
      match (w.subs k).pc with
      | .wired i .idle => some (.number ((w.seg.subSlots i).counter c), w)
      | .refused => some (.number 0, w)
      | _ => none
  | .subscriberMatched k =>
      match (w.subs k).pc with
      | .wired _ .idle => some (.number (w.seg.subscriberMatched w.alive), w)
      | .refused => some (.number 0, w)
      | _ => none
  | .destroySubscriber k =>
      match (w.subs k).pc with
      | .wired i .idle =>
          some (.done, w.putSub k (w.seg.releaseSubscriberSlot i) ((w.subs k).at' .gone))
      | .refused => some (.done, w.putSub k w.seg ((w.subs k).at' .gone))
      | _ => none

end World

/-! ## One slot at a time

A visit of the loop reads and writes what belongs to its slot and nothing else, so
the loop delivers to every slot independently. -/

/-- What belongs to one slot. -/
structure Region (T : Type) where
  slot : SubSlot
  cell : Cell T
  ring : Fifo (MailRecord T)

def Segment.region (h : Segment T) (i : Nat) : Region T :=
  ⟨h.subSlots i, h.latest i, h.ring i⟩

/-- What a publish does to one slot. -/
def Region.receive (r : MailRecord T) (x : Region T) : Region T :=
  if x.slot.state = .active then
    if x.slot.historyKind = 0 then
      let base := match x.slot.lastConsumedOrdinal with
        | none => r.ordinal - 1
        | some last => last
      { x with slot := { x.slot with lastConsumedOrdinal := some base }, cell := .full r }
    else
      match x.ring.tryPush r with
      | some q => { x with ring := q }
      | none => { x with slot := { x.slot with dropCount := x.slot.dropCount + 1 } }
  else x

@[simp] theorem region_slot (h : Segment T) (i : Nat) : (h.region i).slot = h.subSlots i := rfl
@[simp] theorem region_cell (h : Segment T) (i : Nat) : (h.region i).cell = h.latest i := rfl
@[simp] theorem region_ring (h : Segment T) (i : Nat) : (h.region i).ring = h.ring i := rfl

theorem region_setSlot (h : Segment T) (i : Nat) (s : SubSlot) (j : Nat) :
    (h.setSlot i s).region j = if j = i then { h.region i with slot := s } else h.region j := by
  by_cases hj : j = i
  · subst hj
    simp [Segment.region, Segment.setSlot]
  · simp [Segment.region, Segment.setSlot, hj]

theorem region_setLatest (h : Segment T) (i : Nat) (c : Cell T) (j : Nat) :
    (h.setLatest i c).region j = if j = i then { h.region i with cell := c } else h.region j := by
  by_cases hj : j = i
  · subst hj
    simp [Segment.region, Segment.setLatest]
  · simp [Segment.region, Segment.setLatest, hj]

theorem region_setRing (h : Segment T) (i : Nat) (q : Fifo (MailRecord T)) (j : Nat) :
    (h.setRing i q).region j = if j = i then { h.region i with ring := q } else h.region j := by
  by_cases hj : j = i
  · subst hj
    simp [Segment.region, Segment.setRing]
  · simp [Segment.region, Segment.setRing, hj]

/-- The words of the header that no slot owns. -/
def Segment.header (h : Segment T) : Nat × Nat × Nat × Nat × Nat × Cell T :=
  (h.acceptedOrdinal, h.pubPid, h.pubEpoch, h.pubPublishCount, h.pubBytes, h.master)

theorem visit_spec (r : MailRecord T) (h : Segment T) (i : Nat) :
    (∀ j, (h.visit r i).region j = if j = i then (h.region i).receive r else h.region j) ∧
      (h.visit r i).header = h.header := by
  by_cases hs : (h.subSlots i).state = .active
  · by_cases hk : (h.subSlots i).historyKind = 0
    · simp only [Segment.visit, Region.receive, region_slot, hs, hk, if_true]
      refine ⟨fun j => ?_, rfl⟩
      rw [region_setLatest, region_setSlot, region_setSlot]
      by_cases hj : j = i
      · rw [if_pos hj, if_pos rfl, if_pos hj]
      · rw [if_neg hj, if_neg hj, if_neg hj]
    · cases hp : (h.ring i).tryPush r with
      | some q =>
          simp only [Segment.visit, Region.receive, region_slot, region_ring, hs, hk, hp, if_true,
            if_false]
          exact ⟨region_setRing h i q, rfl⟩
      | none =>
          simp only [Segment.visit, Region.receive, region_slot, region_ring, hs, hk, hp, if_true,
            if_false]
          exact ⟨region_setSlot h i _, rfl⟩
  · simp only [Segment.visit, Region.receive, region_slot, hs, if_false]
    refine ⟨fun j => ?_, trivial⟩
    by_cases hj : j = i
    · rw [if_pos hj, hj]
    · rw [if_neg hj]

/-- A publish delivers to each of the sixteen slots by itself. -/
theorem segment_fanOut_spec (h : Segment T) (r : MailRecord T) :
    (∀ j, (h.fanOut r).region j =
      if j < kShmMaxSubscribers then (h.region j).receive r else h.region j) ∧
      (h.fanOut r).header = h.header := by
  refine foldl_range_invariant (f := Segment.visit r) (s := h)
    (P := fun n g => (∀ j, g.region j = if j < n then (h.region j).receive r else h.region j) ∧
      g.header = h.header)
    ⟨fun j => by simp, rfl⟩ kShmMaxSubscribers ?_
  rintro n g - ⟨hregion, hheader⟩
  obtain ⟨hvisit, hvh⟩ := visit_spec r g n
  refine ⟨fun j => ?_, hvh.trans hheader⟩
  rw [hvisit j]
  by_cases hj : j = n
  · subst hj
    rw [if_pos rfl, if_pos (Nat.lt_succ_self j), hregion j, if_neg (Nat.lt_irrefl j)]
  · rw [if_neg hj, hregion j]
    by_cases hlt : j < n
    · rw [if_pos hlt, if_pos (by omega)]
    · rw [if_neg hlt, if_neg (by omega)]

theorem publish_spec (size : Nat) (h : Segment T) (m : Message T) :
    (∀ j, (h.publish size m).region j = if j < kShmMaxSubscribers then
        (h.region j).receive (m.record (h.acceptedOrdinal + 1)) else h.region j) ∧
      (h.publish size m).acceptedOrdinal = h.acceptedOrdinal + 1 ∧
      (h.publish size m).pubPid = h.pubPid ∧
      (h.publish size m).master = .full (m.record (h.acceptedOrdinal + 1)) := by
  let r := m.record (h.acceptedOrdinal + 1)
  let g : Segment T := { h with acceptedOrdinal := h.acceptedOrdinal + 1, master := .full r }
  have hp : h.publish size m = (g.fanOut r).countPublish size := rfl
  obtain ⟨hregion, hheader⟩ := segment_fanOut_spec g r
  rw [hp]
  generalize g.fanOut r = g' at hregion hheader
  simp only [Segment.header, Prod.mk.injEq] at hheader
  exact ⟨hregion, hheader.1, hheader.2.1, hheader.2.2.2.2.2⟩

end Xmmsg.Shm
