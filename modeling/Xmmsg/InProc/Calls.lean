import Xmmsg.Calls
import Xmmsg.InProc.Steps
import Xmmsg.Sys.Script

/-!
# Whole calls on one in-process topic

The verbs of `in_process.hpp` as functions, for a program that makes one call at a
time: `AddPublisher`, `AddSubscriber` and their inverses, `Deliver` with its fan-out
loop, and the two take verbs. The state is the one of `Steps.lean`, with every
endpoint at rest.

`Tabled` is what the fan-out table looks like between calls: every wired subscriber
has exactly one slot, as long as there are slots for all. With it the loop of
`Deliver` has a simple meaning, `fanOut_spec`: every wired subscriber receives the
record once and nobody else receives anything.
-/

namespace Xmmsg.InProc

open Xmmsg.Sys

variable {T : Type}

/-! ## One mailbox -/

namespace SubCore

/-- One visit of the fan-out: a first delivery stamps the baseline, a full ring
drops. -/
def receive (c : SubCore T) (r : MailRecord T) : SubCore T :=
  match c.box with
  | .latest _ =>
      let base := match c.lastConsumedOrdinal with
        | none => r.ordinal - 1
        | some last => last
      { c with lastConsumedOrdinal := some base, box := .latest (some r) }
  | .queue q =>
      match q.tryPush r with
      | some q' => { c with box := .queue q' }
      | none => { c with dropCount := c.dropCount + 1 }

/-- The ordinal-gap accounting of `TakeLatest`. -/
def charge (c : SubCore T) (r : MailRecord T) : SubCore T :=
  match c.lastConsumedOrdinal with
  | none => c
  | some last =>
      if last < r.ordinal then
        { c with
          overwriteCount := c.overwriteCount + (r.ordinal - last - 1)
          lastConsumedOrdinal := some r.ordinal }
      else c

/-- The deadline-miss latch. -/
def latch (c : SubCore T) (stale : Bool) : SubCore T :=
  { c with
    staleLatched := stale
    deadlineMissCount :=
      if stale && !c.staleLatched then c.deadlineMissCount + 1 else c.deadlineMissCount }

/-- `TakeLatest`; on a queue subscriber it finds no mailbox. -/
def takeLatest (c : SubCore T) (now : Int) : Option (MailRecord T × Bool) × SubCore T :=
  match c.box with
  | .latest (some r) =>
      let stale := isStale c.deadline now r.envelope.publishStampNs
      (some (r, stale),
        (({ c with takeCount := c.takeCount + 1 } : SubCore T).charge r).latch stale)
  | _ => (none, c)

/-- `TryTake`; on a latest-only subscriber it finds no ring. -/
def tryTake (c : SubCore T) (now : Int) : Option (MailRecord T × Bool) × SubCore T :=
  match c.box with
  | .queue q =>
      match q.tryPop with
      | some (r, q') =>
          let stale := isStale c.deadline now r.envelope.publishStampNs
          (some (r, stale),
            ({ c with box := .queue q', takeCount := c.takeCount + 1 } : SubCore T).latch stale)
      | none => (none, c)
  | .latest _ => (none, c)

def counter (c : SubCore T) : Counter → Nat
  | .take => c.takeCount
  | .drop => c.dropCount
  | .overwrite => c.overwriteCount
  | .deadlineMiss => c.deadlineMissCount

end SubCore

/-! ## The topic -/

namespace Topic

def addPublisher (h : Topic T) (qos : Qos) : AdvertiseStatus × Topic T :=
  if h.publisherCount > 0 ∧ (h.declaredOwnership = .exclusive ∨ qos.ownership = .exclusive) then
    (.ownershipRefused, h)
  else
    (.ok, { h with declaredOwnership := qos.ownership, publisherCount := h.publisherCount + 1 })

def removePublisher (h : Topic T) : Topic T :=
  { h with publisherCount := h.publisherCount - 1 }

/-- The first slot of the table that holds `s`. -/
def findSlot (h : Topic T) (s : Option Nat) : Option Nat :=
  (List.range kMaxSubscribers).find? fun i => decide (h.subSlots i = s)

/-- A new core, its mailbox seeded from the master slot. -/
def seededCore (h : Topic T) (qos : Qos) : SubCore T :=
  match h.master with
  | some r => (SubCore.new qos).store r
  | none => SubCore.new qos

/-- The core of subscriber `k` is made and attached to the first free slot; a full
table leaves it unconnected. -/
def addSubscriber (h : Topic T) (k : Nat) (qos : Qos) : Topic T :=
  let h := h.setCore k (h.seededCore qos)
  match h.findSlot none with
  | some i => { h.setSlot i (some k) with subscriberCount := h.subscriberCount + 1 }
  | none => h

def removeSubscriber (h : Topic T) (k : Nat) : Topic T :=
  match h.findSlot (some k) with
  | some i => { h.setSlot i none with subscriberCount := h.subscriberCount - 1 }
  | none => h

/-- The reliable pre-check. -/
def wouldBlock (h : Topic T) : Bool :=
  (List.range kMaxSubscribers).any fun i =>
    match h.subSlots i with
    | some k => (h.cores k).full
    | none => false

/-- The body of the fan-out loop. -/
def visit (r : MailRecord T) (h : Topic T) (i : Nat) : Topic T :=
  match h.subSlots i with
  | none => h
  | some k => h.setCore k ((h.cores k).receive r)

def fanOut (h : Topic T) (r : MailRecord T) : Topic T :=
  (List.range kMaxSubscribers).foldl (visit r) h

/-- What an accepted publish does to the topic. -/
def deliver (h : Topic T) (m : Message T) : Topic T :=
  let r := m.record (h.acceptedOrdinal + 1)
  { h with acceptedOrdinal := h.acceptedOrdinal + 1, master := some r }.fanOut r

end Topic

/-! ## The calls -/

namespace World

variable [Inhabited T]

/-- `Publish` on handle `p`; on a refused handle it does nothing. -/
def publish (size : Nat) (w : World T) (p : Nat) (m : Message T) :
    Option (Answer T × World T) :=
  let ep := w.pubs p
  match ep.pc with
  | .idle =>
      if ep.qos.reliability = .reliable ∧ w.topic.wouldBlock = true then
        some (.published .wouldBlock,
          w.putPub p w.topic { ep with refusedCount := ep.refusedCount + 1 })
      else
        some (.published .ok, w.putPub p (w.topic.deliver m)
          { ep with publishCount := ep.publishCount + 1, bytes := ep.bytes + size })
  | .refused => some (.published .ok, w)
  | _ => none

/-- A take verb on the core of subscriber `k`. -/
def take (w : World T) (k : Nat)
    (verb : SubCore T → Option (MailRecord T × Bool) × SubCore T) : Option (Answer T × World T) :=
  match (w.subs k).pc with
  | .wired .idle =>
      let (r, c) := verb (w.topic.cores k)
      some (.sample (sampleOf r), w.putSub k (w.topic.setCore k c) (w.subs k))
  | _ => none

def call (size : Nat) (w : World T) : Op T → Option (Answer T × World T)
  | .advertise p =>
      match (w.pubs p).pc with
      | .unadvertised =>
          match w.topic.addPublisher (w.pubs p).qos with
          | (.ok, h) => some (.advertised .ok, w.putPub p h ((w.pubs p).at' .idle))
          | (st, h) => some (.advertised st, w.putPub p h ((w.pubs p).at' .refused))
      | _ => none
  | .publish p value context now =>
      w.publish size p { value := value, context := context, now := now }
  | .publishDerived p value upstream context now =>
      w.publish size p
        { value := value, derived := derivedInfo upstream, context := context, now := now }
  | .publishCount p =>
      match (w.pubs p).pc with
      | .idle => some (.number (w.pubs p).publishCount, w)
      | .refused => some (.number 0, w)
      | _ => none
  | .publisherMatched p =>
      match (w.pubs p).pc with
      | .idle => some (.number w.topic.subscriberCount, w)
      | .refused => some (.number 0, w)
      | _ => none
  | .destroyPublisher p =>
      match (w.pubs p).pc with
      | .idle => some (.done, w.putPub p w.topic.removePublisher ((w.pubs p).at' .gone))
      | .refused => some (.done, w.putPub p w.topic ((w.pubs p).at' .gone))
      | _ => none
  | .subscribe k =>
      match (w.subs k).pc with
      | .unwired =>
          some (.subscribed .ok, w.putSub k (w.topic.addSubscriber k (w.subs k).qos)
            ((w.subs k).at' (.wired .idle)))
      | _ => none
  | .takeLatest k now => w.take k (·.takeLatest now)
  | .tryTake k now => w.take k (·.tryTake now)
  | .count k c =>
      match (w.subs k).pc with
      | .wired .idle => some (.number ((w.topic.cores k).counter c), w)
      | _ => none
  | .subscriberMatched k =>
      match (w.subs k).pc with
      | .wired .idle => some (.number w.topic.publisherCount, w)
      | _ => none
  | .destroySubscriber k =>
      match (w.subs k).pc with
      | .wired .idle =>
          some (.done, w.putSub k (w.topic.removeSubscriber k) ((w.subs k).at' .gone))
      | _ => none

end World

/-! ## The table between calls -/

/-- Every subscriber of `live` has one slot, and every slot in use is theirs. -/
structure Tabled (live : List Nat) (h : Topic T) : Prop where
  nodup : live.Nodup
  mem : ∀ k, k ∈ live ↔ ∃ i, i < kMaxSubscribers ∧ h.subSlots i = some k
  once : ∀ i j k, i < kMaxSubscribers → j < kMaxSubscribers →
    h.subSlots i = some k → h.subSlots j = some k → i = j
  count : (List.range kMaxSubscribers).countP (fun i => (h.subSlots i).isSome) = live.length
  subscriberCount : h.subscriberCount = live.length

theorem Tabled.congr {live : List Nat} {h h' : Topic T} (ht : Tabled live h)
    (hs : h'.subSlots = h.subSlots) (hc : h'.subscriberCount = h.subscriberCount) :
    Tabled live h' := by
  refine ⟨ht.nodup, ?_, ?_, ?_, ?_⟩
  · rw [hs]
    exact ht.mem
  · rw [hs]
    exact ht.once
  · rw [hs]
    exact ht.count
  · rw [hc]
    exact ht.subscriberCount

theorem findSlot_some {h : Topic T} {s : Option Nat} {i : Nat} (hf : h.findSlot s = some i) :
    i < kMaxSubscribers ∧ h.subSlots i = s := by
  have hmem := List.mem_of_find?_eq_some hf
  have hp := List.find?_some hf
  exact ⟨List.mem_range.mp hmem, of_decide_eq_true hp⟩

theorem findSlot_none {h : Topic T} {s : Option Nat} (hf : h.findSlot s = none) {i : Nat}
    (hi : i < kMaxSubscribers) : h.subSlots i ≠ s := by
  intro hs
  have := List.find?_eq_none.mp hf i (List.mem_range.mpr hi)
  exact this (decide_eq_true hs)

theorem tabled_empty : Tabled [] ({} : Topic T) := by
  refine ⟨List.nodup_nil, fun k => ⟨fun h => (nomatch h), ?_⟩, ?_, ?_, rfl⟩
  · rintro ⟨i, -, hi⟩
    cases hi
  · intro i j k _ _ hi
    cases hi
  · simp

/-- A join takes a free slot and touches no other core. -/
theorem addSubscriber_spec {live : List Nat} {h : Topic T} {k : Nat} (ht : Tabled live h)
    (hk : k ∉ live) (hroom : live.length < kMaxSubscribers) (qos : Qos) :
    Tabled (k :: live) (h.addSubscriber k qos) ∧
      ∃ i, h.addSubscriber k qos = { h with
        subSlots := Function.update h.subSlots i (some k)
        cores := Function.update h.cores k (h.seededCore qos)
        subscriberCount := h.subscriberCount + 1 } := by
  cases hf : (h.setCore k (h.seededCore qos)).findSlot none with
  | none =>
      rw [← ht.count] at hroom
      obtain ⟨i, hi, hsome⟩ := exists_of_countP_range_lt hroom
      have hfree : h.subSlots i = none := by simpa using hsome
      exact absurd hfree (findSlot_none hf hi)
  | some i =>
      obtain ⟨hi, hfree⟩ := findSlot_some hf
      have hfree' : h.subSlots i = none := hfree
      have heq : h.addSubscriber k qos = { h with
          subSlots := Function.update h.subSlots i (some k)
          cores := Function.update h.cores k (h.seededCore qos)
          subscriberCount := h.subscriberCount + 1 } := by
        simp only [Topic.addSubscriber, hf]
        rfl
      refine ⟨?_, i, heq⟩
      rw [heq]
      refine ⟨List.nodup_cons.mpr ⟨hk, ht.nodup⟩, fun k' => ?_, ?_, ?_, ?_⟩
      · rw [List.mem_cons, ht.mem k']
        constructor
        · rintro (rfl | ⟨j, hj, hjk⟩)
          · exact ⟨i, hi, by simp⟩
          · refine ⟨j, hj, ?_⟩
            have hji : j ≠ i := by
              rintro rfl
              rw [hfree'] at hjk
              cases hjk
            simpa [hji] using hjk
        · rintro ⟨j, hj, hjk⟩
          by_cases hji : j = i
          · subst hji
            simp at hjk
            exact .inl hjk.symm
          · exact .inr ⟨j, hj, by simpa [hji] using hjk⟩
      · -- the newcomer had no slot before
        have hnone : ∀ j, j < kMaxSubscribers → h.subSlots j ≠ some k :=
          fun j hj hjk => hk ((ht.mem k).mpr ⟨j, hj, hjk⟩)
        intro a b c ha hb hac hbc
        by_cases hai : a = i <;> by_cases hbi : b = i
        · exact hai.trans hbi.symm
        · subst hai
          simp [hbi] at hac hbc
          exact absurd (hac ▸ hbc) (hnone b hb)
        · subst hbi
          simp [hai] at hac hbc
          exact absurd (hbc ▸ hac) (hnone a ha)
        · simp [hai] at hac
          simp [hbi] at hbc
          exact ht.once a b c ha hb hac hbc
      · rw [List.length_cons, ← ht.count]
        refine countP_range_insert hi ?_ ?_ fun j hj => ?_
        · simp [hfree']
        · simp
        · simp [hj]
      · simp [ht.subscriberCount]

/-- A leave frees the slot. -/
theorem removeSubscriber_spec {live : List Nat} {h : Topic T} {k : Nat} (ht : Tabled live h)
    (hk : k ∈ live) :
    Tabled (live.erase k) (h.removeSubscriber k) ∧
      ∃ i, h.removeSubscriber k = { h with
        subSlots := Function.update h.subSlots i none
        subscriberCount := h.subscriberCount - 1 } := by
  have hlen : (live.erase k).length = live.length - 1 := List.length_erase_of_mem hk
  cases hf : h.findSlot (some k) with
  | none =>
      obtain ⟨i, hi, hik⟩ := (ht.mem k).mp hk
      exact absurd hik (findSlot_none hf hi)
  | some i =>
      obtain ⟨hi, hik⟩ := findSlot_some hf
      have heq : h.removeSubscriber k = { h with
          subSlots := Function.update h.subSlots i none
          subscriberCount := h.subscriberCount - 1 } := by
        simp only [Topic.removeSubscriber, hf]
        rfl
      refine ⟨?_, i, heq⟩
      rw [heq]
      refine ⟨ht.nodup.erase k, fun k' => ?_, ?_, ?_, ?_⟩
      · rw [ht.nodup.mem_erase_iff, ht.mem k']
        constructor
        · rintro ⟨hne, j, hj, hjk⟩
          have hji : j ≠ i := by
            rintro rfl
            rw [hik] at hjk
            cases hjk
            exact hne rfl
          exact ⟨j, hj, by simpa [hji] using hjk⟩
        · rintro ⟨j, hj, hjk⟩
          by_cases hji : j = i
          · subst hji
            simp at hjk
          · simp [hji] at hjk
            refine ⟨?_, j, hj, hjk⟩
            rintro rfl
            exact hji (ht.once j i k' hj hi hjk hik)
      · intro a b c ha hb hac hbc
        by_cases hai : a = i
        · subst hai
          simp at hac
        · by_cases hbi : b = i
          · subst hbi
            simp at hbc
          · simp [hai] at hac
            simp [hbi] at hbc
            exact ht.once a b c ha hb hac hbc
      · have hcount := countP_range_insert (n := kMaxSubscribers)
          (p := fun j => (Function.update h.subSlots i none j).isSome)
          (q := fun j => (h.subSlots j).isSome) hi (by simp) (by simp [hik])
          fun j hj => by simp [hj]
        rw [ht.count] at hcount
        show (List.range kMaxSubscribers).countP
          (fun j => (Function.update h.subSlots i none j).isSome) = _
        omega
      · show h.subscriberCount - 1 = _
        rw [ht.subscriberCount, hlen]

/-- The record reaches every wired subscriber once. -/
theorem fanOut_spec {live : List Nat} {h : Topic T} (ht : Tabled live h) (r : MailRecord T) :
    (∀ k, (h.fanOut r).cores k = if k ∈ live then (h.cores k).receive r else h.cores k) ∧
      h.fanOut r = { h with cores := (h.fanOut r).cores } := by
  -- a core has received the record once the loop is past its slot
  have hloop := foldl_range_invariant (f := Topic.visit r) (s := h)
    (P := fun n g => (∀ k, g.cores k =
      if ∃ i, i < n ∧ h.subSlots i = some k then (h.cores k).receive r else h.cores k) ∧
      g = { h with cores := g.cores })
    ⟨fun k => by simp, rfl⟩ kMaxSubscribers ?_
  · refine ⟨fun k => ?_, hloop.2⟩
    rw [Topic.fanOut, hloop.1 k]
    simp only [← ht.mem k]
  · rintro n g hn ⟨hcores, hg⟩
    have hslots : g.subSlots = h.subSlots := by rw [hg]
    have hstep : ∀ k, (∃ i, i < n + 1 ∧ h.subSlots i = some k) ↔
        h.subSlots n = some k ∨ ∃ i, i < n ∧ h.subSlots i = some k := by
      intro k
      constructor
      · rintro ⟨i, hi, hik⟩
        rcases Nat.lt_succ_iff_lt_or_eq.mp hi with hlt | rfl
        · exact .inr ⟨i, hlt, hik⟩
        · exact .inl hik
      · rintro (hk | ⟨i, hi, hik⟩)
        · exact ⟨n, by omega, hk⟩
        · exact ⟨i, by omega, hik⟩
    cases hsn : h.subSlots n with
    | none =>
        have hv : g.visit r n = g := by rw [Topic.visit, hslots, hsn]
        rw [hv]
        refine ⟨fun k => ?_, hg⟩
        rw [hcores k]
        simp only [hstep, hsn, reduceCtorEq, false_or]
    | some c =>
        have hv : g.visit r n = g.setCore c ((g.cores c).receive r) := by
          rw [Topic.visit, hslots, hsn]
        have hc0 : ¬ ∃ i, i < n ∧ h.subSlots i = some c := by
          rintro ⟨i, hi, hic⟩
          have := ht.once i n c (by omega) hn hic hsn
          omega
        rw [hv]
        refine ⟨fun k => ?_, ?_⟩
        · by_cases hk : k = c
          · subst hk
            have hyes : ∃ i, i < n + 1 ∧ h.subSlots i = some k := ⟨n, by omega, hsn⟩
            rw [if_pos hyes]
            simp [Topic.setCore, hcores k, hc0]
          · have hne : ¬ h.subSlots n = some k := by
              rw [hsn]
              simpa using Ne.symm hk
            simp only [Topic.setCore, Function.update_of_ne hk, hcores k, hstep, hne, false_or]
        · rw [Topic.setCore]
          rw [hg]

theorem deliver_eq {live : List Nat} {h : Topic T} (ht : Tabled live h) (m : Message T) :
    h.deliver m = { h with
      acceptedOrdinal := h.acceptedOrdinal + 1
      master := some (m.record (h.acceptedOrdinal + 1))
      cores := fun k => if k ∈ live then (h.cores k).receive (m.record (h.acceptedOrdinal + 1))
        else h.cores k } := by
  let g : Topic T := { h with
    acceptedOrdinal := h.acceptedOrdinal + 1
    master := some (m.record (h.acceptedOrdinal + 1)) }
  have hg : Tabled live g := ht.congr rfl rfl
  obtain ⟨hcores, hrest⟩ := fanOut_spec hg (m.record (h.acceptedOrdinal + 1))
  have hd : h.deliver m = g.fanOut (m.record (h.acceptedOrdinal + 1)) := rfl
  rw [hd, hrest, funext hcores]

end Xmmsg.InProc
