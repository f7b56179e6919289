import Xmmsg.InProc.Calls
import Xmmsg.Shm.Calls

/-!
# One subscriber on two reaches

In-process a subscriber is a fresh `SubCore`; on the shm reach it is a recycled slot
of the segment, two regions of the mapping, and a few members of the endpoint.
`Mirror` says the two hold the same things. It is kept by the delivery of a record
and by both take verbs, and the takes hand back the same.

The take verbs account in a different order, overwrites before the deadline latch
in-process and after it on shm. Neither reads what the other writes.
-/

namespace Xmmsg.Reach

open Xmmsg.Sys

variable {T : Type}

/-- The cell that loads as the register does. -/
def cellOf : Option (MailRecord T) → Shm.Cell T
  | none => .empty
  | some r => .full r

/-- The mailbox or ring. An unread cache is behind no mailbox: a cell that was once
written stays written. -/
def Holds (ep : Shm.SubEp T) (x : Shm.Region T) : InProc.Mailbox T → Prop
  | .latest v => ep.history.isLatest = true ∧ x.slot.historyKind = 0 ∧ x.cell = cellOf v ∧
      (v = none → ep.cached = none)
  | .queue q => ep.history.isLatest = false ∧ x.slot.historyKind = 1 ∧ x.ring = q

structure Mirror (c : InProc.SubCore T) (ep : Shm.SubEp T) (x : Shm.Region T) : Prop where
  deadline : ep.deadline = c.deadline
  latched : ep.staleLatched = c.staleLatched
  takeCount : x.slot.takeCount = c.takeCount
  dropCount : x.slot.dropCount = c.dropCount
  overwriteCount : x.slot.overwriteCount = c.overwriteCount
  missCount : x.slot.deadlineMissCount = c.deadlineMissCount
  base : x.slot.lastConsumedOrdinal = c.lastConsumedOrdinal
  box : Holds ep x c.box

theorem Mirror.counter {c : InProc.SubCore T} {ep : Shm.SubEp T} {x : Shm.Region T}
    (hm : Mirror c ep x) (n : Counter) : x.slot.counter n = c.counter n := by
  cases n with
  | take => exact hm.takeCount
  | drop => exact hm.dropCount
  | overwrite => exact hm.overwriteCount
  | deadlineMiss => exact hm.missCount

/-- A publish delivers the same to both. -/
theorem mirror_receive {c : InProc.SubCore T} {ep : Shm.SubEp T} {x : Shm.Region T}
    (hm : Mirror c ep x) (hs : x.slot.state = .active) (r : MailRecord T) :
    Mirror (c.receive r) ep (x.receive r) := by
  have hbox := hm.box
  cases hb : c.box with
  | latest v =>
      rw [hb] at hbox
      obtain ⟨hlat, hkind, hcell, hcache⟩ := hbox
      simp only [InProc.SubCore.receive, hb, Shm.Region.receive, hs, hkind, if_true, hm.base]
      exact ⟨hm.deadline, hm.latched, hm.takeCount, hm.dropCount, hm.overwriteCount, hm.missCount,
        rfl, hlat, rfl, rfl, fun h0 => (nomatch h0)⟩
  | queue q =>
      rw [hb] at hbox
      obtain ⟨hlat, hkind, hring⟩ := hbox
      have hk0 : ¬ x.slot.historyKind = 0 := by
        rw [hkind]
        exact Nat.one_ne_zero
      cases hp : q.tryPush r with
      | some q' =>
          simp only [InProc.SubCore.receive, hb, Shm.Region.receive, hs, hk0, hring, hp, if_true,
            if_false]
          exact ⟨hm.deadline, hm.latched, hm.takeCount, hm.dropCount, hm.overwriteCount,
            hm.missCount, hm.base, hlat, hkind, rfl⟩
      | none =>
          simp only [InProc.SubCore.receive, hb, Shm.Region.receive, hs, hk0, hring, hp, if_true,
            if_false]
          refine ⟨hm.deadline, hm.latched, hm.takeCount, ?_, hm.overwriteCount,
            hm.missCount, hm.base, ?_⟩
          · show x.slot.dropCount + 1 = c.dropCount + 1
            rw [hm.dropCount]
          · exact ⟨hlat, hkind, rfl⟩

/-! ## Takes

A take of the subscriber at slot `i` leaves the header and every other slot alone,
and its own slot's protocol words. -/

structure OnlySlot (i : Nat) (h h' : Shm.Segment T) : Prop where
  header : h'.header = h.header
  others : ∀ j, j ≠ i → h'.region j = h.region j
  word : h'.word i = h.word i

theorem OnlySlot.refl (i : Nat) (h : Shm.Segment T) : OnlySlot i h h :=
  ⟨rfl, fun _ _ => rfl, rfl⟩

theorem OnlySlot.trans {i : Nat} {h h' h'' : Shm.Segment T} (h₁ : OnlySlot i h h')
    (h₂ : OnlySlot i h' h'') : OnlySlot i h h'' :=
  ⟨h₂.header.trans h₁.header, fun j hj => (h₂.others j hj).trans (h₁.others j hj),
    h₂.word.trans h₁.word⟩

theorem onlySlot_setSlot {i : Nat} {h : Shm.Segment T} {s : Shm.SubSlot}
    (hs : (s.state, s.pid) = h.word i) : OnlySlot i h (h.setSlot i s) := by
  refine ⟨rfl, fun j hj => ?_, ?_⟩
  · rw [Shm.region_setSlot, if_neg hj]
  · rw [Shm.Segment.word_setSlot, if_pos rfl]
    exact hs

theorem onlySlot_setRing (i : Nat) (h : Shm.Segment T) (q : Fifo (MailRecord T)) :
    OnlySlot i h (h.setRing i q) := by
  refine ⟨rfl, fun j hj => ?_, rfl⟩
  rw [Shm.region_setRing, if_neg hj]

/-- The parts of an endpoint that a take leaves alone. -/
structure SameWiring (ep ep' : Shm.SubEp T) : Prop where
  pid : ep'.pid = ep.pid
  history : ep'.history = ep.history
  deadline : ep'.deadline = ep.deadline
  pc : ep'.pc = ep.pc

section Take

variable {c : InProc.SubCore T} {ep : Shm.SubEp T} {h : Shm.Segment T} {i : Nat}

/-- `FillSample` counts the take and judges the deadline as in-process. -/
theorem mirror_fill (hm : Mirror c ep (h.region i)) (now : Int) (r : MailRecord T) :
    ∃ h' ep',
      h.fillSample ep i now r = (isStale c.deadline now r.envelope.publishStampNs, h', ep') ∧
      Mirror (({ c with takeCount := c.takeCount + 1 } : InProc.SubCore T).latch
        (isStale c.deadline now r.envelope.publishStampNs)) ep' (h'.region i) ∧
      OnlySlot i h h' ∧ SameWiring ep ep' ∧ ep'.cached = ep.cached := by
  have hst : isStale ep.deadline now r.envelope.publishStampNs =
      isStale c.deadline now r.envelope.publishStampNs := by rw [hm.deadline]
  generalize isStale c.deadline now r.envelope.publishStampNs = stale at hst
  let misses := if stale && !ep.staleLatched then (h.subSlots i).deadlineMissCount + 1
    else (h.subSlots i).deadlineMissCount
  refine ⟨h.setSlot i { h.subSlots i with
      takeCount := (h.subSlots i).takeCount + 1, deadlineMissCount := misses },
    { ep with staleLatched := stale }, ?_, ?_, onlySlot_setSlot rfl, ⟨rfl, rfl, rfl, rfl⟩, rfl⟩
  · simp only [Shm.Segment.fillSample, hst, misses]
  rw [Shm.region_setSlot, if_pos rfl]
  refine ⟨hm.deadline, rfl, ?_, hm.dropCount, hm.overwriteCount, ?_, hm.base, ?_⟩
  · show (h.subSlots i).takeCount + 1 = c.takeCount + 1
    have := hm.takeCount
    simp only [Shm.region_slot] at this
    rw [this]
  · have hmiss := hm.missCount
    simp only [Shm.region_slot] at hmiss
    simp only [InProc.SubCore.latch, misses, hm.latched, hmiss]
  · exact hm.box

/-- The gap accounting of both, before or after the latch. -/
theorem mirror_charge {stale : Bool} (hm : Mirror (c.latch stale) ep (h.region i))
    (r : MailRecord T) :
    Mirror ((c.charge r).latch stale) ep ((h.charge i r).region i) ∧
      OnlySlot i h (h.charge i r) := by
  have hbase : (h.subSlots i).lastConsumedOrdinal = c.lastConsumedOrdinal := hm.base
  cases hl : c.lastConsumedOrdinal with
  | none =>
      rw [hl] at hbase
      have hc : c.charge r = c := by simp only [InProc.SubCore.charge, hl]
      have hh : h.charge i r = h := by simp only [Shm.Segment.charge, hbase]
      rw [hc, hh]
      exact ⟨hm, OnlySlot.refl i h⟩
  | some last =>
      rw [hl] at hbase
      by_cases hlt : last < r.ordinal
      · have hh : h.charge i r = h.setSlot i { h.subSlots i with
            overwriteCount := (h.subSlots i).overwriteCount + (r.ordinal - last - 1)
            lastConsumedOrdinal := some r.ordinal } := by
          simp only [Shm.Segment.charge, hbase, hlt, if_true]
        have hc : c.charge r = { c with
            overwriteCount := c.overwriteCount + (r.ordinal - last - 1)
            lastConsumedOrdinal := some r.ordinal } := by
          simp only [InProc.SubCore.charge, hl, hlt, if_true]
        have hover : (h.subSlots i).overwriteCount = c.overwriteCount := hm.overwriteCount
        rw [hc, hh]
        refine ⟨?_, onlySlot_setSlot rfl⟩
        rw [Shm.region_setSlot, if_pos rfl]
        refine ⟨hm.deadline, hm.latched, hm.takeCount, hm.dropCount, ?_, hm.missCount, rfl, hm.box⟩
        show (h.subSlots i).overwriteCount + (r.ordinal - last - 1) = _
        rw [hover]
        rfl
      · have hc : c.charge r = c := by simp only [InProc.SubCore.charge, hl, hlt, if_false]
        have hh : h.charge i r = h := by
          simp only [Shm.Segment.charge, hbase, hlt, if_false]
        rw [hc, hh]
        exact ⟨hm, OnlySlot.refl i h⟩

/-- `TakeLatest` and `TakeLatestSample`. -/
theorem mirror_takeLatest (hm : Mirror c ep (h.region i)) (now : Int) :
    ∃ h' ep', h.takeLatestSample ep i now = ((c.takeLatest now).1, h', ep') ∧
      Mirror (c.takeLatest now).2 ep' (h'.region i) ∧ OnlySlot i h h' ∧ SameWiring ep ep' := by
  have hbox := hm.box
  cases hb : c.box with
  | queue q =>
      rw [hb] at hbox
      refine ⟨h, ep, ?_, ?_, OnlySlot.refl i h, ⟨rfl, rfl, rfl, rfl⟩⟩
      · simp [Shm.Segment.takeLatestSample, InProc.SubCore.takeLatest, hb, hbox.1]
      · simpa only [InProc.SubCore.takeLatest, hb] using hm
  | latest v =>
      rw [hb] at hbox
      obtain ⟨hlat, hkind, hcell, hcache⟩ := hbox
      cases v with
      | none =>
          have hcell' : h.latest i = .empty := hcell
          refine ⟨h, ep, ?_, ?_, OnlySlot.refl i h, ⟨rfl, rfl, rfl, rfl⟩⟩
          · simp [Shm.Segment.takeLatestSample, InProc.SubCore.takeLatest, hb, hlat, hcell',
              hcache rfl]
          · simpa only [InProc.SubCore.takeLatest, hb] using hm
      | some r =>
          have hcell' : h.latest i = .full r := hcell
          -- reading the mailbox fills the cache first
          have hread : Mirror c { ep with cached := some r } (h.region i) := by
            refine ⟨hm.deadline, hm.latched, hm.takeCount, hm.dropCount, hm.overwriteCount,
              hm.missCount, hm.base, ?_⟩
            rw [hb]
            exact ⟨hlat, hkind, hcell, fun h0 => (nomatch h0)⟩
          obtain ⟨h', ep', hfill, hm', honly, hsame, hc'⟩ := mirror_fill hread now r
          obtain ⟨hm'', honly'⟩ := mirror_charge hm' r
          refine ⟨h'.charge i r, ep', ?_, ?_, honly.trans honly',
            ⟨hsame.pid, hsame.history, hsame.deadline, hsame.pc⟩⟩
          · simp only [Shm.Segment.takeLatestSample, hlat, if_true, hcell', hfill,
              InProc.SubCore.takeLatest, hb]
          · simpa only [InProc.SubCore.takeLatest, hb] using hm''

/-- `TryTake` and `TryTakeSample`. -/
theorem mirror_tryTake (hm : Mirror c ep (h.region i)) (now : Int) :
    ∃ h' ep', h.tryTakeSample ep i now = ((c.tryTake now).1, h', ep') ∧
      Mirror (c.tryTake now).2 ep' (h'.region i) ∧ OnlySlot i h h' ∧ SameWiring ep ep' := by
  have hbox := hm.box
  cases hb : c.box with
  | latest v =>
      rw [hb] at hbox
      refine ⟨h, ep, ?_, ?_, OnlySlot.refl i h, ⟨rfl, rfl, rfl, rfl⟩⟩
      · simp [Shm.Segment.tryTakeSample, InProc.SubCore.tryTake, hb, hbox.1]
      · simpa only [InProc.SubCore.tryTake, hb] using hm
  | queue q =>
      rw [hb] at hbox
      obtain ⟨hlat, hkind, hring⟩ := hbox
      have hring' : h.ring i = q := hring
      cases hp : q.tryPop with
      | none =>
          refine ⟨h, ep, ?_, ?_, OnlySlot.refl i h, ⟨rfl, rfl, rfl, rfl⟩⟩
          · simp [Shm.Segment.tryTakeSample, InProc.SubCore.tryTake, hb, hlat, hring', hp]
          · simpa only [InProc.SubCore.tryTake, hb, hp] using hm
      | some x =>
          obtain ⟨r, q'⟩ := x
          have hpop : Mirror { c with box := .queue q' } ep ((h.setRing i q').region i) := by
            rw [Shm.region_setRing, if_pos rfl]
            exact ⟨hm.deadline, hm.latched, hm.takeCount, hm.dropCount, hm.overwriteCount,
              hm.missCount, hm.base, hlat, hkind, rfl⟩
          obtain ⟨h', ep', hfill, hm', honly, hsame, -⟩ := mirror_fill hpop now r
          refine ⟨h', ep', ?_, ?_, (onlySlot_setRing i h q').trans honly, hsame⟩
          · simp only [Shm.Segment.tryTakeSample, hlat, Bool.false_eq_true, if_false, hring', hp,
              hfill, InProc.SubCore.tryTake, hb]
          · simpa only [InProc.SubCore.tryTake, hb, hp] using hm'

end Take

end Xmmsg.Reach
