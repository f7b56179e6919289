import Xmmsg.Record
import Xmmsg.Sys.Fifo

/-!
# The shared segment of one POSIX-shm topic

`shm_segment.hpp` and the layout half of `posix_shm.hpp`: the header words that
participants race on, the sixteen subscriber slots, and the data plane, one
master cell plus a mailbox cell and a ring per slot.

A mailbox is a seqlock cell of the base library. What the code above it relies
on is three-valued: a cell never written, or repaired after a crash, loads as
empty; a cell holding a complete record loads as that record; a cell whose store
has begun and not ended loads as stalled. `Cell` keeps exactly that, so a store
is two steps here and a writer can die between them. The master cell is modelled
word by word in `Observer.lean`, where the difference matters.

The identity fields of the header, written once before any participant gets a
mapping, and the refusal record are not part of this state: no function modelled
over it reads them.
-/

namespace Xmmsg.Shm

open Xmmsg.Sys

/-- `kShmMaxSubscribers`: the per-topic subscriber bound. -/
def kShmMaxSubscribers : Nat := 16

/-- `kShmRingCapacity`: the per-subscriber ring reservation, in records. -/
def kShmRingCapacity : Nat := 16

/-- `kShmSubFree`, `kShmSubClaimed`, `kShmSubActive`. -/
inductive SlotState where
  | free
  | claimed
  | active
  deriving DecidableEq, Repr

/-- `ShmSubSlot`. The defaults are the zero pages of a fresh segment; `none` in
`lastConsumedOrdinal` is the sentinel `kShmBaselineUnset`, which no ordinal
exceeds. -/
structure SubSlot where
  state : SlotState := .free
  pid : Nat := 0
  historyKind : Nat := 0
  queueDepth : Nat := 0
  lastConsumedOrdinal : Option Nat := some 0
  takeCount : Nat := 0
  dropCount : Nat := 0
  overwriteCount : Nat := 0
  deadlineMissCount : Nat := 0
  deriving DecidableEq, Repr

/-- One seqlock cell, as far as `LoadBounded` can tell. -/
inductive Cell (T : Type) where
  | empty
  | full (r : MailRecord T)
  | torn
  deriving DecidableEq, Repr

/-- `MessageSlot::RepairAfterWriterCrash`: a cell left mid-store becomes empty,
any other cell is left alone. -/
def Cell.repair {T : Type} : Cell T → Cell T
  | .torn => .empty
  | c => c

/-- The mutable words of the segment header and the data plane. -/
structure Segment (T : Type) where
  acceptedOrdinal : Nat := 0
  pubPid : Nat := 0
  pubEpoch : Nat := 0
  pubPublishCount : Nat := 0
  pubBytes : Nat := 0
  subSlots : Nat → SubSlot := fun _ => {}
  master : Cell T := .empty
  latest : Nat → Cell T := fun _ => .empty
  ring : Nat → Fifo (MailRecord T) := fun _ => .empty 0

namespace Segment

variable {T : Type}

/-- Store into one field, or several, of slot `i`. -/
def setSlot (h : Segment T) (i : Nat) (s : SubSlot) : Segment T :=
  { h with subSlots := Function.update h.subSlots i s }

/-- Write slot `i`'s mailbox cell. -/
def setLatest (h : Segment T) (i : Nat) (c : Cell T) : Segment T :=
  { h with latest := Function.update h.latest i c }

/-- Replace slot `i`'s ring. -/
def setRing (h : Segment T) (i : Nat) (q : Fifo (MailRecord T)) : Segment T :=
  { h with ring := Function.update h.ring i q }

/-- The two words the slot protocol turns on. -/
def word (h : Segment T) (i : Nat) : SlotState × Nat :=
  ((h.subSlots i).state, (h.subSlots i).pid)

@[simp] theorem setSlot_subSlots (h : Segment T) (i : Nat) (s : SubSlot) :
    (h.setSlot i s).subSlots = Function.update h.subSlots i s := rfl

@[simp] theorem setSlot_acceptedOrdinal (h : Segment T) (i : Nat) (s : SubSlot) :
    (h.setSlot i s).acceptedOrdinal = h.acceptedOrdinal := rfl

@[simp] theorem setSlot_pubPid (h : Segment T) (i : Nat) (s : SubSlot) :
    (h.setSlot i s).pubPid = h.pubPid := rfl

@[simp] theorem setSlot_master (h : Segment T) (i : Nat) (s : SubSlot) :
    (h.setSlot i s).master = h.master := rfl

@[simp] theorem setSlot_latest (h : Segment T) (i : Nat) (s : SubSlot) :
    (h.setSlot i s).latest = h.latest := rfl

@[simp] theorem setLatest_latest (h : Segment T) (i : Nat) (c : Cell T) :
    (h.setLatest i c).latest = Function.update h.latest i c := rfl

@[simp] theorem setLatest_subSlots (h : Segment T) (i : Nat) (c : Cell T) :
    (h.setLatest i c).subSlots = h.subSlots := rfl

@[simp] theorem setLatest_acceptedOrdinal (h : Segment T) (i : Nat) (c : Cell T) :
    (h.setLatest i c).acceptedOrdinal = h.acceptedOrdinal := rfl

@[simp] theorem setLatest_pubPid (h : Segment T) (i : Nat) (c : Cell T) :
    (h.setLatest i c).pubPid = h.pubPid := rfl

@[simp] theorem setLatest_master (h : Segment T) (i : Nat) (c : Cell T) :
    (h.setLatest i c).master = h.master := rfl

@[simp] theorem setRing_subSlots (h : Segment T) (i : Nat)
    (q : Fifo (MailRecord T)) : (h.setRing i q).subSlots = h.subSlots := rfl

@[simp] theorem setRing_acceptedOrdinal (h : Segment T) (i : Nat)
    (q : Fifo (MailRecord T)) :
    (h.setRing i q).acceptedOrdinal = h.acceptedOrdinal := rfl

@[simp] theorem setRing_pubPid (h : Segment T) (i : Nat)
    (q : Fifo (MailRecord T)) : (h.setRing i q).pubPid = h.pubPid := rfl

@[simp] theorem setRing_master (h : Segment T) (i : Nat)
    (q : Fifo (MailRecord T)) : (h.setRing i q).master = h.master := rfl

@[simp] theorem setRing_latest (h : Segment T) (i : Nat)
    (q : Fifo (MailRecord T)) : (h.setRing i q).latest = h.latest := rfl

theorem word_setSlot (h : Segment T) (i : Nat) (s : SubSlot) (j : Nat) :
    (h.setSlot i s).word j = if j = i then (s.state, s.pid) else h.word j := by
  unfold word
  by_cases hj : j = i
  · subst hj; simp
  · simp [hj]

end Segment

end Xmmsg.Shm
