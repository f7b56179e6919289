import Xmmsg.Shm.Observer
import Xmmsg.Shm.Rendezvous

/-!
# The call that fills the record

`IntrospectReader::Snapshot`, one load or one probe of a process at a time, while those who
write the words go on. It copies the identity fields, then the publisher's words and the
refusal record, then the words of every slot that is not free, and it ends with
`ReadMasterEnvelope`, the retries of which are counted like everything else.

What is loaded comes from three places, each as it is at the time of the access: the object
that `OpenOrCreate` has made, the words its participants share, and the words of the master
cell.
-/

namespace Xmmsg.Shm

open Xmmsg.Sys

variable {T : Type}

/-! ## The loads -/

/-- The identity fields `Snapshot` copies, in source order. -/
def snapshotFields : List IdField :=
  [.layoutVersion, .envelopeVersion, .schemaHash, .payloadSize, .payloadAlign, .totalSize,
    .maxSubscribers, .ringCapacity, .creatorHistoryKind, .creatorQueueDepth]

/-- A load from the header; `pubProbe` is `ProcessAlive` of the publisher. -/
inductive HeaderLoad where
  | ident (f : IdField)
  | pubPid
  | pubProbe
  | pubEpoch
  | pubPublishCount
  | pubBytes
  | acceptedOrdinal
  | refusalCount
  | refusedSchemaHash
  | refusedPayloadSize
  | refusedPid
  deriving DecidableEq

def headerLoads : List HeaderLoad :=
  snapshotFields.map .ident ++
    [.pubPid, .pubProbe, .pubEpoch, .pubPublishCount, .pubBytes, .acceptedOrdinal, .refusalCount,
      .refusedSchemaHash, .refusedPayloadSize, .refusedPid]

/-- A load from a slot that is in use; `probe` is `ProcessAlive` of its owner. -/
inductive SlotLoad where
  | pid
  | probe
  | historyKind
  | queueDepth
  | lastConsumedOrdinal
  | takeCount
  | dropCount
  | overwriteCount
  | deadlineMissCount
  deriving DecidableEq

def slotLoads : List SlotLoad :=
  [.pid, .probe, .historyKind, .queueDepth, .lastConsumedOrdinal, .takeCount, .dropCount,
    .overwriteCount, .deadlineMissCount]

/-- `kShmBaselineUnset`. -/
def kShmBaselineUnset : UInt64 := 0xFFFFFFFFFFFFFFFF

/-- What the header's field makes of a number. -/
def IdField.word : IdField → Nat → Nat
  | .magic, n | .schemaHash, n | .payloadSize, n | .payloadAlign, n | .totalSize, n => n % 2 ^ 64
  | _, n => n % 2 ^ 32

namespace IntrospectSnapshot

def setIdent (out : IntrospectSnapshot) : IdField → Nat → IntrospectSnapshot
  | .magic, _ => out
  | .layoutVersion, n => { out with layoutVersion := .ofNat n }
  | .envelopeVersion, n => { out with envelopeVersion := .ofNat n }
  | .schemaHash, n => { out with schemaHash := .ofNat n }
  | .payloadSize, n => { out with payloadSize := .ofNat n }
  | .payloadAlign, n => { out with payloadAlign := .ofNat n }
  | .totalSize, n => { out with totalSize := .ofNat n }
  | .maxSubscribers, n => { out with maxSubscribers := .ofNat n }
  | .ringCapacity, n => { out with ringCapacity := .ofNat n }
  | .creatorHistoryKind, n => { out with creatorHistoryKind := .ofNat n }
  | .creatorQueueDepth, n => { out with creatorQueueDepth := .ofNat n }

/-- The identity the record has; the magic number is not in it. -/
def ident (out : IntrospectSnapshot) : IdField → Nat
  | .magic => 0
  | .layoutVersion => out.layoutVersion.toNat
  | .envelopeVersion => out.envelopeVersion.toNat
  | .schemaHash => out.schemaHash.toNat
  | .payloadSize => out.payloadSize.toNat
  | .payloadAlign => out.payloadAlign.toNat
  | .totalSize => out.totalSize.toNat
  | .maxSubscribers => out.maxSubscribers.toNat
  | .ringCapacity => out.ringCapacity.toNat
  | .creatorHistoryKind => out.creatorHistoryKind.toNat
  | .creatorQueueDepth => out.creatorQueueDepth.toNat

theorem ident_setIdent_self (out : IntrospectSnapshot) {f : IdField} (hf : f ∈ snapshotFields)
    (n : Nat) : (out.setIdent f n).ident f = f.word n := by
  cases f with
  | magic => exact absurd hf (by decide)
  | _ => simp [setIdent, ident, IdField.word]

theorem ident_setIdent_ne (out : IntrospectSnapshot) {f g : IdField} (hfg : g ≠ f) (n : Nat) :
    (out.setIdent f n).ident g = out.ident g := by
  cases f <;> cases g <;> first | rfl | exact absurd rfl hfg

/-- What `ReadMasterEnvelope` has filled in. -/
def lastPublish (out read : IntrospectSnapshot) : IntrospectSnapshot :=
  { out with
    master := read.master
    lastPublishStampNs := read.lastPublishStampNs
    lastOriginStampNs := read.lastOriginStampNs
    lastOrdinal := read.lastOrdinal }

def push (out : IntrospectSnapshot) (sub : IntrospectSubSlot) : IntrospectSnapshot :=
  { out with
    subscribers := out.subscribers ++ [sub]
    activeSubscriberCount :=
      if sub.state = .active then out.activeSubscriberCount + 1 else out.activeSubscriberCount }

end IntrospectSnapshot

def HeaderLoad.into (alive : Nat → Bool) (m : ShmObject) (h : Segment T)
    (out : IntrospectSnapshot) : HeaderLoad → IntrospectSnapshot
  | .ident f => out.setIdent f (m.ident f)
  | .pubPid => { out with pubPid := h.pubPid }
  | .pubProbe => { out with pubAlive := out.pubPid != 0 && alive out.pubPid }
  | .pubEpoch => { out with pubEpoch := .ofNat h.pubEpoch }
  | .pubPublishCount => { out with pubPublishCount := .ofNat h.pubPublishCount }
  | .pubBytes => { out with pubBytes := .ofNat h.pubBytes }
  | .acceptedOrdinal => { out with acceptedOrdinal := .ofNat h.acceptedOrdinal }
  | .refusalCount => { out with refusalCount := m.refusalCount }
  | .refusedSchemaHash => { out with refusedSchemaHash := .ofNat m.refusedSchemaHash }
  | .refusedPayloadSize => { out with refusedPayloadSize := .ofNat m.refusedPayloadSize }
  | .refusedPid => { out with refusedPid := m.refusedPid }

def SlotLoad.into (alive : Nat → Bool) (slot : SubSlot) (sub : IntrospectSubSlot) :
    SlotLoad → IntrospectSubSlot
  | .pid => { sub with pid := slot.pid }
  | .probe => { sub with alive := sub.pid != 0 && alive sub.pid }
  | .historyKind => { sub with historyKind := .ofNat slot.historyKind }
  | .queueDepth => { sub with queueDepth := .ofNat slot.queueDepth }
  | .lastConsumedOrdinal =>
      { sub with lastConsumedOrdinal :=
          (slot.lastConsumedOrdinal.map UInt64.ofNat).getD kShmBaselineUnset }
  | .takeCount => { sub with takeCount := .ofNat slot.takeCount }
  | .dropCount => { sub with dropCount := .ofNat slot.dropCount }
  | .overwriteCount => { sub with overwriteCount := .ofNat slot.overwriteCount }
  | .deadlineMissCount => { sub with deadlineMissCount := .ofNat slot.deadlineMissCount }

/-! ## The call -/

/-- Where `Snapshot` stands. -/
inductive SnapshotPc where
  | header (next : HeaderLoad) (rest : List HeaderLoad) (out : IntrospectSnapshot)
  | state (i : Nat) (out : IntrospectSnapshot)
  | slot (i : Nat) (next : SlotLoad) (rest : List SlotLoad) (sub : IntrospectSubSlot)
      (out : IntrospectSnapshot)
  | master (read : ObserverPc) (out : IntrospectSnapshot)
  | done (out : IntrospectSnapshot)
  deriving DecidableEq

namespace SnapshotPc

def headers (out : IntrospectSnapshot) : List HeaderLoad → SnapshotPc
  | [] => .state 0 out
  | next :: rest => .header next rest out

def words (i : Nat) (sub : IntrospectSubSlot) (out : IntrospectSnapshot) :
    List SlotLoad → SnapshotPc
  | [] => .state (i + 1) (out.push sub)
  | next :: rest => .slot i next rest sub out

def settle (out : IntrospectSnapshot) : ObserverPc → SnapshotPc
  | .ret read => .done (out.lastPublish read)
  | read => .master read out

/-- Before the first load. -/
def begin : SnapshotPc := headers {} headerLoads

def isDone : SnapshotPc → Bool
  | .done _ => true
  | _ => false

/-- The record, when the call has returned. -/
def result : SnapshotPc → Option IntrospectSnapshot
  | .done out => some out
  | _ => none

theorem result_some {pc : SnapshotPc} {out : IntrospectSnapshot} (h : pc.result = some out) :
    pc = .done out := by
  cases pc <;> cases h
  rfl

end SnapshotPc

/-- The next access of `Snapshot`, or, when it has returned, of another one. -/
def snapshotStep (alive : Nat → Bool) (m : ShmObject) (h : Segment T) (c : Seqlock.Cell UInt64) :
    SnapshotPc → SnapshotPc
  | .header next rest out => .headers (next.into alive m h out) rest
  | .state i out =>
      if i < kShmMaxSubscribers then
        match (h.subSlots i).state with
        | .free => .state (i + 1) out
        | st => .words i { index := i, state := st } out slotLoads
      else .settle out (readMasterEnvelope m.size c .idle)
  | .slot i next rest sub out => .words i (next.into alive (h.subSlots i) sub) out rest
  | .master read out => .settle out (readMasterEnvelope m.size c read)
  | .done _ => .begin

variable {alive : Nat → Bool} {m : ShmObject} {h : Segment T} {c : Seqlock.Cell UInt64}

/-! ## What it has copied -/

/-- The identity fields copied so far are those of the object. -/
def SnapshotPc.Copied (id : IdField → Nat) : SnapshotPc → Prop
  | .header next rest out => ∀ f ∈ snapshotFields,
      .ident f ∈ next :: rest ∨ out.ident f = f.word (id f)
  | .state _ out | .slot _ _ _ _ out | .master _ out | .done out =>
      ∀ f ∈ snapshotFields, out.ident f = f.word (id f)

theorem copied_begin (id : IdField → Nat) : SnapshotPc.begin.Copied id :=
  fun _ hf => .inl (List.mem_append_left _ (List.mem_map_of_mem hf))

theorem copied_settle {id : IdField → Nat} {out : IntrospectSnapshot}
    (ho : ∀ f ∈ snapshotFields, out.ident f = f.word (id f)) (read : ObserverPc) :
    (SnapshotPc.settle out read).Copied id := by
  have hlast : ∀ (r : IntrospectSnapshot) f, (out.lastPublish r).ident f = out.ident f := by
    intro r f
    cases f <;> rfl
  cases read with
  | ret r => exact fun f hf => (hlast r f).trans (ho f hf)
  | idle | load | copy => exact ho

theorem copied_words {id : IdField → Nat} {out : IntrospectSnapshot}
    (ho : ∀ f ∈ snapshotFields, out.ident f = f.word (id f)) (i : Nat) (sub : IntrospectSubSlot)
    (rest : List SlotLoad) : (SnapshotPc.words i sub out rest).Copied id := by
  have hpush : ∀ f, (out.push sub).ident f = out.ident f := by
    intro f
    cases f <;> rfl
  cases rest with
  | nil => exact fun f hf => (hpush f).trans (ho f hf)
  | cons => exact ho

theorem snapshotStep_copied {pc : SnapshotPc} (hc : pc.Copied m.ident) :
    (snapshotStep alive m h c pc).Copied m.ident := by
  cases pc with
  | header next rest out =>
      have hload : ∀ f ∈ snapshotFields, .ident f ∈ rest ∨
          (next.into alive m h out).ident f = f.word (m.ident f) := by
        intro f hf
        rcases hc f hf with h0 | h0
        · rcases List.mem_cons.mp h0 with rfl | h0
          · exact .inr (out.ident_setIdent_self hf _)
          · exact .inl h0
        · cases next with
          | ident g =>
              by_cases hfg : f = g
              · subst hfg
                exact .inr (out.ident_setIdent_self hf _)
              · exact .inr ((out.ident_setIdent_ne hfg _).trans h0)
          | _ => exact .inr (by cases f <;> exact h0)
      cases rest with
      | nil => exact fun f hf => (hload f hf).resolve_left List.not_mem_nil
      | cons next' rest => exact hload
  | state i out =>
      simp only [snapshotStep]
      split
      · split
        · exact hc
        · exact copied_words hc i _ _
      · exact copied_settle hc _
  | slot i next rest sub out => exact copied_words hc i _ rest
  | master read out => exact copied_settle hc _
  | done out => exact copied_begin _

/-! ## It returns -/

/-- How many more accesses `ReadMasterEnvelope` makes at most: nine an attempt. -/
def ObserverPc.budget : ObserverPc → Nat
  | .idle => 9 * (kIntrospectRetryBudget + 1) + 1
  | .load attempt => 9 * (kIntrospectRetryBudget - attempt) + 9
  | .copy attempt _ staged =>
      9 * (kIntrospectRetryBudget - attempt) + (8 - min staged.length kEnvelopeWords)
  | .ret _ => 0

/-- And how many `Snapshot`. -/
def SnapshotPc.budget : SnapshotPc → Nat
  | .header _ rest _ =>
      rest.length + 1 + 10 * kShmMaxSubscribers + ObserverPc.idle.budget
  | .state i _ => 10 * (kShmMaxSubscribers - i) + ObserverPc.idle.budget
  | .slot i _ rest _ _ => rest.length + 1 + 10 * (kShmMaxSubscribers - (i + 1)) +
      ObserverPc.idle.budget
  -- a read that has returned is settled at once
  | .master (.ret _) _ => ObserverPc.idle.budget + 1
  | .master read _ => read.budget
  | .done _ => 0

/-- The header's twenty words, ten for each slot, and `ReadMasterEnvelope`. -/
def kSnapshotAccesses : Nat := 37054

theorem budget_begin : SnapshotPc.begin.budget = kSnapshotAccesses := rfl

theorem retry_budget {attempt n : Nat} (hn : 0 < n) :
    (ObserverPc.retry attempt).budget < 9 * (kIntrospectRetryBudget - attempt) + n := by
  unfold ObserverPc.retry
  split
  · simp only [ObserverPc.budget]
    omega
  · simp only [ObserverPc.budget]
    omega

theorem readMasterEnvelope_budget (size : Nat) (c : Seqlock.Cell UInt64) {read : ObserverPc}
    (hr : ∀ out, read ≠ .ret out) : (readMasterEnvelope size c read).budget < read.budget := by
  cases read with
  | idle =>
      simp only [readMasterEnvelope]
      split
      · exact Nat.succ_pos _
      · exact Nat.lt_succ_self _
  | load attempt =>
      simp only [readMasterEnvelope]
      split
      · exact Nat.succ_pos _
      · split
        · exact retry_budget (by decide)
        · simp [ObserverPc.budget]
  | copy attempt s1 staged =>
      simp only [readMasterEnvelope]
      split
      · next hlt =>
          have hlen : kEnvelopeWords = 7 := rfl
          simp only [ObserverPc.budget, List.length_append, List.length_cons, List.length_nil]
          omega
      · have hlen : kEnvelopeWords = 7 := rfl
        have hpos : 0 < 8 - min staged.length kEnvelopeWords := by omega
        split
        · exact Nat.lt_of_lt_of_le hpos (Nat.le_add_left _ _)
        · exact retry_budget hpos
  | ret out => exact absurd rfl (hr out)

theorem settle_budget (out : IntrospectSnapshot) (read : ObserverPc) :
    (SnapshotPc.settle out read).budget = read.budget := by
  cases read <;> rfl

theorem words_budget (i : Nat) (sub : IntrospectSubSlot) (out : IntrospectSnapshot)
    (rest : List SlotLoad) : (SnapshotPc.words i sub out rest).budget =
      rest.length + 10 * (kShmMaxSubscribers - (i + 1)) + ObserverPc.idle.budget := by
  cases rest with
  | nil => simp only [SnapshotPc.words, SnapshotPc.budget, List.length_nil, Nat.zero_add]
  | cons => simp only [SnapshotPc.words, SnapshotPc.budget, List.length_cons]

/-- Every access brings the call nearer to its end, whatever it loads. -/
theorem snapshotStep_budget {pc : SnapshotPc} (hnot : pc.isDone = false) :
    (snapshotStep alive m h c pc).budget < pc.budget := by
  cases pc with
  | header next rest out =>
      cases rest with
      | nil => simp [snapshotStep, SnapshotPc.headers, SnapshotPc.budget]
      | cons => simp [snapshotStep, SnapshotPc.headers, SnapshotPc.budget]
  | state i out =>
      simp only [snapshotStep]
      split
      · next hi =>
          split
          · simp only [SnapshotPc.budget]
            omega
          · rw [words_budget]
            simp only [SnapshotPc.budget, slotLoads, List.length_cons, List.length_nil]
            omega
      · rw [settle_budget]
        exact Nat.lt_of_lt_of_le (readMasterEnvelope_budget m.size c fun _ => nofun)
          (Nat.le_add_left _ _)
  | slot i next rest sub out =>
      rw [snapshotStep, words_budget]
      simp only [SnapshotPc.budget]
      omega
  | master read out =>
      rw [snapshotStep, settle_budget]
      cases read with
      | ret => exact Nat.lt_succ_self _
      | idle | load | copy => exact readMasterEnvelope_budget m.size c fun _ => nofun
  | done => cases hnot

theorem SnapshotPc.budget_pos {pc : SnapshotPc} (hnot : pc.isDone = false) : 0 < pc.budget := by
  cases pc with
  | header | state | slot => exact Nat.lt_of_lt_of_le (by decide) (Nat.le_add_left _ _)
  | master read out =>
      cases read with
      | idle | load | ret => exact Nat.succ_pos _
      | copy attempt s1 staged =>
          have hlen : kEnvelopeWords = 7 := rfl
          simp only [budget, ObserverPc.budget]
          omega
  | done => cases hnot

end Xmmsg.Shm
