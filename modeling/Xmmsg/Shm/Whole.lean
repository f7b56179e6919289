import Xmmsg.Shm.Region
import Xmmsg.Shm.Solo
import Xmmsg.Sys.Whole

/-!
# The verbs of the shm reach are what their accesses come to

The same junction as on the in-process reach, between `Calls.lean` and `Steps.lean`:
while only one live endpoint moves, on the message and the clock of its call, its accesses
end where the whole call says and pass through a state that holds its answer, and they do
nothing else (`shm_calls_are_runs`). `Solo.lean` has the claim of a subscriber slot; here
are the claim of the publisher slot with its repairs, `Publish`, the take verbs and the
two destructors.

Inside a publish the master cell and each mailbox are torn for one access; with nobody
else moving the next access is the one that ends the store.
-/

namespace Xmmsg.Shm

open Xmmsg.Sys

variable {T : Type} {size : Nat}

/-! ## A publisher and the segment -/

def PubGoes (size : Nat) (alive : Nat → Bool) (x y : Segment T × PubEp T) : Prop :=
  pubStep size alive x.1 x.2 .go = some y

def PubGets (size : Nat) (alive : Nat → Bool) : Segment T × PubEp T → Segment T × PubEp T → Prop :=
  Relation.ReflTransGen (PubGoes size alive)

section Publisher

variable {alive : Nat → Bool} {h : Segment T} {ep : PubEp T} {r : MailRecord T} {i : Nat}

theorem repairSlot_gets (hi : i < kShmMaxSubscribers) :
    PubGets size alive (h, ep.at' (.repairState i))
      (h.repairSlot i, ep.at' (.repairState (i + 1))) := by
  by_cases hst : (h.subSlots i).state = .active
  · have hload : PubGoes size alive (h, ep.at' (.repairState i)) (h, ep.at' (.repairKind i)) := by
      simp only [PubGoes, pubStep, PubEp.at'_pc, if_pos hi, hst]
      rfl
    refine .head hload ?_
    by_cases hk : (h.subSlots i).historyKind = 0
    · rw [Segment.repairSlot, if_pos ⟨hst, hk⟩]
      refine .head (b := (h, ep.at' (.repairCell i))) ?_ (.single rfl)
      simp only [PubGoes, pubStep, PubEp.at'_pc, if_pos hk]
      rfl
    · rw [Segment.repairSlot, if_neg (fun h0 => hk h0.2)]
      refine .single ?_
      simp only [PubGoes, pubStep, PubEp.at'_pc, if_neg hk]
      rfl
  · rw [Segment.repairSlot, if_neg (fun h0 => hst h0.1)]
    refine .single ?_
    cases hs : (h.subSlots i).state with
    | active => exact absurd hs hst
    | _ =>
        simp only [PubGoes, pubStep, PubEp.at'_pc, if_pos hi, hs]
        rfl

theorem repair_gets {n : Nat} (hn : i + n = kShmMaxSubscribers) :
    PubGets size alive (h, ep.at' (.repairState i))
      ((List.range' i n).foldl Segment.repairSlot h, ep.at' .idle) := by
  induction n generalizing i h with
  | zero =>
      refine .single ?_
      simp only [PubGoes, pubStep, PubEp.at'_pc, if_neg (show ¬ i < kShmMaxSubscribers by omega)]
      rfl
  | succ n ih =>
      rw [List.range'_succ, List.foldl_cons]
      exact (repairSlot_gets (by omega)).trans (ih (by omega))

/-- The segment a new publisher `me` starts from. -/
def Segment.takenOver (h : Segment T) (me : Nat) : Segment T :=
  (List.range kShmMaxSubscribers).foldl Segment.repairSlot
    { h with pubPid := me, pubEpoch := h.pubEpoch + 1, master := h.master.repair }

theorem claimPublisherSlot_eq (me : Nat) : h.claimPublisherSlot alive me =
    if h.pubPid ≠ 0 ∧ alive h.pubPid = true then (.ownershipRefused, h)
    else (.ok, h.takenOver me) := rfl

/-- From the epoch to the last repair. -/
theorem takeOver_gets (h : Segment T) (ep : PubEp T) : PubGets size alive
    ({ h with pubPid := ep.pid }, { ep with ownsPublisherSlot := true, pc := .bumpEpoch })
    (h.takenOver ep.pid, { ep with ownsPublisherSlot := true, pc := .idle }) := by
  let ep' : PubEp T := { ep with ownsPublisherSlot := true }
  have hbump : PubGoes size alive ({ h with pubPid := ep.pid }, ep'.at' .bumpEpoch)
      ({ h with pubPid := ep.pid, pubEpoch := h.pubEpoch + 1 }, ep'.at' .repairMaster) := rfl
  have hmaster : PubGoes size alive
      ({ h with pubPid := ep.pid, pubEpoch := h.pubEpoch + 1 }, ep'.at' .repairMaster)
      ({ h with pubPid := ep.pid, pubEpoch := h.pubEpoch + 1, master := h.master.repair },
        ep'.at' (.repairState 0)) := rfl
  have hrepair : PubGets size alive
      ({ h with pubPid := ep.pid, pubEpoch := h.pubEpoch + 1, master := h.master.repair },
        ep'.at' (.repairState 0)) (h.takenOver ep.pid, ep'.at' .idle) := by
    rw [Segment.takenOver, List.range_eq_range']
    exact repair_gets (Nat.zero_add _)
  exact .head hbump (.head hmaster hrepair)

/-- A claim that finds a live owner. -/
theorem claimPublisher_refused (hz : h.pubPid ≠ 0) (hal : alive h.pubPid = true) :
    PubGets size alive (h, ep.at' .unwired) (h, ep.at' .refused) := by
  refine .head (b := (h, ep.at' .casZero)) rfl (.head (b := (h, ep.at' (.probeOwner h.pubPid))) ?_
    (.single ?_))
  · simp only [PubGoes, pubStep, PubEp.at'_pc, if_neg hz]
    rfl
  · simp only [PubGoes, pubStep, PubEp.at'_pc, hal]
    rfl

/-- One that finds nobody, or a dead owner. -/
theorem claimPublisher_gets (hno : ¬ (h.pubPid ≠ 0 ∧ alive h.pubPid = true)) :
    PubGets size alive (h, ep.at' .unwired)
      (h.takenOver ep.pid, { ep with ownsPublisherSlot := true, pc := .idle }) := by
  have hover : PubGets size alive
      ({ h with pubPid := ep.pid }, { ep with ownsPublisherSlot := true, pc := .bumpEpoch })
      (h.takenOver ep.pid, { ep with ownsPublisherSlot := true, pc := .idle }) :=
    takeOver_gets h ep
  refine .head (b := (h, ep.at' .casZero)) rfl ?_
  by_cases hz : h.pubPid = 0
  · refine .head ?_ hover
    simp only [PubGoes, pubStep, PubEp.at'_pc, if_pos hz]
    rfl
  · have hal : alive h.pubPid = false := Bool.eq_false_iff.mpr fun h0 => hno ⟨hz, h0⟩
    refine .head (b := (h, ep.at' (.probeOwner h.pubPid))) ?_ (.head
      (b := (h, ep.at' (.casOwner h.pubPid))) ?_ (.head ?_ hover))
    · simp only [PubGoes, pubStep, PubEp.at'_pc, if_neg hz]
      rfl
    · simp only [PubGoes, pubStep, PubEp.at'_pc, hal]
      rfl
    · simp only [PubGoes, pubStep, PubEp.at'_pc, if_true]
      rfl

theorem release_gets : PubGets size alive (h, ep.at' .casRelease)
    (h.releasePublisherSlot ep.pid, ep.at' .gone) :=
  .single rfl

/-! ### The fan-out -/

theorem visit_gets (hi : i < kShmMaxSubscribers) :
    PubGets size alive (h, ep.at' (.loadState r i))
      (h.visit r i, ep.at' (.loadState r (i + 1))) := by
  by_cases hst : (h.subSlots i).state = .active
  · have hload : PubGoes size alive (h, ep.at' (.loadState r i)) (h, ep.at' (.loadKind r i)) := by
      simp only [PubGoes, pubStep, PubEp.at'_pc, if_pos hi, hst]
      rfl
    refine .head hload ?_
    by_cases hk : (h.subSlots i).historyKind = 0
    · have hkind : PubGoes size alive (h, ep.at' (.loadKind r i)) (h, ep.at' (.loadBase r i)) := by
        simp only [PubGoes, pubStep, PubEp.at'_pc, if_pos hk]
        rfl
      refine .head hkind ?_
      -- the store, from a slot whose baseline is there
      have hstore : ∀ g : Segment T, PubGets size alive (g, ep.at' (.cellBegin r i))
          (g.setLatest i (.full r), ep.at' (.loadState r (i + 1))) := by
        intro g
        refine .head (b := (g.setLatest i .torn, ep.at' (.cellEnd r i))) rfl (.single ?_)
        simp only [PubGoes, pubStep, PubEp.at'_pc, setLatest_setLatest]
        rfl
      cases hl : (h.subSlots i).lastConsumedOrdinal with
      | none =>
          have hvisit : h.visit r i = (h.setSlot i { h.subSlots i with
              lastConsumedOrdinal := some (r.ordinal - 1) }).setLatest i (.full r) := by
            simp only [Segment.visit, if_pos hst, if_pos hk, hl]
          rw [hvisit]
          refine .head (b := (h, ep.at' (.stamp r i))) ?_ (.head ?_ (hstore _))
          · simp only [PubGoes, pubStep, PubEp.at'_pc, hl]
            rfl
          · simp only [PubGoes, pubStep, PubEp.at'_pc, hl]
            rfl
      | some last =>
          have hslot : ({ h.subSlots i with lastConsumedOrdinal := some last } : SubSlot) =
              h.subSlots i := by rw [← hl]
          have hvisit : h.visit r i = h.setLatest i (.full r) := by
            simp only [Segment.visit, if_pos hst, if_pos hk, hl, hslot, Segment.setSlot,
              Function.update_eq_self]
          rw [hvisit]
          refine .head ?_ (hstore h)
          simp only [PubGoes, pubStep, PubEp.at'_pc, hl]
          rfl
    · have hkind : PubGoes size alive (h, ep.at' (.loadKind r i)) (h, ep.at' (.push r i)) := by
        simp only [PubGoes, pubStep, PubEp.at'_pc, if_neg hk]
        rfl
      refine .head hkind ?_
      cases hq : (h.ring i).tryPush r with
      | some q =>
          refine .single ?_
          simp only [PubGoes, pubStep, PubEp.at'_pc, hq, Segment.visit, if_pos hst, if_neg hk]
          rfl
      | none =>
          refine .head (b := (h, ep.at' (.drop r i))) ?_ (.single ?_)
          · simp only [PubGoes, pubStep, PubEp.at'_pc, hq]
            rfl
          · simp only [PubGoes, pubStep, PubEp.at'_pc, hq, Segment.visit, if_pos hst, if_neg hk]
            rfl
  · have hvisit : h.visit r i = h := by simp only [Segment.visit, if_neg hst]
    rw [hvisit]
    refine .single ?_
    cases hs : (h.subSlots i).state with
    | active => exact absurd hs hst
    | _ =>
        simp only [PubGoes, pubStep, PubEp.at'_pc, if_pos hi, hs]
        rfl

theorem fanOut_gets {n : Nat} (hn : i + n = kShmMaxSubscribers) :
    PubGets size alive (h, ep.at' (.loadState r i))
      ((List.range' i n).foldl (Segment.visit r) h, ep.at' .countLocal) := by
  induction n generalizing i h with
  | zero =>
      refine .single ?_
      simp only [PubGoes, pubStep, PubEp.at'_pc, if_neg (show ¬ i < kShmMaxSubscribers by omega)]
      rfl
  | succ n ih =>
      rw [List.range'_succ, List.foldl_cons]
      exact (visit_gets (by omega)).trans (ih (by omega))

theorem count_gets (g : Segment T) (ep : PubEp T) : PubGets size alive (g, ep.at' .countLocal)
    (g.countPublish size, { ep with
      publishCount := ep.publishCount + 1, bytes := ep.bytes + size, pc := .idle }) := by
  let ep' : PubEp T := { ep with
    publishCount := ep.publishCount + 1, bytes := ep.bytes + size }
  have hlocal : PubGoes size alive (g, ep.at' .countLocal) (g, ep'.at' .countShared) := rfl
  have hshared : PubGoes size alive (g, ep'.at' .countShared)
      ({ g with pubPublishCount := g.pubPublishCount + 1 }, ep'.at' .bytesShared) := rfl
  have hbytes : PubGoes size alive
      ({ g with pubPublishCount := g.pubPublishCount + 1 }, ep'.at' .bytesShared)
      (g.countPublish size, ep'.at' .idle) := rfl
  exact .head hlocal (.head hshared (.single hbytes))

/-- The master cell is stored under a new ordinal. -/
theorem master_gets (h : Segment T) (ep : PubEp T) (m : Message T) :
    PubGets size alive (h, ep.at' (.draw m))
      ({ h with
        acceptedOrdinal := h.acceptedOrdinal + 1
        master := .full (m.record (h.acceptedOrdinal + 1)) },
        ep.at' (.loadState (m.record (h.acceptedOrdinal + 1)) 0)) := by
  let r := m.record (h.acceptedOrdinal + 1)
  have hdraw : PubGoes size alive (h, ep.at' (.draw m))
      ({ h with acceptedOrdinal := h.acceptedOrdinal + 1 }, ep.at' (.masterBegin r)) := rfl
  have hbegin : PubGoes size alive
      ({ h with acceptedOrdinal := h.acceptedOrdinal + 1 }, ep.at' (.masterBegin r))
      ({ h with acceptedOrdinal := h.acceptedOrdinal + 1, master := .torn },
        ep.at' (.masterEnd r)) := rfl
  have hend : PubGoes size alive
      ({ h with acceptedOrdinal := h.acceptedOrdinal + 1, master := .torn },
        ep.at' (.masterEnd r))
      ({ h with acceptedOrdinal := h.acceptedOrdinal + 1, master := .full r },
        ep.at' (.loadState r 0)) := rfl
  exact .head hdraw (.head hbegin (.single hend))

/-- `Publish`, from the draw of the ordinal to the last counter. -/
theorem publish_gets (h : Segment T) (ep : PubEp T) (m : Message T) :
    PubGets size alive (h, ep.at' (.draw m)) (h.publish size m, { ep with
      publishCount := ep.publishCount + 1, bytes := ep.bytes + size, pc := .idle }) := by
  obtain ⟨g, hg⟩ : ∃ g, g = Segment.fanOut { h with
      acceptedOrdinal := h.acceptedOrdinal + 1
      master := .full (m.record (h.acceptedOrdinal + 1)) }
      (m.record (h.acceptedOrdinal + 1)) := ⟨_, rfl⟩
  have hloop : PubGets size alive ({ h with
        acceptedOrdinal := h.acceptedOrdinal + 1
        master := .full (m.record (h.acceptedOrdinal + 1)) },
        ep.at' (.loadState (m.record (h.acceptedOrdinal + 1)) 0)) (g, ep.at' .countLocal) := by
    rw [hg, Segment.fanOut, List.range_eq_range']
    exact fanOut_gets (Nat.zero_add _)
  have hpub : h.publish size m = g.countPublish size := by rw [Segment.publish, hg]
  rw [hpub]
  exact (master_gets h ep m).trans (hloop.trans (count_gets g ep))

end Publisher

/-! ## A subscriber's takes -/

section Take

variable {alive : Nat → Bool} {now : Int} {h : Segment T} {ep : SubEp T} {r : MailRecord T}
  {i : Nat}

/-- What follows `FillSample`. -/
def SubEp.filled (ep : SubEp T) (r : MailRecord T) (stale : Bool) : TakePc T :=
  if ep.history.isLatest then .base r stale else .ret (some (r, stale))

/-- `FillSample`: the count, then the deadline-miss latch. -/
theorem fill_gets (h : Segment T) (ep : SubEp T) (i : Nat) (now : Int) (r : MailRecord T) :
    Gets alive now (h, ep.at' (.wired i (.count r))) ((h.fillSample ep i now r).2.1,
      (h.fillSample ep i now r).2.2.at'
        (.wired i (ep.filled r (h.fillSample ep i now r).1))) := by
  let stale := isStale ep.deadline now r.envelope.publishStampNs
  let s : SubSlot := { h.subSlots i with takeCount := (h.subSlots i).takeCount + 1 }
  have hcount : Goes alive now (h, ep.at' (.wired i (.count r)))
      (h.setSlot i s, ep.at' (.wired i (.miss r stale))) := rfl
  refine .head hcount (.single ?_)
  have hfill : h.fillSample ep i now r = (stale, h.setSlot i { s with deadlineMissCount :=
      if stale && !ep.staleLatched then s.deadlineMissCount + 1 else s.deadlineMissCount },
      { ep with staleLatched := stale }) := rfl
  rw [hfill]
  cases hst : stale with
  | false =>
      simp only [Goes, subStep, takeStep, SubEp.at', Bool.false_and, Bool.false_eq_true, if_false]
      rfl
  | true =>
      cases hl : ep.staleLatched with
      | true =>
          simp only [Goes, subStep, takeStep, SubEp.at', hl, Bool.not_true, Bool.and_false,
            Bool.false_eq_true, if_false, if_true]
          rfl
      | false =>
          simp only [Goes, subStep, takeStep, SubEp.at', hl, Bool.not_false, Bool.and_true,
            Bool.false_eq_true, if_false, if_true, setSlot_self, setSlot_setSlot]
          rfl

/-- The ordinal-gap accounting. -/
theorem charge_gets {stale : Bool} : Gets alive now (h, ep.at' (.wired i (.base r stale)))
    (h.charge i r, ep.at' (.wired i (.ret (some (r, stale))))) := by
  cases hl : (h.subSlots i).lastConsumedOrdinal with
  | none =>
      have hc : h.charge i r = h := by simp only [Segment.charge, hl]
      rw [hc]
      refine .single ?_
      simp only [Goes, subStep, takeStep, SubEp.at'_pc, hl]
      rfl
  | some last =>
      by_cases hlt : last < r.ordinal
      · have hc : h.charge i r = h.setSlot i { h.subSlots i with
            overwriteCount := (h.subSlots i).overwriteCount + (r.ordinal - last - 1)
            lastConsumedOrdinal := some r.ordinal } := by
          simp only [Segment.charge, hl, if_pos hlt]
        rw [hc]
        refine .head (b := (h, ep.at' (.wired i (.charge r stale last)))) ?_ (.head
          (b := (h.setSlot i { h.subSlots i with
            overwriteCount := (h.subSlots i).overwriteCount + (r.ordinal - last - 1) },
            ep.at' (.wired i (.store r stale)))) rfl (.single ?_))
        · simp only [Goes, subStep, takeStep, SubEp.at'_pc, hl, if_pos hlt]
          rfl
        · simp only [Goes, subStep, takeStep, SubEp.at'_pc, setSlot_self, setSlot_setSlot]
          rfl
      · have hc : h.charge i r = h := by simp only [Segment.charge, hl, if_neg hlt]
        rw [hc]
        refine .single ?_
        simp only [Goes, subStep, takeStep, SubEp.at'_pc, hl, if_neg hlt]
        rfl

/-- The cache after the load of the mailbox. -/
def SubEp.loaded (ep : SubEp T) (c : Cell T) : SubEp T :=
  match c with
  | .full r => { ep with cached := some r }
  | _ => ep

theorem load_goes (r : MailRecord T) (hr : (ep.loaded (h.latest i)).cached = some r) :
    Goes alive now (h, ep.at' (.wired i .load))
      (h, (ep.loaded (h.latest i)).at' (.wired i (.count r))) := by
  cases hc : h.latest i with
  | full r' =>
      rw [hc] at hr
      cases hr
      simp only [Goes, subStep, takeStep, SubEp.at'_pc, hc]
      rfl
  | empty | torn =>
      rw [hc] at hr
      simp only [SubEp.loaded] at hr
      simp only [Goes, subStep, takeStep, SubEp.at'_pc, SubEp.at'_cached, hc, hr]
      rfl

theorem load_none (hr : (ep.loaded (h.latest i)).cached = none) :
    Goes alive now (h, ep.at' (.wired i .load)) (h, ep.at' (.wired i (.ret none))) := by
  cases hc : h.latest i with
  | full r' =>
      rw [hc] at hr
      cases hr
  | empty | torn =>
      rw [hc] at hr
      simp only [SubEp.loaded] at hr
      simp only [Goes, subStep, takeStep, SubEp.at'_pc, SubEp.at'_cached, hc, hr]
      rfl

theorem loaded_none {c : Cell T} (hr : (ep.loaded c).cached = none) : ep.loaded c = ep := by
  cases c with
  | full r' => cases hr
  | empty | torn => rfl

theorem takeLatestSample_some (hl : ep.history.isLatest = true)
    (hr : (ep.loaded (h.latest i)).cached = some r) :
    h.takeLatestSample ep i now =
      (some (r, (h.fillSample (ep.loaded (h.latest i)) i now r).1),
        (h.fillSample (ep.loaded (h.latest i)) i now r).2.1.charge i r,
        (h.fillSample (ep.loaded (h.latest i)) i now r).2.2) := by
  simp only [Segment.takeLatestSample, hl, if_true]
  cases hc : h.latest i with
  | full r' =>
      rw [hc] at hr
      cases hr
      rfl
  | empty | torn =>
      rw [hc] at hr
      simp only [SubEp.loaded] at hr ⊢
      rw [hr]

theorem takeLatestSample_none (hl : ep.history.isLatest = true)
    (hr : (ep.loaded (h.latest i)).cached = none) :
    h.takeLatestSample ep i now = (none, h, ep.loaded (h.latest i)) := by
  simp only [Segment.takeLatestSample, hl, if_true]
  cases hc : h.latest i with
  | full r' =>
      rw [hc] at hr
      cases hr
  | empty | torn =>
      rw [hc] at hr
      simp only [SubEp.loaded] at hr ⊢
      rw [hr]

theorem loaded_history (c : Cell T) : (ep.loaded c).history = ep.history := by
  cases c <;> rfl

/-- `TakeLatestSample`, from the load to the return. -/
theorem takeLatestSample_gets (hl : ep.history.isLatest = true) :
    Gets alive now (h, ep.at' (.wired i .load)) ((h.takeLatestSample ep i now).2.1,
      (h.takeLatestSample ep i now).2.2.at'
        (.wired i (.ret (h.takeLatestSample ep i now).1))) := by
  cases hr : (ep.loaded (h.latest i)).cached with
  | none =>
      rw [takeLatestSample_none hl hr, loaded_none hr]
      exact .single (load_none hr)
  | some r =>
      rw [takeLatestSample_some hl hr]
      refine .head (load_goes r hr) ((fill_gets h _ i now r).trans ?_)
      rw [SubEp.filled, loaded_history, if_pos hl]
      exact charge_gets

/-- `TryTakeSample`, from the pop to the return. -/
theorem tryTakeSample_gets (hl : ep.history.isLatest = false) :
    Gets alive now (h, ep.at' (.wired i .pop)) ((h.tryTakeSample ep i now).2.1,
      (h.tryTakeSample ep i now).2.2.at' (.wired i (.ret (h.tryTakeSample ep i now).1))) := by
  cases hp : (h.ring i).tryPop with
  | none =>
      have htake : h.tryTakeSample ep i now = (none, h, ep) := by
        simp only [Segment.tryTakeSample, hl, Bool.false_eq_true, if_false, hp]
      rw [htake]
      refine .single ?_
      simp only [Goes, subStep, takeStep, SubEp.at'_pc, hp]
      rfl
  | some x =>
      obtain ⟨r, q⟩ := x
      have htake : h.tryTakeSample ep i now =
          (some (r, ((h.setRing i q).fillSample ep i now r).1),
            ((h.setRing i q).fillSample ep i now r).2.1,
            ((h.setRing i q).fillSample ep i now r).2.2) := by
        simp only [Segment.tryTakeSample, hl, Bool.false_eq_true, if_false, hp]
      rw [htake]
      have hpop : Goes alive now (h, ep.at' (.wired i .pop))
          (h.setRing i q, ep.at' (.wired i (.count r))) := by
        simp only [Goes, subStep, takeStep, SubEp.at'_pc, hp]
        rfl
      refine .head hpop ((fill_gets (h.setRing i q) ep i now r).trans ?_)
      rw [SubEp.filled, hl]
      exact .refl

/-- A take moves neither the endpoint nor its process. -/
theorem takeLatestSample_keeps : (h.takeLatestSample ep i now).2.2.pc = ep.pc ∧
    (h.takeLatestSample ep i now).2.2.pid = ep.pid := by
  cases hl : ep.history.isLatest with
  | false =>
      have htake : h.takeLatestSample ep i now = (none, h, ep) := by
        simp only [Segment.takeLatestSample, hl, Bool.false_eq_true, if_false]
      rw [htake]
      exact ⟨rfl, rfl⟩
  | true =>
      have hload : (ep.loaded (h.latest i)).pc = ep.pc ∧
          (ep.loaded (h.latest i)).pid = ep.pid := by
        cases h.latest i <;> exact ⟨rfl, rfl⟩
      cases hr : (ep.loaded (h.latest i)).cached with
      | none =>
          rw [takeLatestSample_none hl hr]
          exact hload
      | some r =>
          rw [takeLatestSample_some hl hr]
          exact hload

theorem tryTakeSample_keeps : (h.tryTakeSample ep i now).2.2.pc = ep.pc ∧
    (h.tryTakeSample ep i now).2.2.pid = ep.pid := by
  simp only [Segment.tryTakeSample]
  split
  · exact ⟨rfl, rfl⟩
  · split <;> exact ⟨rfl, rfl⟩

/-- `~ShmSubImpl`, after its first store. -/
theorem released_gets : Gets alive now
    (h.setSlot i { h.subSlots i with state := .free }, ep.at' (.released i))
    (h.releaseSubscriberSlot i, ep.at' .gone) := by
  refine .single ?_
  simp only [Goes, subStep, SubEp.at'_pc, setSlot_self, setSlot_setSlot]
  rfl

end Take

/-! ## Whole calls in the world -/

section World

variable {w w' : World T} {e p : Nat} {now : Int}

/-- The first access of a call, with what the call hands it. The two claims start as they
go on, and only on a handle not wired yet. -/
def starts (op : Op T) (w : World T) : Option (Act T) :=
  match op with
  | .advertise p =>
      match (w.pubs p).pc with
      | .unwired => some (.pub p .go)
      | _ => none
  | .publish p _ _ _ | .publishDerived p _ _ _ _ => op.message.map fun m => .pub p (.publish m)
  | .destroyPublisher p => some (.pub p .destroy)
  | .subscribe k =>
      match (w.subs k).pc with
      | .unwired => some (.sub k (.go op.clock))
      | _ => none
  | .takeLatest k _ => some (.sub k .takeLatest)
  | .tryTake k _ => some (.sub k .tryTake)
  | .destroySubscriber k => some (.sub k .destroy)
  | .publishCount _ | .publisherMatched _ | .count _ _ | .subscriberMatched _ => none

/-- And every later one, at the clock of the call. -/
def goesOn (op : Op T) : Act T :=
  match op with
  | .advertise p | .publish p _ _ _ | .publishDerived p _ _ _ _ | .publishCount p
  | .publisherMatched p | .destroyPublisher p => .pub p .go
  | .subscribe k | .takeLatest k _ | .tryTake k _ | .count k _ | .subscriberMatched k
  | .destroySubscriber k => .sub k (.go op.clock)

theorem putPub_eq_self : w.putPub p w.seg (w.pubs p) = w := by
  simp only [World.putPub, Function.update_eq_self]

theorem pub_runs {x y : Segment T × PubEp T}
    (hg : PubGets size w.alive x y) (hlive : w.alive x.2.pid = true) :
    (machine T size).Runs (.pub p .go) (w.putPub p x.1 x.2) (w.putPub p y.1 y.2) := by
  induction hg using Relation.ReflTransGen.head_induction_on with
  | refl => exact .refl
  | @head x z hxz _ ih =>
      have hpid := pubStep_pid hxz
      refine .head ?_ (ih (by rw [hpid]; exact hlive))
      simp only [machine, World.step, World.putPub_self, World.putPub_alive, hlive, if_true,
        World.putPub_seg]
      obtain ⟨h', ep'⟩ := z
      rw [show pubStep size w.alive x.1 x.2 .go = some (h', ep') from hxz]
      exact congrArg some (World.putPub_putPub w p x.1 x.2 h' ep')

/-- An endpoint that is not inside a verb. -/
theorem pub_stuck {ep : PubEp T} (hp : w.pubs p = ep)
    (hpc : ep.pc = .idle ∨ ep.pc = .refused ∨ ep.pc = .gone) :
    (machine T size).step w (.pub p .go) = none := by
  subst hp
  rcases hpc with h | h | h <;> simp only [machine, World.step, pubStep, h, ite_self]

theorem stuck_of_gone (h : (w.subs e).pc = .gone) :
    (machine T size).step w (.sub e (.go now)) = none := by
  simp only [machine, World.step, subStep, h, ite_self]

/-- The process a call is made in lives. -/
structure Lives (op : Op T) (w : World T) : Prop where
  sub : ∀ e, op.subscriber = some e → w.liveSub e
  pub : ∀ p, op.publisher = some p → w.livePub p

/-- Nobody dies and nobody changes processes. -/
structure SameLives (w w' : World T) : Prop where
  sub : ∀ e, w.liveSub e → w'.liveSub e
  pub : ∀ p, w.livePub p → w'.livePub p

theorem SameLives.refl (w : World T) : SameLives w w := ⟨fun _ h => h, fun _ h => h⟩

theorem sameLives_putSub {h : Segment T} {ep : SubEp T} (hpid : ep.pid = (w.subs e).pid) :
    SameLives w (w.putSub e h ep) := by
  refine ⟨fun e' hl => ?_, fun _ hl => hl⟩
  by_cases he : e' = e
  · subst he
    simp only [World.liveSub, World.putSub_self, World.putSub_alive, hpid] at hl ⊢
    exact hl
  · simp only [World.liveSub, World.putSub_ne _ _ _ _ he, World.putSub_alive] at hl ⊢
    exact hl

theorem sameLives_putPub {h : Segment T} {ep : PubEp T} (hpid : ep.pid = (w.pubs p).pid) :
    SameLives w (w.putPub p h ep) := by
  refine ⟨fun _ hl => hl, fun p' hl => ?_⟩
  by_cases hp : p' = p
  · subst hp
    simp only [World.livePub, World.putPub_self, World.putPub_alive, hpid] at hl ⊢
    exact hl
  · simp only [World.livePub, World.putPub_ne _ _ _ _ hp, World.putPub_alive] at hl ⊢
    exact hl

variable [Inhabited T]

/-- The answer of a call, read off the state in which the call has it: where its verb is
about to return, or has left the endpoint. -/
def World.said (u : World T) : Op T → Answer T → Prop
  | .advertise p, a =>
      (u.pubs p).pc = .idle ∧ a = .advertised .ok ∨
        (u.pubs p).pc = .refused ∧ a = .advertised .ownershipRefused
  | .publish p _ _ _, a | .publishDerived p _ _ _ _, a =>
      (u.pubs p).pc = .idle ∧ a = .published .ok
  | .destroyPublisher p, a => (u.pubs p).pc = .gone ∧ a = .done
  | .subscribe k, a =>
      (∃ i, (u.subs k).pc = .wired i .idle) ∧ a = .subscribed .ok ∨
        (u.subs k).pc = .refused ∧ a = .subscribed .unsupportedReach
  | .takeLatest k _, a | .tryTake k _, a =>
      ∃ i r, (u.subs k).pc = .wired i (.ret r) ∧ a = .sample (sampleOf r)
  | .destroySubscriber k, a => (u.subs k).pc = .gone ∧ a = .done
  | _, _ => False

/-- The answer of a call that makes no access of its own: a count that is read, a verb on
a refused handle, and a take of the other history's kind. -/
def World.still (u : World T) : Op T → Answer T → Prop
  | .publish p _ _ _, a | .publishDerived p _ _ _ _, a =>
      (u.pubs p).pc = .refused ∧ a = .published .ok
  | .publishCount p, a =>
      ((u.pubs p).pc = .idle ∨ (u.pubs p).pc = .refused) ∧ a = .number (u.pubs p).publishCount
  | .publisherMatched p, a =>
      (u.pubs p).pc = .idle ∧ a = .number (u.seg.publisherMatched u.alive) ∨
        (u.pubs p).pc = .refused ∧ a = .number 0
  | .takeLatest k _, a =>
      ((u.subs k).pc = .refused ∨ (∃ i, (u.subs k).pc = .wired i .idle) ∧
        (u.subs k).history.isLatest = false) ∧ a = .sample {}
  | .tryTake k _, a =>
      ((u.subs k).pc = .refused ∨ (∃ i, (u.subs k).pc = .wired i .idle) ∧
        (u.subs k).history.isLatest = true) ∧ a = .sample {}
  | .count k c, a =>
      (∃ i, (u.subs k).pc = .wired i .idle ∧ a = .number ((u.seg.subSlots i).counter c)) ∨
        (u.subs k).pc = .refused ∧ a = .number 0
  | .subscriberMatched k, a =>
      (∃ i, (u.subs k).pc = .wired i .idle) ∧ a = .number (u.seg.subscriberMatched u.alive) ∨
        (u.subs k).pc = .refused ∧ a = .number 0
  | _, _ => False

/-- The verbs of the shm reach. -/
def verbs (T : Type) [Inhabited T] : Verbs (World T) (Act T) (Op T) (Answer T) where
  entry := starts
  go := goesOn
  said op a u := u.said op a
  still op a u := u.still op a

theorem verbs_definite (T : Type) [Inhabited T] (size : Nat) :
    Machine.Definite (machine T size) (verbs T) := by
  refine ⟨fun {op a b u} ha hb => ?_, fun {op a b u} ha hb => ?_, fun {op a u v} ha hst => ?_⟩
  · cases op <;> simp only [verbs, World.said] at ha hb
    case advertise p =>
      rcases ha with ⟨h, rfl⟩ | ⟨h, rfl⟩ <;> rcases hb with ⟨h', rfl⟩ | ⟨h', rfl⟩ <;>
        first | rfl | (rw [h] at h'; cases h')
    case subscribe k =>
      rcases ha with ⟨⟨i, h⟩, rfl⟩ | ⟨h, rfl⟩ <;> rcases hb with ⟨⟨j, h'⟩, rfl⟩ | ⟨h', rfl⟩ <;>
        first | rfl | (rw [h] at h'; cases h')
    case takeLatest k | tryTake k =>
      obtain ⟨i, x, h, rfl⟩ := ha
      obtain ⟨j, y, h', rfl⟩ := hb
      rw [h] at h'
      cases h'
      rfl
    all_goals exact ha.2.trans hb.2.symm
  · cases op <;> simp only [verbs, World.still] at ha hb
    case publisherMatched p =>
      rcases ha with ⟨h, rfl⟩ | ⟨h, rfl⟩ <;> rcases hb with ⟨h', rfl⟩ | ⟨h', rfl⟩ <;>
        first | rfl | (rw [h] at h'; cases h')
    case count k =>
      rcases ha with ⟨i, h, rfl⟩ | ⟨h, rfl⟩ <;> rcases hb with ⟨j, h', rfl⟩ | ⟨h', rfl⟩ <;>
        first | rfl | (rw [h] at h'; cases h'; done) | (rw [h] at h'; cases h'; rfl)
    case subscriberMatched k =>
      rcases ha with ⟨⟨i, h⟩, rfl⟩ | ⟨h, rfl⟩ <;> rcases hb with ⟨⟨j, h'⟩, rfl⟩ | ⟨h', rfl⟩ <;>
        first | rfl | (rw [h] at h'; cases h')
    all_goals exact ha.2.trans hb.2.symm
  · -- past its answer an endpoint is idle
    have hsub : ∀ {k i r}, (u.subs k).pc = .wired i (.ret r) →
        (machine T size).step u (.sub k (.go op.clock)) = some v →
        (v.subs k).pc = .wired i .idle := by
      intro k i r hpc hst
      simp only [machine, World.step, subStep, hpc, takeStep] at hst
      split at hst
      · cases hst
        rw [World.putSub_self]
        rfl
      · cases hst
    cases op <;> simp only [verbs, World.said, goesOn] at ha hst ⊢
    case advertise p =>
      rw [pub_stuck rfl (ha.imp And.left fun h => .inl h.1)] at hst
      cases hst
    case publish p | publishDerived p =>
      rw [pub_stuck rfl (.inl ha.1)] at hst
      cases hst
    case destroyPublisher p =>
      rw [pub_stuck rfl (.inr (.inr ha.1))] at hst
      cases hst
    case subscribe k =>
      rcases ha with ⟨⟨i, hpc⟩, -⟩ | ⟨hpc, -⟩
      · rw [stuck_of_idle hpc] at hst
        cases hst
      · rw [stuck_of_refused hpc] at hst
        cases hst
    case destroySubscriber k =>
      rw [stuck_of_gone ha.1] at hst
      cases hst
    case takeLatest k | tryTake k =>
      obtain ⟨i, r, hpc, -⟩ := ha
      have hidle := hsub hpc hst
      refine ⟨stuck_of_idle hidle, ?_⟩
      rintro b ⟨j, r', h, -⟩
      rw [hidle] at h
      cases h

/-- What a call comes to. -/
def Comes (size : Nat) (w : World T) (op : Op T) (a : Answer T) (w' : World T) : Prop :=
  (machine T size).Serves (verbs T) op a w w' ∧ SameLives w w'

/-- A call that makes no access. -/
theorem comes_still {op : Op T} {a : Answer T}
    (hno : ∀ e, starts op w = some e → (machine T size).step w e = none) (hs : w.still op a) :
    Comes size w op a w :=
  ⟨Machine.serves_still hno hs, .refl w⟩

theorem advertise_comes {a : Answer T} (hlive : w.livePub p)
    (h : w.call size (.advertise p) = some (a, w')) : Comes size w (.advertise p) a w' := by
  simp only [World.call] at h
  split at h
  case h_2 => cases h
  next hpc =>
  have hep : (w.pubs p).at' .unwired = w.pubs p := by
    rw [← hpc]
    rfl
  have hal : w.alive (w.pubs p).pid = true := hlive
  have hentry : starts (.advertise p) w = some (goesOn (.advertise p)) := by
    simp only [starts, hpc, goesOn]
  have hgo : ((machine T size).step w (goesOn (.advertise p))).isSome = true := by
    simp only [goesOn, machine, World.step, hal, if_true, pubStep, hpc, Option.isSome_some]
  have hrun : ∀ y : Segment T × PubEp T,
      PubGets size w.alive (w.seg, (w.pubs p).at' .unwired) y →
      (machine T size).Runs (.pub p .go) w (w.putPub p y.1 y.2) := by
    intro y hg
    have hruns : (machine T size).Runs (.pub p .go)
        (w.putPub p w.seg ((w.pubs p).at' .unwired)) (w.putPub p y.1 y.2) := pub_runs hg hlive
    rwa [hep, putPub_eq_self] at hruns
  rw [claimPublisherSlot_eq] at h
  by_cases hc : w.seg.pubPid ≠ 0 ∧ w.alive w.seg.pubPid = true
  · rw [if_pos hc] at h
    cases h
    have hend : ((w.putPub p w.seg ((w.pubs p).at' .refused)).pubs p).pc = .refused := by
      rw [World.putPub_self]
      rfl
    exact ⟨Machine.serves_runs hentry hgo (hrun _ (claimPublisher_refused hc.1 hc.2))
      (.inr ⟨hend, rfl⟩) (pub_stuck rfl (.inr (.inl hend))), sameLives_putPub rfl⟩
  · rw [if_neg hc] at h
    have hgets := hrun _ (claimPublisher_gets hc)
    dsimp only at hgets
    generalize w.seg.takenOver (w.pubs p).pid = g at h hgets
    cases h
    have hend : ((w.putPub p g { w.pubs p with ownsPublisherSlot := true, pc := .idle }).pubs
        p).pc = .idle := by rw [World.putPub_self]
    exact ⟨Machine.serves_runs hentry hgo hgets (.inl ⟨hend, rfl⟩) (pub_stuck rfl (.inl hend)),
      sameLives_putPub rfl⟩

/-- `Publish`, with and without lineage. -/
theorem publish_comes {op : Op T} {a : Answer T} {m : Message T} (hlive : w.livePub p)
    (hentry : starts op w = some (.pub p (.publish m))) (hgo : goesOn op = .pub p .go)
    (hsaid : ∀ u : World T, (u.pubs p).pc = .idle → u.said op (.published .ok))
    (hstill : (w.pubs p).pc = .refused → w.still op (.published .ok))
    (h : w.publish size p m = some (a, w')) : Comes size w op a w' := by
  have hal : w.alive (w.pubs p).pid = true := hlive
  simp only [World.publish] at h
  cases hpc : (w.pubs p).pc with
  | refused =>
      simp only [hpc] at h
      cases h
      refine comes_still (fun e he => ?_) (hstill hpc)
      rw [hentry] at he
      cases he
      simp only [machine, World.step, hal, if_true, pubStep, hpc]
  | idle =>
      simp only [hpc] at h
      have hstart : (machine T size).step w (.pub p (.publish m)) =
          some (w.putPub p w.seg ((w.pubs p).at' (.draw m))) := by
        simp only [machine, World.step, hal, if_true, pubStep, hpc]
      have hmid : (machine T size).Runs (.pub p .go)
          (w.putPub p w.seg ((w.pubs p).at' (.draw m))) (w.putPub p (w.seg.publish size m)
            { w.pubs p with
              publishCount := (w.pubs p).publishCount + 1
              bytes := (w.pubs p).bytes + size, pc := .idle }) :=
        pub_runs (publish_gets w.seg (w.pubs p) m) hlive
      generalize w.seg.publish size m = g at h hmid
      cases h
      have hend : ((w.putPub p g { w.pubs p with
          publishCount := (w.pubs p).publishCount + 1
          bytes := (w.pubs p).bytes + size, pc := .idle }).pubs p).pc = .idle := by
        rw [World.putPub_self]
      rw [← hgo] at hmid
      refine ⟨Machine.serves_ended hentry hstart hmid (hsaid _ hend) ?_, sameLives_putPub rfl⟩
      rw [show (verbs T).go op = _ from hgo]
      exact pub_stuck rfl (.inl hend)
  | _ =>
      simp only [hpc] at h
      cases h

theorem destroyPublisher_comes {a : Answer T} (hlive : w.livePub p)
    (h : w.call size (.destroyPublisher p) = some (a, w')) :
    Comes size w (.destroyPublisher p) a w' := by
  have hal : w.alive (w.pubs p).pid = true := hlive
  simp only [World.call] at h
  cases hpc : (w.pubs p).pc <;> simp only [hpc] at h
  case idle =>
    cases h
    have hstart : (machine T size).step w (.pub p .destroy) =
        some (w.putPub p w.seg ((w.pubs p).at' .casRelease)) := by
      simp only [machine, World.step, hal, if_true, pubStep, hpc]
    have hend : ((w.putPub p (w.seg.releasePublisherSlot (w.pubs p).pid)
        ((w.pubs p).at' .gone)).pubs p).pc = .gone := by
      rw [World.putPub_self]
      rfl
    exact ⟨Machine.serves_ended rfl hstart (pub_runs release_gets hlive) ⟨hend, rfl⟩
      (pub_stuck rfl (.inr (.inr hend))), sameLives_putPub rfl⟩
  case refused =>
    cases h
    have hstart : (machine T size).step w (.pub p .destroy) =
        some (w.putPub p w.seg ((w.pubs p).at' .gone)) := by
      simp only [machine, World.step, hal, if_true, pubStep, hpc]
    have hend : ((w.putPub p w.seg ((w.pubs p).at' .gone)).pubs p).pc = .gone := by
      rw [World.putPub_self]
      rfl
    exact ⟨Machine.serves_ended rfl hstart .refl ⟨hend, rfl⟩ (pub_stuck rfl (.inr (.inr hend))),
      sameLives_putPub rfl⟩
  all_goals cases h

theorem subscribe_comes {a : Answer T} (hlive : w.liveSub e)
    (h : w.call size (.subscribe e) = some (a, w')) : Comes size w (.subscribe e) a w' := by
  have hrun := subscribe_runs hlive h 0
  have hal : w.alive (w.subs e).pid = true := hlive
  simp only [World.call] at h
  split at h
  · next hpc =>
      have hentry : starts (.subscribe e) w = some (goesOn (.subscribe e)) := by
        simp only [starts, hpc, goesOn]
      have hgo : ((machine T size).step w (goesOn (.subscribe e))).isSome = true := by
        simp only [goesOn, machine, World.step, hal, if_true, subStep, hpc, Option.isSome_some]
      split at h
      · next i hc =>
          generalize hg : w.seg.occupy i (w.subs e) = g at h
          cases h
          have hend : ((w.putSub e g ((w.subs e).at' (.wired i .idle))).subs e).pc =
              .wired i .idle := by
            rw [World.putSub_self]
            rfl
          exact ⟨Machine.serves_runs hentry hgo hrun (.inl ⟨⟨i, hend⟩, rfl⟩)
            (stuck_of_idle hend), sameLives_putSub rfl⟩
      · next hc =>
          cases h
          have hend : ((w.putSub e w.seg ((w.subs e).at' .refused)).subs e).pc = .refused := by
            rw [World.putSub_self]
            rfl
          exact ⟨Machine.serves_runs hentry hgo hrun (.inr ⟨hend, rfl⟩) (stuck_of_refused hend),
            sameLives_putSub rfl⟩
  · cases h

theorem destroySubscriber_comes {a : Answer T} (hlive : w.liveSub e)
    (h : w.call size (.destroySubscriber e) = some (a, w')) :
    Comes size w (.destroySubscriber e) a w' := by
  have hal : w.alive (w.subs e).pid = true := hlive
  simp only [World.call] at h
  split at h
  · next i hpc =>
      cases h
      have hstart : (machine T size).step w (.sub e .destroy) = some (w.putSub e
          (w.seg.setSlot i { w.seg.subSlots i with state := .free })
          ((w.subs e).at' (.released i))) := by
        simp only [machine, World.step, hal, if_true, subStep, hpc]
      have hend : ((w.putSub e (w.seg.releaseSubscriberSlot i)
          ((w.subs e).at' .gone)).subs e).pc = .gone := by
        rw [World.putSub_self]
        rfl
      exact ⟨Machine.serves_ended rfl hstart (gets_runs released_gets hlive) ⟨hend, rfl⟩
        (stuck_of_gone hend), sameLives_putSub rfl⟩
  · next hpc =>
      cases h
      have hstart : (machine T size).step w (.sub e .destroy) =
          some (w.putSub e w.seg ((w.subs e).at' .gone)) := by
        simp only [machine, World.step, hal, if_true, subStep, hpc]
      have hend : ((w.putSub e w.seg ((w.subs e).at' .gone)).subs e).pc = .gone := by
        rw [World.putSub_self]
        rfl
      exact ⟨Machine.serves_ended rfl hstart .refl ⟨hend, rfl⟩ (stuck_of_gone hend),
        sameLives_putSub rfl⟩
  · cases h

/-- A take verb that finds its mailbox. -/
theorem take_comes (now : Int) {op : Op T} {b : SubAct} {i : Nat} {t : TakePc T}
    {x : Option (MailRecord T × Bool) × Segment T × SubEp T} (hlive : w.liveSub e)
    (hpc : (w.subs e).pc = .wired i .idle) (hentry : starts op w = some (.sub e b))
    (hgo : goesOn op = .sub e (.go now))
    (hsaid : ∀ (u : World T) r, (u.subs e).pc = .wired i (.ret r) →
      u.said op (.sample (sampleOf r)))
    (hstart : subStep w.alive w.seg (w.subs e) b = some (w.seg, (w.subs e).at' (.wired i t)))
    (hmid : Gets w.alive now (w.seg, (w.subs e).at' (.wired i t))
      (x.2.1, x.2.2.at' (.wired i (.ret x.1))))
    (hkeeps : x.2.2.pc = (w.subs e).pc ∧ x.2.2.pid = (w.subs e).pid) :
    Comes size w op (.sample (sampleOf x.1)) (w.putSub e x.2.1 x.2.2) := by
  obtain ⟨r, h', ep'⟩ := x
  dsimp only at hmid hkeeps ⊢
  have hal : w.alive (w.subs e).pid = true := hlive
  have henter : (machine T size).step w (.sub e b) =
      some (w.putSub e w.seg ((w.subs e).at' (.wired i t))) := by
    simp only [machine, World.step, hal, if_true, hstart]
  have hto : (machine T size).Runs (.sub e (.go now))
      (w.putSub e w.seg ((w.subs e).at' (.wired i t)))
      (w.putSub e h' (ep'.at' (.wired i (.ret r)))) := gets_runs hmid hlive
  have hidle : ep'.at' (.wired i .idle) = ep' := by
    rw [← hpc, ← hkeeps.1]
    rfl
  have hback : (machine T size).step (w.putSub e h' (ep'.at' (.wired i (.ret r))))
      (.sub e (.go now)) = some (w.putSub e h' ep') := by
    have hal' : (w.putSub e h' (ep'.at' (.wired i (.ret r)))).alive
        ((w.putSub e h' (ep'.at' (.wired i (.ret r)))).subs e).pid = true := by
      rw [World.putSub_self, SubEp.at'_pid, hkeeps.2]
      exact hal
    simp only [machine, World.step, if_pos hal']
    simp only [World.putSub_self, World.putSub_seg, subStep, SubEp.at'_pc, takeStep,
      World.putSub_putSub]
    rw [show (ep'.at' (.wired i (.ret r))).at' (.wired i .idle) = ep' from hidle]
  rw [← hgo] at hto hback
  refine ⟨Machine.serves_entered hentry henter hto (hsaid _ r ?_) (.single hback) ?_,
    sameLives_putSub hkeeps.2⟩
  · rw [World.putSub_self]
    rfl
  · rw [show (verbs T).go op = _ from hgo]
    refine stuck_of_idle (i := i) ?_
    rw [World.putSub_self, hkeeps.1]
    exact hpc

theorem takeLatest_comes {a : Answer T} (hlive : w.liveSub e)
    (h : w.call size (.takeLatest e now) = some (a, w')) :
    Comes size w (.takeLatest e now) a w' := by
  simp only [World.call, World.take] at h
  split at h
  · next i hpc =>
      cases h
      cases hl : (w.subs e).history.isLatest with
      | true =>
          refine take_comes now (b := .takeLatest) hlive hpc rfl rfl
            (fun u r h0 => ⟨i, r, h0, rfl⟩) ?_ (takeLatestSample_gets hl) takeLatestSample_keeps
          simp only [subStep, hpc, hl, if_true]
      | false =>
          have htake : w.seg.takeLatestSample (w.subs e) i now = (none, w.seg, w.subs e) := by
            simp only [Segment.takeLatestSample, hl, Bool.false_eq_true, if_false]
          rw [htake]
          dsimp only
          rw [putSub_eq_self]
          refine comes_still (fun x hx => ?_) ⟨.inr ⟨⟨i, hpc⟩, hl⟩, rfl⟩
          cases hx
          simp only [machine, World.step, subStep, hpc, hl, Bool.false_eq_true, if_false, ite_self]
  · next hpc =>
      cases h
      refine comes_still (fun x hx => ?_) ⟨.inl hpc, rfl⟩
      cases hx
      simp only [machine, World.step, subStep, hpc, ite_self]
  · cases h

theorem tryTake_comes {a : Answer T} (hlive : w.liveSub e)
    (h : w.call size (.tryTake e now) = some (a, w')) : Comes size w (.tryTake e now) a w' := by
  simp only [World.call, World.take] at h
  split at h
  · next i hpc =>
      cases h
      cases hl : (w.subs e).history.isLatest with
      | false =>
          refine take_comes now (b := .tryTake) hlive hpc rfl rfl
            (fun u r h0 => ⟨i, r, h0, rfl⟩) ?_ (tryTakeSample_gets hl) tryTakeSample_keeps
          simp only [subStep, hpc, hl, Bool.false_eq_true, if_false]
      | true =>
          have htake : w.seg.tryTakeSample (w.subs e) i now = (none, w.seg, w.subs e) := by
            simp only [Segment.tryTakeSample, hl, if_true]
          rw [htake]
          dsimp only
          rw [putSub_eq_self]
          refine comes_still (fun x hx => ?_) ⟨.inr ⟨⟨i, hpc⟩, hl⟩, rfl⟩
          cases hx
          simp only [machine, World.step, subStep, hpc, hl, if_true, ite_self]
  · next hpc =>
      cases h
      refine comes_still (fun x hx => ?_) ⟨.inl hpc, rfl⟩
      cases hx
      simp only [machine, World.step, subStep, hpc, ite_self]
  · cases h

/-- The introspection reads. -/
theorem read_comes {op : Op T} {a : Answer T} (h : w.call size op = some (a, w'))
    (hop : (∃ p, op = .publishCount p ∨ op = .publisherMatched p) ∨
      ∃ k, (∃ c, op = .count k c) ∨ op = .subscriberMatched k) : Comes size w op a w' := by
  have hans : w' = w ∧ w.still op a ∧ starts op w = none := by
    rcases hop with ⟨p, rfl | rfl⟩ | ⟨k, ⟨c, rfl⟩ | rfl⟩ <;> simp only [World.call] at h <;>
      split at h <;> cases h <;> refine ⟨rfl, ?_, rfl⟩
    · exact ⟨.inl (by assumption), rfl⟩
    · exact ⟨.inr (by assumption), rfl⟩
    · exact .inl ⟨by assumption, rfl⟩
    · exact .inr ⟨by assumption, rfl⟩
    · exact .inl ⟨_, by assumption, rfl⟩
    · exact .inr ⟨by assumption, rfl⟩
    · exact .inl ⟨⟨_, by assumption⟩, rfl⟩
    · exact .inr ⟨by assumption, rfl⟩
  obtain ⟨rfl, hstill, hno⟩ := hans
  refine comes_still (fun e he => ?_) hstill
  rw [hno] at he
  cases he

theorem call_comes {op : Op T} {a : Answer T} (hlive : Lives op w)
    (h : w.call size op = some (a, w')) : Comes size w op a w' := by
  cases op with
  | advertise p => exact advertise_comes (hlive.pub p rfl) h
  | publish p value context now | publishDerived p value upstream context now =>
      exact publish_comes (hlive.pub p rfl) rfl rfl (fun _ h0 => ⟨h0, rfl⟩)
        (fun h0 => ⟨h0, rfl⟩) h
  | publishCount p => exact read_comes h (.inl ⟨p, .inl rfl⟩)
  | publisherMatched p => exact read_comes h (.inl ⟨p, .inr rfl⟩)
  | destroyPublisher p => exact destroyPublisher_comes (hlive.pub p rfl) h
  | subscribe k => exact subscribe_comes (hlive.sub k rfl) h
  | takeLatest k now => exact takeLatest_comes (hlive.sub k rfl) h
  | tryTake k now => exact tryTake_comes (hlive.sub k rfl) h
  | count k c => exact read_comes h (.inr ⟨k, .inl ⟨c, rfl⟩⟩)
  | subscriberMatched k => exact read_comes h (.inr ⟨k, .inr rfl⟩)
  | destroySubscriber k => exact destroySubscriber_comes (hlive.sub k rfl) h

/-- What the machine plays as a call, the functions answer. -/
theorem call_made {op : Op T} {a : Answer T}
    (h : (machine T size).Serves (verbs T) op a w w') : (w.call size op).isSome = true := by
  rcases h.cases with ⟨e, u, he, hst⟩ | hstill
  · -- the endpoint is where the verb starts
    cases op <;> simp only [verbs, starts, Op.message, Option.map_some, reduceCtorEq] at he
    case advertise p =>
      cases hpc : (w.pubs p).pc <;> simp only [hpc, reduceCtorEq] at he
      simp only [World.call, hpc]
      split <;> rfl
    case subscribe k =>
      cases hpc : (w.subs k).pc <;> simp only [hpc, reduceCtorEq] at he
      simp only [World.call, hpc]
      split <;> rfl
    case publish p value context now | publishDerived p value upstream context now |
        destroyPublisher p =>
      cases he
      simp only [machine, World.step] at hst
      split at hst
      · split at hst
        · next hs =>
            simp only [pubStep] at hs
            cases hpc : (w.pubs p).pc <;> simp only [hpc, reduceCtorEq] at hs
            all_goals
              simp only [World.call, World.publish, hpc]
              rfl
        · cases hst
      · cases hst
    case takeLatest k now | tryTake k now | destroySubscriber k =>
      cases he
      simp only [machine, World.step] at hst
      split at hst
      · split at hst
        · next hs =>
            simp only [subStep] at hs
            split at hs <;> first | cases hs; done | skip
            all_goals
              next hpc => simp only [World.call, World.take, hpc, Option.isSome_some]
        · cases hst
      · cases hst
  · cases op <;> simp only [verbs, World.still] at hstill
    case publish p value context now | publishDerived p value upstream context now =>
      simp only [World.call, World.publish, hstill.1, Option.isSome_some]
    case publishCount p =>
      rcases hstill.1 with hpc | hpc <;> simp only [World.call, hpc, Option.isSome_some]
    case publisherMatched p =>
      rcases hstill with ⟨hpc, -⟩ | ⟨hpc, -⟩ <;> simp only [World.call, hpc, Option.isSome_some]
    case takeLatest k now | tryTake k now =>
      rcases hstill.1 with hpc | ⟨⟨i, hpc⟩, -⟩ <;>
        simp only [World.call, World.take, hpc, Option.isSome_some]
    case count k c =>
      rcases hstill with ⟨i, hpc, -⟩ | ⟨hpc, -⟩ <;> simp only [World.call, hpc, Option.isSome_some]
    case subscriberMatched k =>
      rcases hstill with ⟨⟨i, hpc⟩, -⟩ | ⟨hpc, -⟩ <;>
        simp only [World.call, hpc, Option.isSome_some]

end World

/-- A live process's call, and that it takes nobody's life. -/
theorem lives_comes [Inhabited T] {w w' : World T} {op : Op T} {a : Answer T} (hlive : Lives op w)
    (h : w.call size op = some (a, w')) :
    (machine T size).Serves (verbs T) op a w w' ∧ ∀ op' : Op T, Lives op' w → Lives op' w' := by
  obtain ⟨hserves, hsame⟩ := call_comes hlive h
  refine ⟨hserves, fun op' hop' => ⟨fun e he => ?_, fun p hp => ?_⟩⟩
  · exact hsame.sub e (hop'.sub e he)
  · exact hsame.pub p (hop'.pub p hp)

/-- Programs of whole calls, made in live processes from any state the interleaved code
reaches, whoever has died before and wherever the others stand: the conversations of the
call functions are those of the code in which only the endpoint called moves, on the
message and the clock of its call, and each of them ends in a state the code reaches. -/
theorem shm_calls_are_runs [Inhabited T] {w : World T} (hw : (machine T size).Reached anyStep w)
    (as : List (Op T × Answer T)) (hlive : ∀ x ∈ as, Lives x.1 w) (w' : World T) :
    (script (World.call size) (as.map Prod.fst) w = some (as, w') ↔
      (machine T size).Played (verbs T) w as w') ∧
    ((machine T size).Played (verbs T) w as w' → (machine T size).Reached anyStep w') :=
  ⟨Machine.script_iff_played (verbs_definite T size) (fun _ _ _ _ hs hc => lives_comes hs hc)
    (fun _ _ _ _ _ h => call_made h) hlive, fun h => h.reached hw⟩

/-- Publisher 0 dies inside its first store into the master cell; publisher 1 takes the
slot over, a subscriber joins, and a publish is taken. -/
theorem shm_calls_reclaimed : ∃ w w' : World Nat, ∃ as, w.alive w.seg.pubPid = false ∧
    (machine Nat 8).Reached anyStep w' ∧ (machine Nat 8).Played (verbs Nat) w as w' ∧
    as = [(.advertise 1, .advertised .ok), (.subscribe 0, .subscribed .ok),
      (.publish 1 9 0 5, .published .ok),
      (.takeLatest 0 6, .sample ((Message.record { value := 9, now := 5 } 2).sample false))] := by
  let w₀ : World Nat := { subs := fun e => { pid := e + 10 }, pubs := fun p => { pid := p + 1 } }
  let as : List (Op Nat × Answer Nat) := [(.advertise 1, .advertised .ok),
    (.subscribe 0, .subscribed .ok), (.publish 1 9 0 5, .published .ok),
    (.takeLatest 0 6, .sample ((Message.record { value := 9, now := 5 } 2).sample false))]
  have hstart : ((machine Nat 8).exec (pubGo 0 21 ++ [.pub 0 (.publish { value := 7 }), .pub 0 .go,
      .pub 0 .go, .die 1]) w₀).map (fun w => (!w.alive w.seg.pubPid && w.alive 2 && w.alive 10 &&
        (w.pubs 1).pid == 2 && (w.subs 0).pid == 10,
        (script (World.call 8) (as.map Prod.fst) w).map (·.1))) = some (true, some as) := by
    decide +kernel
  obtain ⟨w, hw, hf⟩ := Option.map_eq_some_iff.mp hstart
  simp only [Prod.mk.injEq, Bool.and_eq_true, Bool.not_eq_true', beq_iff_eq] at hf
  obtain ⟨⟨⟨⟨⟨hdead, hpub⟩, hsub⟩, hp⟩, hs⟩, hrun⟩ := hf
  obtain ⟨⟨bs, w'⟩, hscript, hbs⟩ := Option.map_eq_some_iff.mp hrun
  obtain rfl : bs = as := hbs
  have hreach : (machine Nat 8).Reached anyStep w :=
    Machine.reached_of_exec (.start ⟨rfl, fun _ => rfl, fun e => ⟨Nat.succ_ne_zero _, rfl, rfl⟩,
      fun p => ⟨Nat.succ_ne_zero _, rfl, rfl⟩⟩) hw
  have hlive : ∀ x ∈ as, Lives x.1 w := by
    intro x hx
    simp only [as, List.mem_cons, List.not_mem_nil, or_false] at hx
    refine ⟨fun e he => ?_, fun p hp' => ?_⟩
    · have : e = 0 := by rcases hx with rfl | rfl | rfl | rfl <;> cases he <;> rfl
      rw [this, World.liveSub, hs]
      exact hsub
    · have : p = 1 := by rcases hx with rfl | rfl | rfl | rfl <;> cases hp' <;> rfl
      rw [this, World.livePub, hp]
      exact hpub
  obtain ⟨hiff, hreached⟩ := shm_calls_are_runs hreach as hlive w'
  have hplayed := hiff.mp hscript
  exact ⟨w, w', as, hdead, hreached hplayed, hplayed, rfl⟩

end Xmmsg.Shm
