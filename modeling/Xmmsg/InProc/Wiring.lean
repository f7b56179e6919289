import Xmmsg.InProc.Steps
import Mathlib.Data.Finset.Card
import Mathlib.Tactic.Common

/-!
# The wiring mutex, the slot table, and one publish at a time

Three facts every later result stands on. Only the holder of the wiring mutex
edits the slot table, so a subscriber sits in at most one slot and the slot it
found empty is empty when it attaches. Ownership leaves a topic with one exclusive
publisher or with shared ones only. And the shared ones publish under the write
mutex, so at any moment at most one publisher is inside `Deliver`.
-/

namespace Xmmsg.InProc

open Xmmsg.Sys

variable {T : Type} {size : Nat}

/-! ## The slot table -/

/-- Holding the wiring mutex. -/
def SubPc.wiring : SubPc T → Bool
  | .create | .loadMaster | .seed _ | .scan _ | .attach _ | .retain | .unlock | .find _
  | .clear _ | .uncount | .leave => true
  | _ => false

/-- Between the attach store and the clear. -/
def SubPc.attached : SubPc T → Bool
  | .retain | .unlock | .wired _ | .find _ | .clear _ => true
  | _ => false

/-- What the table says about one subscriber. -/
structure Own (h : Topic T) (k : Nat) (pc : SubPc T) : Prop where
  mutex : pc.wiring = true → h.wiringMutex = some k
  attached : ∀ i, h.subSlots i = some k → pc.attached = true ∧ i < kMaxSubscribers
  unique : ∀ i j, h.subSlots i = some k → h.subSlots j = some k → i = j
  attach : ∀ i, pc = .attach i → h.subSlots i = none ∧ i < kMaxSubscribers
  find : ∀ j, pc = .find j → ∀ i, h.subSlots i = some k → j ≤ i
  clear : ∀ i, pc = .clear i → h.subSlots i = some k

def SlotInv (w : World T) : Prop := ∀ k, Own w.topic k (w.subs k).pc

/-- Somebody else's step leaves a subscriber's part of the table alone. -/
theorem Own.frame {h h' : Topic T} {k : Nat} {pc : SubPc T} (hk : Own h k pc)
    (hm : h.wiringMutex = some k → h'.wiringMutex = some k)
    (hs : ∀ i, h'.subSlots i = some k ↔ h.subSlots i = some k)
    (ha : ∀ i, pc = .attach i → h'.subSlots i = none) : Own h' k pc where
  mutex hw := hm (hk.mutex hw)
  attached i hi := hk.attached i ((hs i).mp hi)
  unique i j hi hj := hk.unique i j ((hs i).mp hi) ((hs j).mp hj)
  attach i hi := ⟨ha i hi, (hk.attach i hi).2⟩
  find j hj i hi := hk.find j hj i ((hs i).mp hi)
  clear i hi := (hs i).mpr (hk.clear i hi)

/-- A subscriber that is not in the table and not about to be. -/
theorem Own.absent {h : Topic T} {k : Nat} {pc : SubPc T}
    (hm : pc.wiring = true → h.wiringMutex = some k) (hs : ∀ i, h.subSlots i ≠ some k)
    (ha : ∀ i, pc ≠ .attach i) (hc : ∀ i, pc ≠ .clear i) : Own h k pc where
  mutex := hm
  attached i hi := absurd hi (hs i)
  unique i _ hi _ := absurd hi (hs i)
  attach i hi := absurd hi (ha i)
  find _ _ i hi := absurd hi (hs i)
  clear i hi := absurd hi (hc i)

/-- A subscriber moving on where it is. -/
theorem Own.advance {h h' : Topic T} {k : Nat} {pc pc' : SubPc T} (hk : Own h k pc)
    (hs : h'.subSlots = h.subSlots) (hm : pc'.wiring = true → h'.wiringMutex = some k)
    (hat : pc.attached = true → pc'.attached = true) (ha : ∀ i, pc' ≠ .attach i)
    (hf : ∀ j, pc' = .find j → ∀ i, h.subSlots i = some k → j ≤ i)
    (hc : ∀ i, pc' ≠ .clear i) : Own h' k pc' where
  mutex := hm
  attached i hi := by
    rw [hs] at hi
    exact ⟨hat (hk.attached i hi).1, (hk.attached i hi).2⟩
  unique i j hi hj := by
    rw [hs] at hi hj
    exact hk.unique i j hi hj
  attach i hi := absurd hi (ha i)
  find j hj i hi := hf j hj i (by rw [← hs]; exact hi)
  clear i hi := absurd hi (hc i)

theorem SlotInv.not_attached {w : World T} (h : SlotInv w) {k : Nat}
    (hpc : (w.subs k).pc.attached = false) (i : Nat) : w.topic.subSlots i ≠ some k := by
  intro hi
  have := ((h k).attached i hi).1
  rw [hpc] at this
  cases this

@[simp] theorem SubEp.at'_pc (ep : SubEp T) (pc : SubPc T) : (ep.at' pc).pc = pc := rfl

@[simp] theorem SubEp.at'_qos (ep : SubEp T) (pc : SubPc T) : (ep.at' pc).qos = ep.qos := rfl

@[simp] theorem Topic.setCore_subSlots (h : Topic T) (k : Nat) (c : SubCore T) :
    (h.setCore k c).subSlots = h.subSlots := rfl

@[simp] theorem Topic.setCore_wiringMutex (h : Topic T) (k : Nat) (c : SubCore T) :
    (h.setCore k c).wiringMutex = h.wiringMutex := rfl

/-- What a subscriber's access does to the table and the mutex. -/
inductive WireMove (h : Topic T) (k : Nat) (pc : SubPc T) : Topic T → SubPc T → Prop
  | quiet {h' : Topic T} {pc' : SubPc T} : h'.subSlots = h.subSlots →
      h'.wiringMutex = h.wiringMutex → pc'.wiring = pc.wiring →
      (pc.attached = true → pc'.attached = true) → (∀ i, pc' ≠ .attach i) →
      (∀ j, pc' = .find j → ∃ j', pc = .find j' ∧ j = j' + 1 ∧ h.subSlots j' ≠ some k) →
      (∀ i, pc' ≠ .clear i) → WireMove h k pc h' pc'
  | acquire {pc' : SubPc T} : h.wiringMutex = none → pc.wiring = false →
      pc = .unwired ∧ pc' = .create ∨ pc = .wired .idle ∧ pc' = .find 0 →
      WireMove h k pc { h with wiringMutex := some k } pc'
  | found (i : Nat) : pc = .scan i → i < kMaxSubscribers → h.subSlots i = none →
      WireMove h k pc h (.attach i)
  | attach (i : Nat) : pc = .attach i → WireMove h k pc (h.setSlot i (some k)) .retain
  | release {pc' : SubPc T} : pc.wiring = true →
      pc = .unlock ∧ pc' = .wired .idle ∨ pc = .leave ∧ pc' = .gone →
      WireMove h k pc { h with wiringMutex := none } pc'
  | spot (i : Nat) : pc = .find i → h.subSlots i = some k → WireMove h k pc h (.clear i)
  | missed (i : Nat) : pc = .find i → ¬ i < kMaxSubscribers → WireMove h k pc h .leave
  | clear (i : Nat) : pc = .clear i → WireMove h k pc (h.setSlot i none) .uncount

theorem subStep_wireMove {h h' : Topic T} {k : Nat} {ep ep' : SubEp T} {a : SubAct}
    (hs : subStep h k ep a = some (h', ep')) :
    WireMove h k ep.pc h' ep'.pc ∧ ep'.qos = ep.qos := by
  cases a with
  | subscribe =>
      simp only [subStep] at hs
      split at hs
      · next hpc hm =>
          cases hs
          exact ⟨.acquire hm (by rw [hpc]; rfl) (.inl ⟨hpc, rfl⟩), rfl⟩
      · cases hs
  | destroy =>
      simp only [subStep] at hs
      split at hs
      · next hpc hm =>
          cases hs
          exact ⟨.acquire hm (by rw [hpc]; rfl) (.inr ⟨hpc, rfl⟩), rfl⟩
      · cases hs
  | takeLatest | tryTake =>
      simp only [subStep] at hs
      split at hs
      · next hpc hb =>
          cases hs
          exact ⟨.quiet rfl rfl (by rw [hpc]; rfl) (fun _ => rfl) (by simp) (by simp)
            (by simp), rfl⟩
      · cases hs
  | go now =>
      simp only [subStep] at hs
      cases hpc : ep.pc <;> simp only [hpc] at hs
      case unwired | gone => cases hs
      case create =>
        cases hs
        cases ep.qos.history.isLatest <;>
          exact ⟨.quiet rfl rfl rfl (fun h0 => nomatch h0) (by simp) (by simp) (by simp), rfl⟩
      case loadMaster =>
        split at hs <;> cases hs <;>
          exact ⟨.quiet rfl rfl rfl (fun h0 => nomatch h0) (by simp) (by simp) (by simp), rfl⟩
      case seed r =>
        cases hs
        exact ⟨.quiet rfl rfl rfl (fun h0 => nomatch h0) (by simp) (by simp) (by simp), rfl⟩
      case scan i =>
        split at hs
        · next hi =>
          split at hs <;> cases hs
          · next hn => exact ⟨.found i rfl hi hn, rfl⟩
          · exact ⟨.quiet rfl rfl rfl (fun h0 => nomatch h0) (by simp) (by simp) (by simp), rfl⟩
        · cases hs
          exact ⟨.quiet rfl rfl rfl (fun h0 => nomatch h0) (by simp) (by simp) (by simp), rfl⟩
      case attach i => cases hs; exact ⟨.attach i rfl, rfl⟩
      case retain =>
        cases hs
        exact ⟨.quiet rfl rfl rfl (fun _ => rfl) (by simp) (by simp) (by simp), rfl⟩
      case unlock => cases hs; exact ⟨.release rfl (.inl ⟨rfl, rfl⟩), rfl⟩
      case wired t =>
        split at hs
        · cases hs
          exact ⟨.quiet rfl rfl rfl (fun _ => rfl) (by simp) (by simp) (by simp), rfl⟩
        · cases hs
      case find i =>
        split at hs
        · split at hs <;> cases hs
          · next hi => exact ⟨.spot i rfl hi, rfl⟩
          · next hi =>
            refine ⟨.quiet rfl rfl rfl (fun _ => rfl) (by simp) ?_ (by simp), rfl⟩
            intro j hj
            cases hj
            exact ⟨i, rfl, rfl, hi⟩
        · next hi => cases hs; exact ⟨.missed i rfl hi, rfl⟩
      case clear i => cases hs; exact ⟨.clear i rfl, rfl⟩
      case uncount =>
        cases hs
        exact ⟨.quiet rfl rfl rfl (fun h0 => nomatch h0) (by simp) (by simp) (by simp), rfl⟩
      case leave => cases hs; exact ⟨.release rfl (.inr ⟨rfl, rfl⟩), rfl⟩

theorem WireMove.own {h h' : Topic T} {k : Nat} {pc pc' : SubPc T} (hk : Own h k pc)
    (hm : WireMove h k pc h' pc') : Own h' k pc' := by
  cases hm with
  | quiet hs hmx hw hat ha hf hc =>
      refine hk.advance hs (fun h0 => ?_) hat ha (fun j hj i hi => ?_) hc
      · rw [hmx]
        exact hk.mutex (hw ▸ h0)
      · obtain ⟨j', hpc, rfl, hne⟩ := hf j hj
        have hle := hk.find j' hpc i hi
        have hij : i ≠ j' := by
          rintro rfl
          exact hne hi
        omega
  | acquire _ _ hpc =>
      rcases hpc with ⟨hpc, rfl⟩ | ⟨hpc, rfl⟩
      · refine .absent (fun _ => rfl) (fun i hi => ?_) (by simp) (by simp)
        have := (hk.attached i hi).1
        rw [hpc] at this
        cases this
      · refine hk.advance rfl (fun _ => rfl) (fun _ => rfl) (by simp) ?_ (by simp)
        intro j hj i _
        cases hj
        exact Nat.zero_le i
  | found i hpc hi hn =>
      have hnot : ∀ j, h.subSlots j ≠ some k := by
        intro j hj
        have := (hk.attached j hj).1
        rw [hpc] at this
        cases this
      exact {
        mutex := fun _ => hk.mutex (by rw [hpc]; rfl)
        attached := fun j hj => absurd hj (hnot j)
        unique := fun j _ hj _ => absurd hj (hnot j)
        attach := fun j hj => by cases hj; exact ⟨hn, hi⟩
        find := fun j hj => nomatch hj
        clear := fun j hj => nomatch hj }
  | attach i hpc =>
      have hnot : ∀ j, h.subSlots j ≠ some k := by
        intro j hj
        have := (hk.attached j hj).1
        rw [hpc] at this
        cases this
      have hself : ∀ j, (h.setSlot i (some k)).subSlots j = some k → j = i := by
        intro j hj
        by_contra e
        simp only [Topic.setSlot, Function.update_of_ne e] at hj
        exact hnot j hj
      exact {
        mutex := fun _ => hk.mutex (by rw [hpc]; rfl)
        attached := fun j hj => ⟨rfl, hself j hj ▸ (hk.attach i hpc).2⟩
        unique := fun j j' hj hj' => (hself j hj).trans (hself j' hj').symm
        attach := fun j hj => nomatch hj
        find := fun j hj => nomatch hj
        clear := fun j hj => nomatch hj }
  | release _ hpc =>
      rcases hpc with ⟨hpc, rfl⟩ | ⟨hpc, rfl⟩
      · exact hk.advance rfl (fun h0 => nomatch h0) (fun _ => rfl) (by simp) (by simp) (by simp)
      · refine hk.advance rfl (fun h0 => nomatch h0) (fun h0 => ?_) (by simp) (by simp) (by simp)
        rw [hpc] at h0
        cases h0
  | spot i hpc hi =>
      exact {
        mutex := fun _ => hk.mutex (by rw [hpc]; rfl)
        attached := fun j hj => ⟨rfl, (hk.attached j hj).2⟩
        unique := hk.unique
        attach := fun j hj => nomatch hj
        find := fun j hj => nomatch hj
        clear := fun j hj => by cases hj; exact hi }
  | missed i hpc hi =>
      refine .absent (fun _ => hk.mutex (by rw [hpc]; rfl)) (fun j hj => ?_) (by simp) (by simp)
      have h1 := hk.find i hpc j hj
      have h2 := (hk.attached j hj).2
      omega
  | clear i hpc =>
      refine .absent (fun _ => hk.mutex (by rw [hpc]; rfl)) (fun j hj => ?_) (by simp) (by simp)
      by_cases e : j = i
      · simp [Topic.setSlot, e] at hj
      · simp only [Topic.setSlot, Function.update_of_ne e] at hj
        exact e (hk.unique j i hj (hk.clear i hpc))

/-- A subscriber edits the table for itself only. -/
theorem WireMove.slots_other {h h' : Topic T} {k k' : Nat} {pc pc' : SubPc T} (hne : k' ≠ k)
    (hk : Own h k pc) (hm : WireMove h k pc h' pc') (i : Nat) :
    h'.subSlots i = some k' ↔ h.subSlots i = some k' := by
  cases hm with
  | quiet hs => rw [hs]
  | acquire | found | release | spot | missed => rfl
  | attach j hpc =>
      by_cases e : i = j
      · rw [e]
        simp [Topic.setSlot, (hk.attach j hpc).1, hne.symm]
      · simp [Topic.setSlot, Function.update_of_ne e]
  | clear j hpc =>
      by_cases e : i = j
      · rw [e]
        simp [Topic.setSlot, hk.clear j hpc, hne.symm]
      · simp [Topic.setSlot, Function.update_of_ne e]

theorem WireMove.others {h h' : Topic T} {k k' : Nat} {pc pc' q : SubPc T} (hne : k' ≠ k)
    (hk : Own h k pc) (hk' : Own h k' q) (hm : WireMove h k pc h' pc') : Own h' k' q := by
  -- whoever holds the mutex is alone with the table
  have hexcl : pc.wiring = true → h.wiringMutex ≠ some k' := by
    intro hw h0
    rw [hk.mutex hw] at h0
    exact hne (Option.some.inj h0).symm
  have hat : pc.wiring = true → ∀ i, q ≠ .attach i := by
    intro hw i hq
    exact hexcl hw (hk'.mutex (by rw [hq]; rfl))
  have hslots := hm.slots_other hne hk
  cases hm with
  | quiet hs hmx =>
      exact hk'.frame (fun h0 => hmx ▸ h0) hslots
        (fun i hq => by rw [hs]; exact (hk'.attach i hq).1)
  | acquire hn =>
      exact hk'.frame (fun h0 => nomatch hn.symm.trans h0) (fun _ => Iff.rfl)
        (fun i hq => (hk'.attach i hq).1)
  | found i hpc hi hn => exact hk'
  | attach i hpc =>
      have hw : pc.wiring = true := by rw [hpc]; rfl
      exact hk'.frame (fun h0 => absurd h0 (hexcl hw)) hslots
        (fun j hq => absurd hq (hat hw j))
  | release hw hpc =>
      exact hk'.frame (fun h0 => absurd h0 (hexcl hw)) (fun _ => Iff.rfl)
        (fun j hq => absurd hq (hat hw j))
  | spot i hpc hi => exact hk'
  | missed i hpc hi => exact hk'
  | clear i hpc =>
      have hw : pc.wiring = true := by rw [hpc]; rfl
      exact hk'.frame (fun h0 => absurd h0 (hexcl hw)) hslots
        (fun j hq => absurd hq (hat hw j))

/-- A publisher leaves the table and the wiring mutex alone. -/
theorem pubStep_table {h h' : Topic T} {p : Nat} {ep ep' : PubEp T} {a : PubAct T}
    (hs : pubStep size h p ep a = some (h', ep')) :
    h'.subSlots = h.subSlots ∧ h'.wiringMutex = h.wiringMutex ∧ ep'.qos = ep.qos := by
  cases a with
  | advertise | publish m | destroy =>
      simp only [pubStep] at hs
      repeat' split at hs
      all_goals cases hs
      all_goals exact ⟨rfl, rfl, rfl⟩
  | go now =>
      simp only [pubStep] at hs
      cases hpc : ep.pc <;> simp only [hpc] at hs
      all_goals
        repeat' split at hs
        all_goals cases hs
        all_goals exact ⟨rfl, rfl, rfl⟩

theorem slotInv_reached {ok : World T → Act T → Prop} {w : World T}
    (hw : (machine T size).Reached ok w) : SlotInv w := by
  refine hw.invariant (P := SlotInv) ?_ ?_
  · rintro w ⟨ht, hsub, -⟩ k
    refine .absent (fun h0 => ?_) (fun i hi => ?_) (fun i hi => ?_) (fun i hi => ?_)
    · rw [hsub k] at h0
      cases h0
    · rw [ht] at hi
      cases hi
    · rw [hsub k] at hi
      cases hi
    · rw [hsub k] at hi
      cases hi
  · intro w a w' _ h _ hs
    rcases step_cases hs with ⟨k, b, h', ep', -, hst, rfl⟩ | ⟨p, b, h', ep', -, hst, rfl⟩
    · obtain ⟨hm, -⟩ := subStep_wireMove hst
      intro k'
      by_cases e : k' = k
      · subst e
        rw [World.putSub_self, World.putSub_topic]
        exact hm.own (h k')
      · rw [World.putSub_ne _ _ _ _ e, World.putSub_topic]
        exact hm.others e (h k) (h k')
    · obtain ⟨h1, h2, -⟩ := pubStep_table hst
      intro k'
      rw [World.putPub_topic, World.putPub_subs]
      exact (h k').frame (fun h0 => h2 ▸ h0) (fun i => by rw [h1])
        (fun i hq => by rw [h1]; exact ((h k').attach i hq).1)

/-! ## One publish at a time -/

/-- Advertised and not destroyed. -/
def PubPc.live : PubPc T → Bool
  | .unadvertised | .refused | .gone => false
  | _ => true

/-- Inside `Deliver`, or about to return from it. -/
def PubPc.delivering : PubPc T → Bool
  | .unadvertised | .refused | .gone | .idle | .lock _ => false
  | _ => true

theorem PubPc.live_of_delivering {pc : PubPc T} (h : pc.delivering = true) :
    pc.live = true := by
  cases pc <;> simp_all [PubPc.live, PubPc.delivering]

structure PubInv (w : World T) : Prop where
  owners : ∃ S : Finset Nat, (∀ p, p ∈ S ↔ (w.pubs p).pc.live = true) ∧
    S.card = w.topic.publisherCount ∧
    (∀ p ∈ S, (w.pubs p).qos.ownership = w.topic.declaredOwnership) ∧
    (w.topic.declaredOwnership = .exclusive → S.card ≤ 1)
  locked : ∀ p, (w.pubs p).qos.ownership = .shared → (w.pubs p).pc.delivering = true →
    w.topic.sharedWriteMutex = some p

/-- At most one publisher is inside `Deliver`. -/
theorem PubInv.serialized {w : World T} (h : PubInv w) {p q : Nat}
    (hp : (w.pubs p).pc.delivering = true) (hq : (w.pubs q).pc.delivering = true) :
    p = q := by
  obtain ⟨S, hS, -, hown, hone⟩ := h.owners
  have hpS : p ∈ S := (hS p).mpr (PubPc.live_of_delivering hp)
  have hqS : q ∈ S := (hS q).mpr (PubPc.live_of_delivering hq)
  cases hd : w.topic.declaredOwnership with
  | exclusive => exact Finset.card_le_one.mp (hone hd) p hpS q hqS
  | shared =>
      have h1 := h.locked p ((hown p hpS).trans hd) hp
      have h2 := h.locked q ((hown q hqS).trans hd) hq
      exact Option.some.inj (h1.symm.trans h2)

/-- What a publisher's access does to ownership and the write mutex. -/
inductive OwnMove (h : Topic T) (p : Nat) (ep : PubEp T) : Topic T → PubEp T → Prop
  | quiet {h' : Topic T} {ep' : PubEp T} : h'.publisherCount = h.publisherCount →
      h'.declaredOwnership = h.declaredOwnership →
      h'.sharedWriteMutex = h.sharedWriteMutex → ep'.pc.live = ep.pc.live →
      (ep'.pc.delivering = true → ep.pc.delivering = true ∨ ep.qos.ownership = .exclusive) →
      OwnMove h p ep h' ep'
  | advertise {h' : Topic T} {ep' : PubEp T} : ep.pc.live = false → ep'.pc = .idle →
      h.publisherCount = 0 ∨
        h.declaredOwnership = .shared ∧ ep.qos.ownership = .shared →
      h'.publisherCount = h.publisherCount + 1 →
      h'.declaredOwnership = ep.qos.ownership → h'.sharedWriteMutex = h.sharedWriteMutex →
      OwnMove h p ep h' ep'
  | retire {h' : Topic T} {ep' : PubEp T} : ep.pc = .idle → ep'.pc = .gone →
      h'.publisherCount = h.publisherCount - 1 →
      h'.declaredOwnership = h.declaredOwnership →
      h'.sharedWriteMutex = h.sharedWriteMutex → OwnMove h p ep h' ep'
  | lock {h' : Topic T} {ep' : PubEp T} : ep.pc.live = true → ep'.pc.live = true →
      h.sharedWriteMutex = none → h'.sharedWriteMutex = some p →
      h'.publisherCount = h.publisherCount → h'.declaredOwnership = h.declaredOwnership →
      OwnMove h p ep h' ep'
  | unlock {h' : Topic T} {ep' : PubEp T} : ep.pc.delivering = true → ep'.pc = .idle →
      ep.qos.ownership = .shared → h'.publisherCount = h.publisherCount →
      h'.declaredOwnership = h.declaredOwnership → OwnMove h p ep h' ep'

@[simp] theorem PubEp.at'_pc (ep : PubEp T) (pc : PubPc T) : (ep.at' pc).pc = pc := rfl

@[simp] theorem PubEp.at'_qos (ep : PubEp T) (pc : PubPc T) : (ep.at' pc).qos = ep.qos := rfl

theorem PubEp.deliver_delivering (ep : PubEp T) (m : Message T) :
    (ep.deliver m).pc.live = true ∧ (ep.deliver m).pc.delivering = true := by
  simp only [PubEp.deliver, PubEp.at'_pc]
  split <;> exact ⟨rfl, rfl⟩

theorem pubStep_ownMove {h h' : Topic T} {p : Nat} {ep ep' : PubEp T} {a : PubAct T}
    (hs : pubStep size h p ep a = some (h', ep')) : OwnMove h p ep h' ep' := by
  cases a with
  | advertise =>
      simp only [pubStep] at hs
      split at hs
      · next hpc hm =>
          split at hs
          · cases hs
            exact .quiet rfl rfl rfl (by rw [hpc]; rfl) (fun h0 => nomatch h0)
          · next hno =>
              cases hs
              refine .advertise (by rw [hpc]; rfl) rfl ?_ rfl rfl rfl
              rw [not_and_or] at hno
              rcases hno with h0 | h0
              · exact .inl (by omega)
              · rw [not_or] at h0
                cases hd : h.declaredOwnership <;> cases hq : ep.qos.ownership <;> simp_all
      · cases hs
  | publish m =>
      simp only [pubStep] at hs
      split at hs
      · next hpc =>
          split at hs
          · cases hs
            exact .quiet rfl rfl rfl (by rw [hpc]; rfl) (fun h0 => nomatch h0)
          · next hx =>
              cases hs
              refine .quiet rfl rfl rfl ?_ (fun _ => .inr ?_)
              · rw [hpc, (ep.deliver_delivering m).1]; rfl
              · cases hq : ep.qos.ownership <;> simp_all
      · cases hs
  | destroy =>
      simp only [pubStep] at hs
      split at hs
      · next hpc hm => cases hs; exact .retire hpc rfl rfl rfl rfl
      · next hpc =>
          cases hs
          exact .quiet rfl rfl rfl (by rw [hpc]; rfl) (fun h0 => nomatch h0)
      · cases hs
  | go now =>
      simp only [pubStep] at hs
      cases hpc : ep.pc <;> simp only [hpc] at hs
      case lock m =>
        split at hs
        · next hm =>
          cases hs
          exact .lock (by rw [hpc]; rfl) (ep.deliver_delivering m).1 hm rfl rfl rfl
        · cases hs
      case ret st =>
        cases hs
        by_cases hq : ep.qos.ownership = .shared
        · refine .unlock (by rw [hpc]; rfl) rfl hq ?_ ?_ <;> rw [if_pos hq]
        · rw [if_neg hq]
          exact .quiet rfl rfl rfl (by rw [hpc]; rfl) (fun h0 => nomatch h0)
      all_goals
        repeat' split at hs
        all_goals cases hs
        all_goals
          exact .quiet rfl rfl rfl (by rw [hpc]; rfl) (fun _ => .inl (by rw [hpc]; rfl))

theorem OwnMove.inv {w : World T} (h : PubInv w) {p : Nat} {h' : Topic T} {ep' : PubEp T}
    (hq : ep'.qos = (w.pubs p).qos) (hm : OwnMove w.topic p (w.pubs p) h' ep') :
    PubInv (w.putPub p h' ep') := by
  obtain ⟨S, hS, hcard, hown, hone⟩ := h.owners
  have hqos : ∀ q, ((w.putPub p h' ep').pubs q).qos = (w.pubs q).qos := by
    intro q
    by_cases e : q = p
    · subst e; rw [World.putPub_self, hq]
    · rw [World.putPub_ne _ _ _ _ e]
  have hlive : ∀ q, ep'.pc.live = (w.pubs p).pc.live →
      ((w.putPub p h' ep').pubs q).pc.live = (w.pubs q).pc.live := by
    intro q h0
    by_cases e : q = p
    · subst e; rw [World.putPub_self, h0]
    · rw [World.putPub_ne _ _ _ _ e]
  -- the other publishers' claim on the write mutex
  have hlock : (∀ q, q ≠ p → w.topic.sharedWriteMutex = some q →
        h'.sharedWriteMutex = some q) →
      (ep'.pc.delivering = true → ep'.qos.ownership = .shared →
        h'.sharedWriteMutex = some p) →
      ∀ q, ((w.putPub p h' ep').pubs q).qos.ownership = .shared →
        ((w.putPub p h' ep').pubs q).pc.delivering = true →
        (w.putPub p h' ep').topic.sharedWriteMutex = some q := by
    intro h1 h2 q hsh hd
    by_cases e : q = p
    · subst e
      rw [World.putPub_self] at hsh hd
      exact h2 hd hsh
    · rw [World.putPub_ne _ _ _ _ e] at hsh hd
      exact h1 q e (h.locked q hsh hd)
  cases hm with
  | quiet hc hd hx hl hdel =>
      refine ⟨⟨S, fun q => ?_, ?_, fun q hqS => ?_, fun h0 => ?_⟩, ?_⟩
      · rw [hlive q hl]; exact hS q
      · rw [World.putPub_topic, hc]; exact hcard
      · rw [hqos, World.putPub_topic, hd]; exact hown q hqS
      · rw [World.putPub_topic, hd] at h0; exact hone h0
      · refine hlock (fun q _ h0 => hx ▸ h0) (fun h0 hsh => ?_)
        rw [hq] at hsh
        rcases hdel h0 with h1 | h1
        · exact hx ▸ h.locked p hsh h1
        · rw [h1] at hsh; cases hsh
  | advertise hl hpc hwhy hc hd hx =>
      have hnew : p ∉ S := by
        rw [hS p, hl]
        simp
      have hdel : ¬ ep'.pc.delivering = true := by rw [hpc]; simp [PubPc.delivering]
      refine ⟨⟨insert p S, fun q => ?_, ?_, fun q hqS => ?_, fun h0 => ?_⟩, ?_⟩
      · by_cases e : q = p
        · subst e
          rw [World.putPub_self, hpc]
          simp [PubPc.live]
        · rw [World.putPub_ne _ _ _ _ e, Finset.mem_insert, or_iff_right e]
          exact hS q
      · rw [Finset.card_insert_of_notMem hnew, hcard, World.putPub_topic, hc]
      · rw [hqos, World.putPub_topic, hd]
        rcases Finset.mem_insert.mp hqS with rfl | hqS
        · rfl
        · rcases hwhy with h0 | ⟨h0, h1⟩
          · rw [← hcard, Finset.card_eq_zero] at h0
            rw [h0] at hqS
            cases hqS
          · rw [hown q hqS, h0, h1]
      · rw [World.putPub_topic, hd] at h0
        rcases hwhy with h1 | ⟨-, h1⟩
        · rw [Finset.card_insert_of_notMem hnew, hcard, h1]
        · rw [h1] at h0; cases h0
      · exact hlock (fun q _ h0 => hx ▸ h0) (fun h0 => absurd h0 hdel)
  | retire hpc hpc' hc hd hx =>
      have hmem : p ∈ S := (hS p).mpr (by rw [hpc]; rfl)
      refine ⟨⟨S.erase p, fun q => ?_, ?_, fun q hqS => ?_, fun h0 => ?_⟩, ?_⟩
      · by_cases e : q = p
        · subst e
          rw [World.putPub_self, hpc']
          simp [PubPc.live]
        · rw [World.putPub_ne _ _ _ _ e, Finset.mem_erase, and_iff_right e]
          exact hS q
      · rw [Finset.card_erase_of_mem hmem, hcard, World.putPub_topic, hc]
      · rw [hqos, World.putPub_topic, hd]
        exact hown q (Finset.mem_of_mem_erase hqS)
      · rw [World.putPub_topic, hd] at h0
        exact Nat.le_trans (Finset.card_erase_le) (hone h0)
      · exact hlock (fun q _ h0 => hx ▸ h0) (fun h0 => by rw [hpc'] at h0; cases h0)
  | lock hl hl' hn hx hc hd =>
      refine ⟨⟨S, fun q => ?_, ?_, fun q hqS => ?_, fun h0 => ?_⟩, ?_⟩
      · rw [hlive q (hl'.trans hl.symm)]; exact hS q
      · rw [World.putPub_topic, hc]; exact hcard
      · rw [hqos, World.putPub_topic, hd]; exact hown q hqS
      · rw [World.putPub_topic, hd] at h0; exact hone h0
      · exact hlock (fun q _ h0 => nomatch hn.symm.trans h0) (fun _ _ => hx)
  | unlock hdel hpc' hsh hc hd =>
      have hl : (w.pubs p).pc.live = true := PubPc.live_of_delivering hdel
      refine ⟨⟨S, fun q => ?_, ?_, fun q hqS => ?_, fun h0 => ?_⟩, ?_⟩
      · rw [hlive q (by rw [hpc', hl]; rfl)]; exact hS q
      · rw [World.putPub_topic, hc]; exact hcard
      · rw [hqos, World.putPub_topic, hd]; exact hown q hqS
      · rw [World.putPub_topic, hd] at h0; exact hone h0
      · refine hlock (fun q hne h0 => ?_) (fun h0 => by rw [hpc'] at h0; cases h0)
        rw [h.locked p hsh hdel] at h0
        exact absurd (Option.some.inj h0).symm hne

theorem subStep_owner {h h' : Topic T} {k : Nat} {ep ep' : SubEp T} {a : SubAct}
    (hs : subStep h k ep a = some (h', ep')) :
    h'.publisherCount = h.publisherCount ∧ h'.declaredOwnership = h.declaredOwnership ∧
      h'.sharedWriteMutex = h.sharedWriteMutex := by
  cases a with
  | go now =>
      simp only [subStep] at hs
      cases hpc : ep.pc <;> simp only [hpc] at hs
      all_goals
        repeat' split at hs
        all_goals cases hs
        all_goals exact ⟨rfl, rfl, rfl⟩
  | _ =>
      simp only [subStep] at hs
      repeat' split at hs
      all_goals cases hs
      all_goals exact ⟨rfl, rfl, rfl⟩

theorem pubInv_reached {ok : World T → Act T → Prop} {w : World T}
    (hw : (machine T size).Reached ok w) : PubInv w := by
  refine hw.invariant (P := PubInv) ?_ ?_
  · rintro w ⟨ht, -, hpub⟩
    refine ⟨⟨∅, fun p => ?_, by rw [ht]; rfl, fun p hp => (nomatch hp), fun _ => by simp⟩, ?_⟩
    · rw [(hpub p).1]
      simp [PubPc.live]
    · intro p _ h0
      rw [(hpub p).1] at h0
      cases h0
  · intro w a w' _ h _ hs
    rcases step_cases hs with ⟨k, b, h', ep', -, hst, rfl⟩ | ⟨p, b, h', ep', -, hst, rfl⟩
    · obtain ⟨h1, h2, h3⟩ := subStep_owner hst
      obtain ⟨S, hS, hcard, hown, hone⟩ := h.owners
      exact ⟨⟨S, hS, by rw [World.putSub_topic, h1]; exact hcard,
        fun p hp => by rw [World.putSub_topic, h2]; exact hown p hp,
        fun h0 => hone (by rw [World.putSub_topic, h2] at h0; exact h0)⟩,
        fun p hsh hd => by rw [World.putSub_topic, h3]; exact h.locked p hsh hd⟩
    · exact (pubStep_ownMove hst).inv h (pubStep_table hst).2.2

end Xmmsg.InProc
