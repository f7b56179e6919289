import Xmmsg.Shm.Calls
import Xmmsg.Shm.Slots

/-!
# A claim nobody disturbs

`ClaimSubscriberSlot` twice over: access by access in `Steps.lean`, and as a whole in
`Calls.lean`. Here the two are joined. If nobody else moves, the accesses of one
endpoint from `unwired` on end where the call says, with the segment the call says
(`claim_runs`), and they end in one way only.

The scan is an induction over the slots still to try. A slot that is claimed, or active
under a live pid, is passed; any other is taken, and from the first store of its owner
to the last the slot's own contents do not matter, since every field is stored.
-/

namespace Xmmsg.Shm

open Xmmsg.Sys

variable {T : Type}

/-! ## One endpoint and the segment -/

/-- One access of an endpoint, everything else at rest. -/
def Goes (alive : Nat → Bool) (now : Int) (x y : Segment T × SubEp T) : Prop :=
  subStep alive x.1 x.2 (.go now) = some y

/-- Its accesses. -/
def Gets (alive : Nat → Bool) (now : Int) : Segment T × SubEp T → Segment T × SubEp T → Prop :=
  Relation.ReflTransGen (Goes alive now)

theorem setSlot_self (h : Segment T) (i : Nat) (s : SubSlot) : (h.setSlot i s).subSlots i = s := by
  simp only [Segment.setSlot, Function.update_self]

theorem setSlot_setSlot (h : Segment T) (i : Nat) (s s' : SubSlot) :
    (h.setSlot i s).setSlot i s' = h.setSlot i s' := by
  simp only [Segment.setSlot, Function.update_idem]

section Claim

variable {alive : Nat → Bool} {now : Int} {h : Segment T} {ep : SubEp T} {i : Nat}

/-- A store into the slot. -/
theorem store_goes {s : SubSlot} (pc pc' : SubPc T) (f : SubSlot → SubSlot)
    (hstep : ∀ g : Segment T, subStep alive g (ep.at' pc) (.go now) =
      some (g.setSlot i (f (g.subSlots i)), ep.at' pc')) :
    Goes alive now (h.setSlot i s, ep.at' pc) (h.setSlot i (f s), ep.at' pc') := by
  rw [Goes, hstep, setSlot_self, setSlot_setSlot]

/-- The slot when the mailbox is still to come. -/
def signedSlot (ep : SubEp T) (s : SubSlot) : SubSlot :=
  { Segment.freshSlot ep with state := s.state }

theorem sign_gets {s : SubSlot} : Gets alive now (h.setSlot i s, ep.at' (.storePid i))
    (h.setSlot i (signedSlot ep s),
      ep.at' (if ep.history.isLatest then .initLatest i else .initRing i)) := by
  refine .head (store_goes _ (.storeKind i) (fun s => { s with pid := ep.pid }) fun _ => rfl) ?_
  refine .head (store_goes _ (.storeDepth i) (fun s => { s with
    historyKind := if ep.history.isLatest then 0 else 1 }) fun _ => rfl) ?_
  refine .head (store_goes _ (.storeBase i)
    (fun s => { s with queueDepth := ep.history.depth }) fun _ => rfl) ?_
  refine .head (store_goes _ (.storeTake i)
    (fun s => { s with lastConsumedOrdinal := none }) fun _ => rfl) ?_
  refine .head (store_goes _ (.storeDrop i) (fun s => { s with takeCount := 0 }) fun _ => rfl) ?_
  refine .head (store_goes _ (.storeOverwrite i)
    (fun s => { s with dropCount := 0 }) fun _ => rfl) ?_
  refine .head (store_goes _ (.storeMiss i)
    (fun s => { s with overwriteCount := 0 }) fun _ => rfl) ?_
  exact .single (store_goes _ (if ep.history.isLatest then .initLatest i else .initRing i)
    (fun s => { s with deadlineMissCount := 0 }) fun _ => rfl)

theorem activate_latest {s : SubSlot} (c : Cell T) :
    Goes alive now ((h.setSlot i (signedSlot ep s)).setLatest i c, ep.at' (.storeActive i))
      ((h.setSlot i (Segment.freshSlot ep)).setLatest i c, ep.at' (.wired i .idle)) := by
  have hs : ((h.setSlot i (signedSlot ep s)).setLatest i c).subSlots i = signedSlot ep s :=
    setSlot_self h i _
  simp only [Goes, subStep, SubEp.at'_pc, hs]
  simp only [Segment.setSlot, Segment.setLatest, Function.update_idem]
  rfl

theorem activate_ring {s : SubSlot} (q : Fifo (MailRecord T)) :
    Goes alive now ((h.setSlot i (signedSlot ep s)).setRing i q, ep.at' (.storeActive i))
      ((h.setSlot i (Segment.freshSlot ep)).setRing i q, ep.at' (.wired i .idle)) := by
  have hs : ((h.setSlot i (signedSlot ep s)).setRing i q).subSlots i = signedSlot ep s :=
    setSlot_self h i _
  simp only [Goes, subStep, SubEp.at'_pc, hs]
  simp only [Segment.setSlot, Segment.setRing, Function.update_idem]
  rfl

theorem setLatest_setLatest (h : Segment T) (i : Nat) (c c' : Cell T) :
    (h.setLatest i c).setLatest i c' = h.setLatest i c' := by
  simp only [Segment.setLatest, Function.update_idem]

/-- The mailbox is made empty and seeded from the master cell. -/
theorem seed_gets {s : SubSlot} (hl : ep.history.isLatest = true) :
    Gets alive now (h.setSlot i (signedSlot ep s), ep.at' (.initLatest i))
      (h.occupy i ep, ep.at' (.wired i .idle)) := by
  refine .head (b := ((h.setSlot i (signedSlot ep s)).setLatest i .empty, ep.at' (.loadMaster i)))
    rfl ?_
  cases hm : h.master with
  | full r =>
      have hocc : h.occupy i ep =
          (h.setSlot i (Segment.freshSlot ep)).setLatest i (.full r) := by
        simp only [Segment.occupy, hl, if_true, Segment.setSlot_master, hm]
      have hload : Goes alive now
          ((h.setSlot i (signedSlot ep s)).setLatest i .empty, ep.at' (.loadMaster i))
          ((h.setSlot i (signedSlot ep s)).setLatest i .empty, ep.at' (.seedBegin i r)) := by
        simp only [Goes, subStep, SubEp.at'_pc, Segment.setLatest_master, Segment.setSlot_master,
          hm]
        rfl
      have hbegin : Goes alive now
          ((h.setSlot i (signedSlot ep s)).setLatest i .empty, ep.at' (.seedBegin i r))
          ((h.setSlot i (signedSlot ep s)).setLatest i .torn, ep.at' (.seedEnd i r)) := by
        simp only [Goes, subStep, SubEp.at'_pc, setLatest_setLatest]
        rfl
      have hend : Goes alive now
          ((h.setSlot i (signedSlot ep s)).setLatest i .torn, ep.at' (.seedEnd i r))
          ((h.setSlot i (signedSlot ep s)).setLatest i (.full r), ep.at' (.storeActive i)) := by
        simp only [Goes, subStep, SubEp.at'_pc, setLatest_setLatest]
        rfl
      rw [hocc]
      exact .head hload (.head hbegin (.head hend (.single (activate_latest _))))
  | empty | torn =>
      have hocc : h.occupy i ep =
          (h.setSlot i (Segment.freshSlot ep)).setLatest i .empty := by
        simp only [Segment.occupy, hl, if_true, Segment.setSlot_master, hm]
      have hload : Goes alive now
          ((h.setSlot i (signedSlot ep s)).setLatest i .empty, ep.at' (.loadMaster i))
          ((h.setSlot i (signedSlot ep s)).setLatest i .empty, ep.at' (.storeActive i)) := by
        simp only [Goes, subStep, SubEp.at'_pc, Segment.setLatest_master, Segment.setSlot_master,
          hm]
        rfl
      rw [hocc]
      exact .head hload (.single (activate_latest _))

/-- From the claim to the activation. -/
theorem occupy_gets {s : SubSlot} : Gets alive now (h.setSlot i s, ep.at' (.storePid i))
    (h.occupy i ep, ep.at' (.wired i .idle)) := by
  refine sign_gets.trans ?_
  cases hl : ep.history.isLatest with
  | true => exact seed_gets hl
  | false =>
      have hocc : h.occupy i ep = (h.setSlot i (Segment.freshSlot ep)).setRing i
          (.empty (if ep.history.depth = 0 then 1 else ep.history.depth)) := by
        simp only [Segment.occupy, hl, Bool.false_eq_true, if_false]
      rw [hocc]
      exact .head (b := ((h.setSlot i (signedSlot ep s)).setRing i
        (.empty (if ep.history.depth = 0 then 1 else ep.history.depth)), ep.at' (.storeActive i)))
        rfl (.single (activate_ring _))

theorem poll_gets {n spin : Nat} (hn : spin + n = 20) :
    Gets alive now (h, ep.at' (.poll i h.acceptedOrdinal spin)) (h, ep.at' (.storePid i)) := by
  induction n generalizing spin with
  | zero =>
      refine .single ?_
      simp only [Goes, subStep, SubEp.at'_pc, if_neg (show ¬ spin < 20 by omega)]
      rfl
  | succ n ih =>
      refine .head (b := (h, ep.at' (.poll i h.acceptedOrdinal (spin + 1)))) ?_ (ih (by omega))
      have hwait : ¬ h.acceptedOrdinal ≥ h.acceptedOrdinal + 2 := by omega
      simp only [Goes, subStep, SubEp.at'_pc, if_pos (show spin < 20 by omega), if_neg hwait]
      rfl

/-- The wait for a publisher that does not move. -/
theorem wait_gets : Gets alive now (h, ep.at' (.loadPubPid i)) (h, ep.at' (.storePid i)) := by
  refine .head (b := (h, ep.at' (.probePub i h.pubPid))) rfl ?_
  cases hal : alive h.pubPid with
  | false =>
      refine .single ?_
      simp only [Goes, subStep, SubEp.at'_pc, hal]
      rfl
  | true =>
      refine .head (b := (h, ep.at' (.loadStart i))) ?_ ?_
      · simp only [Goes, subStep, SubEp.at'_pc, hal]
        rfl
      · exact .head (b := (h, ep.at' (.poll i h.acceptedOrdinal 0))) rfl
          (poll_gets (Nat.zero_add 20))

/-- What the scan asks of a slot. -/
def Segment.takable (alive : Nat → Bool) (h : Segment T) (i : Nat) : Bool :=
  match (h.subSlots i).state with
  | .free => true
  | .claimed => false
  | .active => !alive (h.subSlots i).pid

theorem claimable_eq :
    h.claimable alive = (List.range kShmMaxSubscribers).find? (h.takable alive) := rfl

/-- An open slot is taken. -/
theorem take_gets (hi : i < kShmMaxSubscribers) (ho : h.takable alive i = true) :
    Gets alive now (h, ep.at' (.casFree i)) (h.occupy i ep, ep.at' (.wired i .idle)) := by
  have hclaim : ∀ pc, subStep alive h (ep.at' pc) (.go now) =
      some (h.setSlot i { h.subSlots i with state := .claimed }, ep.at' (.storePid i)) →
      Gets alive now (h, ep.at' pc) (h.occupy i ep, ep.at' (.wired i .idle)) :=
    fun pc hpc => .head hpc occupy_gets
  cases hst : (h.subSlots i).state with
  | free =>
      refine hclaim _ ?_
      simp only [subStep, SubEp.at'_pc, if_pos hi, hst]
      rfl
  | claimed =>
      simp only [Segment.takable, hst] at ho
      cases ho
  | active =>
      simp only [Segment.takable, hst, Bool.not_eq_true'] at ho
      refine .head (b := (h, ep.at' (.loadPid i))) ?_ (.head
        (b := (h, ep.at' (.probePid i (h.subSlots i).pid))) rfl (.head
        (b := (h, ep.at' (.casActive i))) ?_ (.head
        (b := (h.setSlot i { h.subSlots i with state := .claimed }, ep.at' (.loadPubPid i))) ?_
        (wait_gets.trans occupy_gets))))
      · simp only [Goes, subStep, SubEp.at'_pc, if_pos hi, hst]
        rfl
      · simp only [Goes, subStep, SubEp.at'_pc, ho]
        rfl
      · simp only [Goes, subStep, SubEp.at'_pc, hst]
        rfl

/-- Any other is passed. -/
theorem pass_gets (hi : i < kShmMaxSubscribers) (ho : h.takable alive i = false) :
    Gets alive now (h, ep.at' (.casFree i)) (h, ep.at' (.casFree (i + 1))) := by
  cases hst : (h.subSlots i).state with
  | free =>
      simp only [Segment.takable, hst] at ho
      cases ho
  | claimed =>
      refine .single ?_
      simp only [Goes, subStep, SubEp.at'_pc, if_pos hi, hst]
      rfl
  | active =>
      simp only [Segment.takable, hst, Bool.not_eq_false'] at ho
      refine .head (b := (h, ep.at' (.loadPid i))) ?_ (.head
        (b := (h, ep.at' (.probePid i (h.subSlots i).pid))) rfl (.single ?_))
      · simp only [Goes, subStep, SubEp.at'_pc, if_pos hi, hst]
        rfl
      · simp only [Goes, subStep, SubEp.at'_pc, ho]
        rfl

/-- Where the scan ends. -/
def Segment.scanned (h : Segment T) (ep : SubEp T) : Option Nat → Segment T × SubEp T
  | some i => (h.occupy i ep, ep.at' (.wired i .idle))
  | none => (h, ep.at' .refused)

theorem scan_gets {n : Nat} (hn : i + n = kShmMaxSubscribers) :
    Gets alive now (h, ep.at' (.casFree i))
      (h.scanned ep ((List.range' i n).find? (h.takable alive))) := by
  induction n generalizing i with
  | zero =>
      refine .single ?_
      simp only [Goes, subStep, SubEp.at'_pc, if_neg (show ¬ i < kShmMaxSubscribers by omega)]
      rfl
  | succ n ih =>
      have hi : i < kShmMaxSubscribers := by omega
      rw [List.range'_succ]
      cases ho : h.takable alive i with
      | true =>
          rw [List.find?_cons_of_pos ho]
          exact take_gets hi ho
      | false =>
          rw [List.find?_cons_of_neg (Bool.eq_false_iff.mp ho)]
          exact (pass_gets hi ho).trans (ih (by omega))

theorem claim_gets : Gets alive now (h, ep.at' .unwired) (h.scanned ep (h.claimable alive)) := by
  refine .head (b := (h, ep.at' (.casFree 0))) rfl ?_
  rw [claimable_eq, List.range_eq_range']
  exact scan_gets (Nat.zero_add _)

end Claim

/-! ## The same in the world -/

section World

variable {size : Nat} {now : Int} {w w' : World T} {e : Nat}

theorem gets_runs {x y : Segment T × SubEp T} (hg : Gets w.alive now x y)
    (hlive : w.alive x.2.pid = true) :
    (machine T size).Runs (.sub e (.go now)) (w.putSub e x.1 x.2) (w.putSub e y.1 y.2) := by
  induction hg using Relation.ReflTransGen.head_induction_on with
  | refl => exact .refl
  | @head x z hxz _ ih =>
      have hpid := (subStep_slotMove hxz).2
      refine .head ?_ (ih (by rw [hpid]; exact hlive))
      simp only [machine, World.step, World.putSub_self, World.putSub_alive, hlive, if_true,
        World.putSub_seg]
      obtain ⟨h', ep'⟩ := z
      rw [show subStep w.alive x.1 x.2 (.go now) = some (h', ep') from hxz]
      exact congrArg some (World.putSub_putSub w e x.1 x.2 h' ep')

theorem putSub_eq_self : w.putSub e w.seg (w.subs e) = w := by
  simp only [World.putSub, Function.update_eq_self]

/-- The call, made access by access with nobody else moving. -/
theorem claim_runs (hlive : w.liveSub e) (hpc : (w.subs e).pc = .unwired) (now : Int) :
    (machine T size).Runs (.sub e (.go now)) w
      (w.putSub e (w.seg.scanned (w.subs e) (w.seg.claimable w.alive)).1
        (w.seg.scanned (w.subs e) (w.seg.claimable w.alive)).2) := by
  have hep : (w.subs e).at' .unwired = w.subs e := by
    rw [← hpc]
    rfl
  have hrun := @gets_runs T size now w e _ _ (@claim_gets T w.alive now w.seg (w.subs e))
    (by rw [hep]; exact hlive)
  rw [hep, putSub_eq_self] at hrun
  exact hrun

/-- `Subscribe` as `Calls.lean` has it is what the accesses come to. -/
theorem subscribe_runs [Inhabited T] {a : Answer T} (hlive : w.liveSub e)
    (h : w.call size (.subscribe e) = some (a, w')) (now : Int) :
    (machine T size).Runs (.sub e (.go now)) w w' := by
  simp only [World.call] at h
  split at h
  · next hpc =>
    have hrun := @claim_runs T size w e hlive hpc now
    split at h
    · next i hc =>
      cases h
      rw [hc] at hrun
      exact hrun
    · next hc =>
      cases h
      rw [hc] at hrun
      exact hrun
  · cases h

/-- `ClaimSubscriberSlot` of `e`, with nobody else moving, returns false. -/
def World.Refuses (size : Nat) (w : World T) (e : Nat) : Prop :=
  ∃ now w', (machine T size).Runs (.sub e (.go now)) w w' ∧ (w'.subs e).pc = .refused

/-- It returns true. -/
def World.Grants (size : Nat) (w : World T) (e : Nat) : Prop :=
  ∃ now w' i, (machine T size).Runs (.sub e (.go now)) w w' ∧ (w'.subs e).pc = .wired i .idle

theorem stuck_of_refused (h : (w.subs e).pc = .refused) :
    (machine T size).step w (.sub e (.go now)) = none := by
  simp only [machine, World.step, subStep, h]
  split <;> rfl

theorem stuck_of_idle {i : Nat} (h : (w.subs e).pc = .wired i .idle) :
    (machine T size).step w (.sub e (.go now)) = none := by
  simp only [machine, World.step, subStep, h, takeStep]
  split <;> rfl

theorem refuses_iff (hlive : w.liveSub e) (hpc : (w.subs e).pc = .unwired) :
    w.Refuses size e ↔ w.seg.claimable w.alive = none := by
  constructor
  · rintro ⟨now, w', hrun, href⟩
    cases hc : w.seg.claimable w.alive with
    | none => rfl
    | some i =>
        -- the accesses end in one way
        have hrun' := @claim_runs T size w e hlive hpc now
        rw [hc] at hrun'
        have heq := hrun.unique hrun' (stuck_of_refused href)
          (stuck_of_idle (i := i) (by rw [World.putSub_self]; rfl))
        rw [heq, World.putSub_self] at href
        cases href
  · intro hc
    have hrun := @claim_runs T size w e hlive hpc 0
    rw [hc] at hrun
    exact ⟨0, _, hrun, by rw [World.putSub_self]; rfl⟩

theorem grants_of_claimable (hlive : w.liveSub e) (hpc : (w.subs e).pc = .unwired) {i : Nat}
    (hc : w.seg.claimable w.alive = some i) : w.Grants size e := by
  have hrun := @claim_runs T size w e hlive hpc 0
  rw [hc] at hrun
  exact ⟨0, _, i, hrun, by rw [World.putSub_self]; rfl⟩

end World

end Xmmsg.Shm
