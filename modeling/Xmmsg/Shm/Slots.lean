import Xmmsg.Shm.Steps

/-!
# Who owns a subscriber slot

A subscriber slot changes hands through two words, `state` and `pid`, that no
single operation writes together. `ClaimSubscriberSlot` takes a slot by a CAS on
`state` and signs it with a later store of `pid`; the destructor gives it back
by storing `state` first and clearing `pid` afterwards; the dead-owner path
tests the `pid` it loaded and then does a CAS on `state` alone.

Each of the two gaps can be hit. Between the destructor's stores another
endpoint can take the slot, sign it and become active, and the late clear then
wipes the new owner's pid; the next claimant probes pid zero, finds nobody
alive, and takes the slot away. And between the probe and the CAS of the
dead-owner path the slot can be reclaimed, signed and reactivated by somebody
else, so the CAS finds `kShmSubActive` again and takes the slot from a live
owner.

What is left is a discipline on exactly those two steps (`SlotDiscipline`): a
clear must not find another live endpoint's signature, and a dead-owner CAS that
succeeds must not find a live process in the pid word. Runs that keep it keep the slots
exclusive.
-/

namespace Xmmsg.Shm

open Xmmsg.Sys

variable {T : Type}

/-- The slot an endpoint is initialising: claimed, not yet active. -/
def SubPc.claiming : SubPc T → Option Nat
  | .loadPubPid i | .probePub i _ | .loadStart i | .poll i _ _ | .storePid i
  | .storeKind i | .storeDepth i | .storeBase i | .storeTake i | .storeDrop i
  | .storeOverwrite i | .storeMiss i | .initLatest i | .loadMaster i
  | .seedBegin i _ | .seedEnd i _ | .initRing i | .storeActive i => some i
  | _ => none

/-- The endpoint's `slot_index_`, while its destructor has not begun. -/
def SubPc.wiredAt : SubPc T → Option Nat
  | .wired i _ => some i
  | _ => none

/-- The slot an endpoint holds and has stored its pid in. -/
def SubPc.signed : SubPc T → Option Nat
  | .storeKind i | .storeDepth i | .storeBase i | .storeTake i | .storeDrop i
  | .storeOverwrite i | .storeMiss i | .initLatest i | .loadMaster i
  | .seedBegin i _ | .seedEnd i _ | .initRing i | .storeActive i | .wired i _ => some i
  | _ => none

/-- An endpoint is live while its process is. -/
def World.liveSub (w : World T) (e : Nat) : Prop := w.alive (w.subs e).pid = true

/-- No two live endpoints have one slot index, and the slot of a live wired
endpoint is active under that endpoint's own pid. -/
def SlotsExclusive (w : World T) : Prop :=
  (∀ e e' i, w.liveSub e → w.liveSub e' → (w.subs e).pc.wiredAt = some i →
    (w.subs e').pc.wiredAt = some i → e = e') ∧
  ∀ e i, w.liveSub e → (w.subs e).pc.wiredAt = some i →
    (w.seg.subSlots i).state = .active ∧ (w.seg.subSlots i).pid = (w.subs e).pid

/-- The two steps a run has to be careful with, each judged on the state just
before it. -/
def SlotDiscipline (w : World T) : Act T → Prop
  | .sub e (.go _) =>
      match (w.subs e).pc with
      -- the destructor's second store: nobody alive has signed the slot since
      | .released i => ∀ e', w.liveSub e' → (w.subs e').pc.signed ≠ some i
      -- the dead-owner CAS that succeeds: the pid word names nobody alive
      | .casActive i => (w.seg.subSlots i).state = .active →
          w.alive (w.seg.subSlots i).pid = false
      | _ => True
  | _ => True

/-! ## What one access does to the two words -/

/-- The effect of a subscriber access on the slot words and on what the endpoint
holds. Everything but six accesses is quiet. -/
inductive SlotMove (h : Segment T) (ep : SubEp T) : Segment T → SubEp T → Prop
  | quiet {h' : Segment T} {ep' : SubEp T} : (∀ j, h'.word j = h.word j) →
      ep'.pc.claiming = ep.pc.claiming → ep'.pc.signed = ep.pc.signed →
      ep'.pc.wiredAt = ep.pc.wiredAt → SlotMove h ep h' ep'
  | claim (i : Nat) : ep.pc = .casFree i → i < kShmMaxSubscribers →
      (h.subSlots i).state = .free →
      SlotMove h ep (h.setSlot i { h.subSlots i with state := .claimed })
        (ep.at' (.storePid i))
  | reclaim (i : Nat) : ep.pc = .casActive i → (h.subSlots i).state = .active →
      SlotMove h ep (h.setSlot i { h.subSlots i with state := .claimed })
        (ep.at' (.loadPubPid i))
  | sign (i : Nat) : ep.pc = .storePid i →
      SlotMove h ep (h.setSlot i { h.subSlots i with pid := ep.pid })
        (ep.at' (.storeKind i))
  | activate (i : Nat) : ep.pc = .storeActive i →
      SlotMove h ep (h.setSlot i { h.subSlots i with state := .active })
        (ep.at' (.wired i .idle))
  | release (i : Nat) : ep.pc = .wired i .idle →
      SlotMove h ep (h.setSlot i { h.subSlots i with state := .free })
        (ep.at' (.released i))
  | clear (i : Nat) : ep.pc = .released i →
      SlotMove h ep (h.setSlot i { h.subSlots i with pid := 0 }) (ep.at' .gone)

theorem word_setSlot_of_same {h : Segment T} {i : Nat} {s : SubSlot}
    (hs : s.state = (h.subSlots i).state) (hp : s.pid = (h.subSlots i).pid) (j : Nat) :
    (h.setSlot i s).word j = h.word j := by
  rw [Segment.word_setSlot]
  split
  · next hj => subst hj; rw [Segment.word, hs, hp]
  · rfl

/-- A take moves no slot word and leaves the endpoint wired where it was. -/
theorem takeStep_quiet {h h' : Segment T} {ep ep' : SubEp T} {i : Nat} {now : Int}
    {t : TakePc T} (hs : takeStep h ep i now t = some (h', ep')) :
    (∀ j, h'.word j = h.word j) ∧ (∃ t', ep'.pc = .wired i t') ∧ ep'.pid = ep.pid := by
  cases t with
  | idle => simp [takeStep] at hs
  | load =>
      simp only [takeStep] at hs
      split at hs
      · cases hs; exact ⟨fun _ => rfl, ⟨_, rfl⟩, rfl⟩
      all_goals
        split at hs <;> cases hs <;> exact ⟨fun _ => rfl, ⟨_, rfl⟩, rfl⟩
  | pop =>
      simp only [takeStep] at hs
      split at hs <;> cases hs <;> exact ⟨fun _ => rfl, ⟨_, rfl⟩, rfl⟩
  | miss r stale =>
      simp only [takeStep] at hs
      split at hs
      · split at hs <;> cases hs
        · exact ⟨fun _ => rfl, ⟨_, rfl⟩, rfl⟩
        · exact ⟨word_setSlot_of_same rfl rfl, ⟨_, rfl⟩, rfl⟩
      · cases hs; exact ⟨fun _ => rfl, ⟨_, rfl⟩, rfl⟩
  | base r stale =>
      simp only [takeStep] at hs
      split at hs
      · cases hs; exact ⟨fun _ => rfl, ⟨_, rfl⟩, rfl⟩
      · split at hs <;> cases hs <;> exact ⟨fun _ => rfl, ⟨_, rfl⟩, rfl⟩
  | count r | charge r stale last | store r stale =>
      simp only [takeStep] at hs
      cases hs
      exact ⟨word_setSlot_of_same rfl rfl, ⟨_, rfl⟩, rfl⟩
  | ret r =>
      simp only [takeStep] at hs
      cases hs
      exact ⟨fun _ => rfl, ⟨_, rfl⟩, rfl⟩

theorem subStep_slotMove {alive : Nat → Bool} {h h' : Segment T} {ep ep' : SubEp T}
    {a : SubAct} (hs : subStep alive h ep a = some (h', ep')) :
    SlotMove h ep h' ep' ∧ ep'.pid = ep.pid := by
  cases a with
  | takeLatest | tryTake =>
      simp only [subStep] at hs
      split at hs
      · next i hpc =>
          split at hs <;> cases hs
          exact ⟨.quiet (fun _ => rfl) (by simp [hpc, SubPc.claiming])
            (by simp [hpc, SubPc.signed]) (by simp [hpc, SubPc.wiredAt]), rfl⟩
      · cases hs
  | destroy =>
      simp only [subStep] at hs
      split at hs
      · next i hpc => cases hs; exact ⟨.release i hpc, rfl⟩
      · next hpc =>
          cases hs
          exact ⟨.quiet (fun _ => rfl) (by simp [hpc, SubPc.claiming])
            (by simp [hpc, SubPc.signed]) (by simp [hpc, SubPc.wiredAt]), rfl⟩
      · cases hs
  | go now =>
      simp only [subStep] at hs
      cases hpc : ep.pc <;> simp only [hpc] at hs
      case casFree i =>
        split at hs
        · next hi =>
          split at hs <;> cases hs
          · next hst => exact ⟨.claim i hpc hi hst, rfl⟩
          all_goals
            exact ⟨.quiet (fun _ => rfl) (by simp [hpc, SubPc.claiming])
              (by simp [hpc, SubPc.signed]) (by simp [hpc, SubPc.wiredAt]), rfl⟩
        · cases hs
          exact ⟨.quiet (fun _ => rfl) (by simp [hpc, SubPc.claiming])
            (by simp [hpc, SubPc.signed]) (by simp [hpc, SubPc.wiredAt]), rfl⟩
      case casActive i =>
        split at hs <;> cases hs
        · next hst => exact ⟨.reclaim i hpc hst, rfl⟩
        · exact ⟨.quiet (fun _ => rfl) (by simp [hpc, SubPc.claiming])
            (by simp [hpc, SubPc.signed]) (by simp [hpc, SubPc.wiredAt]), rfl⟩
      case storePid i => cases hs; exact ⟨.sign i hpc, rfl⟩
      case storeActive i => cases hs; exact ⟨.activate i hpc, rfl⟩
      case released i => cases hs; exact ⟨.clear i hpc, rfl⟩
      case wired i t =>
        obtain ⟨hw, ⟨t', ht'⟩, hpid⟩ := takeStep_quiet hs
        exact ⟨.quiet hw (by simp [hpc, ht', SubPc.claiming])
          (by simp [hpc, ht', SubPc.signed]) (by simp [hpc, ht', SubPc.wiredAt]), hpid⟩
      case storeMiss i =>
        cases hs
        refine ⟨.quiet (word_setSlot_of_same rfl rfl) ?_ ?_ ?_, rfl⟩ <;>
          cases ep.history.isLatest <;>
          simp [hpc, SubPc.claiming, SubPc.signed, SubPc.wiredAt]
      case refused | gone => cases hs
      case probePid i pid | probePub i pid | poll i start spin | loadMaster i =>
        repeat' split at hs
        all_goals
          cases hs
          exact ⟨.quiet (fun _ => rfl) (by simp [hpc, SubPc.claiming])
            (by simp [hpc, SubPc.signed]) (by simp [hpc, SubPc.wiredAt]), rfl⟩
      all_goals
        cases hs
        refine ⟨.quiet ?_ (by simp [hpc, SubPc.claiming])
          (by simp [hpc, SubPc.signed]) (by simp [hpc, SubPc.wiredAt]), rfl⟩
        first
          | exact fun _ => rfl
          | exact word_setSlot_of_same rfl rfl

/-- A publisher writes no slot word. -/
theorem pubStep_word {size : Nat} {alive : Nat → Bool} {h h' : Segment T}
    {ep ep' : PubEp T} {a : PubAct T} (hs : pubStep size alive h ep a = some (h', ep'))
    (j : Nat) : h'.word j = h.word j := by
  cases a with
  | publish m | destroy =>
      simp only [pubStep] at hs
      split at hs <;> cases hs <;> rfl
  | go =>
      simp only [pubStep] at hs
      cases hpc : ep.pc <;> simp only [hpc] at hs
      all_goals
        repeat' split at hs
        all_goals
          cases hs <;> first
            | rfl
            | (refine word_setSlot_of_same ?_ ?_ j <;> rfl)

/-! ## The invariant -/

/-- A claimant's slot is marked claimed, a live wired endpoint's active, and no slot is held
twice. -/
structure SlotHeld (w : World T) : Prop where
  claimed : ∀ e i, w.liveSub e → (w.subs e).pc.claiming = some i →
    (w.seg.word i).1 = .claimed
  wired : ∀ e i, w.liveSub e → (w.subs e).pc.wiredAt = some i →
    (w.seg.word i).1 = .active
  unique : ∀ e e' i, w.liveSub e → w.liveSub e' →
    (w.subs e).pc.claiming = some i ∨ (w.subs e).pc.wiredAt = some i →
    (w.subs e').pc.claiming = some i ∨ (w.subs e').pc.wiredAt = some i → e = e'

/-- Live holders own their slots, both words: who has signed a slot finds its own pid in
it. -/
structure SlotInv (w : World T) : Prop extends SlotHeld w where
  signed : ∀ e i, w.liveSub e → (w.subs e).pc.signed = some i →
    (w.seg.word i).2 = (w.subs e).pid

theorem signed_of_wiredAt {pc : SubPc T} {i : Nat} (h : pc.wiredAt = some i) :
    pc.signed = some i := by
  cases pc <;> simp_all [SubPc.wiredAt, SubPc.signed]

theorem held_of_signed {pc : SubPc T} {i : Nat} (h : pc.signed = some i) :
    pc.claiming = some i ∨ pc.wiredAt = some i := by
  cases pc <;> simp_all [SubPc.wiredAt, SubPc.signed, SubPc.claiming]

theorem SlotInv.exclusive {w : World T} (h : SlotInv w) : SlotsExclusive w := by
  refine ⟨fun e e' i hl hl' hw hw' => h.unique e e' i hl hl' (.inr hw) (.inr hw'), ?_⟩
  intro e i hl hw
  exact ⟨h.wired e i hl hw, h.signed e i hl (signed_of_wiredAt hw)⟩

theorem slotHeld_fresh {w : World T} (h : w.Fresh) : SlotHeld w := by
  obtain ⟨-, -, hsub, -⟩ := h
  have hpc : ∀ e, (w.subs e).pc = .unwired := fun e => (hsub e).2.1
  constructor
  all_goals
    intros
    simp_all [SubPc.claiming, SubPc.wiredAt]

theorem slotInv_fresh {w : World T} (h : w.Fresh) : SlotInv w := by
  refine ⟨slotHeld_fresh h, fun e i _ hs => ?_⟩
  rw [(h.2.2.1 e).2.1] at hs
  cases hs

/-- An endpoint holds a slot from its CAS to the first store of its
destructor. -/
def SubPc.Holds (pc : SubPc T) (i : Nat) : Prop :=
  pc.claiming = some i ∨ pc.wiredAt = some i

/-- A free slot has no live holder. -/
theorem SlotHeld.no_holder {w : World T} (h : SlotHeld w) {i : Nat}
    (hw : (w.seg.word i).1 = .free) {e : Nat} (hl : w.liveSub e) : ¬ (w.subs e).pc.Holds i := by
  rintro (hc | hc)
  · have := h.claimed e i hl hc
    rw [hw] at this
    cases this
  · have := h.wired e i hl hc
    rw [hw] at this
    cases this

/-- Nobody alive is wired to an active slot whose pid word names nobody alive. -/
theorem SlotInv.none_wired {w : World T} (h : SlotInv w) {i : Nat}
    (hd : w.alive (w.seg.word i).2 = false) {e : Nat} (hl : w.liveSub e) :
    (w.subs e).pc.wiredAt ≠ some i := by
  intro hc
  rw [h.signed e i hl (signed_of_wiredAt hc)] at hd
  exact absurd hl (by rw [World.liveSub, hd]; simp)

/-- The frame rule for one endpoint's access: what the other live holders see
is unchanged, what the mover now holds is as it should be, and nobody else
holds it. -/
theorem SlotHeld.sub_frame {w : World T} (h : SlotHeld w) {e₀ : Nat} {h' : Segment T}
    {ep' : SubEp T} (hpid : ep'.pid = (w.subs e₀).pid)
    (hoth : ∀ e i, e ≠ e₀ → w.liveSub e → (w.subs e).pc.Holds i →
      (h'.word i).1 = (w.seg.word i).1)
    (hnew : ∀ i, (ep'.pc.claiming = some i → (h'.word i).1 = .claimed) ∧
      (ep'.pc.wiredAt = some i → (h'.word i).1 = .active))
    (huniq : ∀ e i, e ≠ e₀ → w.liveSub e → ep'.pc.Holds i → ¬ (w.subs e).pc.Holds i) :
    SlotHeld (w.putSub e₀ h' ep') := by
  have hlive : ∀ e, (w.putSub e₀ h' ep').liveSub e → w.liveSub e := by
    intro e hl
    by_cases he : e = e₀
    · subst he
      simpa [World.liveSub, hpid] using hl
    · simpa [World.liveSub, World.putSub_ne _ _ _ _ he] using hl
  constructor
  case claimed =>
    intro e i hl hc
    by_cases he : e = e₀
    · subst he
      rw [World.putSub_self] at hc
      exact (hnew i).1 hc
    · rw [World.putSub_ne _ _ _ _ he] at hc
      rw [World.putSub_seg, hoth e i he (hlive e hl) (.inl hc)]
      exact h.claimed e i (hlive e hl) hc
  case wired =>
    intro e i hl hc
    by_cases he : e = e₀
    · subst he
      rw [World.putSub_self] at hc
      exact (hnew i).2 hc
    · rw [World.putSub_ne _ _ _ _ he] at hc
      rw [World.putSub_seg, hoth e i he (hlive e hl) (.inr hc)]
      exact h.wired e i (hlive e hl) hc
  case unique =>
    intro e e' i hl hl' hh hh'
    by_cases he : e = e₀ <;> by_cases he' : e' = e₀
    · rw [he, he']
    · subst he
      rw [World.putSub_self] at hh
      rw [World.putSub_ne _ _ _ _ he'] at hh'
      exact absurd hh' (huniq e' i he' (hlive e' hl') hh)
    · subst he'
      rw [World.putSub_self] at hh'
      rw [World.putSub_ne _ _ _ _ he] at hh
      exact absurd hh (huniq e i he (hlive e hl) hh')
    · rw [World.putSub_ne _ _ _ _ he] at hh
      rw [World.putSub_ne _ _ _ _ he'] at hh'
      exact h.unique e e' i (hlive e hl) (hlive e' hl') hh hh'

/-- The frame rule where the access wrote slot `i` and no other live endpoint
holds it. -/
theorem SlotHeld.sub_frame_own {w : World T} (h : SlotHeld w) {e₀ i : Nat} {s : SubSlot}
    {ep' : SubEp T} (hpid : ep'.pid = (w.subs e₀).pid)
    (hfree : ∀ e, e ≠ e₀ → w.liveSub e → ¬ (w.subs e).pc.Holds i)
    (hnew : (ep'.pc.claiming = some i → s.state = .claimed) ∧
      (ep'.pc.wiredAt = some i → s.state = .active))
    (honly : ∀ j, ep'.pc.Holds j → j = i) :
    SlotHeld (w.putSub e₀ (w.seg.setSlot i s) ep') := by
  refine h.sub_frame hpid ?_ ?_ ?_
  · intro e j he hl hh
    have hj : j ≠ i := by
      rintro rfl
      exact hfree e he hl hh
    rw [Segment.word_setSlot, if_neg hj]
  · intro j
    rw [Segment.word_setSlot]
    refine ⟨fun hc => ?_, fun hc => ?_⟩
    · obtain rfl := honly j (.inl hc)
      rw [if_pos rfl]
      exact hnew.1 hc
    · obtain rfl := honly j (.inr hc)
      rw [if_pos rfl]
      exact hnew.2 hc
  · intro e j he hl hh
    obtain rfl := honly j hh
    exact hfree e he hl

/-- Slots stay held by one while no dead-owner CAS takes one from a live owner. A late clear
does not matter here: it writes no state word. -/
theorem slotHeld_sub {w : World T} (hinv : SlotHeld w) {e₀ : Nat} {a : SubAct}
    {h' : Segment T} {ep' : SubEp T} (hl₀ : w.liveSub e₀)
    (hnone : ∀ i, (w.subs e₀).pc = .casActive i → (w.seg.subSlots i).state = .active →
      ∀ e, w.liveSub e → (w.subs e).pc.wiredAt ≠ some i)
    (hs : subStep w.alive w.seg (w.subs e₀) a = some (h', ep')) :
    SlotHeld (w.putSub e₀ h' ep') := by
  obtain ⟨hmove, hpid⟩ := subStep_slotMove hs
  -- a mover that already holds `i` is its only live holder
  have hsole : ∀ i, (w.subs e₀).pc.Holds i →
      ∀ e, e ≠ e₀ → w.liveSub e → ¬ (w.subs e).pc.Holds i :=
    fun i hi e he hl hh => he (hinv.unique e e₀ i hl hl₀ hh hi)
  cases hmove with
  | quiet hw hc hsg hwi =>
      refine hinv.sub_frame hpid ?_ ?_ ?_
      · intro e i _ _ _
        rw [hw]
      · intro i
        rw [hw, hc, hwi]
        exact ⟨hinv.claimed e₀ i hl₀, hinv.wired e₀ i hl₀⟩
      · intro e i he hl hh
        rw [SubPc.Holds, hc, hwi] at hh
        exact hsole i hh e he hl
  | claim i hpc _ hst =>
      refine hinv.sub_frame_own hpid (fun e _ hl => hinv.no_holder hst hl) ?_ ?_
      · simp [SubPc.claiming, SubPc.wiredAt]
      · intro j hj
        simpa [SubPc.Holds, SubPc.claiming, SubPc.wiredAt, eq_comm] using hj
  | reclaim i hpc hst =>
      refine hinv.sub_frame_own hpid ?_ ?_ ?_
      · rintro e - hl (hc | hc)
        · have := hinv.claimed e i hl hc
          rw [Segment.word, hst] at this
          cases this
        · exact hnone i hpc hst e hl hc
      · simp [SubPc.claiming, SubPc.wiredAt]
      · intro j hj
        simpa [SubPc.Holds, SubPc.claiming, SubPc.wiredAt, eq_comm] using hj
  | sign i hpc =>
      have hc : (w.subs e₀).pc.claiming = some i := by rw [hpc]; rfl
      refine hinv.sub_frame_own hpid (hsole i (.inl hc)) ?_ ?_
      · exact ⟨fun _ => hinv.claimed e₀ i hl₀ hc, by simp [SubPc.wiredAt]⟩
      · intro j hj
        simpa [SubPc.Holds, SubPc.claiming, SubPc.wiredAt, eq_comm] using hj
  | activate i hpc =>
      have hc : (w.subs e₀).pc.claiming = some i := by rw [hpc]; rfl
      refine hinv.sub_frame_own hpid (hsole i (.inl hc)) ?_ ?_
      · exact ⟨by simp [SubPc.claiming], fun _ => rfl⟩
      · intro j hj
        simpa [SubPc.Holds, SubPc.claiming, SubPc.wiredAt, eq_comm] using hj
  | release i hpc =>
      have hw : (w.subs e₀).pc.wiredAt = some i := by rw [hpc]; rfl
      refine hinv.sub_frame_own hpid (hsole i (.inr hw)) ?_ ?_
      · simp [SubPc.claiming, SubPc.wiredAt]
      · simp [SubPc.Holds, SubPc.claiming, SubPc.wiredAt]
  | clear i hpc =>
      refine hinv.sub_frame hpid ?_ ?_ ?_
      · intro e j _ hl _
        rw [Segment.word_setSlot]
        split
        · next hj => rw [hj]; rfl
        · rfl
      · simp [SubPc.claiming, SubPc.wiredAt]
      · simp [SubPc.Holds, SubPc.claiming, SubPc.wiredAt]

/-- What a slot access does to the pid words: a signature is new, or it was there, and
where another live holder had signed it stays. -/
theorem signed_sub {w : World T} (hinv : SlotInv w) {e₀ : Nat} {h' : Segment T} {ep' : SubEp T}
    (hl₀ : w.liveSub e₀) (hmove : SlotMove w.seg (w.subs e₀) h' ep')
    (hpid : ep'.pid = (w.subs e₀).pid)
    (hns : ∀ i, (w.subs e₀).pc = .released i → ∀ e, w.liveSub e → (w.subs e).pc.signed ≠ some i)
    (i : Nat) :
    (ep'.pc.signed = some i → (h'.word i).2 = ep'.pid) ∧
    ∀ e, e ≠ e₀ → w.liveSub e → (w.subs e).pc.signed = some i →
      (h'.word i).2 = (w.seg.word i).2 := by
  have hkeep : ∀ {j : Nat} {s : SubSlot}, s.pid = (w.seg.subSlots j).pid →
      ((w.seg.setSlot j s).word i).2 = (w.seg.word i).2 := by
    intro j s hs
    rw [Segment.word_setSlot]
    split
    · next hij => rw [hij]; exact hs
    · rfl
  cases hmove with
  | quiet hw _ hsg _ =>
      rw [hw, hsg, hpid]
      exact ⟨hinv.signed e₀ i hl₀, fun _ _ _ _ => rfl⟩
  | claim j _ _ _ | reclaim j _ _ | release j _ =>
      exact ⟨fun h0 => (nomatch h0), fun _ _ _ _ => hkeep rfl⟩
  | sign j hpc =>
      refine ⟨fun h0 => ?_, fun e he hl hsg => ?_⟩
      · obtain rfl : j = i := by simpa [SubPc.signed] using h0
        rw [Segment.word_setSlot, if_pos rfl]
        rfl
      · have hj : i ≠ j := by
          rintro rfl
          exact he (hinv.unique e e₀ i hl hl₀ (held_of_signed hsg) (.inl (by rw [hpc]; rfl)))
        rw [Segment.word_setSlot, if_neg hj]
  | activate j hpc =>
      refine ⟨fun h0 => ?_, fun _ _ _ _ => hkeep rfl⟩
      obtain rfl : j = i := by simpa [SubPc.signed] using h0
      rw [Segment.word_setSlot, if_pos rfl]
      exact hinv.signed e₀ j hl₀ (by rw [hpc]; rfl)
  | clear j hpc =>
      -- the one access that may touch a slot somebody else is claiming: the
      -- discipline says that claimant has not signed yet
      refine ⟨fun h0 => (nomatch h0), fun e _ hl hsg => ?_⟩
      have hj : i ≠ j := by
        rintro rfl
        exact hns i hpc e hl hsg
      rw [Segment.word_setSlot, if_neg hj]

theorem slotInv_sub {w : World T} (hinv : SlotInv w) {e₀ : Nat} {a : SubAct}
    {h' : Segment T} {ep' : SubEp T} (hl₀ : w.liveSub e₀)
    (hok : SlotDiscipline w (.sub e₀ a))
    (hs : subStep w.alive w.seg (w.subs e₀) a = some (h', ep')) :
    SlotInv (w.putSub e₀ h' ep') := by
  obtain ⟨hmove, hpid⟩ := subStep_slotMove hs
  have hsigned := signed_sub hinv hl₀ hmove hpid fun i hpc => by
    cases a with
    | go now => simpa [SlotDiscipline, hpc] using hok
    | _ => simp [subStep, hpc] at hs
  refine ⟨slotHeld_sub hinv.toSlotHeld hl₀ (fun i hpc hst e hl => ?_) hs, fun e i hl hsg => ?_⟩
  · cases a with
    | go now =>
        simp only [SlotDiscipline, hpc] at hok
        exact hinv.none_wired (hok hst) hl
    | _ => simp [subStep, hpc] at hs
  · by_cases he : e = e₀
    · subst he
      rw [World.putSub_self] at hsg ⊢
      exact (hsigned i).1 hsg
    · rw [World.liveSub, World.putSub_ne _ _ _ _ he] at hl
      rw [World.putSub_ne _ _ _ _ he] at hsg ⊢
      rw [World.putSub_seg, (hsigned i).2 e he hl hsg]
      exact hinv.signed e i hl hsg

theorem slotHeld_pub {w : World T} (h : SlotHeld w) {size e₀ : Nat} {a : PubAct T}
    {h' : Segment T} {ep' : PubEp T}
    (hs : pubStep size w.alive w.seg (w.pubs e₀) a = some (h', ep')) :
    SlotHeld (w.putPub e₀ h' ep') := by
  have hw := pubStep_word hs
  constructor
  case claimed =>
    intro e i hl hc
    rw [World.putPub_seg, hw]
    exact h.claimed e i hl hc
  case wired =>
    intro e i hl hc
    rw [World.putPub_seg, hw]
    exact h.wired e i hl hc
  case unique => exact h.unique

theorem slotInv_pub {w : World T} (h : SlotInv w) {size e₀ : Nat} {a : PubAct T}
    {h' : Segment T} {ep' : PubEp T}
    (hs : pubStep size w.alive w.seg (w.pubs e₀) a = some (h', ep')) :
    SlotInv (w.putPub e₀ h' ep') := by
  refine ⟨slotHeld_pub h.toSlotHeld hs, fun e i hl hc => ?_⟩
  rw [World.putPub_seg, pubStep_word hs]
  exact h.signed e i hl hc

/-- A death only takes holders away. -/
theorem slotHeld_die {w : World T} (h : SlotHeld w) (pid : Nat) : SlotHeld (w.kill pid) := by
  have hlive : ∀ e, (w.kill pid).liveSub e → w.liveSub e :=
    fun _ => World.alive_of_kill w pid
  constructor
  case claimed => exact fun e i hl hc => h.claimed e i (hlive e hl) hc
  case wired => exact fun e i hl hc => h.wired e i (hlive e hl) hc
  case unique =>
    exact fun e e' i hl hl' hh hh' => h.unique e e' i (hlive e hl) (hlive e' hl') hh hh'

theorem slotInv_die {w : World T} (h : SlotInv w) (pid : Nat) : SlotInv (w.kill pid) :=
  ⟨slotHeld_die h.toSlotHeld pid, fun e i hl hc => h.signed e i (World.alive_of_kill w pid hl) hc⟩

theorem slotInv_step {size : Nat} {w w' : World T} {a : Act T} (h : SlotInv w)
    (hok : SlotDiscipline w a) (hs : w.step size a = some w') : SlotInv w' := by
  rcases step_cases hs with ⟨pid, rfl, rfl⟩ | ⟨e, b, h', ep', rfl, hal, hsub, rfl⟩ |
    ⟨e, b, h', ep', rfl, -, hpub, rfl⟩
  · exact slotInv_die h pid
  · exact slotInv_sub h hal hok hsub
  · exact slotInv_pub h hpub

theorem slotInv_reached {size : Nat} {w : World T}
    (h : (machine T size).Reached SlotDiscipline w) : SlotInv w :=
  h.invariant (fun _ => slotInv_fresh)
    (fun _ _ _ _ hinv hok hs => slotInv_step hinv hok hs)

/-- Runs whose destructors and dead-owner claims stay out of the two windows
keep every slot exclusive, in every state they reach. -/
theorem slots_exclusive {size : Nat} {w : World T}
    (h : (machine T size).Reached SlotDiscipline w) : SlotsExclusive w :=
  (slotInv_reached h).exclusive

/-! Concrete runs start from a world whose subscriber endpoint `e` lives in
process `e + 1`, so that every endpoint has a process of its own. -/

/-- A fresh segment, one process per endpoint. -/
def lonely (T : Type) : World T where
  subs e := { pid := e + 1 }
  pubs e := { pid := e + 101 }

theorem lonely_fresh (T : Type) : (lonely T).Fresh :=
  ⟨rfl, fun _ => rfl, fun e => ⟨Nat.succ_ne_zero e, rfl, rfl⟩,
    fun e => ⟨Nat.succ_ne_zero (e + 100), rfl, rfl⟩⟩

/-- `n` consecutive accesses by subscriber endpoint `e`. -/
def subGo {T : Type} (e n : Nat) : List (Act T) := List.replicate n (.sub e (.go 0))

/-- A decidable part of the discipline: never clear, and probe the pid word
again at a dead-owner CAS that succeeds. -/
def slotCheck (w : World T) : Act T → Bool
  | .sub e (.go _) =>
      match (w.subs e).pc with
      | .released _ => false
      | .casActive i => (w.seg.subSlots i).state != .active || !w.alive (w.seg.subSlots i).pid
      | _ => true
  | _ => true

theorem slotCheck_sound (w : World T) (a : Act T) (h : slotCheck w a = true) :
    SlotDiscipline w a := by
  cases a with
  | die pid => exact trivial
  | pub e b => exact trivial
  | sub e b =>
      cases b with
      | go now =>
          simp only [slotCheck, SlotDiscipline] at h ⊢
          split at h
          · cases h
          · next hpc =>
              intro hst
              simpa [hst] using h
          · exact trivial
      | _ => exact trivial

/-- A subscriber dies wired, another reclaims its slot: the discipline is met,
and the new owner's slot is its own. -/
theorem slots_exclusive_reclaim : ∃ w : World Unit,
    (machine Unit 1).Reached SlotDiscipline w ∧
      ((w.subs 1).pc.wiredAt = some 0 ∧ w.liveSub 1) ∧ SlotsExclusive w := by
  have hrun : ((machine Unit 1).execOk slotCheck
      (subGo 0 13 ++ .die 1 :: subGo 1 18) (lonely Unit)).map
        (fun w => ((w.subs 1).pc.wiredAt, w.alive (w.subs 1).pid)) =
      some (some 0, true) := by decide
  obtain ⟨w, hw, hf⟩ := Option.map_eq_some_iff.mp hrun
  have hr := Machine.reached_of_execOk (J := fun _ => True)
    (fun w a _ => slotCheck_sound w a) (fun _ _ _ _ _ _ => trivial) trivial
    (.start (lonely_fresh Unit)) hw
  exact ⟨w, hr, ⟨congrArg Prod.fst hf, congrArg Prod.snd hf⟩, slots_exclusive hr⟩

/-- The destructor's late clear, caught: endpoint 0 stores Free, endpoint 1
takes the slot and becomes active, endpoint 0 clears the pid, and endpoint 2,
probing pid zero, takes the slot of a live owner. -/
theorem slots_not_exclusive :
    ¬ ∀ w : World Unit, (machine Unit 1).Reached anyStep w → SlotsExclusive w := by
  intro hall
  have hrun : ((machine Unit 1).exec
      (subGo 0 13 ++ .sub 0 .destroy :: subGo 1 13 ++ subGo 0 1 ++ subGo 2 18)
      (lonely Unit)).map
        (fun w => ((w.subs 1).pc.wiredAt, (w.subs 2).pc.wiredAt,
          w.alive (w.subs 1).pid, w.alive (w.subs 2).pid)) =
      some (some 0, some 0, true, true) := by decide
  obtain ⟨w, hw, hf⟩ := Option.map_eq_some_iff.mp hrun
  simp only [Prod.mk.injEq] at hf
  have hr := Machine.reached_of_exec (.start (lonely_fresh Unit)) hw
  have := (hall w hr).1 1 2 0 hf.2.2.1 hf.2.2.2 hf.1 hf.2.1
  exact absurd this (by decide)

end Xmmsg.Shm
