import Xmmsg.Shm.Owner
import Xmmsg.Shm.Solo

/-!
# Which slots a newcomer can have

`ClaimSubscriberSlot` takes a slot that is free, or active under the pid of a dead
process, and says that it fails only when all sixteen are held by live owners. Two
things have to be known of a slot it passes by.

An active slot under a live pid: the pid was stored by an endpoint that has not cleared
it since, so it is still there, or at the last store of its destructor. That holds in
every run (`signed_reached`).

A claimed slot: the endpoint whose CAS it was is on the way to `kShmSubActive`. That
holds as long as it lives. A process that dies on that way leaves a slot behind that is
neither free nor active, and nothing ever looks at its pid again: segments are not
unlinked, so it is gone for good. A newcomer misses it only when no other slot can be had:
`slots_reclaimable` says exactly in which states of a run the promise is kept, and that
all states of the runs in which no process dies on that way are among them.
-/

namespace Xmmsg.Shm

open Xmmsg.Sys

variable {T : Type} {size : Nat}

/-! ## Signatures -/

/-- The endpoint whose pid is in the slot: it holds it, or has to clear it yet. -/
def SubPc.signs (pc : SubPc T) (i : Nat) : Prop := pc.signed = some i ∨ pc = .released i

def Signed (w : World T) : Prop :=
  ∀ i, (w.seg.word i).2 ≠ 0 → ∃ e, (w.subs e).pid = (w.seg.word i).2 ∧ (w.subs e).pc.signs i

/-- The destructor's second store. -/
theorem released_step {alive : Nat → Bool} {h h' : Segment T} {ep ep' : SubEp T} {a : SubAct}
    (hs : subStep alive h ep a = some (h', ep')) {i : Nat} (hpc : ep.pc = .released i) :
    (h'.word i).2 = 0 := by
  cases a with
  | go now =>
      simp only [subStep, hpc] at hs
      cases hs
      rw [Segment.word_setSlot, if_pos rfl]
  | _ =>
      simp only [subStep, hpc] at hs
      cases hs

/-- An endpoint that signs a slot goes on doing so until it clears it. -/
theorem subStep_signs {alive : Nat → Bool} {h h' : Segment T} {ep ep' : SubEp T} {a : SubAct}
    (hs : subStep alive h ep a = some (h', ep')) {i : Nat} (hi : ep.pc.signs i)
    (hne : (h'.word i).2 ≠ 0) : ep'.pc.signs i := by
  rcases hi with hi | hi
  · cases (subStep_slotMove hs).1 with
    | quiet _ _ hsig => exact .inl (hsig.trans hi)
    | activate j hpc =>
        rw [hpc] at hi
        cases hi
        exact .inl rfl
    | release j hpc =>
        rw [hpc] at hi
        cases hi
        exact .inr rfl
    | claim j hpc | reclaim j hpc | sign j hpc | clear j hpc =>
        rw [hpc] at hi
        cases hi
  · exact absurd (released_step hs hi) hne

/-- A pid that a step puts into a slot is the mover's own, and the mover holds it. -/
theorem subStep_pid_word {alive : Nat → Bool} {h h' : Segment T} {ep ep' : SubEp T} {a : SubAct}
    (hs : subStep alive h ep a = some (h', ep')) (i : Nat) :
    (h'.word i).2 = (h.word i).2 ∨ (h'.word i).2 = 0 ∨
      (h'.word i).2 = ep'.pid ∧ ep'.pc.signed = some i := by
  obtain ⟨hm, hpid⟩ := subStep_slotMove hs
  cases hm with
  | quiet hw => exact .inl (by rw [hw])
  | claim j | reclaim j | activate j | release j =>
      left
      rw [Segment.word_setSlot]
      split
      · next hij => rw [hij]; rfl
      · rfl
  | sign j hpc =>
      rw [Segment.word_setSlot]
      split
      · next hij => exact .inr (.inr ⟨hpid.symm, by rw [hij]; rfl⟩)
      · exact .inl rfl
  | clear j hpc =>
      rw [Segment.word_setSlot]
      split
      · exact .inr (.inl rfl)
      · exact .inl rfl

theorem signed_reached {ok : World T → Act T → Prop} {w : World T}
    (hw : (machine T size).Reached ok w) : Signed w := by
  refine hw.invariant (P := Signed) ?_ ?_
  · rintro w ⟨hseg, -⟩ i hi
    rw [hseg] at hi
    exact absurd rfl hi
  · intro w a w' _ h _ hs i hi
    rcases step_cases hs with ⟨pid, rfl, rfl⟩ | ⟨e, b, h', ep', rfl, hal, hsub, rfl⟩ |
      ⟨p, b, h', ep', rfl, hal, hpub, rfl⟩
    · exact h i hi
    · rw [World.putSub_seg] at hi ⊢
      rcases subStep_pid_word hsub i with hold | hzero | ⟨hown, hsigns⟩
      · rw [hold] at hi
        obtain ⟨e', hpid, hsigns⟩ := h i hi
        refine ⟨e', ?_⟩
        rw [hold]
        by_cases he : e' = e
        · subst he
          rw [World.putSub_self, (subStep_slotMove hsub).2]
          exact ⟨hpid, subStep_signs hsub hsigns (by rw [hold]; exact hi)⟩
        · rw [World.putSub_ne _ _ _ _ he]
          exact ⟨hpid, hsigns⟩
      · exact absurd hzero hi
      · exact ⟨e, by rw [World.putSub_self]; exact ⟨hown.symm, .inl hsigns⟩⟩
    · rw [World.putPub_seg, pubStep_word hpub] at hi ⊢
      exact h i hi

/-! ## Claims -/

/-- No process dies with a subscriber between `kShmSubClaimed` and `kShmSubActive`. -/
def NoneLeft (w : World T) (a : Act T) : Prop :=
  ∀ pid e, a = .die pid → (w.subs e).pid = pid → w.liveSub e → (w.subs e).pc.claiming = none

def Attended (w : World T) : Prop :=
  ∀ i, (w.seg.word i).1 = .claimed → ∃ e, w.liveSub e ∧ (w.subs e).pc.claiming = some i

/-- A slot that is claimed after a step was claimed before, by an endpoint that still is,
or is claimed by the mover now. -/
theorem subStep_claimed {alive : Nat → Bool} {h h' : Segment T} {ep ep' : SubEp T} {a : SubAct}
    (hs : subStep alive h ep a = some (h', ep')) {i : Nat} (hi : (h'.word i).1 = .claimed) :
    ep'.pc.claiming = some i ∨ (h.word i).1 = .claimed ∧ ep.pc.claiming ≠ some i := by
  cases (subStep_slotMove hs).1 with
  | quiet hw hc =>
      rw [hw] at hi
      by_cases h0 : ep.pc.claiming = some i
      · exact .inl (hc.trans h0)
      · exact .inr ⟨hi, h0⟩
  | claim j hpc | reclaim j hpc =>
      rw [Segment.word_setSlot] at hi
      split at hi
      · next hij => exact .inl (by rw [hij]; rfl)
      · exact .inr ⟨hi, by rw [hpc]; exact nofun⟩
  | sign j hpc =>
      rw [Segment.word_setSlot] at hi
      split at hi
      · next hij => exact .inl (by rw [hij]; rfl)
      · next hij =>
        refine .inr ⟨hi, ?_⟩
        rw [hpc]
        exact fun h0 => hij (Option.some.inj h0).symm
  | activate j hpc =>
      rw [Segment.word_setSlot] at hi
      split at hi
      · cases hi
      · next hij =>
        refine .inr ⟨hi, ?_⟩
        rw [hpc]
        exact fun h0 => hij (Option.some.inj h0).symm
  | release j hpc =>
      rw [Segment.word_setSlot] at hi
      split at hi
      · cases hi
      · exact .inr ⟨hi, by rw [hpc]; exact nofun⟩
  | clear j hpc =>
      rw [Segment.word_setSlot] at hi
      split at hi
      · next hij => exact .inr ⟨by rw [hij]; exact hi, by rw [hpc]; exact nofun⟩
      · exact .inr ⟨hi, by rw [hpc]; exact nofun⟩

theorem attended_reached {ok : World T → Act T → Prop} (hok : ∀ v a, ok v a → NoneLeft v a)
    {w : World T} (hw : (machine T size).Reached ok w) : Attended w := by
  refine hw.invariant (P := Attended) ?_ ?_
  · rintro w ⟨hseg, -⟩ i hi
    rw [hseg] at hi
    cases hi
  · intro w a w' _ h hstep hs i hi
    rcases step_cases hs with ⟨pid, rfl, rfl⟩ | ⟨e, b, h', ep', rfl, hal, hsub, rfl⟩ |
      ⟨p, b, h', ep', rfl, hal, hpub, rfl⟩
    · obtain ⟨e, hl, hc⟩ := h i hi
      refine ⟨e, ?_, hc⟩
      have hne : (w.subs e).pid ≠ pid := by
        intro h0
        rw [hok _ _ hstep pid e rfl h0 hl] at hc
        cases hc
      simpa [World.liveSub, World.alive, World.kill, hne] using hl
    · rcases subStep_claimed hsub hi with hnew | ⟨hold, hother⟩
      · refine ⟨e, ?_, by rw [World.putSub_self]; exact hnew⟩
        rw [World.liveSub, World.putSub_self, World.putSub_alive, (subStep_slotMove hsub).2]
        exact hal
      · obtain ⟨e', hl, hc⟩ := h i hold
        have he : e' ≠ e := fun h0 => hother (h0 ▸ hc)
        refine ⟨e', ?_, by rw [World.putSub_ne _ _ _ _ he]; exact hc⟩
        rw [World.liveSub, World.putSub_ne _ _ _ _ he, World.putSub_alive]
        exact hl
    · rw [World.putPub_seg, pubStep_word hpub] at hi
      exact h i hi

/-! ## A claim on a segment at rest -/

/-- Neither claiming nor destroyed halfway. -/
def SubPc.resting : SubPc T → Bool
  | .unwired | .wired _ _ | .refused | .gone => true
  | _ => false

def Quiet (w : World T) : Prop := ∀ e, w.liveSub e → (w.subs e).pc.resting = true

/-- A live endpoint holds the slot. -/
def World.Owned (w : World T) (i : Nat) : Prop := ∃ e, w.liveSub e ∧ (w.subs e).pc.Holds i

/-- What `ClaimSubscriberSlot` promises to endpoint `e`. -/
structure Reclaimable (size : Nat) (w : World T) (e : Nat) : Prop where
  refuses : w.Refuses size e → ∀ i, i < kShmMaxSubscribers → w.Owned i
  grants : (∃ i, i < kShmMaxSubscribers ∧ ¬ w.Owned i) → w.Grants size e

theorem owned_of_active {w : World T} (hs : Signed w) (hq : Quiet w) {i : Nat}
    (hal : w.alive (w.seg.subSlots i).pid = true) : w.Owned i := by
  obtain ⟨e, hpid, hsigns⟩ := hs i (alive_pos hal)
  have hl : w.liveSub e := by
    rw [World.liveSub, hpid]
    exact hal
  refine ⟨e, hl, ?_⟩
  rcases hsigns with hsig | hrel
  · exact held_of_signed hsig
  · have := hq e hl
    rw [hrel] at this
    cases this

/-- Some slot is free, or active under the pid of a dead process. -/
def World.HasRoom (w : World T) : Prop :=
  ∃ i, i < kShmMaxSubscribers ∧ w.seg.takable w.alive i = true

/-- No slot has been left claimed. -/
def World.NoneAbandoned (w : World T) : Prop :=
  ∀ i, i < kShmMaxSubscribers → (w.seg.subSlots i).state = .claimed → w.Owned i

theorem Attended.noneAbandoned {w : World T} (h : Attended w) : w.NoneAbandoned := by
  intro i _ hst
  obtain ⟨e, hl, hc⟩ := h i hst
  exact ⟨e, hl, .inl hc⟩

/-- On a segment at rest with no slot left claimed, whatever the scan passes is owned. -/
theorem owned_of_passed {w : World T} (hs : Signed w) (ha : w.NoneAbandoned) (hq : Quiet w)
    {i : Nat} (hi : i < kShmMaxSubscribers) (hpass : w.seg.takable w.alive i = false) :
    w.Owned i := by
  cases hst : (w.seg.subSlots i).state with
  | free =>
      simp only [Segment.takable, hst] at hpass
      cases hpass
  | active =>
      simp only [Segment.takable, hst, Bool.not_eq_false'] at hpass
      exact owned_of_active hs hq hpass
  | claimed => exact ha i hi hst

theorem passed_of_claimable_none {alive : Nat → Bool} {h : Segment T}
    (hc : h.claimable alive = none) {i : Nat} (hi : i < kShmMaxSubscribers) :
    h.takable alive i = false := by
  rw [claimable_eq, List.find?_eq_none] at hc
  exact Bool.eq_false_iff.mpr (hc i (List.mem_range.mpr hi))

theorem hasRoom_iff {w : World T} : w.HasRoom ↔ ∃ i, w.seg.claimable w.alive = some i := by
  rw [claimable_eq, ← Option.isSome_iff_exists, List.find?_isSome]
  simp only [World.HasRoom, List.mem_range]

/-- In every state a run reaches, with the segment at rest, a claim keeps its promise just
when some slot can be had or none has been left claimed: then it is refused only if live
endpoints hold all sixteen. A run in which no process dies with a subscriber between
`kShmSubClaimed` and `kShmSubActive` reaches no other states. -/
theorem slots_reclaimable {w : World T} (hr : (machine T size).Reached anyStep w) (hq : Quiet w)
    {e : Nat} (hl : w.liveSub e) (hpc : (w.subs e).pc = .unwired) :
    (Reclaimable size w e ↔ w.HasRoom ∨ w.NoneAbandoned) ∧
      ((machine T size).Reached NoneLeft w → Reclaimable size w e) := by
  have hroom : w.HasRoom → Reclaimable size w e := by
    intro h
    obtain ⟨i, hc⟩ := hasRoom_iff.mp h
    refine ⟨fun href => ?_, fun _ => grants_of_claimable hl hpc hc⟩
    rw [refuses_iff hl hpc, hc] at href
    cases href
  have hfull : ¬ w.HasRoom → w.seg.claimable w.alive = none := by
    intro h
    cases hc : w.seg.claimable w.alive with
    | none => rfl
    | some i => exact absurd (hasRoom_iff.mpr ⟨i, hc⟩) h
  have hall : ¬ w.HasRoom → w.NoneAbandoned → ∀ i, i < kShmMaxSubscribers → w.Owned i :=
    fun hno ha i hi => owned_of_passed (signed_reached hr) ha hq hi
      (passed_of_claimable_none (hfull hno) hi)
  have hkept : w.HasRoom ∨ w.NoneAbandoned → Reclaimable size w e := by
    intro h
    by_cases hsome : w.HasRoom
    · exact hroom hsome
    · have hown := hall hsome (h.resolve_left hsome)
      exact ⟨fun _ => hown, fun ⟨i, hi, hno⟩ => absurd (hown i hi) hno⟩
  refine ⟨⟨fun h => ?_, hkept⟩, fun hrun => ?_⟩
  · by_cases hsome : w.HasRoom
    · exact .inl hsome
    · have href : w.Refuses size e := (refuses_iff hl hpc).mpr (hfull hsome)
      exact .inr fun i hi _ => h.refuses href i hi
  · exact hkept (.inr (attended_reached (fun _ _ h => h) hrun).noneAbandoned)

/-- The endpoints from `n` on have not moved. -/
def Untouched (n : Nat) (w : World T) : Prop := ∀ e, n ≤ e → (w.subs e).pc = .unwired

/-- Only subscribers below `n` move. -/
def Act.below (n : Nat) : Act T → Bool
  | .sub e _ => decide (e < n)
  | _ => true

theorem untouched_step {n : Nat} {w w' : World T} {a : Act T} (hj : Untouched n w)
    (ha : a.below n = true) (hs : w.step size a = some w') : Untouched n w' := by
  intro e he
  rcases step_cases hs with ⟨pid, rfl, rfl⟩ | ⟨e', b, h', ep', rfl, -, -, rfl⟩ |
    ⟨p, b, h', ep', rfl, -, -, rfl⟩
  · exact hj e he
  · have hlt : e' < n := of_decide_eq_true ha
    have hne : e ≠ e' := by omega
    rw [World.putSub_ne _ _ _ _ hne]
    exact hj e he
  · exact hj e he

/-- And no process dies between the two stores of a claim. -/
def attendedCheck (n : Nat) (w : World T) (a : Act T) : Bool :=
  a.below n && match a with
    | .die pid => (List.range n).all fun e =>
        decide ((w.subs e).pid ≠ pid) || (w.subs e).pc.claiming.isNone
    | _ => true

theorem attendedCheck_sound {n : Nat} {w : World T} {a : Act T} (hj : Untouched n w)
    (h : attendedCheck n w a = true) : NoneLeft w a := by
  rintro pid e rfl hpid -
  by_cases he : e < n
  · have := List.all_eq_true.mp (Bool.and_eq_true_iff.mp h).2 e (List.mem_range.mpr he)
    simpa [hpid] using this
  · rw [hj e (Nat.le_of_not_lt he)]
    rfl

theorem attendedCheck_keeps {n : Nat} (w : World T) (a : Act T) (w' : World T)
    (hj : Untouched n w) (h : attendedCheck n w a = true)
    (hs : (machine T size).step w a = some w') : Untouched n w' :=
  untouched_step hj (Bool.and_eq_true_iff.mp h).1 hs

/-- When the endpoints that moved are dead, those alive have not been wired. -/
theorem unwired_of_dead {n : Nat} {w : World T} (hu : Untouched n w)
    (hdead : ∀ e, e < n → w.alive (w.subs e).pid = false) {e : Nat} (he : w.liveSub e) :
    (w.subs e).pc = .unwired := by
  refine hu e (Nat.le_of_not_lt fun hlt => ?_)
  rw [World.liveSub, hdead e hlt] at he
  cases he

theorem quiet_of_unwired {w : World T} (h : ∀ e, w.liveSub e → (w.subs e).pc = .unwired) :
    Quiet w := by
  intro e he
  rw [h e he]
  rfl

theorem not_owned_of_unwired {w : World T} (h : ∀ e, w.liveSub e → (w.subs e).pc = .unwired)
    (i : Nat) : ¬ w.Owned i := by
  rintro ⟨e, he, hh⟩
  rw [h e he] at hh
  rcases hh with hh | hh <;> cases hh

theorem below_keeps {n : Nat} (w : World T) (a : Act T) (w' : World T) (hj : Untouched n w)
    (h : a.below n = true) (hs : (machine T size).step w a = some w') : Untouched n w' :=
  untouched_step hj h hs

/-- The owner of the first slot has died, and the newcomer gets it: in a run that keeps to
`NoneLeft`, and in one in which the owner of the second has died in the middle of its
claim. -/
theorem slots_reclaimable_dead :
    (∃ w : World Unit, (machine Unit 1).Reached NoneLeft w ∧ ¬ w.Owned 0 ∧ w.Grants 1 1) ∧
      ∃ w : World Unit, (machine Unit 1).Reached anyStep w ∧ ¬ w.NoneAbandoned ∧
        ¬ w.Owned 0 ∧ w.Grants 1 2 := by
  constructor
  · have hrun : ((machine Unit 1).execOk (attendedCheck 1) (subGo 0 13 ++ [.die 1])
        (lonely Unit)).map (fun w => (w.alive (w.subs 0).pid, w.alive (w.subs 1).pid)) =
        some (false, true) := by decide
    obtain ⟨w, hw, hf⟩ := Option.map_eq_some_iff.mp hrun
    obtain ⟨hdead, hlive⟩ := Prod.mk.inj hf
    have h0 : Untouched 1 (lonely Unit) := fun _ _ => rfl
    have hr := Machine.reached_of_execOk (J := Untouched 1)
      (fun _ _ hj h => attendedCheck_sound hj h) attendedCheck_keeps h0
      (.start (lonely_fresh Unit)) hw
    have hrest : ∀ e, w.liveSub e → (w.subs e).pc = .unwired := by
      refine fun e => unwired_of_dead
        (Machine.execOk_keeps (J := Untouched 1) attendedCheck_keeps h0 hw) fun x hx => ?_
      rw [Nat.lt_one_iff.mp hx]
      exact hdead
    have hno : ¬ w.Owned 0 := not_owned_of_unwired hrest 0
    have hany : (machine Unit 1).Reached anyStep w := hr.weaken fun _ _ _ => trivial
    have hclaim := (slots_reclaimable hany (quiet_of_unwired hrest) hlive (hrest 1 hlive)).2 hr
    exact ⟨w, hr, hno, hclaim.grants ⟨0, by decide, hno⟩⟩
  · have hrun : ((machine Unit 1).execOk (fun _ => Act.below 2)
        (subGo 0 13 ++ subGo 1 5 ++ [.die 2, .die 1]) (lonely Unit)).map
          (fun w => ((List.range 2).all fun e => !w.alive (w.subs e).pid, w.alive (w.subs 2).pid,
            w.seg.takable w.alive 0, (w.seg.subSlots 1).state)) =
        some (true, true, true, .claimed) := by decide
    obtain ⟨w, hw, hf⟩ := Option.map_eq_some_iff.mp hrun
    simp only [Prod.mk.injEq] at hf
    obtain ⟨hdead, hlive, htake, hclaimed⟩ := hf
    have h0 : Untouched 2 (lonely Unit) := fun _ _ => rfl
    have hr := Machine.reached_of_execOk (J := Untouched 2) (fun _ _ _ _ => trivial) below_keeps h0
      (.start (lonely_fresh Unit)) hw
    have hrest : ∀ e, w.liveSub e → (w.subs e).pc = .unwired :=
      fun e => unwired_of_dead (Machine.execOk_keeps (J := Untouched 2) below_keeps h0 hw)
        fun x hx => (Bool.not_eq_true' _).mp (List.all_eq_true.mp hdead x (List.mem_range.mpr hx))
    have hno := not_owned_of_unwired hrest
    have hclaim : Reclaimable 1 w 2 := (slots_reclaimable hr (quiet_of_unwired hrest) hlive
      (hrest 2 hlive)).1.mpr (.inl ⟨0, by decide, htake⟩)
    exact ⟨w, hr, fun h => hno 1 (h 1 (by decide) hclaimed), hno 0,
      hclaim.grants ⟨0, by decide, hno 0⟩⟩

/-- Sixteen processes die between their CAS and their signature, one after the other. -/
def abandoned : List (Act Unit) :=
  (List.range 16).flatMap fun e => subGo e (e + 2) ++ [.die (e + 1)]

/-- Nobody is left, every slot is claimed, and a newcomer is refused. -/
theorem slots_not_reclaimable : ∃ w : World Unit, (machine Unit 1).Reached anyStep w ∧ Quiet w ∧
    w.liveSub 16 ∧ (w.subs 16).pc = .unwired ∧ w.Refuses 1 16 ∧ (∀ i, ¬ w.Owned i) ∧
    ¬ Reclaimable 1 w 16 := by
  have hrun : ((machine Unit 1).execOk (fun _ => Act.below 16) abandoned (lonely Unit)).map
        (fun w => ((List.range 16).all fun e => !w.alive (w.subs e).pid, w.alive (w.subs 16).pid,
          w.seg.claimable w.alive)) = some (true, true, none) := by decide +kernel
  obtain ⟨w, hw, hf⟩ := Option.map_eq_some_iff.mp hrun
  simp only [Prod.mk.injEq] at hf
  obtain ⟨hdead, hlive, hnone⟩ := hf
  have h0 : Untouched 16 (lonely Unit) := fun _ _ => rfl
  have hr := Machine.reached_of_execOk (J := Untouched 16) (fun _ _ _ _ => trivial) below_keeps h0
    (.start (lonely_fresh Unit)) hw
  have hrest : ∀ e, w.liveSub e → (w.subs e).pc = .unwired :=
    fun e => unwired_of_dead (Machine.execOk_keeps (J := Untouched 16) below_keeps h0 hw)
      fun x hx => (Bool.not_eq_true' _).mp (List.all_eq_true.mp hdead x (List.mem_range.mpr hx))
  have hno := not_owned_of_unwired hrest
  have href : w.Refuses 1 16 := (refuses_iff hlive (hrest 16 hlive)).mpr hnone
  exact ⟨w, hr, quiet_of_unwired hrest, hlive, hrest 16 hlive, href, hno,
    fun h => hno 0 (h.refuses href 0 (by decide))⟩

end Xmmsg.Shm
