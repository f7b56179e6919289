import Xmmsg.Shm.Slots

/-!
# Who writes a slot's region

Between its CAS and its store of `kShmSubActive` a claimant re-initialises and
seeds the slot's region, and the code calls it the region's exclusive owner. The
other writer of the region is the publisher, which decides to write from a state
word it read earlier in its fan-out. Nothing makes it look again: the owner can
detach and a new claimant take the slot while the publisher still has the old
verdict in hand.

The dead-owner path knows the window and waits, but the wait comes after the CAS
and is bounded by twenty polls; the free path, by far the usual one, does not
wait at all. `RegionDiscipline` asks for what the wait is meant to establish, at
the moment of the CAS: no publisher holds an active verdict about the slot. Where
no dead-owner CAS takes a slot from a live owner that moment is enough, because for
as long as the claimant works the state word refuses the verdict to any publisher
that looks. Of the two windows of the slot protocol this leaves one: a late clear
wipes a pid, and a verdict is no matter of pids.
-/

namespace Xmmsg.Shm

open Xmmsg.Sys

variable {T : Type}

/-- The slot a publisher has read as active in its fan-out and whose region it
has not finished writing. -/
def PubPc.writing : PubPc T → Option Nat
  | .loadKind _ i | .loadBase _ i | .stamp _ i | .cellBegin _ i | .cellEnd _ i
  | .push _ i => some i
  | _ => none

/-- An endpoint is live while its process is. -/
def World.livePub (w : World T) (p : Nat) : Prop := w.alive (w.pubs p).pid = true

/-- No region has a claimant and a publisher at once. -/
def OneRegionWriter (w : World T) : Prop :=
  ∀ e p i, w.liveSub e → w.livePub p → (w.subs e).pc.claiming = some i →
    (w.pubs p).pc.writing ≠ some i

/-- Both claiming CASes, judged on the state just before them: when the CAS is
going to succeed, no live publisher has an active verdict about the slot, and a
dead-owner CAS finds nobody alive wired to it. -/
def RegionDiscipline (w : World T) : Act T → Prop
  | .sub e (.go _) =>
      match (w.subs e).pc with
      | .casFree i => i < kShmMaxSubscribers → (w.seg.subSlots i).state = .free →
          ∀ p, w.livePub p → (w.pubs p).pc.writing ≠ some i
      | .casActive i => (w.seg.subSlots i).state = .active →
          (∀ e', w.liveSub e' → (w.subs e').pc.wiredAt ≠ some i) ∧
            ∀ p, w.livePub p → (w.pubs p).pc.writing ≠ some i
      | _ => True
  | _ => True

/-- A publisher gets its verdict from the state word and from nowhere else. -/
theorem pubStep_writing {size : Nat} {alive : Nat → Bool} {h h' : Segment T}
    {ep ep' : PubEp T} {a : PubAct T} {i : Nat}
    (hs : pubStep size alive h ep a = some (h', ep')) (hw : ep'.pc.writing = some i) :
    ep.pc.writing = some i ∨ (h.subSlots i).state = .active := by
  cases a with
  | publish m | destroy =>
      simp only [pubStep] at hs
      split at hs <;> cases hs <;> simp [PubPc.writing] at hw
  | go =>
      simp only [pubStep] at hs
      cases hpc : ep.pc <;> simp only [hpc] at hs
      all_goals
        repeat' split at hs
        all_goals
          cases hs <;> simp_all [PubPc.writing]

theorem pubStep_pid {size : Nat} {alive : Nat → Bool} {h h' : Segment T}
    {ep ep' : PubEp T} {a : PubAct T} (hs : pubStep size alive h ep a = some (h', ep')) :
    ep'.pid = ep.pid := by
  cases a with
  | publish m | destroy =>
      simp only [pubStep] at hs
      split at hs <;> cases hs <;> rfl
  | go =>
      simp only [pubStep] at hs
      cases hpc : ep.pc <;> simp only [hpc] at hs
      all_goals
        repeat' split at hs
        all_goals
          cases hs <;> rfl

theorem oneRegionWriter_sub {w : World T} (h : OneRegionWriter w) {e₀ : Nat}
    {a : SubAct} {h' : Segment T} {ep' : SubEp T} (hl₀ : w.liveSub e₀)
    (hok : RegionDiscipline w (.sub e₀ a))
    (hs : subStep w.alive w.seg (w.subs e₀) a = some (h', ep')) :
    OneRegionWriter (w.putSub e₀ h' ep') := by
  obtain ⟨hmove, hpid⟩ := subStep_slotMove hs
  intro e p i hl hlp hc
  change w.livePub p at hlp
  rw [World.putSub_pubs]
  by_cases he : e = e₀
  · subst he
    rw [World.putSub_self] at hc
    cases hmove with
    | quiet _ hcl _ _ => exact h e p i hl₀ hlp (hcl ▸ hc)
    | claim j hpc hj hst =>
        obtain rfl : j = i := by simpa [SubPc.claiming] using hc
        cases a with
        | go now =>
            simp only [RegionDiscipline, hpc] at hok
            exact hok hj hst p hlp
        | _ => simp [subStep, hpc] at hs
    | reclaim j hpc hst =>
        obtain rfl : j = i := by simpa [SubPc.claiming] using hc
        cases a with
        | go now =>
            simp only [RegionDiscipline, hpc] at hok
            exact (hok hst).2 p hlp
        | _ => simp [subStep, hpc] at hs
    | sign j hpc =>
        obtain rfl : j = i := by simpa [SubPc.claiming] using hc
        exact h e p j hl₀ hlp (by rw [hpc]; rfl)
    | activate | release | clear => simp [SubPc.claiming] at hc
  · rw [World.putSub_ne _ _ _ _ he] at hc
    refine h e p i ?_ hlp hc
    simpa [World.liveSub, World.putSub_ne _ _ _ _ he] using hl

theorem oneRegionWriter_pub {w : World T} (hslot : SlotHeld w) (h : OneRegionWriter w)
    {size p₀ : Nat} {a : PubAct T} {h' : Segment T} {ep' : PubEp T}
    (hl₀ : w.livePub p₀)
    (hs : pubStep size w.alive w.seg (w.pubs p₀) a = some (h', ep')) :
    OneRegionWriter (w.putPub p₀ h' ep') := by
  intro e p i hl hlp hc hwr
  change w.liveSub e at hl
  rw [World.putPub_subs] at hc
  by_cases hp : p = p₀
  · subst hp
    rw [World.putPub_self] at hwr
    rcases pubStep_writing hs hwr with hold | hact
    · exact h e p i hl hl₀ hc hold
    · -- a fresh verdict contradicts the claimant's state word
      have hcl := hslot.claimed e i hl hc
      rw [Segment.word, hact] at hcl
      cases hcl
  · rw [World.putPub_ne _ _ _ _ hp] at hwr
    refine h e p i hl ?_ hc hwr
    simpa [World.livePub, World.putPub_ne _ _ _ _ hp] using hlp

theorem oneRegionWriter_step {size : Nat} {w w' : World T} {a : Act T}
    (hslot : SlotHeld w) (h : OneRegionWriter w) (hok : RegionDiscipline w a)
    (hs : w.step size a = some w') : OneRegionWriter w' := by
  rcases step_cases hs with ⟨pid, rfl, rfl⟩ | ⟨e, b, h', ep', rfl, hal, hsub, rfl⟩ |
    ⟨e, b, h', ep', rfl, hal, hpub, rfl⟩
  · exact fun e p i hl hlp hc =>
      h e p i (World.alive_of_kill w pid hl) (World.alive_of_kill w pid hlp) hc
  · exact oneRegionWriter_sub h hal hok hsub
  · exact oneRegionWriter_pub hslot h hal hpub

theorem slotHeld_step {size : Nat} {w w' : World T} {a : Act T} (h : SlotHeld w)
    (hok : RegionDiscipline w a) (hs : w.step size a = some w') : SlotHeld w' := by
  rcases step_cases hs with ⟨pid, rfl, rfl⟩ | ⟨e, b, h', ep', rfl, hal, hsub, rfl⟩ |
    ⟨e, b, h', ep', rfl, -, hpub, rfl⟩
  · exact slotHeld_die h pid
  · refine slotHeld_sub h hal (fun i hpc hst => ?_) hsub
    cases b with
    | go now =>
        simp only [RegionDiscipline, hpc] at hok
        exact (hok hst).1
    | _ => simp [subStep, hpc] at hsub
  · exact slotHeld_pub h hpub

theorem region_reached {size : Nat} {w : World T}
    (h : (machine T size).Reached RegionDiscipline w) : SlotHeld w ∧ OneRegionWriter w := by
  refine h.invariant (P := fun w => SlotHeld w ∧ OneRegionWriter w) ?_ ?_
  · intro w hfresh
    refine ⟨slotHeld_fresh hfresh, fun e p i _ _ hc => ?_⟩
    rw [(hfresh.2.2.1 e).2.1] at hc
    cases hc
  · intro s a t _ hinv hok hs
    exact ⟨slotHeld_step hinv.1 hok hs, oneRegionWriter_step hinv.1 hinv.2 hok hs⟩

/-- Runs that take no slot from a live owner and claim none a publisher is still
writing never have two writers in one region. -/
theorem one_region_writer {size : Nat} {w : World T}
    (h : (machine T size).Reached RegionDiscipline w) : OneRegionWriter w :=
  (region_reached h).2

/-- `n` consecutive accesses by publisher endpoint `p`. -/
def pubGo {T : Type} (p n : Nat) : List (Act T) := List.replicate n (.pub p .go)

/-- Only the first `n` subscribers and the first `k` publishers take part. -/
def Few (n k : Nat) (w : World T) : Prop :=
  (∀ e, n ≤ e → (w.subs e).pc = .unwired) ∧ ∀ p, k ≤ p → (w.pubs p).pc = .unwired

theorem lonely_few (n k : Nat) : Few n k (lonely T) := ⟨fun _ _ => rfl, fun _ _ => rfl⟩

/-- A decidable part of the claiming condition, for such runs. -/
def regionCheck (n k : Nat) (w : World T) : Act T → Bool
  | .sub e (.go _) =>
      decide (e < n) && match (w.subs e).pc with
      | .casFree i =>
          (w.seg.subSlots i).state != .free ||
            (List.range k).all fun p => (w.pubs p).pc.writing != some i
      | .casActive i =>
          (w.seg.subSlots i).state != .active ||
            (((List.range n).all fun e' =>
              !w.alive (w.subs e').pid || (w.subs e').pc.wiredAt != some i) &&
            (List.range k).all fun p => (w.pubs p).pc.writing != some i)
      | _ => true
  | .sub e _ => decide (e < n)
  | .pub p _ => decide (p < k)
  | _ => true

theorem regionCheck_sound {n k : Nat} (w : World T) (a : Act T) (hJ : Few n k w)
    (h : regionCheck n k w a = true) : RegionDiscipline w a := by
  have hother : ∀ i, ((List.range k).all fun p => (w.pubs p).pc.writing != some i) = true →
      ∀ p, w.livePub p → (w.pubs p).pc.writing ≠ some i := by
    intro i hi p _
    by_cases hp : p < k
    · simpa using List.all_eq_true.mp hi p (List.mem_range.mpr hp)
    · rw [hJ.2 p (Nat.le_of_not_lt hp)]
      simp [PubPc.writing]
  cases a with
  | die pid => exact trivial
  | pub e b => exact trivial
  | sub e b =>
      cases b with
      | go now =>
          simp only [regionCheck, Bool.and_eq_true] at h
          obtain ⟨-, h⟩ := h
          simp only [RegionDiscipline]
          split at h
          · next i hpc =>
              intro _ hst
              rw [hst] at h
              exact hother i h
          · next i hpc =>
              intro hst
              rw [hst] at h
              obtain ⟨hown, hwr⟩ := Bool.and_eq_true_iff.mp h
              refine ⟨fun e' hl => ?_, hother i hwr⟩
              by_cases he : e' < n
              · have := List.all_eq_true.mp hown e' (List.mem_range.mpr he)
                simpa [show w.alive (w.subs e').pid = true from hl] using this
              · rw [hJ.1 e' (Nat.le_of_not_lt he)]
                simp [SubPc.wiredAt]
          · exact trivial
      | _ => exact trivial

theorem regionCheck_keeps {size n k : Nat} {w w' : World T} {a : Act T} (hJ : Few n k w)
    (h : regionCheck n k w a = true) (hs : w.step size a = some w') : Few n k w' := by
  rcases step_cases hs with ⟨pid, rfl, rfl⟩ | ⟨e, b, h', ep', rfl, -, -, rfl⟩ |
    ⟨p, b, h', ep', rfl, -, -, rfl⟩
  · exact hJ
  · refine ⟨fun x hx => ?_, hJ.2⟩
    have he : e < n := by
      cases b with
      | go now =>
          simp only [regionCheck, Bool.and_eq_true, decide_eq_true_eq] at h
          exact h.1
      | _ => simpa [regionCheck] using h
    rw [World.putSub_ne _ _ _ _ (by omega)]
    exact hJ.1 x hx
  · refine ⟨hJ.1, fun x hx => ?_⟩
    have hp : p < k := by simpa [regionCheck] using h
    rw [World.putPub_ne _ _ _ _ (by omega)]
    exact hJ.2 x hx

/-- A publisher in the middle of a fan-out into slot 0, and a second subscriber
initialising slot 1 meanwhile. -/
theorem one_region_writer_join : ∃ w : World Unit,
    (machine Unit 1).Reached RegionDiscipline w ∧
      ((w.pubs 0).pc.writing = some 0 ∧ (w.subs 1).pc.claiming = some 1) ∧
      OneRegionWriter w := by
  have hrun : ((machine Unit 1).execOk (regionCheck 2 1)
      (pubGo 0 21 ++ subGo 0 13 ++ .pub 0 (.publish { value := () }) :: pubGo 0 4 ++
        subGo 1 5) (lonely Unit)).map
        (fun w => ((w.pubs 0).pc.writing, (w.subs 1).pc.claiming)) =
      some (some 0, some 1) := by decide
  obtain ⟨w, hw, hf⟩ := Option.map_eq_some_iff.mp hrun
  have hr := Machine.reached_of_execOk
    (J := Few 2 1) (fun w a => regionCheck_sound w a) (fun _ _ _ => regionCheck_keeps)
    (lonely_few 2 1) (.start (lonely_fresh Unit)) hw
  exact ⟨w, hr, ⟨congrArg Prod.fst hf, congrArg Prod.snd hf⟩, one_region_writer hr⟩

/-- The free path does not wait: the publisher reads slot 0 as active, its owner
detaches, and a new subscriber claims the slot with the publisher still on its
way to the mailbox. -/
theorem two_region_writers :
    ¬ ∀ w : World Unit, (machine Unit 1).Reached anyStep w → OneRegionWriter w := by
  intro hall
  have hrun : ((machine Unit 1).exec
      (pubGo 0 21 ++ subGo 0 13 ++ .pub 0 (.publish { value := () }) :: pubGo 0 4 ++
        .sub 0 .destroy :: subGo 1 2) (lonely Unit)).map
        (fun w => ((w.subs 1).pc.claiming, (w.pubs 0).pc.writing,
          w.alive (w.subs 1).pid, w.alive (w.pubs 0).pid)) =
      some (some 0, some 0, true, true) := by decide
  obtain ⟨w, hw, hf⟩ := Option.map_eq_some_iff.mp hrun
  simp only [Prod.mk.injEq] at hf
  have hr := Machine.reached_of_exec (.start (lonely_fresh Unit)) hw
  exact hall w hr 1 0 0 hf.2.2.1 hf.2.2.2 hf.1 hf.2.1

end Xmmsg.Shm
