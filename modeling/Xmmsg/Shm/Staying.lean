import Xmmsg.Shm.Region

/-!
# Runs in which nobody leaves

Both windows of the slot protocol, and the region's, open when a slot is given
back. In a run in which no wired subscriber is destroyed and no process dies that
holds a slot, an active slot has a live owner, a probe of its pid finds that owner
alive, and a free slot was never active: every step meets `SlotDiscipline` and
`RegionDiscipline` by itself.
-/

namespace Xmmsg.Shm

open Xmmsg.Sys

variable {T : Type} {size : Nat}

/-- Nobody gives a slot back. -/
def Staying (w : World T) : Act T → Prop
  | .sub e .destroy => (w.subs e).pc.wiredAt = none
  | .die pid => ∀ e i, (w.subs e).pid = pid → ¬ (w.subs e).pc.Holds i
  | _ => True

structure StayInv (w : World T) : Prop where
  slots : SlotInv w
  owned : ∀ i, (w.seg.word i).1 = .active → ∃ e, w.liveSub e ∧ (w.subs e).pc.wiredAt = some i
  probing : ∀ e i, (w.subs e).pc = .loadPid i → (w.seg.word i).1 = .active
  probed : ∀ e i pid, (w.subs e).pc = .probePid i pid →
    ∃ o, w.liveSub o ∧ (w.subs o).pc.wiredAt = some i ∧ (w.subs o).pid = pid
  calm : ∀ e i, (w.subs e).pc ≠ .casActive i ∧ (w.subs e).pc ≠ .released i
  writers : ∀ p i, (w.pubs p).pc.writing = some i → (w.seg.word i).1 = .active

/-- Such a state lets every step through. -/
theorem StayInv.slot {w : World T} (h : StayInv w) (a : Act T) : SlotDiscipline w a := by
  cases a with
  | sub e b =>
      cases b with
      | go now =>
          cases hpc : (w.subs e).pc <;> simp only [SlotDiscipline, hpc]
          case casActive i => exact absurd hpc (h.calm e i).1
          case released i => exact absurd hpc (h.calm e i).2
      | _ => trivial
  | _ => trivial

theorem StayInv.region {w : World T} (h : StayInv w) (a : Act T) : RegionDiscipline w a := by
  cases a with
  | sub e b =>
      cases b with
      | go now =>
          cases hpc : (w.subs e).pc <;> simp only [RegionDiscipline, hpc]
          case casActive i => exact absurd hpc (h.calm e i).1
          case casFree i =>
            intro _ hfree p _ hw
            have := h.writers p i hw
            rw [Segment.word, hfree] at this
            cases this
      | _ => trivial
  | _ => trivial

/-- On the way to a dead-owner claim, or out. -/
def SubPc.probes : SubPc T → Bool
  | .loadPid _ | .probePid _ _ | .casActive _ | .released _ => true
  | _ => false

theorem subStep_probe {alive : Nat → Bool} {h h' : Segment T} {ep ep' : SubEp T} {a : SubAct}
    (hs : subStep alive h ep a = some (h', ep')) :
    ep'.pc.probes = false ∨
    (∃ i, ep'.pc = .loadPid i ∧ h' = h ∧ (h.word i).1 = .active) ∨
    (∃ i, ep.pc = .loadPid i ∧ h' = h ∧ ep'.pc = .probePid i (h.word i).2) ∨
    (∃ i pid, ep.pc = .probePid i pid ∧ alive pid = false ∧ ep'.pc = .casActive i) ∨
    ∃ i, ep'.pc = .released i ∧ a = .destroy ∧ ep.pc.wiredAt = some i := by
  cases a with
  | go now =>
      cases hpc : ep.pc <;> simp only [subStep, hpc] at hs
      case wired i t =>
        obtain ⟨-, ⟨t', ht⟩, -⟩ := takeStep_quiet hs
        rw [ht]
        exact .inl rfl
      case casFree i =>
        split at hs
        · split at hs <;> cases hs
          · exact .inl rfl
          · exact .inl rfl
          · next hact => exact .inr (.inl ⟨i, rfl, rfl, hact⟩)
        · cases hs
          exact .inl rfl
      case loadPid i =>
        cases hs
        exact .inr (.inr (.inl ⟨i, rfl, rfl, rfl⟩))
      case probePid i pid =>
        split at hs <;> cases hs
        · exact .inl rfl
        · next hd => exact .inr (.inr (.inr (.inl ⟨i, pid, rfl, by simpa using hd, rfl⟩)))
      case storeMiss i =>
        cases hs
        cases ep.history.isLatest <;> exact .inl rfl
      all_goals
        repeat' split at hs
        all_goals cases hs
        all_goals exact .inl rfl
  | destroy =>
      simp only [subStep] at hs
      split at hs
      · next i hpc =>
        cases hs
        exact .inr (.inr (.inr (.inr ⟨i, rfl, rfl, by rw [hpc]; rfl⟩)))
      · cases hs
        exact .inl rfl
      · cases hs
  | _ =>
      simp only [subStep] at hs
      repeat' split at hs
      all_goals cases hs
      all_goals exact .inl rfl

/-- What a stayer's access does to the state words: a slot that was active stays
so, and one that becomes active becomes the mover's. -/
theorem stay_word {w : World T} {h' : Segment T} {ep' : SubEp T} {e i : Nat}
    (hmove : SlotMove w.seg (w.subs e) h' ep')
    (hcalm : (w.subs e).pc ≠ .casActive i) (hrel : ep'.pc ≠ .released i) :
    ((w.seg.word i).1 = .active → (h'.word i).1 = .active) ∧
    ((h'.word i).1 = .active → (w.seg.word i).1 = .active ∨ ep'.pc.wiredAt = some i) ∧
    ((w.subs e).pc.wiredAt = some i → ep'.pc.wiredAt = some i) := by
  cases hmove with
  | quiet hw _ _ hwired =>
      rw [hw i, hwired]
      exact ⟨id, .inl, id⟩
  | claim j hpc hj hfree =>
      rw [Segment.word_setSlot, hpc]
      refine ⟨fun hact => ?_, fun hact => ?_, fun h0 => by cases h0⟩
      · split
        · next hij =>
          rw [Segment.word, hij, hfree] at hact
          cases hact
        · exact hact
      · split at hact
        · cases hact
        · exact .inl hact
  | reclaim j hpc hact' =>
      have hne : i ≠ j := fun h0 => hcalm (h0 ▸ hpc)
      rw [Segment.word_setSlot, if_neg hne, hpc]
      exact ⟨id, .inl, fun h0 => by cases h0⟩
  | sign j hpc =>
      rw [Segment.word_setSlot, hpc]
      refine ⟨fun hact => ?_, fun hact => .inl ?_, fun h0 => by cases h0⟩
      · split
        · next hij => rw [← hij]; exact hact
        · exact hact
      · split at hact
        · next hij => rw [hij]; exact hact
        · exact hact
  | activate j hpc =>
      rw [Segment.word_setSlot, hpc]
      refine ⟨fun hact => ?_, fun hact => ?_, fun h0 => by cases h0⟩
      · split
        · rfl
        · exact hact
      · split at hact
        · next hij => exact .inr (by rw [hij]; rfl)
        · exact .inl hact
  | release j hpc =>
      have hne : i ≠ j := fun h0 => hrel (h0 ▸ rfl)
      rw [Segment.word_setSlot, if_neg hne, hpc]
      refine ⟨id, .inl, fun h0 => ?_⟩
      cases h0
      exact absurd rfl hne
  | clear j hpc =>
      rw [Segment.word_setSlot, hpc]
      refine ⟨fun hact => ?_, fun hact => .inl ?_, fun h0 => by cases h0⟩
      · split
        · next hij => rw [← hij]; exact hact
        · exact hact
      · split at hact
        · next hij => rw [hij]; exact hact
        · exact hact

theorem stayInv_sub {w : World T} (h : StayInv w) {e : Nat} {a : SubAct} {h' : Segment T}
    {ep' : SubEp T} (hl : w.liveSub e) (hok : Staying w (.sub e a))
    (hs : subStep w.alive w.seg (w.subs e) a = some (h', ep'))
    (hslots : SlotInv (w.putSub e h' ep')) : StayInv (w.putSub e h' ep') := by
  obtain ⟨hmove, hpid⟩ := subStep_slotMove hs
  have hprobe := subStep_probe hs
  have hrel : ∀ i, ep'.pc ≠ .released i := by
    intro i h0
    rcases hprobe with h1 | ⟨j, h1, -⟩ | ⟨j, -, -, h1⟩ | ⟨j, pid, -, -, h1⟩ | ⟨j, h1, rfl, h2⟩
    · rw [h0] at h1; cases h1
    · rw [h0] at h1; cases h1
    · rw [h0] at h1; cases h1
    · rw [h0] at h1; cases h1
    · have h3 : (w.subs e).pc.wiredAt = none := hok
      rw [h3] at h2
      cases h2
  have hword : ∀ i, ((w.seg.word i).1 = .active → (h'.word i).1 = .active) ∧
      ((h'.word i).1 = .active → (w.seg.word i).1 = .active ∨ ep'.pc.wiredAt = some i) ∧
      ((w.subs e).pc.wiredAt = some i → ep'.pc.wiredAt = some i) :=
    fun i => stay_word hmove (h.calm e i).1 (hrel i)
  have hlive : ∀ x, w.liveSub x → (w.putSub e h' ep').liveSub x := by
    intro x hx
    rw [World.liveSub, World.putSub_alive]
    by_cases he : x = e
    · rw [he, World.putSub_self, hpid]
      exact hl
    · rw [World.putSub_ne _ _ _ _ he]
      exact hx
  -- an owner stays an owner
  have howner : ∀ {o i}, w.liveSub o → (w.subs o).pc.wiredAt = some i →
      (w.putSub e h' ep').liveSub o ∧ ((w.putSub e h' ep').subs o).pc.wiredAt = some i ∧
        ((w.putSub e h' ep').subs o).pid = (w.subs o).pid := by
    intro o i ho hw
    refine ⟨hlive o ho, ?_⟩
    by_cases he : o = e
    · subst he
      rw [World.putSub_self]
      exact ⟨(hword i).2.2 hw, hpid⟩
    · rw [World.putSub_ne _ _ _ _ he]
      exact ⟨hw, rfl⟩
  constructor
  case slots => exact hslots
  case owned =>
    intro i hact
    rcases (hword i).2.1 hact with h0 | h0
    · obtain ⟨o, ho, hw⟩ := h.owned i h0
      exact ⟨o, (howner ho hw).1, (howner ho hw).2.1⟩
    · exact ⟨e, hlive e hl, by rw [World.putSub_self]; exact h0⟩
  case probing =>
    intro x i hx
    rw [World.putSub_seg]
    refine (hword i).1 ?_
    by_cases he : x = e
    · rw [he, World.putSub_self] at hx
      rcases hprobe with h1 | ⟨j, h1, -, h2⟩ | ⟨j, -, -, h1⟩ | ⟨j, pid, -, -, h1⟩ | ⟨j, h1, -⟩
      · rw [hx] at h1; cases h1
      · rw [hx] at h1
        cases h1
        exact h2
      · rw [hx] at h1; cases h1
      · rw [hx] at h1; cases h1
      · rw [hx] at h1; cases h1
    · rw [World.putSub_ne _ _ _ _ he] at hx
      exact h.probing x i hx
  case probed =>
    intro x i pid hx
    have hold : ∃ o, w.liveSub o ∧ (w.subs o).pc.wiredAt = some i ∧ (w.subs o).pid = pid := by
      by_cases he : x = e
      · rw [he, World.putSub_self] at hx
        rcases hprobe with h1 | ⟨j, h1, -⟩ | ⟨j, h2, -, h1⟩ | ⟨j, pid', -, -, h1⟩ | ⟨j, h1, -⟩
        · rw [hx] at h1; cases h1
        · rw [hx] at h1; cases h1
        · rw [hx] at h1
          cases h1
          obtain ⟨o, ho, hw⟩ := h.owned i (h.probing e i h2)
          exact ⟨o, ho, hw, (h.slots.signed o i ho (signed_of_wiredAt hw)).symm⟩
        · rw [hx] at h1; cases h1
        · rw [hx] at h1; cases h1
      · rw [World.putSub_ne _ _ _ _ he] at hx
        exact h.probed x i pid hx
    obtain ⟨o, ho, hw, hp⟩ := hold
    obtain ⟨h1, h2, h3⟩ := howner ho hw
    exact ⟨o, h1, h2, h3.trans hp⟩
  case calm =>
    intro x i
    by_cases he : x = e
    · rw [he, World.putSub_self]
      refine ⟨fun h0 => ?_, hrel i⟩
      rcases hprobe with h1 | ⟨j, h1, -⟩ | ⟨j, -, -, h1⟩ | ⟨j, pid, h2, hdead, h1⟩ | ⟨j, h1, -⟩
      · rw [h0] at h1; cases h1
      · rw [h0] at h1; cases h1
      · rw [h0] at h1; cases h1
      · obtain ⟨o, ho, -, hp⟩ := h.probed e j pid h2
        rw [← hp] at hdead
        exact absurd ho (by rw [World.liveSub, hdead]; exact Bool.false_ne_true)
      · rw [h0] at h1; cases h1
    · rw [World.putSub_ne _ _ _ _ he]
      exact h.calm x i
  case writers =>
    intro p i hw
    exact (hword i).1 (h.writers p i hw)

theorem stayInv_step {w w' : World T} {a : Act T} (h : StayInv w) (hok : Staying w a)
    (hs : w.step size a = some w') : StayInv w' := by
  have hslots := slotInv_step h.slots (h.slot a) hs
  rcases step_cases hs with ⟨pid, rfl, rfl⟩ | ⟨e, b, h', ep', rfl, hal, hsub, rfl⟩ |
    ⟨p, b, h', ep', rfl, -, hpub, rfl⟩
  · -- the dead process held no slot
    have hlive : ∀ {o i}, w.liveSub o → (w.subs o).pc.wiredAt = some i →
        (w.kill pid).liveSub o := by
      intro o i ho hw
      have hne : (w.subs o).pid ≠ pid := fun h0 => hok o i h0 (.inr hw)
      simpa [World.liveSub, World.alive, World.kill, hne] using ho
    refine ⟨hslots, fun i hact => ?_, h.probing, fun e i pid' hpc => ?_, h.calm, h.writers⟩
    · obtain ⟨o, ho, hw⟩ := h.owned i hact
      exact ⟨o, hlive ho hw, hw⟩
    · obtain ⟨o, ho, hw, hp⟩ := h.probed e i pid' hpc
      exact ⟨o, hlive ho hw, hw, hp⟩
  · exact stayInv_sub h hal hok hsub hslots
  · have hword : ∀ i, h'.word i = w.seg.word i := pubStep_word hpub
    refine ⟨hslots, fun i hact => ?_, fun e i hpc => ?_, h.probed, h.calm, fun q i hq => ?_⟩
    · rw [World.putPub_seg, hword] at hact
      exact h.owned i hact
    · rw [World.putPub_seg, hword]
      exact h.probing e i hpc
    · rw [World.putPub_seg, hword]
      by_cases he : q = p
      · rw [he, World.putPub_self] at hq
        rcases pubStep_writing hpub hq with h0 | h0
        · exact h.writers p i h0
        · exact h0
      · rw [World.putPub_ne _ _ _ _ he] at hq
        exact h.writers q i hq

theorem stayInv_fresh {w : World T} (hw : w.Fresh) : StayInv w := by
  have hslots := slotInv_fresh hw
  obtain ⟨hseg, -, hsub, hpub⟩ := hw
  have hpc : ∀ e, (w.subs e).pc = .unwired := fun e => (hsub e).2.1
  refine ⟨hslots, fun i hact => ?_, fun e i h0 => ?_, fun e i pid h0 => ?_, fun e i => ?_,
    fun p i h0 => ?_⟩
  · rw [hseg] at hact
    cases hact
  · rw [hpc e] at h0
    cases h0
  · rw [hpc e] at h0
    cases h0
  · rw [hpc e]
    exact ⟨fun h0 => (nomatch h0), fun h0 => (nomatch h0)⟩
  · rw [(hpub p).2.1] at h0
    cases h0

/-- A run in which nobody leaves keeps the region discipline at every step,
whatever is recorded of it. -/
theorem staying_region {η : Type} {h0 : η} {note : World T → Act T → World T → η → η}
    {ok : World T → Act T → Prop} {q : World T × η}
    (hq : ((machine T size).withHistory h0 note).Reached
      (fun q a => Staying q.1 a ∧ ok q.1 a) q) :
    ((machine T size).withHistory h0 note).Reached
      (fun q a => RegionDiscipline q.1 a ∧ ok q.1 a) q := by
  have hboth : StayInv q.1 ∧ ((machine T size).withHistory h0 note).Reached
      (fun q a => RegionDiscipline q.1 a ∧ ok q.1 a) q := by
    induction hq with
    | start hs => exact ⟨stayInv_fresh hs.1, .start hs⟩
    | next _ hok ht ih =>
        exact ⟨stayInv_step ih.1 hok.1 (Machine.withHistory_step ht).1,
          ih.2.next ⟨ih.1.region _, hok.2⟩ ht⟩
  exact hboth.2

/-! Concrete runs of that kind: the first `n` subscribers and the first `k`
publishers take part, and nobody leaves. -/

def stayCheck (n k : Nat) (w : World T) : Act T → Bool
  | .sub _ .destroy => false
  | .sub e _ => decide (e < n)
  | .pub p _ => decide (p < k)
  | .die pid => (List.range n).all fun e => (w.subs e).pid != pid

theorem stayCheck_sound {n k : Nat} {w : World T} (hJ : Few n k w) {a : Act T}
    (h : stayCheck n k w a = true) : Staying w a := by
  cases a with
  | pub p b => trivial
  | sub e b =>
      cases b with
      | destroy => cases h
      | _ => trivial
  | die pid =>
      intro e i hpid hi
      by_cases he : e < n
      · have := List.all_eq_true.mp h e (List.mem_range.mpr he)
        simp [hpid] at this
      · rw [hJ.1 e (Nat.le_of_not_lt he)] at hi
        rcases hi with h0 | h0 <;> cases h0

theorem stayCheck_keeps {n k : Nat} {w w' : World T} {a : Act T} (hJ : Few n k w)
    (h : stayCheck n k w a = true) (hs : w.step size a = some w') : Few n k w' := by
  rcases step_cases hs with ⟨pid, rfl, rfl⟩ | ⟨e, b, h', ep', rfl, -, -, rfl⟩ |
    ⟨p, b, h', ep', rfl, -, -, rfl⟩
  · exact hJ
  · refine ⟨fun x hx => ?_, hJ.2⟩
    have he : e < n := by
      cases b with
      | destroy => cases h
      | _ => simpa [stayCheck] using h
    rw [World.putSub_ne _ _ _ _ (by omega)]
    exact hJ.1 x hx
  · refine ⟨hJ.1, fun x hx => ?_⟩
    have hp : p < k := by simpa [stayCheck] using h
    rw [World.putPub_ne _ _ _ _ (by omega)]
    exact hJ.2 x hx

end Xmmsg.Shm
