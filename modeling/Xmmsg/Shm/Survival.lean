import Xmmsg.Shm.Takes

/-!
# What a publisher's death leaves for the next subscriber

The master cell is the only copy of the warm-start value and the first cell every
publish overwrites. A publisher killed inside that store leaves it torn, the next
one repairs it to empty, and a subscriber joining then starts with nothing although
publishes have returned. The same death inside the store into a mailbox costs a
subscriber that has not taken yet its first value.

Two windows need no death. A claim that loads the master cell while a live
publisher is inside the store sees it stalled once its retries are used up; and a
claim that loaded it empty can be passed over by the first publish, whose fan-out
finds the slot not yet active.

`SurvivalDiscipline` keeps a run out of these, for one subscriber and until its first
take has returned. Of the master cell it asks one thing: that the claim's load finds a
record if ever one was completely stored. Only a death inside the store or a store under
way can take it away (`mastering_of_lost`), and the next publish that completes its own
makes it good.
-/

namespace Xmmsg.Shm

open Xmmsg.Sys Xmmsg.Mail

variable {T : Type} {size : Nat}

/-- A live publisher is inside its store into the mailbox of slot `i`. -/
def World.Filling (w : World T) (i : Nat) : Prop :=
  ∃ p r, w.livePub p ∧ (w.pubs p).pc = .cellEnd r i

/-- A record was completely stored into the master cell, and it holds none: a publisher is
inside a store, or died there and none has been completed since. -/
def MasterLost (w : World T) (tk : Takes T) : Prop :=
  tk.stored ≠ [] ∧ ∀ r, w.seg.master ≠ .full r

/-- A live publisher is inside its store into the master cell. -/
def World.Mastering (w : World T) : Prop :=
  ∃ p r, w.livePub p ∧ (w.pubs p).pc = .masterEnd r

/-- Nobody is killed inside its store into the master cell. -/
def Uncut (w : World T) : Act T → Prop
  | .die pid => ∀ p, w.livePub p → (w.pubs p).pid = pid → ∀ r, (w.pubs p).pc ≠ .masterEnd r
  | _ => True

/-- What a step must not do to subscriber `e`: kill a publisher inside the store into `e`'s
mailbox, load that mailbox for `e` in the middle of a store or the lost master cell, or
look at `e`'s slot after `e` found nothing to seed it with and before it is active. -/
def Survives (e : Nat) (w : World T) (tk : Takes T) : Act T → Prop
  | .die pid => w.liveSub e → ∀ p, w.livePub p → (w.pubs p).pid = pid →
      ∀ r i, (w.subs e).pc.Holds i → (w.pubs p).pc ≠ .cellEnd r i
  | .sub x (.go _) => x = e →
      match (w.subs e).pc with
      | .loadMaster _ => ¬ MasterLost w tk
      | .wired i .load => ¬ w.Filling i
      | _ => True
  | .pub p .go => w.liveSub e → ∀ r i, (w.pubs p).pc = .loadState r i →
      (w.subs e).pc = .storeActive i → w.seg.latest i ≠ .empty
  | _ => True

/-- Until `e`'s first take has returned. -/
def SurvivalDiscipline (e : Nat) (q : World T × Takes T) (a : Act T) : Prop :=
  q.2.taken e = [] → Survives e q.1 q.2 a

/-- The fan-out has looked at slot `i`. -/
def PubPc.looked (i : Nat) : PubPc T → Bool
  | .loadState _ j => decide (i < j)
  | .loadKind _ j | .loadBase _ j | .stamp _ j | .cellBegin _ j | .cellEnd _ j | .push _ j
  | .drop _ j => decide (i ≤ j)
  | .countLocal | .countShared | .bytesShared => true
  | _ => false

/-- The slot whose mailbox is initialised, outside the seed's own store. -/
def SubPc.opened : SubPc T → Option Nat
  | .loadMaster i | .storeActive i | .wired i _ => some i
  | _ => none

structure SurvivalInv (e : Nat) (w : World T) (tk : Takes T) : Prop where
  noRing : ∀ i, (w.subs e).pc ≠ .initRing i
  bound : ∀ i, (w.subs e).pc.index = some i → i < kShmMaxSubscribers
  cell : w.liveSub e → ∀ i, (w.subs e).pc.opened = some i → w.seg.latest i = .torn → w.Filling i
  -- found the master cell empty, and nobody has passed the slot since
  unseeded : w.liveSub e → ∀ i, (w.subs e).pc = .storeActive i → w.seg.latest i = .empty →
    tk.returned = false ∧ ∀ p, w.livePub p → (w.pubs p).pc.looked i = false
  warm : w.liveSub e → tk.late e = true → ∀ i, (w.subs e).pc.wiredAt = some i →
    w.seg.latest i ≠ .empty
  given : tk.late e = true → none ∉ tk.taken e ∧
    ∀ i t o, (w.subs e).pc = .wired i t → t.outcome = some o → o ≠ none

theorem pubStep_looked {alive : Nat → Bool} {h h' : Segment T} {ep ep' : PubEp T}
    {a : PubAct T} {i : Nat} (hs : pubStep size alive h ep a = some (h', ep'))
    (hi : i < kShmMaxSubscribers) (hl : ep'.pc.looked i = true) :
    ep.pc.looked i = true ∨ a = .go ∧ ∃ r, ep.pc = .loadState r i := by
  cases a with
  | publish m | destroy =>
      cases hpc : ep.pc <;> simp only [pubStep, hpc] at hs <;> cases hs <;> cases hl
  | go =>
      cases hpc : ep.pc <;> simp only [pubStep, hpc] at hs
      case loadState r j =>
        by_cases e : j = i
        · subst e
          exact .inr ⟨rfl, r, rfl⟩
        · left
          repeat' split at hs
          all_goals cases hs
          all_goals simp only [PubEp.at'_pc, PubPc.looked, decide_eq_true_eq] at hl ⊢
          all_goals omega
      all_goals
        repeat' split at hs
        all_goals cases hs
        all_goals first
          | cases hl; done
          | (simp [PubPc.looked] at hl ⊢; try omega)

/-- An access of a subscriber leaves the mailboxes it does not hold alone. -/
theorem subStep_latest {alive : Nat → Bool} {h h' : Segment T} {ep ep' : SubEp T} {a : SubAct}
    {j : Nat} (hs : subStep alive h ep a = some (h', ep')) (hno : ¬ ep.pc.Holds j) :
    h'.latest j = h.latest j := by
  cases a with
  | go now =>
      cases hpc : ep.pc <;> simp only [subStep, hpc] at hs
      case wired i t =>
        cases t <;> simp only [takeStep] at hs
        all_goals
          repeat' split at hs
          all_goals cases hs
          all_goals rfl
      case initLatest i | seedBegin i r | seedEnd i r =>
        have hne : j ≠ i := by
          rintro rfl
          exact hno (.inl (by rw [hpc]; rfl))
        cases hs
        simp [hne]
      all_goals
        repeat' split at hs
        all_goals cases hs
        all_goals rfl
  | _ =>
      simp only [subStep] at hs
      repeat' split at hs
      all_goals cases hs
      all_goals rfl

/-- A slot index is under the bound when the loop tries it. -/
theorem subStep_index {alive : Nat → Bool} {h h' : Segment T} {ep ep' : SubEp T} {a : SubAct}
    {i : Nat} (hs : subStep alive h ep a = some (h', ep')) (hi : ep'.pc.index = some i) :
    ep.pc.index = some i ∨ i < kShmMaxSubscribers := by
  cases a with
  | go now =>
      cases hpc : ep.pc <;> simp only [subStep, hpc] at hs
      case wired j t =>
        obtain ⟨-, ⟨t', ht'⟩, -⟩ := takeStep_quiet hs
        rw [ht'] at hi
        exact .inl hi
      case casFree j =>
        repeat' split at hs
        all_goals cases hs
        all_goals first
          | cases hi; done
          | (cases hi; exact .inr ‹_›)
      case storeMiss j =>
        cases hs
        left
        cases hl : ep.history.isLatest <;> simp only [hl] at hi <;> exact hi
      all_goals
        repeat' split at hs
        all_goals cases hs
        all_goals first
          | exact .inl hi
          | cases hi
  | _ =>
      simp only [subStep] at hs
      repeat' split at hs
      all_goals cases hs
      all_goals first
        | cases hi; done
        | (next hpc _ => left; rw [hpc]; exact hi)

theorem opened_holds {pc : SubPc T} {i : Nat} (h : pc.opened = some i) : pc.Holds i := by
  cases pc <;> first | (cases h; done) | exact .inl h | exact .inr h

/-! ## Steps elsewhere -/

/-- A step that leaves endpoint `e` and its mailbox alone, whatever it does to the
publishers. -/
theorem SurvivalInv.elsewhere {e : Nat} {w w' : World T} {tk tk' : Takes T}
    (h : SurvivalInv e w tk) (hself : w'.subs e = w.subs e)
    (hlive : w'.liveSub e → w.liveSub e) (htak : tk'.taken e = tk.taken e)
    (hlate : tk'.late e = tk.late e)
    (hcell : w.liveSub e → ∀ i, (w.subs e).pc.opened = some i →
      (w'.seg.latest i = .torn → w'.Filling i) ∧
      (w'.seg.latest i = .empty → w.seg.latest i = .empty))
    (hlook : w.liveSub e → ∀ i, (w.subs e).pc = .storeActive i → w.seg.latest i = .empty →
      tk.returned = false → (∀ p, w.livePub p → (w.pubs p).pc.looked i = false) →
      tk'.returned = false ∧ ∀ p, w'.livePub p → (w'.pubs p).pc.looked i = false) :
    SurvivalInv e w' tk' where
  noRing := hself ▸ h.noRing
  bound := hself ▸ h.bound
  cell hl i hi hc := (hcell (hlive hl) i (hself ▸ hi)).1 hc
  unseeded hl i hi hc := by
    rw [hself] at hi
    have hopen : (w.subs e).pc.opened = some i := by rw [hi]; rfl
    have hold := (hcell (hlive hl) i hopen).2 hc
    obtain ⟨h1, h2⟩ := h.unseeded (hlive hl) i hi hold
    exact hlook (hlive hl) i hi hold h1 h2
  warm hl ht i hi hc := by
    rw [hself] at hi
    have hopen : (w.subs e).pc.opened = some i := by
      cases hpc : (w.subs e).pc <;> rw [hpc] at hi <;> first | (cases hi; done) | exact hi
    exact h.warm (hlive hl) (hlate ▸ ht) i hi ((hcell (hlive hl) i hopen).2 hc)
  given := by
    rw [hself, htak, hlate]
    exact h.given

theorem survivalInv_die {e : Nat} {w : World T} {tk : Takes T} (h : SurvivalInv e w tk)
    {pid : Nat} (hok : Survives e w tk (.die pid)) : SurvivalInv e (w.kill pid) tk := by
  have hstays : ∀ p, w.livePub p → (w.pubs p).pid ≠ pid → (w.kill pid).livePub p := by
    intro p hl hne
    simpa [World.livePub, World.alive, World.kill, hne] using hl
  refine h.elsewhere rfl (World.alive_of_kill w pid) rfl rfl (fun hl i hi => ⟨fun h0 => ?_, id⟩)
    fun _ i _ _ h1 h2 => ⟨h1, fun p hp => h2 p (World.alive_of_kill w pid hp)⟩
  obtain ⟨p, r, hp, hpc⟩ := h.cell hl i hi h0
  exact ⟨p, r, hstays p hp fun he => hok hl p hp he r i (opened_holds hi) hpc, hpc⟩

theorem survivalInv_other {e x : Nat} {w : World T} {tk : Takes T} (hsole : SoleHolder e w)
    (h : SurvivalInv e w tk) (hne : e ≠ x) (hl : w.liveSub x) {a : SubAct} {h' : Segment T}
    {ep' : SubEp T} (hs : subStep w.alive w.seg (w.subs x) a = some (h', ep')) :
    SurvivalInv e (w.putSub x h' ep') (noteTake w (.sub x a) (w.putSub x h' ep') tk) := by
  have hself : (w.putSub x h' ep').subs e = w.subs e := World.putSub_ne _ _ _ _ hne
  obtain ⟨-, -, hret⟩ := noteTake_sub w (w.putSub x h' ep') x a tk
  obtain ⟨htak, hlate⟩ := noteTake_other w (w.putSub x h' ep') a tk hne
  refine h.elsewhere hself (fun h0 => by rwa [World.liveSub, hself] at h0) htak hlate
    (fun hle i hi => ?_) (fun _ i _ _ h1 h2 => ⟨hret.trans h1, h2⟩)
  have hcell := subStep_latest hs (hsole hle i (opened_holds hi) x (Ne.symm hne) hl)
  rw [World.putSub_seg, hcell]
  exact ⟨h.cell hle i hi, id⟩

section Publisher

variable {e p : Nat} {w : World T} {tk : Takes T} {a : PubAct T} {h' : Segment T}
  {ep' : PubEp T}

theorem noteTake_returned {w' : World T}
    (h : (noteTake w (.pub p a) w' tk).returned = true) :
    tk.returned = true ∨ (w.pubs p).pc.counting = true := by
  cases a with
  | go =>
      cases hpc : (w.pubs p).pc <;> simp only [noteTake, hpc] at h
      case bytesShared => exact .inr rfl
      all_goals exact .inl h
  | _ => exact .inl h

/-- A live publisher inside a store stays there, unless it is the one that moved. -/
theorem inside_putPub {f : MailRecord T → PubPc T} (hne : ∀ r, (w.pubs p).pc ≠ f r)
    (h : ∃ q r, w.livePub q ∧ (w.pubs q).pc = f r) :
    ∃ q r, (w.putPub p h' ep').livePub q ∧ ((w.putPub p h' ep').pubs q).pc = f r := by
  obtain ⟨q, r, hq, hpc⟩ := h
  have hqp : q ≠ p := by
    rintro rfl
    exact hne r hpc
  refine ⟨q, r, ?_, ?_⟩
  · rw [World.livePub, World.putPub_alive, World.putPub_ne _ _ _ _ hqp]
    exact hq
  · rw [World.putPub_ne _ _ _ _ hqp]
    exact hpc

/-- While a publisher repairs, no live publisher is inside a store. -/
theorem not_filling {i : Nat} (hown : OwnerInv w) (hl : w.livePub p)
    (ho : (w.pubs p).pc.owning = true) (hne : ∀ r, (w.pubs p).pc ≠ .cellEnd r i) :
    ¬ w.Filling i := by
  rintro ⟨q, r, hq, hpc⟩
  obtain rfl := hown.unique q p hq hl (by rw [hpc]; rfl) ho
  exact hne r hpc

theorem survival_cell (hown : OwnerInv w) (h : SurvivalInv e w tk) (hle : w.liveSub e)
    (hl : w.livePub p) (hs : pubStep size w.alive w.seg (w.pubs p) a = some (h', ep')) {i : Nat}
    (hi : (w.subs e).pc.opened = some i) :
    (h'.latest i = .torn → (w.putPub p h' ep').Filling i) ∧
      (h'.latest i = .empty → w.seg.latest i = .empty) := by
  have hcell := h.cell hle i hi
  -- whoever writes another slot's cell
  have hoff : ∀ j c, i ≠ j → (∀ r, (w.pubs p).pc ≠ .cellEnd r i) →
      ((w.seg.setLatest j c).latest i = .torn → (w.putPub p h' ep').Filling i) ∧
      ((w.seg.setLatest j c).latest i = .empty → w.seg.latest i = .empty) := by
    intro j c hne hpc
    simp only [Segment.setLatest_latest, Function.update_of_ne hne]
    exact ⟨fun h0 => inside_putPub hpc (hcell h0), id⟩
  cases pubStep_record hs with
  | quiet _ _ hce _ _ h3 =>
      rw [h3]
      exact ⟨fun h0 => inside_putPub (fun r => hce r i) (hcell h0), id⟩
  | draw hpc | masterBegin hpc | masterEnd hpc | repairMaster hpc =>
      exact ⟨fun h0 => inside_putPub (by simp [hpc]) (hcell h0), id⟩
  | cellBegin hpc =>
      next r j =>
      by_cases hij : i = j
      · subst hij
        refine ⟨fun _ => ⟨p, r, ?_, by rw [World.putPub_self]; rfl⟩, by simp⟩
        rw [World.livePub, World.putPub_self]
        exact hl
      · exact hoff j _ hij (by simp [hpc])
  | cellEnd hpc =>
      next r j =>
      by_cases hij : i = j
      · subst hij
        exact ⟨by simp, by simp⟩
      · refine hoff j _ hij fun s h0 => ?_
        rw [hpc] at h0
        cases h0
        exact hij rfl
  | repairCell hpc =>
      next j =>
      by_cases hij : i = j
      · subst hij
        have hno := not_filling (i := i) hown hl (by rw [hpc]; rfl) (by simp [hpc])
        simp only [Segment.setLatest_latest, Function.update_self]
        cases hc : w.seg.latest i <;> simp_all [Cell.repair]
      · exact hoff j _ hij (by simp [hpc])

theorem survivalInv_pub (hown : OwnerInv w) (h : SurvivalInv e w tk) (hl : w.livePub p)
    (hok : Survives e w tk (.pub p a))
    (hs : pubStep size w.alive w.seg (w.pubs p) a = some (h', ep')) :
    SurvivalInv e (w.putPub p h' ep') (noteTake w (.pub p a) (w.putPub p h' ep') tk) := by
  refine h.elsewhere rfl id (by rw [noteTake_pub_taken.1]) (by rw [noteTake_pub_taken.2])
    (fun hle i hi => survival_cell hown h hle hl hs hi) fun hle i hi hc h1 h2 => ⟨?_, ?_⟩
  · rw [← Bool.not_eq_true]
    intro h0
    rcases noteTake_returned h0 with h3 | h3
    · rw [h1] at h3
      cases h3
    · have := h2 p hl
      cases hpc : (w.pubs p).pc <;> rw [hpc] at this h3 <;> first | (cases h3; done) | cases this
  · intro q hq
    by_cases hqp : q = p
    · subst hqp
      rw [World.putPub_self, ← Bool.not_eq_true]
      intro h0
      have hbound := h.bound i (by rw [hi]; rfl)
      rcases pubStep_looked hs hbound h0 with h3 | ⟨rfl, r, h3⟩
      · rw [h2 q hl] at h3
        cases h3
      · exact hok hle r i h3 hi hc
    · rw [World.putPub_ne _ _ _ _ hqp]
      refine h2 q ?_
      rwa [World.livePub, World.putPub_alive, World.putPub_ne _ _ _ _ hqp] at hq

theorem mastering_pub (hown : OwnerInv w) (h : MasterLost w tk → w.Mastering) (hl : w.livePub p)
    (hs : pubStep size w.alive w.seg (w.pubs p) a = some (h', ep'))
    (hlost : MasterLost (w.putPub p h' ep') (noteTake w (.pub p a) (w.putPub p h' ep') tk)) :
    (w.putPub p h' ep').Mastering := by
  obtain ⟨hsto, hnone⟩ := hlost
  rw [World.putPub_seg] at hnone
  have hgo := pubStep_go hs
  have hpid := pubStep_pid hs
  cases pubStep_record hs with
  | quiet hm hd _ _ h2 =>
      rw [(noteTake_pub _ _ _ hm hd).2.1] at hsto
      rw [h2] at hnone
      refine inside_putPub (fun r hr => ?_) (h ⟨hsto, hnone⟩)
      rw [hr] at hm
      cases hm
  | draw hpc | cellBegin hpc | cellEnd hpc | repairCell hpc =>
      obtain rfl := hgo (by simp [hpc]) (by simp [hpc])
      simp only [noteTake, hpc] at hsto
      exact inside_putPub (by simp [hpc]) (h ⟨hsto, hnone⟩)
  | masterBegin hpc =>
      next r =>
      refine ⟨p, r, ?_, by rw [World.putPub_self]; rfl⟩
      rw [World.livePub, World.putPub_self]
      exact hl
  | masterEnd hpc =>
      next r => exact absurd rfl (hnone r)
  | repairMaster hpc =>
      -- nobody else is inside the store, so there was a record, and the repair keeps it
      obtain rfl := hgo (by simp [hpc]) (by simp [hpc])
      simp only [noteTake, hpc] at hsto
      have hrec : ¬ ∀ r, w.seg.master ≠ .full r := by
        intro h0
        obtain ⟨q, r, hq, hin⟩ := h ⟨hsto, h0⟩
        obtain rfl := hown.unique q p hq hl (by rw [hin]; rfl) (by rw [hpc]; rfl)
        rw [hpc] at hin
        cases hin
      obtain ⟨r, hr⟩ := not_forall.mp hrec
      rw [ne_eq, not_not] at hr
      exact absurd (by simp [hr, Cell.repair]) (hnone r)

end Publisher

/-- Only a death inside the store loses the master: without one, a master cell that holds
no record is being written. -/
theorem mastering_of_lost {q : World T × Takes T}
    (hq : (handing T size).Reached (fun q a => Uncut q.1 a) q) (hlost : MasterLost q.1 q.2) :
    q.1.Mastering := by
  revert hlost
  refine hq.invariant (P := fun q => MasterLost q.1 q.2 → q.1.Mastering) ?_ ?_
  · rintro ⟨w, tk⟩ ⟨-, rfl⟩ ⟨hsto, -⟩
    exact absurd rfl hsto
  · rintro ⟨w, tk⟩ a ⟨w', tk'⟩ hr h hok hst hlost
    have hown : OwnerInv w :=
      ownerInv_reached (Machine.reached_any (hr.weaken fun _ _ _ => trivial))
    obtain ⟨hs, hn⟩ := Machine.withHistory_step hst
    simp only at hs hn h hok hlost ⊢
    subst hn
    rcases step_cases hs with ⟨pid, rfl, rfl⟩ | ⟨x, b, h', ep', rfl, -, hsub, rfl⟩ |
      ⟨p, b, h', ep', rfl, hal, hpub, rfl⟩
    · obtain ⟨p, r, hl, hpc⟩ := h hlost
      refine ⟨p, r, ?_, hpc⟩
      have hne : (w.pubs p).pid ≠ pid := fun he => hok p hl he r hpc
      simpa [World.livePub, World.alive, World.kill, hne] using hl
    · obtain ⟨-, hsto, -⟩ := noteTake_sub w (w.putSub x h' ep') x b tk
      rw [MasterLost, hsto, World.putSub_seg, (subStep_header hsub).2.2] at hlost
      exact h hlost
    · exact mastering_pub hown h hal hpub hlost

/-! ## The subscriber's own steps -/

section Own

variable {e : Nat} {w : World T} {tk tk' : Takes T} {h' : Segment T} {ep' : SubEp T}

/-- What an access of the subscriber itself has to establish. -/
theorem SurvivalInv.own (hring : ∀ i, ep'.pc ≠ .initRing i)
    (hbound : ∀ i, ep'.pc.index = some i → i < kShmMaxSubscribers)
    (hcell : ∀ i, ep'.pc.opened = some i → h'.latest i = .torn → w.Filling i)
    (hunseeded : ∀ i, ep'.pc = .storeActive i → h'.latest i = .empty →
      tk'.returned = false ∧ ∀ p, w.livePub p → (w.pubs p).pc.looked i = false)
    (hwarm : tk'.late e = true → ∀ i, ep'.pc.wiredAt = some i → h'.latest i ≠ .empty)
    (hgiven : tk'.late e = true → none ∉ tk'.taken e ∧
      ∀ i t o, ep'.pc = .wired i t → t.outcome = some o → o ≠ none) :
    SurvivalInv e (w.putSub e h' ep') tk' := by
  refine ⟨?_, ?_, fun _ => ?_, fun _ => ?_, fun _ => ?_, ?_⟩
  all_goals rw [World.putSub_self]
  · exact hring
  · exact hbound
  · exact hcell
  · exact hunseeded
  · exact hwarm
  · exact hgiven

theorem takeStep_latest {h h' : Segment T} {ep ep' : SubEp T} {i : Nat} {now : Int}
    {t : TakePc T} (hs : takeStep h ep i now t = some (h', ep')) : h'.latest = h.latest := by
  cases t <;> simp only [takeStep] at hs
  all_goals
    repeat' split at hs
    all_goals cases hs
    all_goals rfl

/-- A take comes to nothing only when it looks at a cell without a record. -/
theorem takeStep_outcome {h h' : Segment T} {ep ep' : SubEp T} {i : Nat} {now : Int}
    {t t' : TakePc T} (hs : takeStep h ep i now t = some (h', ep')) (ht : ep'.pc = .wired i t')
    (ho : t'.outcome = some none) :
    t.outcome = some none ∨ t = .pop ∨ t = .load ∧ (h.latest i).value = none := by
  cases t with
  | idle => cases hs
  | pop => exact .inr (.inl rfl)
  | load =>
      refine .inr (.inr ⟨rfl, ?_⟩)
      simp only [takeStep] at hs
      split at hs
      · cases hs
        cases ht
        cases ho
      · next hc => rw [hc]; rfl
      · next hc => rw [hc]; rfl
  | miss r stale =>
      simp only [takeStep] at hs
      cases hlat : ep.history.isLatest <;> simp only [hlat] at hs
      all_goals
        repeat' split at hs
        all_goals cases hs
        all_goals cases ht
        all_goals cases ho
  | count | base | charge | store | ret =>
      simp only [takeStep] at hs
      repeat' split at hs
      all_goals cases hs
      all_goals cases ht
      all_goals cases ho

theorem survivalInv_take (h : SurvivalInv e w tk) (hread : ReaderInv e w tk) (hl : w.liveSub e)
    {i : Nat} {t : TakePc T} {now : Int} (hpc : (w.subs e).pc = .wired i t)
    (hok : Survives e w tk (.sub e (.go now)))
    (hs : takeStep w.seg (w.subs e) i now t = some (h', ep')) :
    SurvivalInv e (w.putSub e h' ep')
      (noteTake w (.sub e (.go now)) (w.putSub e h' ep') tk) := by
  obtain ⟨-, ⟨t', ht'⟩, -⟩ := takeStep_quiet hs
  have hlat := takeStep_latest hs
  have hi : (w.subs e).pc.wiredAt = some i := by rw [hpc]; rfl
  have hlate : (noteTake w (.sub e (.go now)) (w.putSub e h' ep') tk).late = tk.late := by
    simp only [noteTake, hpc]
    split <;> first | rfl | (next h0 => cases h0)
  have htak : ∀ o, o ∈ (noteTake w (.sub e (.go now)) (w.putSub e h' ep') tk).taken e →
      o ∈ tk.taken e ∨ t.outcome = some o := by
    intro o ho
    cases t <;> simp only [noteTake, hpc] at ho
    case ret x =>
      rw [extend_self, List.mem_append, List.mem_singleton] at ho
      rcases ho with h0 | h0
      · exact .inl h0
      · exact .inr (by rw [h0]; rfl)
    all_goals exact .inl ho
  refine .own (by simp [ht']) (fun j hj => ?_) (fun j hj => ?_)
    (fun j hj => ?_) (fun h0 j hj => ?_) (fun h0 => ⟨fun hn => ?_, ?_⟩)
  · rw [ht'] at hj
    exact h.bound j (by rw [hpc]; exact hj)
  · rw [ht'] at hj
    cases hj
    rw [hlat]
    exact h.cell hl i (by rw [hpc]; rfl)
  · rw [ht'] at hj
    cases hj
  · rw [ht'] at hj
    cases hj
    rw [hlat]
    exact h.warm hl (hlate ▸ h0) i hi
  · rw [hlate] at h0
    rcases htak none hn with h1 | h1
    · exact (h.given h0).1 h1
    · exact (h.given h0).2 i t none hpc h1 rfl
  · rintro j s o hj ho rfl
    rw [hlate] at h0
    have hji : j = i := by
      rw [ht'] at hj
      cases hj
      rfl
    subst hji
    rcases takeStep_outcome hs hj ho with h1 | rfl | ⟨rfl, h1⟩
    · exact (h.given h0).2 j t none hpc h1 rfl
    · exact hread.noPop j hpc
    · -- the mailbox is not empty, and nobody is inside a store into it
      have hno := hok rfl
      simp only [hpc] at hno
      cases hc : w.seg.latest j with
      | empty => exact h.warm hl h0 j hi hc
      | full r => rw [hc] at h1; cases h1
      | torn => exact hno (h.cell hl j (by rw [hpc]; rfl) hc)

/-- An access of the claim after which the mailbox is still being prepared. -/
theorem SurvivalInv.prepare (h : SurvivalInv e w tk) (hring : ∀ i, ep'.pc ≠ .initRing i)
    (hbound : ∀ i, ep'.pc.index = some i → i < kShmMaxSubscribers)
    (hopen : ep'.pc.opened = none) :
    SurvivalInv e (w.putSub e h' ep') tk := by
  have hnot : ∀ i t, ep'.pc ≠ .wired i t := by
    intro i t h0
    rw [h0] at hopen
    cases hopen
  refine .own hring hbound (fun i hi => ?_) (fun i hi => ?_) (fun _ i hi => ?_)
    (fun h0 => ⟨(h.given h0).1, fun i t o ht => absurd ht (hnot i t)⟩)
  · rw [hopen] at hi
    cases hi
  · rw [hi] at hopen
    cases hopen
  · cases hpc : ep'.pc <;> rw [hpc] at hi <;> first | (cases hi; done) | exact absurd hpc (hnot _ _)

/-- A claim that finds the master cell without a record, none having been stored. -/
theorem SurvivalInv.unseed (h : SurvivalInv e w tk) (hrec : RecordInv w tk) (hl : w.liveSub e)
    {i : Nat} (hpc : (w.subs e).pc = .loadMaster i) (hnil : tk.stored = [])
    (hbound : ∀ j, (SubPc.storeActive i : SubPc T).index = some j → j < kShmMaxSubscribers) :
    SurvivalInv e (w.putSub e w.seg ((w.subs e).at' (.storeActive i))) tk := by
  refine .own (by simp) hbound (fun j hj => ?_) (fun j hj _ => ⟨?_, fun p _ => ?_⟩)
    (fun _ j hj => (by cases hj)) (fun h0 => ⟨(h.given h0).1, by simp⟩)
  · exact h.cell hl j (by rw [hpc]; exact hj)
  · rw [← Bool.not_eq_true]
    exact fun h0 => hrec.returned h0 hnil
  · rw [← Bool.not_eq_true]
    intro h0
    have hspread : (w.pubs p).pc.spreading = none := by
      refine Option.eq_none_iff_forall_ne_some.mpr fun r hr => ?_
      have := hrec.spreading p r hr
      rw [hnil] at this
      cases this
    have hcount : (w.pubs p).pc.counting = false := by
      rw [← Bool.not_eq_true]
      exact fun h1 => hrec.counting p h1 hnil
    cases hq : (w.pubs p).pc <;> rw [hq] at h0 hspread hcount <;>
      first | (cases h0; done) | (cases hspread; done) | cases hcount

theorem survivalInv_claim (hrec : RecordInv w tk) (h : SurvivalInv e w tk) (hl : w.liveSub e)
    (hlat : (w.subs e).history.isLatest = true) (hfirst : tk.taken e = []) {a : SubAct}
    (hno : ∀ i t, (w.subs e).pc ≠ .wired i t) (hok : Survives e w tk (.sub e a))
    (hs : subStep w.alive w.seg (w.subs e) a = some (h', ep')) :
    SurvivalInv e (w.putSub e h' ep') (noteTake w (.sub e a) (w.putSub e h' ep') tk) := by
  have hbound : ∀ i, ep'.pc.index = some i → i < kShmMaxSubscribers := by
    intro i hi
    rcases subStep_index hs hi with h0 | h0
    · exact h.bound i h0
    · exact h0
  cases a with
  | takeLatest | tryTake | destroy =>
      cases hpc : (w.subs e).pc <;> simp only [subStep, hpc] at hs
      case wired i t => exact absurd hpc (hno i t)
      case refused =>
        cases hs <;> exact h.prepare (by simp) hbound rfl
      all_goals cases hs
  | go now =>
      cases hpc : (w.subs e).pc <;> simp only [subStep, hpc] at hs
      case wired i t => exact absurd hpc (hno i t)
      case initRing i => exact absurd hpc (h.noRing i)
      all_goals simp only [noteTake, hpc]
      case initLatest i =>
        cases hs
        refine .own (by simp) hbound (fun j hj h0 => ?_) (by simp) (fun _ j hj => ?_)
          (fun h0 => ⟨(h.given h0).1, by simp⟩)
        · cases hj
          simp at h0
        · cases hj
      case loadMaster i =>
        have hkept := hok rfl
        simp only [hpc] at hkept
        cases hm : w.seg.master <;> simp only [hm] at hs <;> cases hs
        case full r => exact h.prepare (by simp) hbound rfl
        -- nothing has been stored, so nobody is past the master store
        all_goals
          have hnil : tk.stored = [] := by
            by_contra hne
            exact hkept ⟨hne, by simp [hm]⟩
          exact h.unseed hrec hl hpc hnil hbound
      case seedEnd i r =>
        cases hs
        refine .own (by simp) hbound (fun j hj h0 => ?_) (fun j hj h0 => ?_)
          (fun _ j hj => (by cases hj)) (fun h0 => ⟨(h.given h0).1, by simp⟩)
        · cases hj
          simp at h0
        · cases hj
          simp at h0
      case storeActive i =>
        cases hs
        refine .own (by simp) hbound (fun j hj => ?_) (by simp) (fun h0 j hj h1 => ?_)
          (fun _ => ⟨by simp [hfirst], fun j t o hj ho => ?_⟩)
        · exact h.cell hl j (by rw [hpc]; exact hj)
        · cases hj
          rw [(h.unseeded hl i hpc h1).1] at h0
          simp at h0
        · cases hj
          cases ho
      case storeMiss i =>
        cases hs
        simp only [hlat, if_true] at hbound ⊢
        exact h.prepare (by simp) hbound rfl
      all_goals
        repeat' split at hs
        all_goals cases hs
        all_goals exact h.prepare (by simp) hbound rfl

theorem survivalInv_own (hrec : RecordInv w tk) (h : SurvivalInv e w tk)
    (hread : ReaderInv e w tk) (hl : w.liveSub e) (hlat : (w.subs e).history.isLatest = true)
    (hfirst : tk.taken e = []) {a : SubAct} (hok : Survives e w tk (.sub e a))
    (hs : subStep w.alive w.seg (w.subs e) a = some (h', ep')) :
    SurvivalInv e (w.putSub e h' ep') (noteTake w (.sub e a) (w.putSub e h' ep') tk) := by
  by_cases hw : ∃ i t, (w.subs e).pc = .wired i t
  · obtain ⟨i, t, hpc⟩ := hw
    have hi : (w.subs e).pc.wiredAt = some i := by rw [hpc]; rfl
    have hbound := h.bound i (by rw [hpc]; rfl)
    cases a with
    | go now =>
        simp only [subStep, hpc] at hs
        exact survivalInv_take h hread hl hpc hok hs
    | takeLatest =>
        cases t <;> simp only [subStep, hpc, hlat, if_true] at hs <;> cases hs
        refine .own (by simp) (fun j hj => ?_) (fun j hj => ?_) (by simp)
          (fun h0 j hj => ?_) (fun h0 => ⟨(h.given h0).1, fun j t o hj ho => ?_⟩)
        · cases hj
          exact hbound
        · cases hj
          exact h.cell hl i (by rw [hpc]; rfl)
        · cases hj
          exact h.warm hl h0 i hi
        · cases hj
          cases ho
    | tryTake => cases t <;> simp [subStep, hpc, hlat] at hs
    | destroy =>
        cases t <;> simp only [subStep, hpc] at hs <;> cases hs
        exact .own (by simp) (fun j hj => (by cases hj)) (fun j hj => (by cases hj))
          (by simp) (fun _ j hj => (by cases hj)) (fun h0 => ⟨(h.given h0).1, by simp⟩)
  · exact survivalInv_claim hrec h hl hlat hfirst (fun i t h0 => hw ⟨i, t, h0⟩) hok hs

/-- A subscriber that has taken is wired, or was. -/
theorem early_own {a : SubAct} (h : (w.subs e).pc.wiredAt = none → (w.subs e).pc.left = false →
      tk.taken e = [])
    (hs : subStep w.alive w.seg (w.subs e) a = some (h', ep')) (hat : ep'.pc.wiredAt = none)
    (hleft : ep'.pc.left = false) :
    (noteTake w (.sub e a) (w.putSub e h' ep') tk).taken e = [] := by
  by_cases hw : ∃ i t, (w.subs e).pc = .wired i t
  · obtain ⟨i, t, hpc⟩ := hw
    cases a with
    | go now =>
        simp only [subStep, hpc] at hs
        obtain ⟨-, ⟨t', ht'⟩, -⟩ := takeStep_quiet hs
        rw [ht'] at hat
        cases hat
    | takeLatest | tryTake | destroy =>
        cases t <;> simp only [subStep, hpc] at hs
        all_goals
          repeat' split at hs
          all_goals first
            | cases hs; done
            | (cases hs; cases hat; done)
            | (cases hs; cases hleft)
  · have hno : ∀ i t, (w.subs e).pc ≠ .wired i t := fun i t h0 => hw ⟨i, t, h0⟩
    have hnone : (w.subs e).pc.wiredAt = none := by
      cases hpc : (w.subs e).pc <;> first | rfl | exact absurd hpc (hno _ _)
    rw [noteTake_outside _ _ _ hno]
    exact h hnone ((subStep_outside hs hno).2.1 hleft)

/-- Once the first take has returned, neither it nor the state of the topic at the join
changes any more. -/
theorem first_kept {a : SubAct} (h : (w.subs e).pc.wiredAt = none → (w.subs e).pc.left = false →
      tk.taken e = []) (hne : tk.taken e ≠ []) (w' : World T) :
    (noteTake w (.sub e a) w' tk).late e = tk.late e ∧
      ((noteTake w (.sub e a) w' tk).taken e).head? = (tk.taken e).head? ∧
      (noteTake w (.sub e a) w' tk).taken e ≠ [] := by
  cases a with
  | go now =>
      cases hpc : (w.subs e).pc <;> simp only [noteTake, hpc]
      case storeActive i =>
        rw [hpc] at h
        exact absurd (h rfl rfl) hne
      case wired i t =>
        cases t <;> simp only
        case ret o =>
          rw [extend_self, List.head?_append_of_ne_nil _ hne]
          exact ⟨trivial, rfl, fun h0 => hne (List.append_eq_nil_iff.mp h0).1⟩
        all_goals exact ⟨trivial, trivial, hne⟩
      all_goals exact ⟨trivial, trivial, hne⟩
  | _ => exact ⟨rfl, rfl, hne⟩

end Own

/-! ## The first take -/

/-- The invariant up to the first take, and what that take then was. -/
structure FirstTake (e : Nat) (w : World T) (tk : Takes T) : Prop where
  early : (w.subs e).pc.wiredAt = none → (w.subs e).pc.left = false → tk.taken e = []
  before : tk.taken e = [] → SurvivalInv e w tk
  first : tk.late e = true → (tk.taken e).head? ≠ some none

/-- A step that hands `e` nothing. -/
theorem FirstTake.elsewhere {e : Nat} {w w' : World T} {tk tk' : Takes T} (h : FirstTake e w tk)
    (hself : w'.subs e = w.subs e) (htak : tk'.taken e = tk.taken e)
    (hlate : tk'.late e = tk.late e)
    (hinv : tk.taken e = [] → SurvivalInv e w tk → SurvivalInv e w' tk') : FirstTake e w' tk' where
  early := by
    rw [hself, htak]
    exact h.early
  before h0 := by
    rw [htak] at h0
    exact hinv h0 (h.before h0)
  first := by
    rw [hlate, htak]
    exact h.first

theorem firstTake_own {e : Nat} {w : World T} {tk : Takes T} {h' : Segment T} {ep' : SubEp T}
    (h : FirstTake e w tk) {a : SubAct}
    (hs : subStep w.alive w.seg (w.subs e) a = some (h', ep'))
    (hinv : tk.taken e = [] → SurvivalInv e w tk → SurvivalInv e (w.putSub e h' ep')
      (noteTake w (.sub e a) (w.putSub e h' ep') tk)) :
    FirstTake e (w.putSub e h' ep') (noteTake w (.sub e a) (w.putSub e h' ep') tk) := by
  refine ⟨fun hat hleft => ?_, fun h0 => ?_, fun hlate hhead => ?_⟩
  · rw [World.putSub_self] at hat hleft
    exact early_own h.early hs hat hleft
  · by_cases hne : tk.taken e = []
    · exact hinv hne (h.before hne)
    · exact absurd h0 (first_kept h.early hne _).2.2
  · by_cases hne : tk.taken e = []
    · -- this step handed the first take its value
      have hmem := List.mem_of_mem_head? (Option.mem_def.mpr hhead)
      exact ((hinv hne (h.before hne)).given hlate).1 hmem
    · obtain ⟨h1, h2, -⟩ := first_kept h.early hne (w.putSub e h' ep') (a := a)
      rw [h1] at hlate
      rw [h2] at hhead
      exact h.first hlate hhead

theorem firstTake_reached {e : Nat} {q : World T × Takes T}
    (hq : (handing T size).Reached (fun q a => SoleHolder e q.1 ∧ SurvivalDiscipline e q a) q)
    (hlat : (q.1.subs e).history.isLatest = true) : FirstTake e q.1 q.2 := by
  revert hlat
  refine hq.invariant
    (P := fun q => (q.1.subs e).history.isLatest = true → FirstTake e q.1 q.2) ?_ ?_
  · rintro ⟨w, tk⟩ ⟨hw, rfl⟩ -
    have hpc := (hw.2.2.1 e).2.1
    refine ⟨fun _ _ => rfl, fun _ => ⟨fun i h0 => ?_, fun i h0 => ?_, fun _ i h0 => ?_,
      fun _ i h0 => ?_, fun _ h0 => (nomatch h0), fun h0 => (nomatch h0)⟩,
      fun h0 => (nomatch h0)⟩
    all_goals rw [hpc] at h0; cases h0
  · rintro ⟨w, tk⟩ a ⟨w', tk'⟩ hr h ⟨hsole, hok⟩ hst hlat
    have hrec := recordInv_reached hr
    have hreader := fun h0 => readerInv_reached (e := e) (hr.weaken fun _ _ h1 => h1.1) h0
    have hown : OwnerInv w :=
      ownerInv_reached (Machine.reached_any (hr.weaken fun _ _ _ => trivial))
    obtain ⟨hs, hn⟩ := Machine.withHistory_step hst
    simp only at hs hn h hsole hlat hrec hreader
    subst hn
    rcases step_cases hs with ⟨pid, rfl, rfl⟩ | ⟨x, b, h', ep', rfl, hal, hsub, rfl⟩ |
      ⟨p, b, h', ep', rfl, hal, hpub, rfl⟩
    · exact (h hlat).elsewhere rfl rfl rfl fun hne hi => survivalInv_die hi (hok hne)
    · by_cases hx : e = x
      · subst hx
        rw [World.putSub_self, (subStep_history hsub).1] at hlat
        exact firstTake_own (h hlat) hsub fun hne hi =>
          survivalInv_own hrec hi (hreader hlat) hal hlat hne (hok hne) hsub
      · have hself : (w.putSub x h' ep').subs e = w.subs e := World.putSub_ne _ _ _ _ hx
        rw [hself] at hlat
        obtain ⟨htak, hlate⟩ := noteTake_other w (w.putSub x h' ep') b tk hx
        exact (h hlat).elsewhere hself htak hlate fun _ hi =>
          survivalInv_other hsole hi hx hal hsub
    · exact (h hlat).elsewhere rfl (by rw [noteTake_pub_taken.1]) (by rw [noteTake_pub_taken.2])
        fun hne hi => survivalInv_pub hown hi hal (hok hne) hpub

/-- A subscriber that became active after a publish had returned is handed, by its
first take, a record that was completely stored. -/
structure WarmFirst (e : Nat) (w : World T) (tk : Takes T) : Prop where
  first : tk.late e = true → ∀ o, (tk.taken e).head? = some o →
    ∃ r, o = some r ∧ r ∈ tk.stored ∧ r ∈ tk.log
  ends : TakesEnd e w

/-- In a run that keeps the discipline for a latest-only subscriber, deaths of
publishers do not cost it its warm start. -/
theorem warm_start_survives {e : Nat} {w : World T} {tk : Takes T}
    (hw : (handing T size).Reached
      (fun q a => SoleHolder e q.1 ∧ SurvivalDiscipline e q a) (w, tk))
    (hlat : (w.subs e).history.isLatest = true) : WarmFirst e w tk := by
  have hrec := recordInv_reached hw
  have hread := readerInv_reached (hw.weaken fun _ _ h => h.1) hlat
  have hfirst := firstTake_reached hw hlat
  refine ⟨fun hlate o ho => ?_, takesEnd e w⟩
  cases o with
  | none => exact absurd ho (hfirst.first hlate)
  | some r =>
      have hr := (hread.held r (List.mem_of_mem_head? ho)).1
      exact ⟨r, rfl, hr, hrec.stored r hr⟩

/-! Runs of subscriber 0 with the first two publishers. -/

/-- A decidable part of the discipline. -/
def survivalCheck (q : World T × Takes T) (a : Act T) : Bool :=
  !(q.2.taken 0).isEmpty ||
  match a with
  | .die pid => (List.range 2).all fun p => (q.1.pubs p).pid != pid ||
      match (q.1.pubs p).pc with
      | .cellEnd _ _ => false
      | _ => true
  | .sub _ (.go _) =>
      match (q.1.subs 0).pc with
      | .loadMaster _ => q.2.stored.isEmpty || q.1.seg.master.value.isSome
      | .wired _ .load => (List.range 2).all fun p =>
          match (q.1.pubs p).pc with
          | .cellEnd _ _ => false
          | _ => true
      | _ => true
  | .pub _ _ =>
      match (q.1.subs 0).pc with
      | .storeActive _ => false
      | _ => true
  | _ => true

theorem survivalCheck_sound {q : World T × Takes T} {a : Act T} (hJ : Few 1 2 q.1)
    (h : survivalCheck q a = true) : SurvivalDiscipline 0 q a := by
  intro hfirst
  simp only [survivalCheck, hfirst, List.isEmpty_nil, Bool.not_true, Bool.false_or] at h
  cases a with
  | die pid =>
      intro _ p _ hpid r i _ h0
      by_cases hp : p < 2
      · have := List.all_eq_true.mp h p (List.mem_range.mpr hp)
        simp only [hpid, bne_self_eq_false, Bool.false_or, h0] at this
        cases this
      · rw [hJ.2 p (Nat.le_of_not_lt hp)] at h0
        cases h0
  | sub x b =>
      cases b with
      | go now =>
          intro _
          cases hpc : (q.1.subs 0).pc <;> simp only [hpc] at h ⊢
          case loadMaster i =>
            rintro ⟨hsto, hnone⟩
            cases hm : q.1.seg.master with
            | full r => exact hnone r hm
            | empty | torn => simp [hm, hsto, Cell.value] at h
          case wired i t =>
            cases t <;> simp only [] at h ⊢
            rintro ⟨p, r, -, h0⟩
            by_cases hp : p < 2
            · have := List.all_eq_true.mp h p (List.mem_range.mpr hp)
              rw [h0] at this
              cases this
            · rw [hJ.2 p (Nat.le_of_not_lt hp)] at h0
              cases h0
      | _ => trivial
  | pub p b =>
      cases b with
      | go =>
          intro _ r i _ hpc
          simp [hpc] at h
      | _ => trivial

/-- Both checks. -/
def calmCheck (q : World T × Takes T) (a : Act T) : Bool := aloneCheck q a && survivalCheck q a

theorem reached_of_calm {as : List (Act T)} {w : World T} {tk : Takes T}
    (h : (handing T size).execOk calmCheck as (lonely T, {}) = some (w, tk)) :
    (handing T size).Reached
      (fun q a => SoleHolder 0 q.1 ∧ SurvivalDiscipline 0 q a) (w, tk) := by
  have hkeeps : ∀ q a q', Few 1 2 q.1 → calmCheck q a = true →
      (handing T size).step q a = some q' → Few 1 2 q'.1 := by
    intro q a q' hJ hc hs
    rw [calmCheck, Bool.and_eq_true] at hc
    exact stayCheck_keeps hJ hc.1 (Machine.withHistory_step hs).1
  refine Machine.reached_of_execOk (J := fun q => Few 1 2 q.1) (fun q a hJ hc => ?_) hkeeps
    (lonely_few 1 2) lonely_handing h
  rw [calmCheck, Bool.and_eq_true] at hc
  exact ⟨hJ.sole, survivalCheck_sound hJ hc.2⟩

/-- The publisher is killed inside its second store into the master cell, the next one
repairs it and publishes, and a subscriber that joins then starts warm. A death inside the
store into its mailbox comes after its first take. -/
theorem warm_start_survives_repair : ∃ (w : World Nat) (tk : Takes Nat),
    (handing Nat 8).Reached
      (fun q a => SoleHolder 0 q.1 ∧ SurvivalDiscipline 0 q a) (w, tk) ∧
      tk.late 0 = true ∧ (tk.taken 0).map (Option.map (·.payload)) = [some 30, some 30] ∧
      WarmFirst 0 w tk := by
  have hrun : ((handing Nat 8).execOk calmCheck
      (pubGo 0 21 ++ .pub 0 (.publish { value := 10 }) :: pubGo 0 23 ++
        .pub 0 (.publish { value := 20 }) :: pubGo 0 2 ++ .die 101 :: pubGo 1 23 ++
        .pub 1 (.publish { value := 30 }) :: pubGo 1 23 ++
        subGo 0 15 ++ .sub 0 .takeLatest :: subGo 0 5 ++
        .pub 1 (.publish { value := 40 }) :: pubGo 1 8 ++ .die 102 ::
        .sub 0 .takeLatest :: subGo 0 5) (lonely Nat, {})).map
        (fun q => (q.2.late 0, (q.2.taken 0).map (Option.map (·.payload)), wiredCheck q.1)) =
      some (true, [some 30, some 30], true) := by decide +kernel
  obtain ⟨⟨w, tk⟩, hw, hf⟩ := Option.map_eq_some_iff.mp hrun
  simp only [Prod.mk.injEq] at hf
  have hr := reached_of_calm hw
  obtain ⟨-, h2, -⟩ := wired_of_check hf.2.2
  exact ⟨w, tk, hr, hf.1, hf.2.1, warm_start_survives hr h2⟩

/-- The publisher is killed inside its second store into the master cell: the next
one repairs the cell to empty, and a subscriber that joins then starts cold. -/
theorem warm_start_lost :
    ¬ ∀ (w : World Nat) (tk : Takes Nat), (handing Nat 8).Reached anyStep (w, tk) →
      ∀ e, (w.subs e).history.isLatest = true → WarmFirst e w tk := by
  intro hall
  have hrun : ((handing Nat 8).exec
      (pubGo 0 21 ++ .pub 0 (.publish { value := 10 }) :: pubGo 0 23 ++
        .pub 0 (.publish { value := 20 }) :: pubGo 0 2 ++ .die 101 :: pubGo 1 23 ++
        subGo 0 13 ++ .sub 0 .takeLatest :: subGo 0 2) (lonely Nat, {})).map
        (fun q => (q.2.late 0, (q.2.taken 0).map (Option.map (·.payload)), wiredCheck q.1)) =
      some (true, [none], true) := by decide +kernel
  obtain ⟨⟨w, tk⟩, hw, hf⟩ := Option.map_eq_some_iff.mp hrun
  simp only [Prod.mk.injEq] at hf
  obtain ⟨-, h2, -⟩ := wired_of_check hf.2.2
  have hwarm := hall w tk (Machine.reached_of_exec lonely_handing hw) 0 h2
  have hone : tk.taken 0 = [none] := by
    have := hf.2.1
    cases ht : tk.taken 0 with
    | nil => rw [ht] at this; cases this
    | cons o os =>
        rw [ht] at this
        simp only [List.map_cons, List.cons.injEq, List.map_eq_nil_iff] at this
        rw [this.2, Option.map_eq_none_iff.mp this.1]
  obtain ⟨r, hr, -⟩ := hwarm.first hf.1 none (by rw [hone]; rfl)
  cases hr

end Xmmsg.Shm
