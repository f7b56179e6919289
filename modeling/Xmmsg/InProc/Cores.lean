import Xmmsg.InProc.Delivery

/-!
# Cores, rings and the pointers a fan-out holds

What the reliable pre-check and the queue path both lean on: a core is built for
the declared history and keeps its kind and depth; nobody but its maker touches
it before it is attached, so it joins the table with an empty ring; and a pointer
a publisher has loaded belongs to the slot it was loaded from and to no other,
whatever has happened to the table since.
-/

namespace Xmmsg.InProc

open Xmmsg.Sys Xmmsg.Mail

variable {T : Type} {size : Nat}

/-- The mailbox is the one the declaration asks for. -/
def Mailbox.Fits : Mailbox T → History → Prop
  | .latest _, .latestOnly => True
  | .queue q, .queue depth => q.depth = depth
  | _, _ => False

/-- The core has been built. -/
def SubPc.made : SubPc T → Bool
  | .unwired | .create => false
  | _ => true

/-- A core as the constructor leaves it, seed apart. -/
structure SubCore.Unused (c : SubCore T) : Prop where
  ring : ∀ q, c.box = .queue q → q.items = []
  takes : c.takeCount = 0
  drops : c.dropCount = 0

/-- The pointer a publisher has in hand, and the slot it came from. -/
def PubPc.held : PubPc T → Option (Nat × Nat)
  | .probe _ i k | .base _ i k | .stamp _ i k | .store _ i k | .push _ i k
  | .drop _ i k => some (i, k)
  | _ => none

/-- The core the fan-out is working on, and whether it took it for a latest-only
one. -/
def PubPc.aim : PubPc T → Option (Nat × Bool)
  | .base _ _ k | .stamp _ _ k | .store _ _ k => some (k, true)
  | .push _ _ k | .drop _ _ k => some (k, false)
  | _ => none

structure CoreInv (w : World T) : Prop where
  fits : ∀ k, (w.subs k).pc.made = true →
    (w.topic.cores k).box.Fits (w.subs k).qos.history
  unused : ∀ k, (w.subs k).pc.made = true → (w.subs k).pc.early = true →
    (w.topic.cores k).Unused
  held : ∀ p i k, (w.pubs p).pc.held = some (i, k) →
    (w.subs k).pc.early = false ∧ ∀ j, w.topic.subSlots j = some k → j = i
  aim : ∀ p k b, (w.pubs p).pc.aim = some (k, b) → (w.subs k).qos.history.isLatest = b

theorem Mailbox.Fits.of_latest {x : Option (MailRecord T)} {d : History}
    (h : (Mailbox.latest x).Fits d) : d.isLatest = true := by
  cases d
  · rfl
  · exact h.elim

theorem Mailbox.Fits.of_queue {q : Fifo (MailRecord T)} {d : History}
    (h : (Mailbox.queue q).Fits d) : d = .queue q.depth := by
  cases d
  · exact h.elim
  · exact congrArg History.queue h.symm

theorem Mailbox.Fits.latest {b : Mailbox T} {d : History} (h : b.Fits d)
    (hd : d.isLatest = true) : ∃ x, b = .latest x := by
  cases b with
  | latest x => exact ⟨x, rfl⟩
  | queue q => rw [h.of_queue] at hd; cases hd

theorem Mailbox.Fits.queue {b : Mailbox T} {d : History} (h : b.Fits d)
    (hd : d.isLatest = false) : ∃ q, b = .queue q ∧ d = .queue q.depth := by
  cases b with
  | latest x => rw [h.of_latest] at hd; cases hd
  | queue q => exact ⟨q, rfl, h.of_queue⟩

theorem SubCore.new_fits (qos : Qos) : ((SubCore.new qos : SubCore T).box).Fits qos.history := by
  simp only [SubCore.new]
  cases qos.history
  · trivial
  · rfl

theorem SubCore.new_unused (qos : Qos) : (SubCore.new qos : SubCore T).Unused := by
  refine ⟨fun q hq => ?_, rfl, rfl⟩
  simp only [SubCore.new] at hq
  cases hh : qos.history <;> rw [hh] at hq <;> cases hq
  rfl

theorem SubCore.store_fits {c : SubCore T} {r : MailRecord T} {h : History}
    (hc : c.box.Fits h) : (c.store r).box.Fits h := by
  cases hb : c.box with
  | latest x =>
      rw [hb] at hc
      simp only [SubCore.store, hb]
      cases h <;> exact hc
  | queue q => simpa only [SubCore.store, hb] using hc

theorem SubCore.store_unused {c : SubCore T} {r : MailRecord T} (hc : c.Unused) :
    (c.store r).Unused := by
  cases hb : c.box with
  | latest x =>
      simp only [SubCore.store, hb]
      exact ⟨fun q hq => (by cases hq), hc.takes, hc.drops⟩
  | queue q => simpa only [SubCore.store, hb] using hc

theorem takeStep_fits {c c' : SubCore T} {now : Int} {t t' : TakePc T} {h : History}
    (hs : takeStep c now t = some (c', t')) (hc : c.box.Fits h) : c'.box.Fits h := by
  cases t with
  | pop =>
      simp only [takeStep] at hs
      split at hs
      · next q hq =>
        split at hs
        · next r q' hp =>
          cases hs
          rw [hq] at hc
          cases h with
          | latestOnly => exact hc
          | queue depth => exact (Fifo.tryPop_some hp).2.trans hc
        · cases hs
          exact hc
      · cases hs
        exact hc
  | _ =>
      simp only [takeStep] at hs
      repeat' split at hs
      all_goals cases hs
      all_goals exact hc

/-- One access of a subscriber to its own core. -/
theorem subStep_core {h h' : Topic T} {k : Nat} {ep ep' : SubEp T} {a : SubAct}
    (hs : subStep h k ep a = some (h', ep')) :
    (ep.pc = .create ∧ h'.cores k = .new ep.qos) ∨
    (∃ r, ep.pc = .seed r ∧ h'.cores k = (h.cores k).store r) ∨
    (∃ t t' now, ep.pc = .wired t ∧ ep'.pc = .wired t' ∧ a = .go now ∧
      takeStep (h.cores k) now t = some (h'.cores k, t')) ∨
    (h'.cores = h.cores ∧ (ep'.pc.made = true → ep.pc.made = true)) := by
  cases a with
  | go now =>
      cases hpc : ep.pc <;> simp only [subStep, hpc] at hs
      case create =>
        cases hs
        exact .inl ⟨rfl, by simp [Topic.setCore]⟩
      case seed r =>
        cases hs
        exact .inr (.inl ⟨r, rfl, by simp [Topic.setCore]⟩)
      case wired t =>
        split at hs
        · next c t' hc =>
          cases hs
          exact .inr (.inr (.inl ⟨t, t', now, rfl, rfl, rfl, by simpa [Topic.setCore] using hc⟩))
        · cases hs
      all_goals
        repeat' split at hs
        all_goals cases hs
        all_goals exact .inr (.inr (.inr ⟨rfl, fun _ => rfl⟩))
  | subscribe =>
      simp only [subStep] at hs
      split at hs <;> cases hs
      exact .inr (.inr (.inr ⟨rfl, fun h0 => by cases h0⟩))
  | takeLatest | tryTake | destroy =>
      simp only [subStep] at hs
      split at hs
      · next hpc _ =>
        cases hs
        exact .inr (.inr (.inr ⟨rfl, fun _ => by rw [hpc]; rfl⟩))
      · cases hs

/-- Once attached, never again on the way to it. -/
theorem subStep_early {h h' : Topic T} {k : Nat} {ep ep' : SubEp T} {a : SubAct}
    (hs : subStep h k ep a = some (h', ep')) (he : ep.pc.early = false) :
    ep'.pc.early = false := by
  cases a with
  | go now =>
      cases hpc : ep.pc <;> simp only [subStep, hpc] at hs <;> rw [hpc] at he
      case unwired | create | loadMaster | seed | scan | attach => cases he
      all_goals
        repeat' split at hs
        all_goals cases hs
        all_goals rfl
  | subscribe =>
      simp only [subStep] at hs
      split at hs
      · next hpc _ =>
        rw [hpc] at he
        cases he
      · cases hs
  | takeLatest | tryTake | destroy =>
      simp only [subStep] at hs
      split at hs <;> cases hs
      rfl

/-- The table forgets a subscriber but does not move it. -/
theorem WireMove.stays {h h' : Topic T} {k : Nat} {pc pc' : SubPc T}
    (hm : WireMove h k pc h' pc') (he : pc.early = false) (j : Nat)
    (hj : h'.subSlots j = some k) : h.subSlots j = some k := by
  cases hm with
  | quiet h1 => exact h1 ▸ hj
  | acquire | found | release | spot | missed => exact hj
  | attach i hpc =>
      rw [hpc] at he
      cases he
  | clear i hpc =>
      by_cases e : j = i
      · rw [e] at hj
        simp [Topic.setSlot] at hj
      · simpa only [Topic.setSlot, Function.update_of_ne e] using hj

/-- A core joins the table early no more. -/
theorem SlotInv.not_early {w : World T} (h : SlotInv w) {k i : Nat}
    (hi : w.topic.subSlots i = some k) : (w.subs k).pc.early = false := by
  have := ((h k).attached i hi).1
  cases hpc : (w.subs k).pc <;> rw [hpc] at this <;> first | rfl | cases this

/-- One access of a publisher to a core. -/
theorem pubStep_core {h h' : Topic T} {p : Nat} {ep ep' : PubEp T} {a : PubAct T}
    (hs : pubStep size h p ep a = some (h', ep')) (k : Nat) :
    h'.cores k = h.cores k ∨
    (∃ r i, ep.pc = .stamp r i k ∧ ep'.pc = .store r i k ∧
      h'.cores k = { h.cores k with lastConsumedOrdinal := some (r.ordinal - 1) }) ∨
    (∃ r i, ep.pc = .store r i k ∧ ep'.pc = .visit r (i + 1) ∧
      h'.cores k = (h.cores k).store r) ∨
    (∃ r i q q', ep.pc = .push r i k ∧ ep'.pc = .visit r (i + 1) ∧
      (h.cores k).box = .queue q ∧ q.tryPush r = some q' ∧
      h'.cores k = { h.cores k with box := .queue q' }) ∨
    (∃ r i, ep.pc = .drop r i k ∧ ep'.pc = .visit r (i + 1) ∧
      h'.cores k = { h.cores k with dropCount := (h.cores k).dropCount + 1 }) := by
  have hset : ∀ {k'} {c : SubCore T}, k ≠ k' → (h.setCore k' c).cores k = h.cores k :=
    fun hne => setCore_ne h _ hne
  cases a with
  | go now =>
      cases hpc : ep.pc <;> simp only [pubStep, hpc] at hs
      case stamp r i k' =>
        split at hs <;> cases hs
        · by_cases e : k = k'
          · subst e
            exact .inr (.inl ⟨r, i, rfl, rfl, setCore_self _ _ _⟩)
          · exact .inl (hset e)
        · exact .inl rfl
      case store r i k' =>
        cases hs
        by_cases e : k = k'
        · subst e
          exact .inr (.inr (.inl ⟨r, i, rfl, rfl, setCore_self _ _ _⟩))
        · exact .inl (hset e)
      case push r i k' =>
        split at hs
        · next q hq =>
          split at hs <;> cases hs
          · next q' hp =>
            by_cases e : k = k'
            · subst e
              exact .inr (.inr (.inr (.inl ⟨r, i, q, q', rfl, rfl, hq, hp, setCore_self _ _ _⟩)))
            · exact .inl (hset e)
          · exact .inl rfl
        · cases hs
          exact .inl rfl
      case drop r i k' =>
        cases hs
        by_cases e : k = k'
        · subst e
          exact .inr (.inr (.inr (.inr ⟨r, i, rfl, rfl, setCore_self _ _ _⟩)))
        · exact .inl (hset e)
      all_goals
        repeat' split at hs
        all_goals cases hs
        all_goals exact .inl rfl
  | _ =>
      simp only [pubStep] at hs
      repeat' split at hs
      all_goals cases hs
      all_goals exact .inl rfl

/-- Where the pointers come from. -/
theorem pubStep_held {h h' : Topic T} {p : Nat} {ep ep' : PubEp T} {a : PubAct T}
    (hs : pubStep size h p ep a = some (h', ep')) {i k : Nat}
    (hk : ep'.pc.held = some (i, k)) :
    ep.pc.held = some (i, k) ∨ h.subSlots i = some k := by
  cases a with
  | go now =>
      cases hpc : ep.pc <;> simp only [pubStep, hpc] at hs
      case lock m =>
        split at hs <;> cases hs
        simp only [PubEp.deliver, PubEp.at'_pc] at hk
        split at hk <;> cases hk
      case check m j =>
        repeat' split at hs
        all_goals cases hs
        · next hj => cases hk; exact .inr hj
        · cases hk
        · cases hk
      case visit r j =>
        repeat' split at hs
        all_goals cases hs
        · cases hk
        · next hj _ _ _ => cases hk; exact .inr hj
        · next hj _ _ _ => cases hk; exact .inr hj
        · cases hk
      all_goals
        repeat' split at hs
        all_goals cases hs
        all_goals first | exact .inl hk | cases hk
  | publish m =>
      simp only [pubStep] at hs
      repeat' split at hs
      all_goals cases hs
      · cases hk
      · simp only [PubEp.deliver, PubEp.at'_pc] at hk
        split at hk <;> cases hk
  | advertise | destroy =>
      simp only [pubStep] at hs
      repeat' split at hs
      all_goals cases hs
      all_goals cases hk

/-- The fan-out picks the branch by the kind of the core it has just loaded. -/
theorem pubStep_aim {h h' : Topic T} {p : Nat} {ep ep' : PubEp T} {a : PubAct T}
    (hs : pubStep size h p ep a = some (h', ep')) {k : Nat} {b : Bool}
    (hk : ep'.pc.aim = some (k, b)) :
    ep.pc.aim = some (k, b) ∨ ∃ i, h.subSlots i = some k ∧
      ((∃ x, (h.cores k).box = .latest x ∧ b = true) ∨
        ∃ q, (h.cores k).box = .queue q ∧ b = false) := by
  cases a with
  | go now =>
      cases hpc : ep.pc <;> simp only [pubStep, hpc] at hs
      case lock m =>
        split at hs <;> cases hs
        simp only [PubEp.deliver, PubEp.at'_pc] at hk
        split at hk <;> cases hk
      case visit r j =>
        repeat' split at hs
        all_goals cases hs
        · cases hk
        · next hj _ x hx => cases hk; exact .inr ⟨j, hj, .inl ⟨x, hx, rfl⟩⟩
        · next hj _ q hq => cases hk; exact .inr ⟨j, hj, .inr ⟨q, hq, rfl⟩⟩
        · cases hk
      all_goals
        repeat' split at hs
        all_goals cases hs
        all_goals first | exact .inl hk | cases hk
  | publish m =>
      simp only [pubStep] at hs
      repeat' split at hs
      all_goals cases hs
      · cases hk
      · simp only [PubEp.deliver, PubEp.at'_pc] at hk
        split at hk <;> cases hk
  | advertise | destroy =>
      simp only [pubStep] at hs
      repeat' split at hs
      all_goals cases hs
      all_goals cases hk

theorem SubPc.made_of_not_early {pc : SubPc T} (h : pc.early = false) : pc.made = true := by
  cases pc <;> first | rfl | cases h

/-- A publisher keeps the kind and depth of a core and leaves alone those it
holds no pointer to. -/
theorem pubStep_fits {h h' : Topic T} {p : Nat} {ep ep' : PubEp T} {a : PubAct T}
    (hs : pubStep size h p ep a = some (h', ep')) (k : Nat) {d : History}
    (hf : (h.cores k).box.Fits d) : (h'.cores k).box.Fits d := by
  rcases pubStep_core hs k with h1 | ⟨r, i, -, -, h1⟩ | ⟨r, i, -, -, h1⟩ |
    ⟨r, i, q, q', -, -, hq, hp, h1⟩ | ⟨r, i, -, -, h1⟩
  all_goals rw [h1]
  · exact hf
  · exact hf
  · exact SubCore.store_fits hf
  · rw [hq] at hf
    cases d with
    | latestOnly => exact hf
    | queue depth => exact (Fifo.tryPush_some hp).2.1.trans hf
  · exact hf

theorem pubStep_unheld {h h' : Topic T} {p : Nat} {ep ep' : PubEp T} {a : PubAct T}
    (hs : pubStep size h p ep a = some (h', ep')) {k : Nat}
    (hk : ∀ i, ep.pc.held ≠ some (i, k)) : h'.cores k = h.cores k := by
  rcases pubStep_core hs k with h1 | ⟨r, i, h1, -⟩ | ⟨r, i, h1, -⟩ | ⟨r, i, _, _, h1, -⟩ |
    ⟨r, i, h1, -⟩
  · exact h1
  all_goals exact absurd (by rw [h1]; rfl) (hk i)

theorem coreInv_reached {ok : World T → Act T → Prop} {w : World T}
    (hw : (machine T size).Reached ok w) : CoreInv w := by
  refine hw.invariant (P := CoreInv) ?_ ?_
  · rintro w ⟨-, hsub, hpub⟩
    refine ⟨fun k h0 => ?_, fun k h0 => ?_, fun p i k h0 => ?_, fun p k b h0 => ?_⟩
    · rw [hsub k] at h0; cases h0
    · rw [hsub k] at h0; cases h0
    · rw [(hpub p).1] at h0; cases h0
    · rw [(hpub p).1] at h0; cases h0
  · intro w a w' hr h _ hs
    have hslot := slotInv_reached hr
    have hqos := step_qos hs
    rcases step_cases hs with ⟨k, b, h', ep', -, hst, rfl⟩ | ⟨p, b, h', ep', -, hst, rfl⟩
    · obtain ⟨hm, hq⟩ := subStep_wireMove hst
      have hothers : ∀ k', k' ≠ k → h'.cores k' = w.topic.cores k' :=
        (subStep_others hst).2.2
      have hmine : (ep'.pc.made = true → (h'.cores k).box.Fits ep'.qos.history) ∧
          (ep'.pc.made = true → ep'.pc.early = true → (h'.cores k).Unused) := by
        rw [hq]
        rcases subStep_core hst with ⟨h0, h1⟩ | ⟨r, h0, h1⟩ | ⟨t, t', now, h0, h1, -, h2⟩ | ⟨h1, h0⟩
        · rw [h1]
          exact ⟨fun _ => SubCore.new_fits _, fun _ _ => SubCore.new_unused _⟩
        · have hmade : (w.subs k).pc.made = true := by rw [h0]; rfl
          rw [h1]
          exact ⟨fun _ => SubCore.store_fits (h.fits k hmade),
            fun _ _ => SubCore.store_unused (h.unused k hmade (by rw [h0]; rfl))⟩
        · refine ⟨fun _ => takeStep_fits h2 (h.fits k (by rw [h0]; rfl)), fun _ he => ?_⟩
          rw [h1] at he
          cases he
        · rw [h1]
          refine ⟨fun hm' => h.fits k (h0 hm'), fun hm' he => ?_⟩
          refine h.unused k (h0 hm') ?_
          by_contra hn
          rw [Bool.not_eq_true] at hn
          rw [subStep_early hst hn] at he
          cases he
      refine ⟨fun k' h0 => ?_, fun k' h0 h1 => ?_, fun p i k' h0 => ?_,
        fun p k' b h0 => by rw [hqos k']; exact h.aim p k' b h0⟩
      · by_cases e : k' = k
        · subst e
          rw [World.putSub_self] at h0 ⊢
          exact hmine.1 h0
        · rw [World.putSub_ne _ _ _ _ e] at h0 ⊢
          rw [World.putSub_topic, hothers k' e]
          exact h.fits k' h0
      · by_cases e : k' = k
        · subst e
          rw [World.putSub_self] at h0 h1
          exact hmine.2 h0 h1
        · rw [World.putSub_ne _ _ _ _ e] at h0 h1
          rw [World.putSub_topic, hothers k' e]
          exact h.unused k' h0 h1
      · obtain ⟨h1, h2⟩ := h.held p i k' h0
        by_cases e : k' = k
        · subst e
          rw [World.putSub_self]
          exact ⟨subStep_early hst h1, fun j hj => h2 j (hm.stays h1 j hj)⟩
        · rw [World.putSub_ne _ _ _ _ e]
          exact ⟨h1, fun j hj => h2 j ((hm.slots_other e (hslot k) j).mp hj)⟩
    · obtain ⟨hslots, -⟩ := pubStep_table hst
      refine ⟨fun k' h0 => pubStep_fits hst k' (h.fits k' h0), fun k' h0 h1 => ?_,
        fun q i k' h0 => ?_, fun q k' b h0 => ?_⟩
      · have hun : ∀ i, (w.pubs p).pc.held ≠ some (i, k') := by
          intro i hi
          have := (h.held p i k' hi).1
          rw [World.putPub_subs] at h1
          rw [h1] at this
          cases this
        rw [World.putPub_topic, pubStep_unheld hst hun]
        exact h.unused k' h0 h1
      · rw [World.putPub_subs, World.putPub_topic, hslots]
        have hold : (w.pubs q).pc.held = some (i, k') ∨ w.topic.subSlots i = some k' := by
          by_cases e : q = p
          · subst e
            rw [World.putPub_self] at h0
            exact pubStep_held hst h0
          · rw [World.putPub_ne _ _ _ _ e] at h0
            exact .inl h0
        rcases hold with h1 | h1
        · exact h.held q i k' h1
        · exact ⟨hslot.not_early h1, fun j hj => (hslot k').unique j i hj h1⟩
      · by_cases e : q = p
        · subst e
          rw [World.putPub_self] at h0
          rcases pubStep_aim hst h0 with h1 | ⟨i, hi, h1⟩
          · exact h.aim q k' b h1
          · have hf := h.fits k' (SubPc.made_of_not_early (hslot.not_early hi))
            rcases h1 with ⟨x, hx, rfl⟩ | ⟨q', hq', rfl⟩
            · rw [hx] at hf
              exact hf.of_latest
            · rw [hq'] at hf
              rw [World.putPub_subs, hf.of_queue]
              rfl
        · rw [World.putPub_ne _ _ _ _ e] at h0
          exact h.aim q k' b h0

end Xmmsg.InProc
