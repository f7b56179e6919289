import Xmmsg.InProc.Cores

/-!
# The reliable fan-out: all or nothing

`Deliver` walks the slot table twice for a reliable publisher. The first walk
asks every ring it meets whether it is full, the second pushes. In between, and
between any two slots of either walk, subscribers take, leave and join.

What makes the two walks one is that room, once seen, stays: the only producer of
a ring is the publish that is being checked, a take only makes room, and a ring
that joins after its slot was checked joins empty. So the rings still to be
visited are never full, and the drop branch of a reliable publish is dead.

The call in progress is recorded beside the state: what its own accesses have
changed and where they put its record, and which subscribers have been attached
since it began.
-/

namespace Xmmsg.InProc

open Xmmsg.Sys

variable {T : Type} {size : Nat}

/-! ## The record of a call -/

def World.Attached (w : World T) (k : Nat) : Prop := ∃ i, w.topic.subSlots i = some k

/-- Every subscriber attached here is a latest-only one. -/
def World.LatestOnly (w : World T) : Prop :=
  ∀ k, w.Attached k → (w.subs k).qos.history.isLatest = true

/-- An access put `r` into the mailbox, or behind what the ring held. -/
def SubCore.Receives (c c' : SubCore T) (r : MailRecord T) : Prop :=
  match c.box, c'.box with
  | .latest _, .latest x => x = some r
  | .queue q, .queue q' => q'.items = q.items ++ [r]
  | _, _ => False

/-- One call of `Publish`. -/
structure Call (T : Type) where
  -- the publisher's counters when it began
  refusals : Nat := 0
  publishes : Nat := 0
  bytes : Nat := 0
  -- what its own accesses did
  clean : Prop := True                      -- ordinal, master and cores untouched
  dropless : Prop := True                   -- no drop counter touched
  record : Option (MailRecord T) := none
  visited : Nat → Prop := fun _ => False
  handed : Nat → MailRecord T → Prop := fun _ _ => False
  -- what has held since it began
  present : Nat → Prop := fun _ => False    -- attached throughout
  latestOnly : Prop := True                 -- nobody else attached

namespace Call

/-- The call begins. -/
def enter (ep : PubEp T) : Call T where
  refusals := ep.refusedCount
  publishes := ep.publishCount
  bytes := ep.bytes
  present _ := True

/-- An access of the call itself. -/
def act (c : Call T) (h h' : Topic T) (pc pc' : PubPc T) : Call T :=
  { c with
    clean := c.clean ∧ h'.acceptedOrdinal = h.acceptedOrdinal ∧ h'.master = h.master ∧
      h'.cores = h.cores
    dropless := c.dropless ∧ ∀ k, (h'.cores k).dropCount = (h.cores k).dropCount
    record := match pc' with
      | .master r => some r
      | _ => c.record
    visited := fun k => c.visited k ∨
      ∃ r i, pc = .visit r i ∧ i < kMaxSubscribers ∧ h.subSlots i = some k
    handed := fun k r => c.handed k r ∨
      ∃ i, (pc = .store r i k ∨ pc = .push r i k) ∧ (h.cores k).Receives (h'.cores k) r }

/-- Whoever moved, the call sees the table. -/
def watch (c : Call T) (w : World T) : Call T :=
  { c with
    present := fun k => c.present k ∧ w.Attached k
    latestOnly := c.latestOnly ∧ w.LatestOnly }

end Call

/-- What a step adds to the record of every publisher's call. -/
def noteCall (w : World T) (a : Act T) (w' : World T) (calls : Nat → Call T) :
    Nat → Call T := fun p =>
  match a with
  | .pub q (.publish _) =>
      (if q = p then .enter (w.pubs p) else calls p).watch w'
  | .pub q (.go _) =>
      (if q = p then (calls p).act w.topic w'.topic (w.pubs p).pc (w'.pubs p).pc
        else calls p).watch w'
  | _ => (calls p).watch w'

/-- The machine with its calls. -/
def called (T : Type) (size : Nat) : Machine (World T × (Nat → Call T)) (Act T) :=
  (machine T size).withHistory (fun _ => {}) noteCall

/-! ## Room -/

/-- The rings in the slots `P` can take a record. -/
def Roomy (h : Topic T) (P : Nat → Prop) : Prop :=
  ∀ j k, P j → h.subSlots j = some k → (h.cores k).full = false

/-- What the pre-check of a reliable publish has established, and what of it the
fan-out still needs. -/
def Room (h : Topic T) : PubPc T → Prop
  | .check _ i => Roomy h (· < i)
  | .probe _ i k =>
      Roomy h (· < i) ∧ ∀ k', h.subSlots i = some k' → k' ≠ k → (h.cores k').full = false
  | .clock _ | .draw _ | .master _ => Roomy h fun _ => True
  | .visit _ i => Roomy h (i ≤ ·)
  | .base _ i _ | .stamp _ i _ | .store _ i _ => Roomy h (i < ·)
  | .push _ i k => (h.cores k).full = false ∧ Roomy h (i < ·)
  | .drop _ _ _ => False
  | _ => True

/-- Every queue of the topic holds at least one value. -/
def World.DepthOk (w : World T) : Prop :=
  ∀ k d, (w.subs k).qos.history = .queue d → 1 ≤ d

theorem SubCore.new_room {qos : Qos} (hd : ∀ d, qos.history = .queue d → 1 ≤ d) :
    (SubCore.new qos : SubCore T).full = false := by
  simp only [SubCore.new, SubCore.full]
  cases hh : qos.history with
  | latestOnly => rfl
  | queue d => exact Fifo.not_full_iff.mpr (hd d hh)

/-- A core that has not been used yet has room. -/
theorem SubCore.Unused.room {c : SubCore T} {d : History} (h : c.Unused) (hf : c.box.Fits d)
    (hd : ∀ n, d = .queue n → 1 ≤ n) : c.full = false := by
  cases hb : c.box with
  | latest x => simp only [SubCore.full, hb]
  | queue q =>
      rw [hb] at hf
      simp only [SubCore.full, hb]
      rw [Fifo.not_full_iff, h.ring q hb]
      exact hd q.depth hf.of_queue

/-- A take only makes room. -/
theorem takeStep_room {c c' : SubCore T} {now : Int} {t t' : TakePc T}
    (hs : takeStep c now t = some (c', t')) (hc : c.full = false) : c'.full = false := by
  cases t with
  | pop =>
      simp only [takeStep] at hs
      split at hs
      · next q hq =>
        split at hs
        · next r q' hp =>
          cases hs
          simp only [SubCore.full, hq, Fifo.not_full_iff] at hc ⊢
          obtain ⟨h1, h2⟩ := Fifo.tryPop_some hp
          rw [h1, List.length_cons] at hc
          omega
        · cases hs
          exact hc
      · cases hs
        exact hc
  | _ =>
      simp only [takeStep] at hs
      repeat' split at hs
      all_goals cases hs
      all_goals exact hc

theorem SubCore.store_full (c : SubCore T) (r : MailRecord T) : (c.store r).full = c.full := by
  cases hb : c.box <;> simp only [SubCore.store, SubCore.full, hb]

/-- No subscriber's access fills a ring. -/
theorem subStep_room {h h' : Topic T} {k : Nat} {ep ep' : SubEp T} {a : SubAct}
    (hs : subStep h k ep a = some (h', ep'))
    (hd : ∀ d, ep.qos.history = .queue d → 1 ≤ d) (k' : Nat)
    (hr : (h.cores k').full = false) : (h'.cores k').full = false := by
  by_cases e : k' = k
  · subst e
    rcases subStep_core hs with ⟨-, h1⟩ | ⟨r, -, h1⟩ | ⟨t, t', now, -, -, -, h1⟩ | ⟨h1, -⟩
    · rw [h1]
      exact SubCore.new_room hd
    · rw [h1, SubCore.store_full]
      exact hr
    · exact takeStep_room h1 hr
    · rw [h1]
      exact hr
  · rw [(subStep_others hs).2.2 k' e]
    exact hr

/-- Whoever is in the table after a subscriber's access was there before, or has
just joined with room. -/
theorem subStep_joins {w : World T} (hslot : SlotInv w) (hcore : CoreInv w)
    (hdep : w.DepthOk) {h' : Topic T} {k : Nat} {ep' : SubEp T} {a : SubAct}
    (hs : subStep w.topic k (w.subs k) a = some (h', ep')) {j k' : Nat}
    (hj : h'.subSlots j = some k') :
    w.topic.subSlots j = some k' ∨ ¬ w.Attached k' ∧ (h'.cores k').full = false := by
  obtain ⟨hm, -⟩ := subStep_wireMove hs
  by_cases e : k' = k
  · subst e
    by_cases he : (w.subs k').pc.early = false
    · exact .inl (hm.stays he j hj)
    · rw [Bool.not_eq_false] at he
      have hout : ¬ w.Attached k' := by
        rintro ⟨i, hi⟩
        rw [hslot.not_early hi] at he
        cases he
      refine .inr ⟨hout, subStep_room hs (hdep k') k' ?_⟩
      by_cases hmade : (w.subs k').pc.made = true
      · exact (hcore.unused k' hmade he).room (hcore.fits k' hmade) (hdep k')
      · -- a subscriber without a core does not join
        exfalso
        generalize ep'.pc = pc' at hm
        cases hm with
        | quiet h1 => exact hout ⟨j, h1 ▸ hj⟩
        | acquire | found | release | spot | missed => exact hout ⟨j, hj⟩
        | attach i hpc => rw [hpc] at hmade; exact hmade rfl
        | clear i hpc => rw [hpc] at hmade; exact hmade rfl
  · exact .inl ((hm.slots_other e (hslot k) j).mp hj)

/-- What the pre-check established survives the steps of others. -/
theorem Room.frame {h h' : Topic T} {pc : PubPc T} (hr : Room h pc)
    (hroom : ∀ k, (h.cores k).full = false → (h'.cores k).full = false)
    (hjoin : ∀ j k, h'.subSlots j = some k →
      h.subSlots j = some k ∨ (h'.cores k).full = false) : Room h' pc := by
  have hroomy : ∀ {P : Nat → Prop}, Roomy h P → Roomy h' P := by
    intro P hP j k hj hk
    rcases hjoin j k hk with h0 | h0
    · exact hroom k (hP j k hj h0)
    · exact h0
  cases pc with
  | check | clock | draw | master | visit | base | stamp | store => exact hroomy hr
  | probe m i k =>
      refine ⟨hroomy hr.1, fun k' hk' hne => ?_⟩
      rcases hjoin i k' hk' with h0 | h0
      · exact hroom k' (hr.2 k' h0 hne)
      · exact h0
  | push r i k => exact ⟨hroom k hr.1, hroomy hr.2⟩
  | drop => exact hr.elim
  | _ => trivial

/-! ## The call -/

/-- The counters are where the call found them. -/
def Call.Same (c : Call T) (ep : PubEp T) : Prop :=
  ep.refusedCount = c.refusals ∧ ep.publishCount = c.publishes ∧ ep.bytes = c.bytes

/-- Up to the ordinal draw the call has changed nothing; a refusal ends it there
and has met a ring. -/
def Call.Books (c : Call T) (ep : PubEp T) : PubPc T → Prop
  | .lock _ | .check _ _ | .probe _ _ _ | .clock _ | .draw _ => c.clean ∧ c.Same ep
  | .refuse => c.clean ∧ c.Same ep ∧ ¬ c.latestOnly
  | .ret .wouldBlock =>
      c.clean ∧ ep.refusedCount = c.refusals + 1 ∧ ep.publishCount = c.publishes ∧
        ep.bytes = c.bytes ∧ ¬ c.latestOnly
  | _ => True

/-- The subscribers present throughout in the slots `P` have the record. -/
def Served (h : Topic T) (c : Call T) (r : MailRecord T) (P : Nat → Prop) : Prop :=
  ∀ j k, P j → h.subSlots j = some k → c.present k → c.handed k r

/-- Where a reliable call stands. -/
def Fan (h : Topic T) (c : Call T) : PubPc T → Prop
  | .lock _ | .check _ _ | .probe _ _ _ | .clock _ | .draw _ =>
      c.dropless ∧ ∀ k, ¬ c.visited k
  | .master r => c.dropless ∧ c.record = some r ∧ ∀ k, ¬ c.visited k
  | .visit r i =>
      c.dropless ∧ c.record = some r ∧ (∀ k, c.visited k → c.handed k r) ∧
        Served h c r (· < i)
  | .base r i k | .stamp r i k | .store r i k | .push r i k =>
      c.dropless ∧ c.record = some r ∧ (∀ k', c.visited k' → k' = k ∨ c.handed k' r) ∧
        Served h c r (· < i) ∧ ∀ k', h.subSlots i = some k' → c.present k' → k' = k
  | .countPublish | .countBytes | .ret .ok =>
      c.dropless ∧ ∃ r, c.record = some r ∧ (∀ k, c.visited k → c.handed k r) ∧
        ∀ k, c.present k → c.handed k r
  | _ => True

structure CallInv (w : World T) (c : Call T) (p : Nat) : Prop where
  present : ∀ k, c.present k → w.Attached k
  books : c.Books (w.pubs p) (w.pubs p).pc
  lane : ∀ m i k, (w.pubs p).pc = .probe m i k → c.latestOnly →
    (w.subs k).qos.history.isLatest = true
  room : (w.pubs p).qos.reliability = .reliable → Room w.topic (w.pubs p).pc
  fan : (w.pubs p).qos.reliability = .reliable → Fan w.topic c (w.pubs p).pc

theorem Call.Books.watch {c : Call T} {ep : PubEp T} {pc : PubPc T} (h : c.Books ep pc)
    (w : World T) : (c.watch w).Books ep pc := by
  cases pc with
  | refuse => exact ⟨h.1, h.2.1, fun h0 => h.2.2 h0.1⟩
  | ret st =>
      cases st with
      | ok => trivial
      | wouldBlock => exact ⟨h.1, h.2.1, h.2.2.1, h.2.2.2.1, fun h0 => h.2.2.2.2 h0.1⟩
  | _ => exact h

/-- Steps of others neither hand out nor take back what the call has handed out:
whoever joins now has not been present throughout. -/
theorem Fan.watch {h h' : Topic T} {c : Call T} {w : World T} {pc : PubPc T} (hf : Fan h c pc)
    (hjoin : ∀ j k, h'.subSlots j = some k → c.present k → h.subSlots j = some k) :
    Fan h' (c.watch w) pc := by
  have hserved : ∀ {r : MailRecord T} {P : Nat → Prop}, Served h c r P →
      Served h' (c.watch w) r P :=
    fun hs j k hj hk hp => hs j k hj (hjoin j k hk hp.1) hp.1
  cases pc with
  | visit r i => exact ⟨hf.1, hf.2.1, hf.2.2.1, hserved hf.2.2.2⟩
  | base r i k | stamp r i k | store r i k | push r i k =>
      exact ⟨hf.1, hf.2.1, hf.2.2.1, hserved hf.2.2.2.1,
        fun k' hk' hp => hf.2.2.2.2 k' (hjoin i k' hk' hp.1) hp.1⟩
  | countPublish | countBytes =>
      obtain ⟨h1, r, h2, h3, h4⟩ := hf
      exact ⟨h1, r, h2, h3, fun k hp => h4 k hp.1⟩
  | ret st =>
      cases st with
      | ok =>
          obtain ⟨h1, r, h2, h3, h4⟩ := hf
          exact ⟨h1, r, h2, h3, fun k hp => h4 k hp.1⟩
      | wouldBlock => trivial
  | _ => exact hf

/-- A step of somebody else. -/
theorem CallInv.watch {w w' : World T} {c : Call T} {p : Nat} (h : CallInv w c p)
    (hpub : w'.pubs p = w.pubs p)
    (hqos : ∀ k, (w'.subs k).qos = (w.subs k).qos)
    (hroom : (w.pubs p).pc.delivering = true → ∀ k, (w.topic.cores k).full = false →
      (w'.topic.cores k).full = false)
    (hjoin : ∀ j k, w'.topic.subSlots j = some k → w.topic.subSlots j = some k ∨
      ¬ w.Attached k ∧ (w'.topic.cores k).full = false) : CallInv w' (c.watch w') p where
  present k hk := hk.2
  books := hpub ▸ h.books.watch w'
  lane m i k hpc hl := by
    rw [hqos k]
    exact h.lane m i k (hpub ▸ hpc) hl.1
  room hrel := by
    rw [hpub] at hrel ⊢
    by_cases hd : (w.pubs p).pc.delivering = true
    · exact (h.room hrel).frame (hroom hd) fun j k hk => (hjoin j k hk).imp_right And.right
    · cases hpc : (w.pubs p).pc <;> rw [hpc] at hd <;> trivial
  fan hrel := by
    rw [hpub] at hrel ⊢
    refine (h.fan hrel).watch fun j k hk hp => ?_
    rcases hjoin j k hk with h0 | ⟨h0, -⟩
    · exact h0
    · exact absurd (h.present k hp) h0

/-! ## The call's own steps -/

theorem Call.Books.deliver {c : Call T} {ep : PubEp T} (hc : c.clean) (hs : c.Same ep)
    (m : Message T) : c.Books (ep.deliver m) (ep.deliver m).pc := by
  simp only [PubEp.deliver, PubEp.at'_pc]
  split <;> exact ⟨hc, hs⟩

theorem Room.deliver {h : Topic T} {ep : PubEp T} (hrel : ep.qos.reliability = .reliable)
    (m : Message T) : Room h (ep.deliver m).pc := by
  simp only [PubEp.deliver, PubEp.at'_pc, if_pos hrel]
  exact fun j k hj => absurd hj (Nat.not_lt_zero j)

theorem Fan.deliver {h : Topic T} {c : Call T} {ep : PubEp T} (hd : c.dropless)
    (hv : ∀ k, ¬ c.visited k) (m : Message T) : Fan h c (ep.deliver m).pc := by
  simp only [PubEp.deliver, PubEp.at'_pc]
  split <;> exact ⟨hd, hv⟩

/-- The books across an access of the call: a refusal has met a full ring. -/
theorem books_act {w : World T} {c : Call T} {p : Nat} (h : CallInv w c p)
    (hcore : CoreInv w) {now : Int} {h' : Topic T} {ep' : PubEp T}
    (hs : pubStep size w.topic p (w.pubs p) (.go now) = some (h', ep')) :
    (c.act w.topic h' (w.pubs p).pc ep'.pc).Books ep' ep'.pc := by
  have hb := h.books
  cases hpc : (w.pubs p).pc <;> simp only [pubStep, hpc] at hs <;> rw [hpc] at hb
  case lock m =>
    split at hs <;> cases hs
    refine Call.Books.deliver ?_ ?_ m
    · exact ⟨hb.1, rfl, rfl, rfl⟩
    · exact hb.2
  case check m i =>
    repeat' split at hs
    all_goals cases hs
    all_goals exact ⟨⟨hb.1, rfl, rfl, rfl⟩, hb.2⟩
  case probe m i k =>
    split at hs <;> cases hs
    · next hfull =>
      refine ⟨⟨hb.1, rfl, rfl, rfl⟩, hb.2, fun hl => ?_⟩
      have hmade := SubPc.made_of_not_early (hcore.held p i k (by rw [hpc]; rfl)).1
      obtain ⟨x, hx⟩ := (hcore.fits k hmade).latest (h.lane m i k hpc hl)
      simp [SubCore.full, hx] at hfull
    · exact ⟨⟨hb.1, rfl, rfl, rfl⟩, hb.2⟩
  case refuse =>
    cases hs
    exact ⟨⟨hb.1, rfl, rfl, rfl⟩, congrArg (· + 1) hb.2.1.1, hb.2.1.2.1, hb.2.1.2.2, hb.2.2⟩
  case clock m =>
    cases hs
    exact ⟨⟨hb.1, rfl, rfl, rfl⟩, hb.2⟩
  all_goals
    repeat' split at hs
    all_goals cases hs
    all_goals trivial

/-- Room across an access of the call. Its one push goes into a ring that is in no
slot still to be visited. -/
theorem room_act {w : World T} {p : Nat} (hr : Room w.topic (w.pubs p).pc)
    (hrel : (w.pubs p).qos.reliability = .reliable) (hslot : SlotInv w) (hcore : CoreInv w)
    {now : Int} {h' : Topic T} {ep' : PubEp T}
    (hs : pubStep size w.topic p (w.pubs p) (.go now) = some (h', ep')) :
    Room h' ep'.pc := by
  cases hpc : (w.pubs p).pc <;> simp only [pubStep, hpc] at hs <;> rw [hpc] at hr
  case lock m =>
    split at hs <;> cases hs
    exact .deliver hrel m
  case check m i =>
    split at hs
    · next hi =>
      split at hs <;> cases hs
      · next k hk =>
        refine ⟨hr, fun k' hk' hne => ?_⟩
        rw [hk] at hk'
        exact absurd (Option.some.inj hk').symm hne
      · next hn =>
        intro j k hj hk
        rcases Nat.lt_succ_iff_lt_or_eq.mp hj with h0 | rfl
        · exact hr j k h0 hk
        · rw [hn] at hk
          cases hk
    · next hi =>
      cases hs
      intro j k _ hk
      have := ((hslot k).attached j hk).2
      exact hr j k (by omega) hk
  case probe m i k =>
    split at hs <;> cases hs
    · trivial
    · next hfull =>
      rw [Bool.not_eq_true] at hfull
      intro j k' hj hk'
      rcases Nat.lt_succ_iff_lt_or_eq.mp hj with h0 | rfl
      · exact hr.1 j k' h0 hk'
      · by_cases e : k' = k
        · rw [e]; exact hfull
        · exact hr.2 k' hk' e
  case clock m => cases hs; exact hr
  case draw m => cases hs; exact hr
  case master r => cases hs; exact fun j k _ hk => hr j k trivial hk
  case visit r i =>
    split at hs
    · split at hs
      · cases hs
        exact fun j k hj hk => hr j k (Nat.le_of_succ_le hj) hk
      · next k hk =>
        split at hs <;> cases hs
        · exact fun j k hj hk => hr j k (Nat.le_of_lt hj) hk
        · exact ⟨hr i k (Nat.le_refl i) hk, fun j k hj hk => hr j k (Nat.le_of_lt hj) hk⟩
    · cases hs
      trivial
  case base r i k =>
    split at hs <;> cases hs <;> exact hr
  case stamp r i k =>
    split at hs <;> cases hs
    · intro j k' hj hk'
      by_cases e : k' = k
      · subst e
        rw [setCore_self]
        exact hr j k' hj hk'
      · rw [setCore_ne _ _ e]
        exact hr j k' hj hk'
    · exact hr
  case store r i k =>
    cases hs
    intro j k' hj hk'
    by_cases e : k' = k
    · subst e
      rw [setCore_self, SubCore.store_full]
      exact hr j k' hj hk'
    · rw [setCore_ne _ _ e]
      exact hr j k' hj hk'
  case push r i k =>
    split at hs
    · next q hq =>
      split at hs <;> cases hs
      · next q' hp =>
        intro j k' hj hk'
        have e : k' ≠ k := by
          rintro rfl
          have := (hcore.held p i k' (by rw [hpc]; rfl)).2 j hk'
          omega
        rw [setCore_ne _ _ e]
        exact hr.2 j k' hj hk'
      · next hn =>
        have := hr.1
        simp only [SubCore.full, hq, Fifo.tryPush_none.mp hn] at this
        cases this
    · cases hs
      exact fun j k' hj hk' => hr.2 j k' hj hk'
  case drop => exact hr.elim
  all_goals
    repeat' split at hs
    all_goals cases hs
    all_goals trivial

theorem Call.act_visited {c : Call T} {h h' : Topic T} {pc pc' : PubPc T} {k : Nat}
    (hk : (c.act h h' pc pc').visited k) (hv : ∀ r i, pc ≠ .visit r i) : c.visited k := by
  rcases hk with h0 | ⟨r, i, h0, -⟩
  · exact h0
  · exact absurd h0 (hv r i)

theorem setCore_drops {h : Topic T} {k : Nat} {c : SubCore T}
    (hc : c.dropCount = (h.cores k).dropCount) (k' : Nat) :
    ((h.setCore k c).cores k').dropCount = (h.cores k').dropCount := by
  by_cases e : k' = k
  · subst e
    rw [setCore_self, hc]
  · rw [setCore_ne _ _ e]

theorem SubCore.store_drops (c : SubCore T) (r : MailRecord T) :
    (c.store r).dropCount = c.dropCount := by
  cases hb : c.box <;> simp only [SubCore.store, hb]

/-- The fan-out moves on from slot `i`, whose record is out. -/
theorem Fan.next {h h' : Topic T} {c : Call T} {r : MailRecord T} {i k : Nat} {pc : PubPc T}
    (hf : Fan h c (.store r i k)) (hslots : h'.subSlots = h.subSlots)
    (hd : ∀ k', (h'.cores k').dropCount = (h.cores k').dropCount)
    (hpc : pc = .store r i k ∨ pc = .push r i k)
    (hrec : (h.cores k).Receives (h'.cores k) r) :
    Fan h' (c.act h h' pc (.visit r (i + 1))) (.visit r (i + 1)) := by
  obtain ⟨h1, h2, h3, h4, h5⟩ := hf
  have hk : (c.act h h' pc (.visit r (i + 1))).handed k r := .inr ⟨i, hpc, hrec⟩
  have hne : ∀ r' i', pc ≠ .visit r' i' := by
    rcases hpc with rfl | rfl <;> exact fun _ _ h0 => nomatch h0
  refine ⟨⟨h1, hd⟩, h2, fun k' hk' => ?_, fun j k' hj hk' hp => ?_⟩
  · rcases h3 k' (Call.act_visited hk' hne) with rfl | h0
    · exact hk
    · exact .inl h0
  · rw [hslots] at hk'
    rcases Nat.lt_succ_iff_lt_or_eq.mp hj with h0 | rfl
    · exact .inl (h4 j k' h0 hk' hp)
    · rw [h5 k' hk' hp]
      exact hk

/-- At a visit: an empty slot, an occupant, or the end, where all that were present when
the call began have been served. -/
theorem fan_visit {w : World T} {c : Call T} {p i : Nat} {r : MailRecord T}
    (hf : Fan w.topic c (.visit r i)) (hpres : ∀ k, c.present k → w.Attached k)
    (hslot : SlotInv w) (hpc : (w.pubs p).pc = .visit r i) {now : Int} {h' : Topic T}
    {ep' : PubEp T} (hs : pubStep size w.topic p (w.pubs p) (.go now) = some (h', ep')) :
    Fan h' (c.act w.topic h' (.visit r i) ep'.pc) ep'.pc := by
  simp only [pubStep, hpc] at hs
  obtain ⟨h1, h2, h3, h4⟩ := hf
  -- the slot's present occupant is the one the load returns
  have hthere : ∀ {pc' : PubPc T} {k : Nat}, w.topic.subSlots i = some k → ∀ k',
      (c.act w.topic w.topic (.visit r i) pc').visited k' → k' = k ∨ c.handed k' r := by
    intro pc' k hk k' hk'
    rcases hk' with h0 | ⟨r', i', h0, -, h5⟩
    · exact .inr (h3 k' h0)
    · cases h0
      rw [hk] at h5
      exact .inl (Option.some.inj h5).symm
  split at hs
  · next hi =>
    split at hs
    · next hn =>
      cases hs
      refine ⟨⟨h1, fun _ => rfl⟩, h2, fun k hk => ?_, fun j k hj hk hp => ?_⟩
      · rcases hk with h0 | ⟨r', i', h0, -, h5⟩
        · exact .inl (h3 k h0)
        · cases h0
          rw [hn] at h5
          cases h5
      · rcases Nat.lt_succ_iff_lt_or_eq.mp hj with h0 | rfl
        · exact .inl (h4 j k h0 hk hp)
        · rw [hn] at hk
          cases hk
    · next k hk =>
      have hfan : ∀ {pc' : PubPc T},
          (∀ k', (c.act w.topic w.topic (.visit r i) pc').visited k' →
            k' = k ∨ (c.act w.topic w.topic (.visit r i) pc').handed k' r) ∧
          Served w.topic (c.act w.topic w.topic (.visit r i) pc') r (· < i) ∧
          ∀ k', w.topic.subSlots i = some k' → c.present k' → k' = k := by
        intro pc'
        refine ⟨fun k' hk' => (hthere hk k' hk').imp_right .inl,
          fun j k' hj hk' hp => .inl (h4 j k' hj hk' hp), fun k' hk' _ => ?_⟩
        rw [hk] at hk'
        exact (Option.some.inj hk').symm
      split at hs <;> cases hs
      · exact ⟨⟨h1, fun _ => rfl⟩, h2, hfan⟩
      · exact ⟨⟨h1, fun _ => rfl⟩, h2, hfan⟩
  · next hi =>
    cases hs
    refine ⟨⟨h1, fun _ => rfl⟩, r, h2, fun k hk => ?_, fun k hp => ?_⟩
    · rcases hk with h0 | ⟨r', i', h0, h5, -⟩
      · exact .inl (h3 k h0)
      · cases h0
        exact absurd h5 hi
    · obtain ⟨j, hj⟩ := hpres k hp
      have := ((hslot k).attached j hj).2
      exact .inl (h4 j k (by omega) hj hp)

theorem fan_act {w : World T} {c : Call T} {p : Nat} (hf : Fan w.topic c (w.pubs p).pc)
    (hr : Room w.topic (w.pubs p).pc) (hpres : ∀ k, c.present k → w.Attached k)
    (hslot : SlotInv w) (hcore : CoreInv w) {now : Int} {h' : Topic T} {ep' : PubEp T}
    (hs : pubStep size w.topic p (w.pubs p) (.go now) = some (h', ep')) :
    Fan h' (c.act w.topic h' (w.pubs p).pc ep'.pc) ep'.pc := by
  have hfits : ∀ {i k}, (w.pubs p).pc.held = some (i, k) →
      (w.topic.cores k).box.Fits (w.subs k).qos.history :=
    fun h0 => hcore.fits _ (SubPc.made_of_not_early (hcore.held p _ _ h0).1)
  cases hpc : (w.pubs p).pc <;> rw [hpc] at hf hr
  case visit r i => exact fan_visit hf hpres hslot hpc hs
  all_goals simp only [pubStep, hpc] at hs
  case lock m =>
    split at hs <;> cases hs
    refine Fan.deliver ?_ (fun k hk => ?_) m
    · exact ⟨hf.1, fun _ => rfl⟩
    · exact hf.2 k (Call.act_visited hk (by simp))
  case check m i =>
    repeat' split at hs
    all_goals cases hs
    all_goals
      exact ⟨⟨hf.1, fun _ => rfl⟩, fun k hk => hf.2 k (Call.act_visited hk (by simp))⟩
  case probe m i k =>
    split at hs <;> cases hs
    · trivial
    · exact ⟨⟨hf.1, fun _ => rfl⟩, fun k hk => hf.2 k (Call.act_visited hk (by simp))⟩
  case clock m =>
    cases hs
    exact ⟨⟨hf.1, fun _ => rfl⟩, fun k hk => hf.2 k (Call.act_visited hk (by simp))⟩
  case draw m =>
    cases hs
    exact ⟨⟨hf.1, fun _ => rfl⟩, rfl, fun k hk => hf.2 k (Call.act_visited hk (by simp))⟩
  case master r =>
    cases hs
    refine ⟨⟨hf.1, fun _ => rfl⟩, hf.2.1, fun k hk => ?_, fun j k hj => ?_⟩
    · exact absurd (Call.act_visited hk (by simp)) (hf.2.2 k)
    · exact absurd hj (Nat.not_lt_zero j)
  case base r i k =>
    obtain ⟨h1, h2, h3, h4, h5⟩ := hf
    split at hs <;> cases hs
    all_goals
      exact ⟨⟨h1, fun _ => rfl⟩, h2,
        fun k' hk' => (h3 k' (Call.act_visited hk' (by simp))).imp_right .inl,
        fun j k' hj hk' hp => .inl (h4 j k' hj hk' hp), h5⟩
  case stamp r i k =>
    obtain ⟨h1, h2, h3, h4, h5⟩ := hf
    split at hs <;> cases hs
    · exact ⟨⟨h1, setCore_drops rfl⟩, h2,
        fun k' hk' => (h3 k' (Call.act_visited hk' (by simp))).imp_right .inl,
        fun j k' hj hk' hp => .inl (h4 j k' hj hk' hp), h5⟩
    · exact ⟨⟨h1, fun _ => rfl⟩, h2,
        fun k' hk' => (h3 k' (Call.act_visited hk' (by simp))).imp_right .inl,
        fun j k' hj hk' hp => .inl (h4 j k' hj hk' hp), h5⟩
  case store r i k =>
    cases hs
    refine Fan.next hf rfl (setCore_drops (SubCore.store_drops _ r)) (.inl rfl) ?_
    obtain ⟨x, hx⟩ := (hfits (i := i) (by rw [hpc]; rfl)).latest
      (hcore.aim p k true (by rw [hpc]; rfl))
    rw [setCore_self]
    simp only [SubCore.Receives, SubCore.store, hx]
  case push r i k =>
    obtain ⟨q, hq, -⟩ := (hfits (i := i) (by rw [hpc]; rfl)).queue
      (hcore.aim p k false (by rw [hpc]; rfl))
    rw [hq] at hs
    dsimp only at hs
    split at hs <;> cases hs
    · next q' hp =>
      refine Fan.next hf rfl (setCore_drops rfl) (.inr rfl) ?_
      rw [setCore_self]
      simp only [SubCore.Receives, hq]
      exact (Fifo.tryPush_some hp).1
    · trivial
  case drop => exact hr.elim
  case countPublish | countBytes =>
    cases hs
    obtain ⟨h1, r, h2, h3, h4⟩ := hf
    exact ⟨⟨h1, fun _ => rfl⟩, r, h2,
      fun k' hk' => .inl (h3 k' (Call.act_visited hk' (by simp))), fun k hp => .inl (h4 k hp)⟩
  all_goals
    repeat' split at hs
    all_goals cases hs
    all_goals trivial

/-! ## Runs -/

theorem callInv_pub {w : World T} {c : Call T} {p : Nat} (h : CallInv w c p)
    (hslot : SlotInv w) (hcore : CoreInv w) {now : Int} {h' : Topic T} {ep' : PubEp T}
    (hs : pubStep size w.topic p (w.pubs p) (.go now) = some (h', ep')) :
    CallInv (w.putPub p h' ep')
      ((c.act w.topic h' (w.pubs p).pc ep'.pc).watch (w.putPub p h' ep')) p := by
  obtain ⟨hslots, -, hq⟩ := pubStep_table hs
  refine ⟨fun k hk => hk.2, ?_, fun m i k hpc hl => ?_, fun hrel => ?_, fun hrel => ?_⟩
  · rw [World.putPub_self]
    exact (books_act h hcore hs).watch _
  · rw [World.putPub_self] at hpc
    have hheld : ep'.pc.held = some (i, k) := by rw [hpc]; rfl
    rcases pubStep_held hs hheld with h0 | h0
    · -- a probe starts from a slot, never from a pointer in hand
      cases hpc0 : (w.pubs p).pc <;> rw [hpc0] at h0 <;> cases h0
      all_goals
        simp only [pubStep, hpc0] at hs
        repeat' split at hs
        all_goals cases hs
        all_goals cases hpc
    · exact hl.2 k ⟨i, by rw [World.putPub_topic, hslots]; exact h0⟩
  · rw [World.putPub_self, hq] at hrel
    rw [World.putPub_self, World.putPub_topic]
    exact room_act (h.room hrel) hrel hslot hcore hs
  · rw [World.putPub_self, hq] at hrel
    rw [World.putPub_self, World.putPub_topic]
    refine (fan_act (h.fan hrel) (h.room hrel) h.present hslot hcore hs).watch ?_
    exact fun j k hk _ => hk

theorem callInv_enter {w : World T} {p : Nat} {m : Message T} {h' : Topic T} {ep' : PubEp T}
    (hs : pubStep size w.topic p (w.pubs p) (.publish m) = some (h', ep')) :
    CallInv (w.putPub p h' ep') ((Call.enter (w.pubs p)).watch (w.putPub p h' ep')) p := by
  have hlock : ∀ h' : Topic T, CallInv (w.putPub p h' ((w.pubs p).at' (.lock m)))
      ((Call.enter (w.pubs p)).watch (w.putPub p h' ((w.pubs p).at' (.lock m)))) p := by
    intro h'
    refine ⟨fun k hk => hk.2, ?_, fun m i k hpc => ?_, fun _ => ?_, fun _ => ?_⟩
    all_goals rw [World.putPub_self] at *
    · exact ⟨trivial, rfl, rfl, rfl⟩
    · cases hpc
    · trivial
    · exact ⟨trivial, fun k hk => hk⟩
  simp only [pubStep] at hs
  split at hs
  · split at hs <;> cases hs
    · exact hlock _
    · refine ⟨fun k hk => hk.2, ?_, fun m i k hpc => ?_, fun hrel => ?_, fun hrel => ?_⟩
      · rw [World.putPub_self]
        exact Call.Books.watch (Call.Books.deliver trivial ⟨rfl, rfl, rfl⟩ m) _
      · rw [World.putPub_self] at hpc
        simp only [PubEp.deliver, PubEp.at'_pc] at hpc
        split at hpc <;> cases hpc
      · rw [World.putPub_self] at hrel ⊢
        exact .deliver hrel m
      · rw [World.putPub_self]
        exact Fan.deliver trivial (fun k hk => hk) m
  · cases hs

/-- A publisher that is not in a call. -/
theorem callInv_outside {w : World T} {c : Call T} {p : Nat}
    (hpres : ∀ k, c.present k → w.Attached k)
    (hpc : (w.pubs p).pc = .idle ∨ (w.pubs p).pc.live = false) : CallInv w c p := by
  have hout : (w.pubs p).pc = .idle ∨ (w.pubs p).pc = .unadvertised ∨
      (w.pubs p).pc = .refused ∨ (w.pubs p).pc = .gone := by
    rcases hpc with h0 | h0
    · exact .inl h0
    · cases hpc : (w.pubs p).pc <;> rw [hpc] at h0 <;> first | (cases h0; done) | simp
  rcases hout with h0 | h0 | h0 | h0
  all_goals
    refine ⟨hpres, ?_, fun m i k h1 => ?_, fun _ => ?_, fun _ => ?_⟩
    all_goals rw [h0] at *
    · trivial
    · cases h1
    · trivial
    · trivial

theorem callInv_reached {q : World T × (Nat → Call T)}
    (hw : (called T size).Reached anyStep q) (hdep : q.1.DepthOk) (p : Nat) :
    CallInv q.1 (q.2 p) p := by
  revert hdep p
  refine Machine.Reached.invariant (M := called T size)
    (P := fun q => q.1.DepthOk → ∀ p, CallInv q.1 (q.2 p) p) ?_ ?_ hw
  · rintro ⟨w, calls⟩ ⟨hw, hc⟩ _ p
    cases hc
    exact callInv_outside (fun k hk => hk.elim) (.inr (by rw [(hw.2.2 p).1]; rfl))
  · rintro ⟨w, calls⟩ a ⟨w', calls'⟩ hr ih _ hst hdep p
    obtain ⟨hs, hcalls⟩ := Machine.withHistory_step hst
    simp only at hs hcalls
    subst hcalls
    have hbase : (machine T size).Reached anyStep w := Machine.reached_any hr
    have hslot := slotInv_reached hbase
    have hcore := coreInv_reached hbase
    have hqos := step_qos hs
    have hdep0 : w.DepthOk := fun k d hd => hdep k d (by rw [hqos k]; exact hd)
    have h := ih hdep0 p
    rcases step_cases hs with ⟨k, b, h', ep', rfl, hsub, rfl⟩ | ⟨q, b, h', ep', rfl, hpub, rfl⟩
    · exact h.watch rfl hqos (fun _ k' hk' => subStep_room hsub (hdep0 k) k' hk')
        fun j k' hk' => subStep_joins hslot hcore hdep0 hsub hk'
    · obtain ⟨hslots, -⟩ := pubStep_table hpub
      by_cases e : q = p
      · subst e
        cases b with
        | go now =>
            simp only [noteCall, if_pos, World.putPub_topic, World.putPub_self]
            exact callInv_pub h hslot hcore hpub
        | publish m =>
            simp only [noteCall, if_pos]
            exact callInv_enter hpub
        | advertise =>
            refine callInv_outside (fun k hk => hk.2) ?_
            rw [World.putPub_self]
            simp only [pubStep] at hpub
            repeat' split at hpub
            all_goals cases hpub
            · exact .inr rfl
            · exact .inl rfl
        | destroy =>
            refine callInv_outside (fun k hk => hk.2) ?_
            rw [World.putPub_self]
            simp only [pubStep] at hpub
            repeat' split at hpub
            all_goals cases hpub
            all_goals exact .inr rfl
      · have hnote : noteCall w (.pub q b) (w.putPub q h' ep') calls p =
            (calls p).watch (w.putPub q h' ep') := by
          cases b <;> simp only [noteCall, if_neg e]
        dsimp only
        rw [hnote]
        refine h.watch (World.putPub_ne _ _ _ _ (Ne.symm e)) hqos (fun hd k hk => ?_)
          fun j k hk => .inl (hslots ▸ hk)
        -- only one publisher is inside `Deliver`, and it is not this one
        have hquiet : ∀ i, (w.pubs q).pc.held ≠ some (i, k) := by
          intro i hi
          refine e ((pubInv_reached hbase).serialized ?_ hd)
          cases hpc : (w.pubs q).pc <;> rw [hpc] at hi <;> first | rfl | cases hi
        rw [World.putPub_topic, pubStep_unheld hpub hquiet]
        exact hk

/-- What a publisher may conclude from the status it is handed. -/
structure AllOrNothing (w : World T) (c : Call T) (p : Nat) : Prop where
  refused : (w.pubs p).pc = .ret .wouldBlock →
    c.clean ∧ (w.pubs p).publishCount = c.publishes ∧ (w.pubs p).bytes = c.bytes ∧
      (w.pubs p).refusedCount = c.refusals + 1
  accepted : (w.pubs p).qos.reliability = .reliable → (w.pubs p).pc = .ret .ok →
    c.dropless ∧ ∃ r, c.record = some r ∧ (∀ k, c.visited k → c.handed k r) ∧
      ∀ k, c.present k → c.handed k r
  latestOnly : c.latestOnly → (w.pubs p).pc ≠ .ret .wouldBlock

/-- In every run of publishes, takes, joins and leaves, a refused publish has
changed nothing but its refusal count, an accepted reliable publish has put its
record into every ring and mailbox it visited, those attached throughout among
them, and dropped nothing, and without a queue subscriber nothing is refused. -/
theorem reliable_all_or_nothing {w : World T} {calls : Nat → Call T}
    (hw : (called T size).Reached anyStep (w, calls)) (hdep : w.DepthOk) (p : Nat) :
    AllOrNothing w (calls p) p := by
  have h := callInv_reached hw hdep p
  have hb := h.books
  have hf := h.fan
  refine ⟨fun hpc => ?_, fun hrel hpc => ?_, fun hl hpc => ?_⟩
  · rw [hpc] at hb
    exact ⟨hb.1, hb.2.2.1, hb.2.2.2.1, hb.2.1⟩
  · rw [hpc] at hf
    exact hf hrel
  · rw [hpc] at hb
    exact hb.2.2.2.2 hl

/-- One reliable publisher, and subscribers that declare a ring of one value. -/
def tightTopic : World Nat where
  subs _ := { qos := { history := .queue 1 } }
  pubs _ := { qos := { reliability := .reliable } }

/-- The first publish fills the ring and the second is refused. -/
theorem reliable_all_or_nothing_second : ∃ (w : World Nat) (calls : Nat → Call Nat),
    (called Nat 8).Reached anyStep (w, calls) ∧ w.DepthOk ∧
      (w.pubs 0).pc = .ret .wouldBlock ∧ (w.pubs 0).publishCount = 1 ∧
      (w.pubs 0).refusedCount = 1 ∧ AllOrNothing w (calls 0) 0 := by
  have hrun : ((called Nat 8).execOk (fun _ _ => true)
      (Act.pub 0 .advertise :: Act.sub 0 .subscribe :: List.replicate 5 (Act.sub 0 (.go 0)) ++
        Act.pub 0 (.publish { value := 7 }) :: List.replicate 138 (Act.pub 0 (.go 0)) ++
        Act.pub 0 (.publish { value := 8 }) :: List.replicate 3 (Act.pub 0 (.go 0)))
      (tightTopic, fun _ => {})).map
        (fun q => (match (q.1.pubs 0).pc with
          | .ret .wouldBlock => true
          | _ => false, (q.1.pubs 0).publishCount, (q.1.pubs 0).refusedCount)) =
      some (true, 1, 1) := by decide
  obtain ⟨⟨w, calls⟩, hw, hf⟩ := Option.map_eq_some_iff.mp hrun
  simp only [Prod.mk.injEq] at hf
  have hstart : (called Nat 8).Reached anyStep (tightTopic, fun _ => {}) :=
    .start ⟨⟨rfl, fun _ => rfl, fun _ => ⟨rfl, rfl, rfl, rfl⟩⟩, rfl⟩
  have hr := Machine.reached_of_execOk (M := called Nat 8) (J := fun _ => True)
    (fun _ _ _ _ => trivial) (fun _ _ _ _ _ _ => trivial) trivial hstart hw
  have hdep : w.DepthOk := by
    refine Machine.execOk_keeps (M := called Nat 8) (J := fun q => q.1.DepthOk) ?_ ?_ hw
    · intro q a q' hq _ hst k d hd
      rw [step_qos (Machine.withHistory_step hst).1 k] at hd
      exact hq k d hd
    · intro k d hd
      cases hd
      exact Nat.le_refl 1
  refine ⟨w, calls, hr, hdep, ?_, hf.2.1, hf.2.2, reliable_all_or_nothing hr hdep 0⟩
  have h1 := hf.1
  split at h1
  · assumption
  · cases h1

end Xmmsg.InProc
