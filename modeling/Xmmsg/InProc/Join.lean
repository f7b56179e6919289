import Xmmsg.InProc.Delivery

/-!
# Joining a topic that is being published on

Seeding reads the master slot, then the mailbox is attached; both are single
steps against a fan-out that takes no lock. A publish whose record the seed
missed and whose fan-out has passed the slot by the time the attach lands is lost
to the new subscriber, for good if it was the last one.

`JoinDiscipline` is what the attach step of a subscriber has to find: nothing accepted
yet, or the publish in flight has still to look at the slot, or the mailbox holds what
the master slot holds now.
-/

namespace Xmmsg.InProc

open Xmmsg.Sys Xmmsg.Mail

variable {T : Type} {size : Nat}

/-- Drawn its ordinal, and still to look at slot `i`. -/
def PubPc.ahead (i : Nat) : PubPc T → Bool
  | .master _ => true
  | .visit _ j => decide (j ≤ i)
  | .base _ j _ | .stamp _ j _ | .store _ j _ | .push _ j _ | .drop _ j _ => decide (j < i)
  | _ => false

def JoinDiscipline (k : Nat) (w : World T) : Act T → Prop
  | .sub x (.go _) => x = k →
      match (w.subs k).pc with
      | .attach i => (w.subs k).qos.history.isLatest = true →
          w.topic.acceptedOrdinal = 0 ∨ (∃ p, (w.pubs p).pc.ahead i = true) ∨
            (w.topic.cores k).box = .latest w.topic.master
      | _ => True
  | _ => True

/-! ## The master slot -/

/-- The master slot holds the newest record, except while a publisher is about to
store it. -/
structure MasterInv (q : World T × Trace T) : Prop where
  carried : ∀ p r, (q.1.pubs p).pc = .master r → q.2.log.getLast? = some r
  written : (∀ p r, (q.1.pubs p).pc ≠ .master r) → q.1.topic.master = q.2.log.getLast?

theorem note_sub_log {w w' : World T} {k : Nat} {a : SubAct} {tr : Trace T} :
    (note w (.sub k a) w' tr).log = tr.log := by
  cases a with
  | go now => simp only [note]; split <;> rfl
  | _ => rfl

/-- The two accesses that matter to the master slot, and all the others. -/
theorem pubStep_master {w : World T} {p : Nat} {a : PubAct T} {h' : Topic T} {ep' : PubEp T}
    (w' : World T) (tr : Trace T)
    (hs : pubStep size w.topic p (w.pubs p) a = some (h', ep')) :
    (∃ r, ep'.pc = .master r ∧ (w.pubs p).pc.delivering = true ∧
      (note w (.pub p a) w' tr).log = tr.log ++ [r]) ∨
    ((∀ r, ep'.pc ≠ .master r) ∧ (note w (.pub p a) w' tr).log = tr.log ∧
      ((∃ r, (w.pubs p).pc = .master r ∧ h'.master = some r) ∨
        (∀ r, (w.pubs p).pc ≠ .master r) ∧ h'.master = w.topic.master)) := by
  have hdel : ∀ m r, ((w.pubs p).deliver m).pc ≠ .master r := by
    intro m r
    simp only [PubEp.deliver, PubEp.at'_pc]
    split <;> exact fun h0 => by cases h0
  cases a with
  | advertise | publish m | destroy =>
      right
      cases hpc : (w.pubs p).pc <;> simp only [pubStep, hpc] at hs
      all_goals
        repeat' split at hs
        all_goals cases hs
        all_goals
          refine ⟨?_, rfl, .inr ⟨fun r h0 => (by cases h0), rfl⟩⟩
          first | exact hdel _ | exact fun r h0 => by cases h0
  | go now =>
      simp only [pubStep] at hs
      cases hpc : (w.pubs p).pc <;> simp only [hpc] at hs
      case draw m =>
        cases hs
        exact .inl ⟨_, rfl, rfl, by simp [note, hpc]⟩
      case master r =>
        cases hs
        exact .inr ⟨fun r h0 => (by cases h0), by simp [note, hpc], .inl ⟨r, rfl, rfl⟩⟩
      all_goals
        right
        repeat' split at hs
        all_goals cases hs
        all_goals
          refine ⟨?_, by simp [note, hpc], .inr ⟨fun r h0 => (by cases h0), ?_⟩⟩
          · first | exact hdel _ | exact fun r h0 => by cases h0
          · rfl

theorem masterInv_reached {ok : World T → Act T → Prop} {q : World T × Trace T}
    (hq : (traced T size).Reached (fun q a => ok q.1 a) q) : MasterInv q := by
  refine hq.invariant (P := MasterInv) ?_ ?_
  · rintro ⟨w, tr⟩ ⟨hw, rfl⟩
    refine ⟨fun p r hp => ?_, fun _ => ?_⟩
    · rw [(hw.2.2 p).1] at hp
      cases hp
    · rw [hw.1]
      rfl
  · rintro ⟨w, tr⟩ a ⟨w', tr'⟩ hr h - hstep
    have hser : PubInv w := pubInv_reached (Machine.reached_fst hr)
    obtain ⟨hs, htr⟩ := Machine.withHistory_step hstep
    clear hstep
    simp only at hs htr
    subst htr
    rcases step_cases hs with ⟨k, b, h', ep', rfl, hst, rfl⟩ | ⟨p, b, h', ep', rfl, hst, rfl⟩
    · refine ⟨fun p r hp => ?_, fun hno => ?_⟩
      · simp only [note_sub_log]
        exact h.carried p r hp
      · simp only [note_sub_log, World.putSub_topic, (subStep_others hst).1]
        exact h.written hno
    -- while one publisher is at the master store, no other is inside `Deliver`
    have halone : ∀ {q r}, (w.pubs p).pc.delivering = true → q ≠ p →
        (w.pubs q).pc ≠ .master r := by
      intro q r hd hne hm
      exact hne (hser.serialized (by rw [hm]; rfl) hd)
    rcases pubStep_master (w.putPub p h' ep') tr hst with
      ⟨r, hpc, hd, hlog⟩ | ⟨hno, hlog, hw⟩
    · refine ⟨fun q x hx => ?_, fun hno => ?_⟩
      · simp only [hlog]
        by_cases e : q = p
        · subst e
          simp only [World.putPub_self] at hx
          rw [hpc] at hx
          cases hx
          simp
        · simp only [World.putPub_ne _ _ _ _ e] at hx
          exact absurd hx (halone hd e)
      · exact absurd (by simpa using hpc) (hno p r)
    · refine ⟨fun q x hx => ?_, fun hall => ?_⟩
      · simp only [hlog]
        by_cases e : q = p
        · subst e
          simp only [World.putPub_self] at hx
          exact absurd hx (hno x)
        · simp only [World.putPub_ne _ _ _ _ e] at hx
          exact h.carried q x hx
      · simp only [hlog, World.putPub_topic]
        rcases hw with ⟨r, hm, hw⟩ | ⟨hm, hw⟩
        · rw [hw]
          exact (h.carried p r hm).symm
        · rw [hw]
          refine h.written fun q r hq => ?_
          by_cases e : q = p
          · exact hm r (e ▸ hq)
          · refine hall q r ?_
            simp only [World.putPub_ne _ _ _ _ e]
            exact hq

/-! ## Nothing newer is missed -/

/-- A publish that has still to look at the slot is on its way to whoever sits
there. -/
theorem flightOf_ahead {w : World T} {k i p : Nat} (hst : StageOf w k (.at i))
    (h : (w.pubs p).pc.ahead i = true) :
    ∃ r, flightOf k (.at i) (w.pubs p).pc = .coming r := by
  have hptr : ∀ j, (w.pubs p).pc.pointer? = some (j, k) → j = i := hst.2 p
  cases hpc : (w.pubs p).pc <;> rw [hpc] at h hptr <;> simp only [PubPc.ahead] at h
  case master r => exact ⟨r, rfl⟩
  case visit r j => exact ⟨r, by simp only [flightOf, Stage.sight, h, if_true]⟩
  case push r j k' | drop r j k' =>
    exact ⟨r, by simp only [flightOf, Stage.sight, h, if_true]⟩
  case base r j k' | stamp r j k' | store r j k' =>
    have hne : k' ≠ k := by
      rintro rfl
      have := hptr j rfl
      have := of_decide_eq_true h
      omega
    exact ⟨r, by simp only [flightOf, if_neg hne, Stage.sight, h, if_true]⟩
  all_goals cases h

theorem SimAt.seat {k i : Nat} {st : Stage} {w : World T} {tr : Trace T} {m : Box T}
    (h : SimAt k st w tr m) (hi : w.topic.subSlots i = some k) : m.joined = true := by
  have hst := h.stage
  rw [h.joined]
  cases st with
  | before => exact absurd hi (hst.1 i)
  | «at» j => rfl
  | after => exact absurd hi (hst.1 i)

/-- A disciplined attach is a prompt join. -/
theorem prompt_join {w w' : World T} {tr : Trace T} {k i : Nat} {now : Int} {m m' : Box T}
    {st st' : Stage} {late : Bool} (hm : MasterInv (w, tr)) (hslot : SlotInv w)
    (hlat : (w.subs k).qos.history.isLatest = true)
    (hok : JoinDiscipline k w (.sub k (.go now))) (hpc : (w.subs k).pc = .attach i)
    (hs : w.step size (.sub k (.go now)) = some w') (hsim : SimAt k st w tr m)
    (hst : m.Step (.join late) m')
    (hsim' : SimAt k st' w' (note w (.sub k (.go now)) w' tr) m') :
    m.Prompt (.join late) := by
  obtain rfl : w' = w.putSub k (w.topic.setSlot i (some k)) ((w.subs k).at' .retain) := by
    simp only [World.step, subStep, hpc] at hs
    exact (Option.some.inj hs).symm
  have hi : (w.topic.setSlot i (some k)).subSlots i = some k := by simp [Topic.setSlot]
  -- the view after the step is that of a subscriber in slot `i`
  have hat : StageOf (w.putSub k (w.topic.setSlot i (some k)) ((w.subs k).at' .retain)) k
      (.at i) ∧ Flights k (.at i) w.pubs m'.flight := by
    have hstage := hsim'.stage
    have hfl := hsim'.flights
    cases st' with
    | before => exact absurd hi (hstage.1 i)
    | after => exact absurd hi (hstage.1 i)
    | «at» j =>
        obtain rfl : j = i := by
          by_contra hne
          have := hstage.1
          simp only [World.putSub_topic, Topic.setSlot, Function.update_of_ne hne] at this
          exact hslot.not_attached (by rw [hpc]; rfl) j this
        exact ⟨hstage, hfl⟩
  have hahead : ∀ p, (w.pubs p).pc.ahead i = true →
      late = false ∧ ∃ r, m.flight = .coming r := by
    intro p hp
    obtain ⟨r, hr⟩ := flightOf_ahead (p := p) hat.1 hp
    have hf : m'.flight = .coming r := by
      rcases hat.2.1 p with h0 | h0
      · exact absurd (h0.symm.trans hr) (fun h1 => by cases h1)
      · exact h0.symm.trans hr
    cases hst with
    | join => exact ⟨rfl, r, hf⟩
    | joinLate => cases hf
  simp only [JoinDiscipline, hpc, forall_const] at hok
  rcases hok hlat with h0 | ⟨p, hp⟩ | h0
  · exact .inl (hsim.accepted.trans h0)
  · exact .inr (.inl (hahead p hp))
  · by_cases hany : ∃ p r, (w.pubs p).pc = .master r
    · obtain ⟨p, r, hp⟩ := hany
      exact .inr (.inl (hahead p (by rw [hp]; rfl)))
    · have hw := hm.written fun p r hp => hany ⟨p, r, hp⟩
      have hcell := hsim.cell
      rw [h0] at hcell
      injection hcell with hcell
      exact .inr (.inr (by rw [← hcell, hsim.newest]; exact hw))

/-- In a run in which subscriber `k` joins by the discipline, it has the newest
record once it is in the table, unless a publish is still in its fan-out. -/
theorem current_of_joined {ok : World T → Act T → Prop} {w : World T} {tr : Trace T} {k i : Nat}
    (hjoin : ∀ w now, ok w (.sub k (.go now)) → JoinDiscipline k w (.sub k (.go now)))
    (hw : (traced T size).Reached (fun q a => ok q.1 a) (w, tr))
    (hlat : (w.subs k).qos.history.isLatest = true) (hi : w.topic.subSlots i = some k)
    (hquiet : ∀ p, (w.pubs p).pc.airborne = false) (hpos : 0 < w.topic.acceptedOrdinal) :
    ∃ r, (w.topic.cores k).box = .latest (some r) ∧ r.ordinal = w.topic.acceptedOrdinal ∧
      tr.log.getLast? = some r := by
  have hprompt : ∀ (w : World T) a w' tr m st e m' st',
      (traced T size).Reached (fun q a => ok q.1 a) (w, tr) →
      (w.subs k).qos.history.isLatest = true → ok w a →
      w.step size a = some w' → SimAt k st w tr m → m.Step e m' →
      SimAt k st' w' (note w a w' tr) m' →
      (e.benign = true ∨ OwnEvent w k e ∧ ∃ now, a = .sub k (.go now)) → m.Prompt e := by
    intro w a w' tr m st e m' st' hr hl hok hs hsim hmm hsim' he
    rcases he with he | ⟨he | ⟨rfl, -⟩ | ⟨late, i, rfl, hpc⟩, now, rfl⟩
    · exact Box.prompt_of_benign he
    · exact Box.prompt_of_benign he
    · trivial
    · exact prompt_join (masterInv_reached hr) (slotInv_reached (Machine.reached_fst hr)) hl
        (hjoin w now hok) hpc hs hsim hmm hsim'
  obtain ⟨m, st, ⟨⟨hcur, -⟩, hnamed⟩, -, hsim⟩ := mailbox_reached
    (fun m : Box T => (m.Current ∧ m.Flying) ∧ m.Named) Box.Prompt
    (fun m e m' h he hs => ⟨⟨Box.current_step h.1.1 h.1.2 he hs, Box.flying_step h.1.2 hs⟩,
      Box.named_step h.2 hs⟩)
    ⟨⟨fun h0 => (nomatch h0), fun r hr => (nomatch hr)⟩, fun _ => rfl,
      fun r hr => (nomatch hr)⟩ k hprompt hw hlat
  have hgo : m.awaited = none := by
    have hf : m.flight = .quiet := by
      by_contra hne
      obtain ⟨p, hp⟩ := hsim.flights.2 hne
      exact hne (hp.symm.trans (PubPc.grounded (hquiet p) k st).1)
    simp [Box.awaited, hf]
  obtain ⟨r, hr, hcell⟩ := hcur.holds hnamed (hsim.seat hi) (hsim.accepted ▸ hpos) hgo
  exact ⟨r, by rw [hsim.cell, hcell], hr.2.trans hsim.accepted, by rw [← hsim.newest, hr.1]⟩

theorem current_reached {w : World T} {tr : Trace T} {k i : Nat}
    (hw : (traced T size).Reached (fun q a => JoinDiscipline k q.1 a) (w, tr))
    (hlat : (w.subs k).qos.history.isLatest = true) (hi : w.topic.subSlots i = some k)
    (hquiet : ∀ p, (w.pubs p).pc.airborne = false) (hpos : 0 < w.topic.acceptedOrdinal) :
    ∃ r, (w.topic.cores k).box = .latest (some r) ∧ r.ordinal = w.topic.acceptedOrdinal ∧
      tr.log.getLast? = some r :=
  current_of_joined (fun _ _ h0 => h0) hw hlat hi hquiet hpos

/-! ## The next take -/

/-- With nothing else moving, `TakeLatest` hands back what the mailbox holds. -/
theorem takeLatest_returns {w : World T} {k : Nat} {r : MailRecord T} (now : Int)
    (hpc : (w.subs k).pc = .wired .idle) (hbox : (w.topic.cores k).box = .latest (some r)) :
    ∃ n w' stale, (machine T size).exec
        (.sub k .takeLatest :: List.replicate n (.sub k (.go now))) w = some w' ∧
      (w'.subs k).pc = .wired (.ret (some (r, stale))) := by
  cases hb : (w.topic.cores k).lastConsumedOrdinal with
  | none =>
      refine ⟨4, ?_⟩
      simp [Machine.exec, machine, World.step, subStep, takeStep, hpc, hbox, hb, World.putSub,
        Topic.setCore, SubEp.at']
  | some last =>
      by_cases hlt : last < r.ordinal
      · refine ⟨6, ?_⟩
        simp [Machine.exec, machine, World.step, subStep, takeStep, hpc, hbox, hb, hlt,
          World.putSub, Topic.setCore, SubEp.at']
      · refine ⟨4, ?_⟩
        simp [Machine.exec, machine, World.step, subStep, takeStep, hpc, hbox, hb, hlt,
          World.putSub, Topic.setCore, SubEp.at']

end Xmmsg.InProc
