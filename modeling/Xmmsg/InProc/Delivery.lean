import Xmmsg.InProc.Wiring
import Xmmsg.Mail.Box

/-!
# A topic, as one latest-only subscriber sees it

Every step of the topic is an event of the subscriber's mailbox or none of its
business. The one publish in flight (there is at most one) is reduced to where
its fan-out stands relative to the subscriber's slot, which depends on whether
the subscriber has not attached yet, sits in a slot, or has left: `Stage`.

The record of a run is kept beside the state and changes nothing.
-/

namespace Xmmsg.InProc

open Xmmsg.Sys Xmmsg.Mail

variable {T : Type} {size : Nat}

/-! ## The record of a run -/

/-- What a step adds to the record of the run, mailboxes by subscriber. -/
def note (w : World T) (a : Act T) (_ : World T) (tr : Trace T) : Trace T :=
  match a with
  | .pub p (.go _) =>
      match (w.pubs p).pc with
      | .draw m => { tr with log := tr.log ++ [m.record (w.topic.acceptedOrdinal + 1)] }
      | .store r _ k => { tr with stored := extend tr.stored k [r.ordinal] }
      | _ => tr
  | .sub k (.go _) =>
      match (w.subs k).pc with
      | .wired (.charge r _ last) =>
          let gap := List.range' (last + 1) (r.ordinal - last - 1)
          { tr with charged := extend tr.charged k gap }
      | .wired (.ret (some (r, _))) =>
          { tr with returned := extend tr.returned k [r.ordinal] }
      | _ => tr
  | _ => tr

/-- The machine with its trace. -/
def traced (T : Type) (size : Nat) : Machine (World T × Trace T) (Act T) :=
  (machine T size).withHistory {} note

/-! ## Views -/

inductive Stage where
  | before
  | at (i : Nat)
  | after

def Stage.joined : Stage → Bool
  | .at _ => true
  | _ => false

/-- A fan-out that is not at this subscriber: `ahead i` if it has still to look
at slot `i`. -/
def Stage.sight (st : Stage) (r : MailRecord T) (ahead : Nat → Bool) : Flight T :=
  match st with
  | .at i => if ahead i then .coming r else .passed r
  | _ => .coming r

/-- The publish in flight as subscriber `k` sees it. -/
def flightOf (k : Nat) (st : Stage) : PubPc T → Flight T
  | .master r => st.sight r fun _ => true
  | .visit r j => st.sight r fun i => decide (j ≤ i)
  | .base r j k' | .stamp r j k' =>
      if k' = k then .here r else st.sight r fun i => decide (j < i)
  | .store r j k' => if k' = k then .stamped r else st.sight r fun i => decide (j < i)
  | .push r j _ | .drop r j _ => st.sight r fun i => decide (j < i)
  | _ => .quiet

/-- The latest-only core the fan-out holds a pointer to, and the slot it came
from. -/
def PubPc.pointer? : PubPc T → Option (Nat × Nat)
  | .base _ j k | .stamp _ j k | .store _ j k => some (j, k)
  | _ => none

def TakePc.taking : TakePc T → Taking T
  | .idle | .load | .pop | .ret none => .idle
  | .count r | .base r _ => .got r
  | .charge r _ last => .charging r last
  | .store r _ => .storing r
  | .latch r _ | .ret (some (r, _)) => .returning r

def SubPc.taking : SubPc T → Taking T
  | .wired t => t.taking
  | _ => .idle

/-- Not attached yet. -/
def SubPc.early : SubPc T → Bool
  | .unwired | .create | .loadMaster | .seed _ | .scan _ | .attach _ => true
  | _ => false

def StageOf (w : World T) (k : Nat) : Stage → Prop
  | .before => (∀ i, w.topic.subSlots i ≠ some k) ∧
      ∀ p j, (w.pubs p).pc.pointer? ≠ some (j, k)
  | .at i => w.topic.subSlots i = some k ∧
      ∀ p j, (w.pubs p).pc.pointer? = some (j, k) → j = i
  | .after => (∀ i, w.topic.subSlots i ≠ some k) ∧
      ((w.subs k).pc = .uncount ∨ (w.subs k).pc = .leave ∨ (w.subs k).pc = .gone)

/-- `f` is the flight of the one publisher inside `Deliver`. -/
def Flights (k : Nat) (st : Stage) (pubs : Nat → PubEp T) (f : Flight T) : Prop :=
  (∀ p, flightOf k st (pubs p).pc = .quiet ∨ flightOf k st (pubs p).pc = f) ∧
    (f ≠ .quiet → ∃ p, flightOf k st (pubs p).pc = f)

/-- The mailbox `m` is what the topic is to subscriber `k`. -/
structure SimAt (k : Nat) (st : Stage) (w : World T) (tr : Trace T) (m : Box T) : Prop where
  accepted : m.accepted = w.topic.acceptedOrdinal
  cell : (w.topic.cores k).box = .latest m.cell
  base : (w.topic.cores k).lastConsumedOrdinal = m.base
  overwrites : (w.topic.cores k).overwriteCount = m.overwrites
  taking : (w.subs k).pc.taking = m.taking
  joined : m.joined = st.joined
  stage : StageOf w k st
  flights : Flights k st w.pubs m.flight
  early : (w.subs k).pc.early = true → m.base = none ∧ m.cached = none
  fresh : (w.subs k).pc = .unwired ∨ (w.subs k).pc = .create →
    m.cell = none ∧ m.overwrites = 0
  seeds : ∀ r, w.topic.master = some r ∨ (w.subs k).pc = .seed r →
    r.ordinal ≤ w.topic.acceptedOrdinal
  newest : m.newest = tr.log.getLast?
  stored : m.stored = tr.stored k
  returned : m.returned = tr.returned k
  charged : m.charged = tr.charged k

/-! ## The publish in flight -/

theorem delivering_of_flight {k : Nat} {st : Stage} {pc : PubPc T}
    (h : flightOf k st pc ≠ .quiet) : pc.delivering = true := by
  cases pc <;> simp_all [flightOf, PubPc.delivering]

/-- The publisher inside `Deliver` is the one in flight. -/
theorem Flights.of_delivering {w : World T} {k : Nat} {st : Stage} {f : Flight T} {p : Nat}
    (h : Flights k st w.pubs f) (hser : PubInv w)
    (hp : (w.pubs p).pc.delivering = true) :
    f = flightOf k st (w.pubs p).pc ∧
      ∀ q, q ≠ p → flightOf k st (w.pubs q).pc = .quiet := by
  have hothers : ∀ q, q ≠ p → flightOf k st (w.pubs q).pc = .quiet := by
    intro q hne
    by_contra hq
    exact hne (hser.serialized (delivering_of_flight hq) hp)
  refine ⟨?_, hothers⟩
  by_cases hf : f = .quiet
  · rcases h.1 p with h1 | h1
    · rw [h1, hf]
    · exact h1.symm
  · obtain ⟨q, hq⟩ := h.2 hf
    obtain rfl : q = p := by
      by_contra hne
      exact hf (hq.symm.trans (hothers q hne))
    exact hq.symm

theorem Flights.update {pubs : Nat → PubEp T} {k : Nat} {st : Stage} {p : Nat}
    {ep' : PubEp T} (ho : ∀ q, q ≠ p → flightOf k st (pubs q).pc = .quiet) :
    Flights k st (Function.update pubs p ep') (flightOf k st ep'.pc) := by
  constructor
  · intro q
    by_cases e : q = p
    · rw [e, Function.update_self]
      exact .inr rfl
    · rw [Function.update_of_ne e]
      exact .inl (ho q e)
  · exact fun _ => ⟨p, by rw [Function.update_self]⟩

/-- A publisher that is not in flight moves without taking off. -/
theorem Flights.quiet {pubs : Nat → PubEp T} {k : Nat} {st : Stage} {f : Flight T} {p : Nat}
    {ep' : PubEp T} (h : Flights k st pubs f) (hold : flightOf k st (pubs p).pc = .quiet)
    (hnew : flightOf k st ep'.pc = .quiet) : Flights k st (Function.update pubs p ep') f := by
  constructor
  · intro q
    by_cases e : q = p
    · rw [e, Function.update_self]
      exact .inl hnew
    · rw [Function.update_of_ne e]
      exact h.1 q
  · intro hf
    obtain ⟨q, hq⟩ := h.2 hf
    have e : q ≠ p := by
      rintro rfl
      exact hf (hq.symm.trans hold)
    exact ⟨q, by rw [Function.update_of_ne e]; exact hq⟩

/-! ## Publisher steps -/

/-- What the subscriber's view asks of a publisher's access. -/
theorem SimAt.putPub {k : Nat} {st : Stage} {w : World T} {tr tr' : Trace T} {m m' : Box T}
    (h : SimAt k st w tr m) {p : Nat} {h' : Topic T} {ep' : PubEp T}
    (hslots : h'.subSlots = w.topic.subSlots)
    (hacc : m'.accepted = h'.acceptedOrdinal)
    (hle : w.topic.acceptedOrdinal ≤ h'.acceptedOrdinal)
    (hmaster : ∀ r, h'.master = some r →
      w.topic.master = some r ∨ r.ordinal ≤ h'.acceptedOrdinal)
    (hcell : (h'.cores k).box = .latest m'.cell)
    (hbase : (h'.cores k).lastConsumedOrdinal = m'.base)
    (hover : (h'.cores k).overwriteCount = m'.overwrites)
    (htaking : m'.taking = m.taking) (hjoined : m'.joined = m.joined)
    (hcached : m'.cached = m.cached)
    (hmine : m'.base = m.base ∧ m'.cell = m.cell ∧ m'.overwrites = m.overwrites ∨
      (w.subs k).pc.early = false)
    (hflight : Flights k st (Function.update w.pubs p ep') m'.flight)
    (hptr : ∀ j, ep'.pc.pointer? = some (j, k) →
      (w.pubs p).pc.pointer? = some (j, k) ∨ st = .at j)
    (hnew : m'.newest = tr'.log.getLast?) (hstored : m'.stored = tr'.stored k)
    (hret : m'.returned = tr'.returned k) (hchg : m'.charged = tr'.charged k) :
    SimAt k st (w.putPub p h' ep') tr' m' := by
  have hptr' : ∀ q j, ((w.putPub p h' ep').pubs q).pc.pointer? = some (j, k) →
      (∃ q, (w.pubs q).pc.pointer? = some (j, k)) ∨ st = .at j := by
    intro q j hj
    by_cases e : q = p
    · subst e
      rw [World.putPub_self] at hj
      exact (hptr j hj).imp_left fun h0 => ⟨q, h0⟩
    · rw [World.putPub_ne _ _ _ _ e] at hj
      exact .inl ⟨q, hj⟩
  constructor
  case accepted => exact hacc
  case cell => exact hcell
  case base => exact hbase
  case overwrites => exact hover
  case taking => rw [htaking]; exact h.taking
  case joined => rw [hjoined]; exact h.joined
  case stage =>
    have hst := h.stage
    cases st with
    | before =>
        refine ⟨fun i => ?_, fun q j hj => ?_⟩
        · rw [World.putPub_topic, hslots]; exact hst.1 i
        · rcases hptr' q j hj with ⟨q', h0⟩ | h0
          · exact hst.2 q' j h0
          · cases h0
    | «at» i =>
        refine ⟨?_, fun q j hj => ?_⟩
        · rw [World.putPub_topic, hslots]; exact hst.1
        · rcases hptr' q j hj with ⟨q', h0⟩ | h0
          · exact hst.2 q' j h0
          · cases h0; rfl
    | after =>
        refine ⟨fun i => ?_, hst.2⟩
        rw [World.putPub_topic, hslots]; exact hst.1 i
  case flights => exact hflight
  case early =>
    intro he
    rcases hmine with ⟨h1, -, -⟩ | h0
    · rw [h1, hcached]; exact h.early he
    · rw [World.putPub_subs, h0] at he; cases he
  case fresh =>
    intro hpc
    rcases hmine with ⟨-, h1, h2⟩ | h0
    · rw [h1, h2]; exact h.fresh hpc
    · rw [World.putPub_subs] at hpc
      rcases hpc with hpc | hpc <;> rw [hpc] at h0 <;> cases h0
  case seeds =>
    intro r hr
    rw [World.putPub_topic] at hr ⊢
    rcases hr with hr | hr
    · rcases hmaster r hr with h0 | h0
      · exact Nat.le_trans (h.seeds r (.inl h0)) hle
      · exact h0
    · exact Nat.le_trans (h.seeds r (.inr hr)) hle
  case newest => exact hnew
  case stored => exact hstored
  case returned => exact hret
  case charged => exact hchg

/-- A publisher's access that is no event for this subscriber. -/
theorem SimAt.putPub_same {k : Nat} {st : Stage} {w : World T} {tr tr' : Trace T}
    {m : Box T} (h : SimAt k st w tr m) {p : Nat} {h' : Topic T} {ep' : PubEp T}
    (hslots : h'.subSlots = w.topic.subSlots)
    (hacc : h'.acceptedOrdinal = w.topic.acceptedOrdinal)
    (hmaster : ∀ r, h'.master = some r →
      w.topic.master = some r ∨ r.ordinal ≤ w.topic.acceptedOrdinal)
    (hbox : (h'.cores k).box = (w.topic.cores k).box)
    (hbase : (h'.cores k).lastConsumedOrdinal = (w.topic.cores k).lastConsumedOrdinal)
    (hover : (h'.cores k).overwriteCount = (w.topic.cores k).overwriteCount)
    (hflight : Flights k st (Function.update w.pubs p ep') m.flight)
    (hptr : ∀ j, ep'.pc.pointer? = some (j, k) →
      (w.pubs p).pc.pointer? = some (j, k) ∨ st = .at j)
    (hlog : tr'.log = tr.log) (hstored : tr'.stored k = tr.stored k)
    (hret : tr'.returned = tr.returned) (hchg : tr'.charged = tr.charged) :
    SimAt k st (w.putPub p h' ep') tr' m :=
  h.putPub hslots (h.accepted.trans hacc.symm) (Nat.le_of_eq hacc.symm)
    (fun r hr => (hmaster r hr).imp_right fun h0 => hacc ▸ h0) (hbox.trans h.cell)
    (hbase.trans h.base) (hover.trans h.overwrites) rfl rfl rfl (.inl ⟨rfl, rfl, rfl⟩)
    hflight hptr (h.newest.trans (by rw [hlog])) (h.stored.trans hstored.symm)
    (h.returned.trans (by rw [hret])) (h.charged.trans (by rw [hchg]))

theorem setCore_ne (h : Topic T) {k k' : Nat} (c : SubCore T) (hne : k' ≠ k) :
    (h.setCore k c).cores k' = h.cores k' := by simp [Topic.setCore, hne]

@[simp] theorem setCore_self (h : Topic T) (k : Nat) (c : SubCore T) :
    (h.setCore k c).cores k = c := by simp [Topic.setCore]

/-- A subscriber the fan-out holds a pointer to has attached at some time. -/
theorem SimAt.not_early {k : Nat} {st : Stage} {w : World T} {tr : Trace T} {m : Box T}
    (h : SimAt k st w tr m) (hslot : SlotInv w) {p j : Nat}
    (hp : (w.pubs p).pc.pointer? = some (j, k)) : (w.subs k).pc.early = false := by
  have hst := h.stage
  cases st with
  | before => exact absurd hp (hst.2 p j)
  | «at» i =>
      have := ((hslot k).attached i hst.1).1
      cases hpc : (w.subs k).pc <;> rw [hpc] at this <;> first | rfl | cases this
  | after => rcases hst.2 with h0 | h0 | h0 <;> rw [h0] <;> rfl

theorem sight_skip {st : Stage} {r : MailRecord T} {j : Nat} (h : st ≠ .at j) :
    (st.sight r fun i => decide (j ≤ i)) = st.sight r fun i => decide (j < i) := by
  cases st with
  | «at» i =>
      have hne : j ≠ i := fun h0 => h (by rw [h0])
      have : (j ≤ i) = (j < i) := by
        rw [eq_iff_iff]
        omega
      simp only [Stage.sight, this]
  | _ => rfl

/-- Between the ordinal draw and the end of the fan-out. -/
def PubPc.airborne : PubPc T → Bool
  | .master _ | .visit _ _ | .base _ _ _ | .stamp _ _ _ | .store _ _ _ | .push _ _ _
  | .drop _ _ _ => true
  | _ => false

theorem PubPc.grounded {pc : PubPc T} (h : pc.airborne = false) (k : Nat) (st : Stage) :
    flightOf k st pc = .quiet ∧ pc.pointer? = none := by
  cases pc <;> first | exact ⟨rfl, rfl⟩ | cases h

/-- Outside the fan-out a publisher touches no record, no core and no ordinal but
for the draw itself. -/
theorem pubStep_grounded {h h' : Topic T} {p : Nat} {ep ep' : PubEp T} {a : PubAct T}
    (hs : pubStep size h p ep a = some (h', ep')) (hg : ep.pc.airborne = false)
    (hd : ∀ m, ep.pc ≠ .draw m) :
    h'.cores = h.cores ∧ h'.master = h.master ∧ h'.acceptedOrdinal = h.acceptedOrdinal ∧
      ep'.pc.airborne = false := by
  have hdel : ∀ m, (ep.deliver m).pc.airborne = false := by
    intro m
    simp only [PubEp.deliver, PubEp.at'_pc]
    split <;> rfl
  cases a with
  | advertise | publish m | destroy =>
      simp only [pubStep] at hs
      repeat' split at hs
      all_goals cases hs
      all_goals first | exact ⟨rfl, rfl, rfl, rfl⟩ | exact ⟨rfl, rfl, rfl, hdel _⟩
  | go now =>
      simp only [pubStep] at hs
      cases hpc : ep.pc <;> simp only [hpc] at hs
      case draw m => exact absurd hpc (hd m)
      case master | visit | base | stamp | store | push | drop => rw [hpc] at hg; cases hg
      all_goals
        repeat' split at hs
        all_goals cases hs
        all_goals first | exact ⟨rfl, rfl, rfl, rfl⟩ | exact ⟨rfl, rfl, rfl, hdel _⟩

/-- The trace notes nothing of a publisher outside the fan-out. -/
theorem note_grounded {w w' : World T} {p : Nat} {a : PubAct T} {tr : Trace T}
    (hg : (w.pubs p).pc.airborne = false) (hd : ∀ m, (w.pubs p).pc ≠ .draw m) :
    note w (.pub p a) w' tr = tr := by
  cases a with
  | go now =>
      cases hpc : (w.pubs p).pc <;> simp only [note, hpc]
      case draw m => exact absurd hpc (hd m)
      case store => rw [hpc] at hg; cases hg
  | _ => rfl

/-- A publisher's access is an event of the mailbox, or none of its business. -/
def SimPub (k : Nat) (st : Stage) (w : World T) (tr : Trace T) (m : Box T) (p : Nat)
    (a : PubAct T) (h' : Topic T) (ep' : PubEp T) : Prop :=
  SimAt k st (w.putPub p h' ep') (note w (.pub p a) (w.putPub p h' ep') tr) m ∨
  ∃ e m', e.benign = true ∧ m.Step e m' ∧
    SimAt k st (w.putPub p h' ep') (note w (.pub p a) (w.putPub p h' ep') tr) m'

/-- A publisher inside `Deliver`, which is the only one there. -/
structure OnlyFlight (k : Nat) (st : Stage) (w : World T) (tr : Trace T) (m : Box T) (p : Nat) :
    Prop where
  sim : SimAt k st w tr m
  flight : m.flight = flightOf k st (w.pubs p).pc
  up : ∀ ep' : PubEp T, Flights k st (Function.update w.pubs p ep') (flightOf k st ep'.pc)

section Publish

variable {k p : Nat} {st : Stage} {w : World T} {tr : Trace T} {m : Box T} {now : Int}
  {h' : Topic T} {ep' : PubEp T}

theorem sim_draw (c : OnlyFlight k st w tr m p) {m₀ : Message T}
    (hpc : (w.pubs p).pc = .draw m₀)
    (hs : pubStep size w.topic p (w.pubs p) (.go now) = some (h', ep')) :
    SimPub k st w tr m p (.go now) h' ep' := by
  obtain ⟨h, hf, hup⟩ := c
  simp only [pubStep, hpc] at hs
  unfold SimPub
  cases hs
  rw [hpc] at hf
  right
  refine ⟨.draw (m₀.record (w.topic.acceptedOrdinal + 1)), _, rfl,
    .draw _ hf (by rw [h.accepted]; rfl), ?_⟩
  simp only [note, hpc]
  refine h.putPub rfl (by rw [h.accepted]) (Nat.le_succ _) (fun r hr => .inl hr) h.cell
    h.base h.overwrites rfl rfl rfl (.inl ⟨rfl, rfl, rfl⟩) ?_ (fun j hj => by cases hj)
    (by simp) h.stored h.returned h.charged
  have := hup ((w.pubs p).at' (.master (m₀.record (w.topic.acceptedOrdinal + 1))))
  cases st <;> exact this

theorem sim_master (c : OnlyFlight k st w tr m p) (hfly : m.Flying) {r : MailRecord T}
    (hpc : (w.pubs p).pc = .master r)
    (hs : pubStep size w.topic p (w.pubs p) (.go now) = some (h', ep')) :
    SimPub k st w tr m p (.go now) h' ep' := by
  obtain ⟨h, hf, hup⟩ := c
  simp only [pubStep, hpc] at hs
  unfold SimPub
  cases hs
  rw [hpc] at hf
  left
  simp only [note, hpc]
  have hr : r.ordinal = m.accepted := (hfly r (by rw [hf]; cases st <;> rfl)).1
  refine h.putPub_same rfl rfl (fun x hx => ?_) rfl rfl rfl ?_ (fun j hj => by cases hj)
    rfl rfl rfl rfl
  · cases hx
    exact .inr (Nat.le_of_eq (hr.trans h.accepted))
  · rw [hf]
    have := hup ((w.pubs p).at' (.visit r 0))
    cases st <;> simpa [flightOf, Stage.sight] using this

/-- The fan-out stops at this subscriber's slot, and passes the others. -/
theorem sim_visit (c : OnlyFlight k st w tr m p) (hslot : SlotInv w) {r : MailRecord T} {i : Nat}
    (hpc : (w.pubs p).pc = .visit r i)
    (hs : pubStep size w.topic p (w.pubs p) (.go now) = some (h', ep')) :
    SimPub k st w tr m p (.go now) h' ep' := by
  obtain ⟨h, hf, hup⟩ := c
  simp only [pubStep, hpc] at hs
  unfold SimPub
  rw [hpc] at hf
  simp only [note, hpc]
  -- passing a slot that is not this subscriber's
  have hpass : ∀ pc : PubPc T, st ≠ .at i → pc.pointer? ≠ some (i, k) →
      (∀ j, pc.pointer? = some (j, k) → j = i) →
      flightOf k st pc = (st.sight r fun j => decide (i < j)) →
      SimAt k st (w.putPub p w.topic ((w.pubs p).at' pc)) tr m := by
    intro pc hst hp1 hp2 hfl
    refine h.putPub_same rfl rfl (fun x hx => .inl hx) rfl rfl rfl ?_ ?_ rfl rfl rfl rfl
    · have := hup ((w.pubs p).at' pc)
      rw [PubEp.at'_pc, hfl, ← sight_skip hst] at this
      rw [hf]
      exact this
    · intro j hj
      obtain rfl := hp2 j hj
      exact absurd hj hp1
  have hat : ∀ k', w.topic.subSlots i = some k' → k' ≠ k → st ≠ .at i := by
    rintro k' hk' hne rfl
    exact hne (Option.some.inj (hk'.symm.trans h.stage.1))
  split at hs
  · next hi =>
    split at hs
    · next hn =>
      cases hs
      left
      refine hpass _ ?_ (fun h0 => by cases h0) (fun j h0 => by cases h0) rfl
      rintro rfl
      exact by cases hn.symm.trans h.stage.1
    · next k' hk' =>
      by_cases hkk : k' = k
      · subst hkk
        have hst : st = .at i := by
          have hstage := h.stage
          cases st with
          | before => exact absurd hk' (hstage.1 i)
          | «at» i₀ => rw [(hslot k').unique i i₀ hk' hstage.1]
          | after => exact absurd hk' (hstage.1 i)
        subst hst
        simp only [h.cell] at hs
        cases hs
        have hcom : m.flight = .coming r := by simpa [flightOf, Stage.sight] using hf
        refine .inr ⟨.reach, _, rfl, .reach r hcom (by rw [h.joined]; rfl), ?_⟩
        refine h.putPub rfl h.accepted (Nat.le_refl _) (fun x hx => .inl hx) h.cell h.base
          h.overwrites rfl rfl rfl (.inl ⟨rfl, rfl, rfl⟩) ?_ (fun j hj => ?_) h.newest
          h.stored h.returned h.charged
        · simpa [flightOf] using hup ((w.pubs p).at' (.base r i k'))
        · cases hj
          exact .inr rfl
      · left
        have hne : ∀ j, (j, k') ≠ (i, k) := fun j h0 => hkk (congrArg Prod.snd h0)
        split at hs <;> cases hs
        · refine hpass _ (hat k' hk' hkk) (fun h0 => hne _ (Option.some.inj h0)) ?_ ?_
          · intro j h0
            exact absurd (congrArg Prod.snd (Option.some.inj h0)) hkk
          · simp [flightOf, hkk]
        · exact hpass _ (hat k' hk' hkk) (fun h0 => by cases h0) (fun j h0 => by cases h0) rfl
  · next hi =>
    cases hs
    -- the fan-out is over: this subscriber was served, or never in the table
    have haw : m.awaited = none := by
      have hstage := h.stage
      cases st with
      | «at» i₀ =>
          have := ((hslot k).attached i₀ hstage.1).2
          have hlt : ¬ i ≤ i₀ := by omega
          simp [Box.awaited, hf, flightOf, Stage.sight, hlt]
      | _ => simp [Box.awaited, hf, flightOf, Stage.sight, h.joined, Stage.joined]
    refine .inr ⟨.finish, _, rfl, .finish haw, ?_⟩
    exact h.putPub rfl h.accepted (Nat.le_refl _) (fun x hx => .inl hx) h.cell h.base
      h.overwrites rfl rfl rfl (.inl ⟨rfl, rfl, rfl⟩) (hup ((w.pubs p).at' .countPublish))
      (fun j hj => by cases hj) h.newest h.stored h.returned h.charged

theorem sim_base (c : OnlyFlight k st w tr m p) {r : MailRecord T} {i k' : Nat}
    (hpc : (w.pubs p).pc = .base r i k')
    (hs : pubStep size w.topic p (w.pubs p) (.go now) = some (h', ep')) :
    SimPub k st w tr m p (.go now) h' ep' := by
  obtain ⟨h, hf, hup⟩ := c
  simp only [pubStep, hpc] at hs
  unfold SimPub
  rw [hpc] at hf
  simp only [note, hpc]
  by_cases hkk : k' = k
  · subst hkk
    have hhere : m.flight = .here r := by simpa [flightOf] using hf
    split at hs
    · cases hs
      left
      refine h.putPub_same rfl rfl (fun x hx => .inl hx) rfl rfl rfl ?_ (fun j hj => ?_)
        rfl rfl rfl rfl
      · rw [hhere]
        simpa [flightOf] using hup ((w.pubs p).at' (.stamp r i k'))
      · cases hj
        exact .inl (by rw [hpc]; rfl)
    · next b hb =>
      cases hs
      have hset : m.base ≠ none := by
        rw [← h.base, hb]
        exact Option.some_ne_none b
      refine .inr ⟨.stamp, _, rfl, .stampSet r hhere hset, ?_⟩
      refine h.putPub rfl h.accepted (Nat.le_refl _) (fun x hx => .inl hx) h.cell h.base
        h.overwrites rfl rfl rfl (.inl ⟨rfl, rfl, rfl⟩) ?_ (fun j hj => ?_) h.newest
        h.stored h.returned h.charged
      · simpa [flightOf] using hup ((w.pubs p).at' (.store r i k'))
      · cases hj
        exact .inl (by rw [hpc]; rfl)
  · left
    split at hs <;> cases hs
    all_goals
      refine h.putPub_same rfl rfl (fun x hx => .inl hx) rfl rfl rfl ?_ (fun j hj => ?_)
        rfl rfl rfl rfl
      · first
          | simpa [hf, flightOf, hkk] using hup ((w.pubs p).at' (.stamp r i k'))
          | simpa [hf, flightOf, hkk] using hup ((w.pubs p).at' (.store r i k'))
      · exact absurd (congrArg Prod.snd (Option.some.inj hj)) hkk

theorem sim_stamp (c : OnlyFlight k st w tr m p) (hslot : SlotInv w) {r : MailRecord T} {i k' : Nat}
    (hpc : (w.pubs p).pc = .stamp r i k')
    (hs : pubStep size w.topic p (w.pubs p) (.go now) = some (h', ep')) :
    SimPub k st w tr m p (.go now) h' ep' := by
  obtain ⟨h, hf, hup⟩ := c
  simp only [pubStep, hpc] at hs
  unfold SimPub
  rw [hpc] at hf
  simp only [note, hpc]
  by_cases hkk : k' = k
  · subst hkk
    have hhere : m.flight = .here r := by simpa [flightOf] using hf
    have hptr : ∀ j, ((w.pubs p).at' (.store r i k')).pc.pointer? = some (j, k') →
        (w.pubs p).pc.pointer? = some (j, k') ∨ st = .at j := by
      intro j hj
      cases hj
      exact .inl (by rw [hpc]; rfl)
    have hfl := hup ((w.pubs p).at' (.store r i k'))
    simp only [PubEp.at'_pc, flightOf, if_true] at hfl
    split at hs
    · next hb =>
      cases hs
      refine .inr ⟨.stamp, _, rfl, .stamp r hhere (h.base.symm.trans hb), ?_⟩
      exact h.putPub rfl h.accepted (Nat.le_refl _) (fun x hx => .inl hx)
        (by rw [setCore_self]; exact h.cell) (by rw [setCore_self])
        (by rw [setCore_self]; exact h.overwrites) rfl rfl rfl
        (.inr (h.not_early hslot (by rw [hpc]; rfl))) hfl hptr h.newest h.stored
        h.returned h.charged
    · next b hb =>
      cases hs
      have hset : m.base ≠ none := by
        rw [← h.base, hb]
        exact Option.some_ne_none b
      refine .inr ⟨.stamp, _, rfl, .stampSet r hhere hset, ?_⟩
      exact h.putPub rfl h.accepted (Nat.le_refl _) (fun x hx => .inl hx) h.cell h.base
        h.overwrites rfl rfl rfl (.inl ⟨rfl, rfl, rfl⟩) hfl hptr h.newest h.stored
        h.returned h.charged
  · left
    have hcore : ∀ c : SubCore T, (w.topic.setCore k' c).cores k = w.topic.cores k :=
      fun c => setCore_ne _ _ (Ne.symm hkk)
    split at hs <;> cases hs
    all_goals
      refine h.putPub_same rfl rfl (fun x hx => .inl hx) ?_ ?_ ?_ ?_ (fun j hj => ?_)
        rfl rfl rfl rfl
      · first | rw [hcore] | rfl
      · first | rw [hcore] | rfl
      · first | rw [hcore] | rfl
      · have := hup ((w.pubs p).at' (.store r i k'))
        simpa [hf, flightOf, hkk] using this
      · exact absurd (congrArg Prod.snd (Option.some.inj hj)) hkk

theorem sim_store (c : OnlyFlight k st w tr m p) (hslot : SlotInv w) {r : MailRecord T} {i k' : Nat}
    (hpc : (w.pubs p).pc = .store r i k')
    (hs : pubStep size w.topic p (w.pubs p) (.go now) = some (h', ep')) :
    SimPub k st w tr m p (.go now) h' ep' := by
  obtain ⟨h, hf, hup⟩ := c
  simp only [pubStep, hpc] at hs
  unfold SimPub
  cases hs
  rw [hpc] at hf
  simp only [note, hpc]
  by_cases hkk : k' = k
  · subst hkk
    have hstamped : m.flight = .stamped r := by simpa [flightOf] using hf
    have hnext : flightOf k' st (.visit r (i + 1)) = .passed r ∨
        m.joined = false ∧ flightOf k' st (.visit r (i + 1)) = .coming r := by
      have hstage := h.stage
      cases st with
      | «at» i₀ =>
          obtain rfl := hstage.2 p i (by rw [hpc]; rfl)
          exact .inl (by simp [flightOf, Stage.sight])
      | _ => exact .inr ⟨h.joined, rfl⟩
    refine .inr ⟨.store, _, rfl, .store r _ hstamped hnext, ?_⟩
    refine h.putPub rfl h.accepted (Nat.le_refl _) (fun x hx => .inl hx) ?_ ?_ ?_ rfl rfl
      rfl (.inr (h.not_early hslot (by rw [hpc]; rfl)))
      (hup ((w.pubs p).at' (.visit r (i + 1)))) (fun j hj => by cases hj) h.newest ?_
      h.returned h.charged
    · simp [SubCore.store, h.cell]
    · simp [SubCore.store, h.cell, h.base]
    · simp [SubCore.store, h.cell, h.overwrites]
    · simp [h.stored]
  · left
    have hcore : (w.topic.setCore k' ((w.topic.cores k').store r)).cores k =
        w.topic.cores k := setCore_ne _ _ (Ne.symm hkk)
    refine h.putPub_same rfl rfl (fun x hx => .inl hx) (by rw [hcore]) (by rw [hcore])
      (by rw [hcore]) ?_ (fun j hj => by cases hj) rfl (extend_ne _ _ (Ne.symm hkk)) rfl rfl
    have hsame : m.flight = flightOf k st (.visit r (i + 1)) := by
      rw [hf]
      exact if_neg hkk
    rw [hsame]
    exact hup ((w.pubs p).at' (.visit r (i + 1)))

theorem sim_push (c : OnlyFlight k st w tr m p) {r : MailRecord T} {i k' : Nat}
    (hpc : (w.pubs p).pc = .push r i k')
    (hs : pubStep size w.topic p (w.pubs p) (.go now) = some (h', ep')) :
    SimPub k st w tr m p (.go now) h' ep' := by
  obtain ⟨h, hf, hup⟩ := c
  simp only [pubStep, hpc] at hs
  unfold SimPub
  rw [hpc] at hf
  simp only [note, hpc]
  left
  have hfl : ∀ pc : PubPc T, flightOf k st pc = flightOf k st (.push r i k') →
      Flights k st (Function.update w.pubs p ((w.pubs p).at' pc)) m.flight := by
    intro pc h0
    have := hup ((w.pubs p).at' pc)
    rwa [PubEp.at'_pc, h0, ← hf] at this
  split at hs
  · next q hq =>
    have hkk : k' ≠ k := by
      rintro rfl
      exact by cases hq.symm.trans h.cell
    split at hs <;> cases hs
    · have hcore : ∀ c : SubCore T, (w.topic.setCore k' c).cores k = w.topic.cores k :=
        fun c => setCore_ne _ _ (Ne.symm hkk)
      exact h.putPub_same rfl rfl (fun x hx => .inl hx) (by rw [hcore]) (by rw [hcore])
        (by rw [hcore]) (hfl _ rfl) (fun j hj => by cases hj) rfl rfl rfl rfl
    · exact h.putPub_same rfl rfl (fun x hx => .inl hx) rfl rfl rfl (hfl _ rfl)
        (fun j hj => by cases hj) rfl rfl rfl rfl
  · cases hs
    exact h.putPub_same rfl rfl (fun x hx => .inl hx) rfl rfl rfl (hfl _ rfl)
      (fun j hj => by cases hj) rfl rfl rfl rfl

theorem sim_drop (c : OnlyFlight k st w tr m p) {r : MailRecord T} {i k' : Nat}
    (hpc : (w.pubs p).pc = .drop r i k')
    (hs : pubStep size w.topic p (w.pubs p) (.go now) = some (h', ep')) :
    SimPub k st w tr m p (.go now) h' ep' := by
  obtain ⟨h, hf, hup⟩ := c
  simp only [pubStep, hpc] at hs
  unfold SimPub
  cases hs
  rw [hpc] at hf
  simp only [note, hpc]
  left
  have hfl : Flights k st
      (Function.update w.pubs p ((w.pubs p).at' (.visit r (i + 1)))) m.flight := by
    rw [hf]
    exact hup ((w.pubs p).at' (.visit r (i + 1)))
  by_cases hkk : k' = k
  · subst hkk
    exact h.putPub_same rfl rfl (fun x hx => .inl hx) (by rw [setCore_self])
      (by rw [setCore_self]) (by rw [setCore_self]) hfl (fun j hj => by cases hj) rfl rfl
      rfl rfl
  · have hcore : ∀ c : SubCore T, (w.topic.setCore k' c).cores k = w.topic.cores k :=
      fun c => setCore_ne _ _ (Ne.symm hkk)
    exact h.putPub_same rfl rfl (fun x hx => .inl hx) (by rw [hcore]) (by rw [hcore])
      (by rw [hcore]) hfl (fun j hj => by cases hj) rfl rfl rfl rfl

/-- One publisher step is an event of the mailbox, or none of its business. -/
theorem sim_pub (h : SimAt k st w tr m) (hfly : m.Flying) (hslot : SlotInv w) (hser : PubInv w)
    {a : PubAct T} (hs : pubStep size w.topic p (w.pubs p) a = some (h', ep')) :
    SimPub k st w tr m p a h' ep' := by
  by_cases hair : (w.pubs p).pc.airborne = false ∧ ∀ m₀, (w.pubs p).pc ≠ .draw m₀
  · obtain ⟨hg, hd⟩ := hair
    obtain ⟨h1, h2, h3, h4⟩ := pubStep_grounded hs hg hd
    rw [SimPub, note_grounded hg hd]
    left
    refine h.putPub_same (pubStep_table hs).1 h3 (fun r hr => .inl (h2 ▸ hr)) (by rw [h1])
      (by rw [h1]) (by rw [h1])
      (h.flights.quiet (PubPc.grounded hg k st).1 (PubPc.grounded h4 k st).1) ?_ rfl rfl rfl rfl
    intro j hj
    rw [(PubPc.grounded h4 k st).2] at hj
    cases hj
  have hdel : (w.pubs p).pc.delivering = true := by
    cases hpc : (w.pubs p).pc <;> simp_all [PubPc.airborne, PubPc.delivering]
  obtain ⟨hf, hoth⟩ := h.flights.of_delivering hser hdel
  have c : OnlyFlight k st w tr m p := ⟨h, hf, fun ep' => Flights.update hoth⟩
  cases a with
  | advertise | publish m₀ | destroy =>
      exfalso
      simp only [pubStep] at hs
      cases hpc : (w.pubs p).pc <;> simp_all [PubPc.airborne]
  | go now =>
      cases hpc : (w.pubs p).pc
      case draw m₀ => exact sim_draw c hpc hs
      case master r => exact sim_master c hfly hpc hs
      case visit r i => exact sim_visit c hslot hpc hs
      case base r i k' => exact sim_base c hpc hs
      case stamp r i k' => exact sim_stamp c hslot hpc hs
      case store r i k' => exact sim_store c hslot hpc hs
      case push r i k' => exact sim_push c hpc hs
      case drop r i k' => exact sim_drop c hpc hs
      all_goals exact absurd ⟨by rw [hpc]; rfl, fun m₀ h0 => by rw [hpc] at h0; cases h0⟩ hair

end Publish

/-! ## Subscriber steps -/

/-- A subscriber touches its own core and no ordinal. -/
theorem subStep_others {h h' : Topic T} {k : Nat} {ep ep' : SubEp T} {a : SubAct}
    (hs : subStep h k ep a = some (h', ep')) :
    h'.master = h.master ∧ h'.acceptedOrdinal = h.acceptedOrdinal ∧
      ∀ k', k' ≠ k → h'.cores k' = h.cores k' := by
  cases a with
  | go now =>
      simp only [subStep] at hs
      cases hpc : ep.pc <;> simp only [hpc] at hs
      all_goals
        repeat' split at hs
        all_goals cases hs
        all_goals
          exact ⟨rfl, rfl, fun k' hne => by first | rfl | exact setCore_ne _ _ hne⟩
  | _ =>
      simp only [subStep] at hs
      repeat' split at hs
      all_goals cases hs
      all_goals exact ⟨rfl, rfl, fun _ _ => rfl⟩

theorem note_other (w w' : World T) {k k' : Nat} (a : SubAct) (tr : Trace T) (hne : k ≠ k') :
    let tr' := note w (.sub k' a) w' tr
    tr'.log = tr.log ∧ tr'.stored = tr.stored ∧ tr'.returned k = tr.returned k ∧
      tr'.charged k = tr.charged k := by
  cases a with
  | go now =>
      simp only [note]
      split
      · exact ⟨rfl, rfl, rfl, extend_ne _ _ hne⟩
      · exact ⟨rfl, rfl, extend_ne _ _ hne, rfl⟩
      · exact ⟨rfl, rfl, rfl, rfl⟩
  | _ => exact ⟨rfl, rfl, rfl, rfl⟩

/-- Another subscriber's step. -/
theorem sim_other {k : Nat} {st : Stage} {w : World T} {tr : Trace T} {m : Box T}
    (h : SimAt k st w tr m) (hslot : SlotInv w) {k' : Nat} (hne : k ≠ k') {a : SubAct}
    {h' : Topic T} {ep' : SubEp T} (hs : subStep w.topic k' (w.subs k') a = some (h', ep')) :
    SimAt k st (w.putSub k' h' ep') (note w (.sub k' a) (w.putSub k' h' ep') tr) m := by
  obtain ⟨hm, -⟩ := subStep_wireMove hs
  obtain ⟨hmaster, hacc, hcores⟩ := subStep_others hs
  obtain ⟨hlog, hsto, hret, hchg⟩ := note_other w (w.putSub k' h' ep') a tr hne
  have hcore := hcores k hne
  have hsubs : (w.putSub k' h' ep').subs k = w.subs k := World.putSub_ne _ _ _ _ hne
  have hslots := hm.slots_other hne (hslot k')
  constructor
  case accepted => exact h.accepted.trans hacc.symm
  case cell => rw [World.putSub_topic, hcore]; exact h.cell
  case base => rw [World.putSub_topic, hcore]; exact h.base
  case overwrites => rw [World.putSub_topic, hcore]; exact h.overwrites
  case taking => rw [hsubs]; exact h.taking
  case joined => exact h.joined
  case stage =>
    have hst := h.stage
    cases st with
    | before => exact ⟨fun i h0 => hst.1 i ((hslots i).mp h0), hst.2⟩
    | «at» i => exact ⟨(hslots i).mpr hst.1, hst.2⟩
    | after => exact ⟨fun i h0 => hst.1 i ((hslots i).mp h0), by rw [hsubs]; exact hst.2⟩
  case flights => exact h.flights
  case early => rw [hsubs]; exact h.early
  case fresh => rw [hsubs]; exact h.fresh
  case seeds => rw [hsubs, World.putSub_topic, hmaster, hacc]; exact h.seeds
  case newest => rw [hlog]; exact h.newest
  case stored => rw [hsto]; exact h.stored
  case returned => rw [hret]; exact h.returned
  case charged => rw [hchg]; exact h.charged

/-- The subscriber has cleared its slot. -/
def SubPc.left : SubPc T → Bool
  | .uncount | .leave | .gone => true
  | _ => false

theorem stage_after {w : World T} {k : Nat} (h : StageOf w k .after) :
    (w.subs k).pc.left = true := by
  rcases h.2 with h0 | h0 | h0 <;> rw [h0] <;> rfl

/-- The subscriber's own step, its place in the table unchanged. -/
theorem SimAt.putSub {k : Nat} {st : Stage} {w : World T} {tr tr' : Trace T} {m m' : Box T}
    (h : SimAt k st w tr m) {h' : Topic T} {ep' : SubEp T}
    (hslots : h'.subSlots = w.topic.subSlots)
    (hacc : h'.acceptedOrdinal = w.topic.acceptedOrdinal)
    (hmaster : h'.master = w.topic.master)
    (hcell : (h'.cores k).box = .latest m'.cell)
    (hbase : (h'.cores k).lastConsumedOrdinal = m'.base)
    (hover : (h'.cores k).overwriteCount = m'.overwrites)
    (htaking : ep'.pc.taking = m'.taking)
    (hleft : (w.subs k).pc.left = true → ep'.pc.left = true)
    (hearly : ep'.pc.early = true → m'.base = none ∧ m'.cached = none)
    (hfresh : ep'.pc = .unwired ∨ ep'.pc = .create → m'.cell = none ∧ m'.overwrites = 0)
    (hseed : ∀ r, ep'.pc = .seed r → r.ordinal ≤ w.topic.acceptedOrdinal)
    (hsame : m'.accepted = m.accepted ∧ m'.joined = m.joined ∧ m'.flight = m.flight ∧
      m'.newest = m.newest ∧ m'.stored = m.stored)
    (hlog : tr'.log = tr.log ∧ tr'.stored = tr.stored)
    (hret : m'.returned = tr'.returned k) (hchg : m'.charged = tr'.charged k) :
    SimAt k st (w.putSub k h' ep') tr' m' := by
  obtain ⟨h1, h2, h3, h4, h5⟩ := hsame
  constructor
  case accepted => rw [h1, h.accepted]; exact hacc.symm
  case cell => exact hcell
  case base => exact hbase
  case overwrites => exact hover
  case taking => rw [World.putSub_self]; exact htaking
  case joined => rw [h2]; exact h.joined
  case stage =>
    have hst := h.stage
    cases st with
    | before => exact ⟨fun i => by rw [World.putSub_topic, hslots]; exact hst.1 i, hst.2⟩
    | «at» i => exact ⟨by rw [World.putSub_topic, hslots]; exact hst.1, hst.2⟩
    | after =>
        refine ⟨fun i => by rw [World.putSub_topic, hslots]; exact hst.1 i, ?_⟩
        have := hleft (stage_after hst)
        rw [World.putSub_self]
        cases hpc : ep'.pc <;> rw [hpc] at this <;> simp [SubPc.left] at this ⊢
  case flights => rw [h3]; exact h.flights
  case early => rw [World.putSub_self]; exact hearly
  case fresh => rw [World.putSub_self]; exact hfresh
  case seeds =>
    rw [World.putSub_self, World.putSub_topic, hmaster, hacc]
    exact fun r hr => hr.elim (fun h0 => h.seeds r (.inl h0)) (hseed r)
  case newest => rw [h4, hlog.1]; exact h.newest
  case stored => rw [h5, hlog.2]; exact h.stored
  case returned => exact hret
  case charged => exact hchg

/-- What an event of the subscriber's own asks of the discipline. -/
def OwnEvent (w : World T) (k : Nat) (e : Event T) : Prop :=
  e.benign = true ∨
  (e = .compare ∧ ∃ r stale, (w.subs k).pc = .wired (.base r stale)) ∨
  ∃ late i, e = .join late ∧ (w.subs k).pc = .attach i

theorem sim_take {k : Nat} {st : Stage} {w : World T} {tr : Trace T} {m : Box T}
    (h : SimAt k st w tr m) {t t' : TakePc T} (hpc : (w.subs k).pc = .wired t) {now : Int}
    {c : SubCore T} (hs : takeStep (w.topic.cores k) now t = some (c, t'))
    {w' : World T} (hw' : w' = w.putSub k (w.topic.setCore k c) ((w.subs k).at' (.wired t'))) :
    SimAt k st w' (note w (.sub k (.go now)) w' tr) m ∨
    ∃ e m', OwnEvent w k e ∧ m.Step e m' ∧
      SimAt k st w' (note w (.sub k (.go now)) w' tr) m' := by
  subst hw'
  have hcell := h.cell
  have hbase := h.base
  have hover := h.overwrites
  have htak := h.taking
  rw [hpc] at htak
  -- an access that leaves the mailbox's view of the core alone
  have hput : ∀ {m' : Box T} {tr' : Trace T}, c.box = .latest m'.cell →
      c.lastConsumedOrdinal = m'.base → c.overwriteCount = m'.overwrites →
      t'.taking = m'.taking →
      (m'.accepted = m.accepted ∧ m'.joined = m.joined ∧ m'.flight = m.flight ∧
        m'.newest = m.newest ∧ m'.stored = m.stored) →
      (tr'.log = tr.log ∧ tr'.stored = tr.stored) → m'.returned = tr'.returned k →
      m'.charged = tr'.charged k →
      SimAt k st (w.putSub k (w.topic.setCore k c) ((w.subs k).at' (.wired t'))) tr' m' := by
    intro m' tr' h1 h2 h3 h4 h5 h6 h7 h8
    refine h.putSub rfl rfl rfl (by rw [setCore_self]; exact h1)
      (by rw [setCore_self]; exact h2) (by rw [setCore_self]; exact h3) h4 ?_
      (fun h0 => nomatch h0) ?_ (fun r h0 => nomatch h0) h5 h6 h7 h8
    · intro h0
      rw [hpc] at h0
      cases h0
    · rintro (h0 | h0) <;> cases h0
  cases t with
  | idle => cases hs
  | load =>
      simp only [takeStep, hcell] at hs
      simp only [note, hpc]
      split at hs
      · next r hr =>
          cases hs
          have hr' : m.cell = some r := by injection hr
          refine .inr ⟨.load r, _, .inl rfl, .load r htak.symm (.inl hr'), ?_⟩
          exact hput hcell hbase hover rfl ⟨rfl, rfl, rfl, rfl, rfl⟩ ⟨rfl, rfl⟩ h.returned
            h.charged
      · cases hs
        exact .inl (hput hcell hbase hover htak ⟨rfl, rfl, rfl, rfl, rfl⟩ ⟨rfl, rfl⟩
          h.returned h.charged)
  | pop =>
      simp only [takeStep, hcell] at hs
      cases hs
      simp only [note, hpc]
      exact .inl (hput hcell hbase hover htak ⟨rfl, rfl, rfl, rfl, rfl⟩ ⟨rfl, rfl⟩
        h.returned h.charged)
  | count r =>
      simp only [takeStep, hcell] at hs
      cases hs
      simp only [note, hpc]
      exact .inl (hput rfl hbase hover htak ⟨rfl, rfl, rfl, rfl, rfl⟩ ⟨rfl, rfl⟩
        h.returned h.charged)
  | base r stale =>
      simp only [takeStep, hbase] at hs
      simp only [note, hpc]
      have hev : OwnEvent w k .compare := .inr (.inl ⟨rfl, r, stale, hpc⟩)
      split at hs
      · next hb =>
          cases hs
          refine .inr ⟨.compare, _, hev, .compareUnset r htak.symm hb, ?_⟩
          exact hput hcell hbase hover rfl ⟨rfl, rfl, rfl, rfl, rfl⟩ ⟨rfl, rfl⟩ h.returned
            h.charged
      · next b hb =>
          split at hs
          · next hlt =>
              cases hs
              refine .inr ⟨.compare, _, hev, .compareNew r b htak.symm hb hlt, ?_⟩
              exact hput hcell hbase hover rfl ⟨rfl, rfl, rfl, rfl, rfl⟩ ⟨rfl, rfl⟩ h.returned
                h.charged
          · next hge =>
              cases hs
              refine .inr ⟨.compare, _, hev, .compareOld r b htak.symm hb (by omega), ?_⟩
              exact hput hcell hbase hover rfl ⟨rfl, rfl, rfl, rfl, rfl⟩ ⟨rfl, rfl⟩ h.returned
                h.charged
  | charge r stale last =>
      cases hs
      simp only [note, hpc]
      refine .inr ⟨.charge, _, .inl rfl, .charge r last htak.symm, ?_⟩
      exact hput hcell hbase (by rw [hover]) rfl ⟨rfl, rfl, rfl, rfl, rfl⟩ ⟨rfl, rfl⟩
        h.returned (by simp only [extend_self, h.charged])
  | store r stale =>
      cases hs
      simp only [note, hpc]
      refine .inr ⟨.advance, _, .inl rfl, .advance r htak.symm, ?_⟩
      exact hput hcell rfl hover rfl ⟨rfl, rfl, rfl, rfl, rfl⟩ ⟨rfl, rfl⟩ h.returned
        h.charged
  | latch r stale =>
      cases hs
      simp only [note, hpc]
      exact .inl (hput hcell hbase hover htak ⟨rfl, rfl, rfl, rfl, rfl⟩ ⟨rfl, rfl⟩
        h.returned h.charged)
  | ret res =>
      cases hs
      cases res with
      | none =>
          simp only [note, hpc]
          exact .inl (hput hcell hbase hover htak ⟨rfl, rfl, rfl, rfl, rfl⟩ ⟨rfl, rfl⟩
            h.returned h.charged)
      | some x =>
          obtain ⟨r, stale⟩ := x
          simp only [note, hpc]
          refine .inr ⟨.ret, _, .inl rfl, .ret r htak.symm, ?_⟩
          exact hput hcell hbase hover rfl ⟨rfl, rfl, rfl, rfl, rfl⟩ ⟨rfl, rfl⟩
            (by simp only [extend_self, h.returned]) h.charged

theorem note_quiet {w w' : World T} {k : Nat} {a : SubAct} {tr : Trace T}
    (h : ∀ t, (w.subs k).pc = .wired t → ∀ now, a ≠ .go now) :
    note w (.sub k a) w' tr = tr := by
  cases a with
  | go now =>
      cases hpc : (w.subs k).pc <;> simp only [note, hpc]
      next t => exact absurd rfl (h t hpc now)
  | _ => rfl

/-- Changing the subscriber's stage changes the view of the one publish in
flight. -/
theorem Flights.restage {k : Nat} {st st' : Stage} {pubs : Nat → PubEp T} {f : Flight T}
    {P : Flight T → Flight T → Prop} (h : Flights k st pubs f)
    (hser : ∀ p q, (pubs p).pc.delivering = true → (pubs q).pc.delivering = true → p = q)
    (hP : P .quiet .quiet)
    (hview : ∀ p, P (flightOf k st (pubs p).pc) (flightOf k st' (pubs p).pc))
    (hground : ∀ pc : PubPc T, flightOf k st pc = .quiet → flightOf k st' pc = .quiet) :
    ∃ g, P f g ∧ Flights k st' pubs g := by
  by_cases hq : f = .quiet
  · subst hq
    exact ⟨.quiet, hP, fun p => .inl (hground _ ((h.1 p).elim id id)), fun h0 => absurd rfl h0⟩
  · obtain ⟨p, hp⟩ := h.2 hq
    have hdel : (pubs p).pc.delivering = true := delivering_of_flight (hp ▸ hq)
    have hoth : ∀ q, q ≠ p → flightOf k st' (pubs q).pc = .quiet := by
      intro q hne
      by_contra h0
      exact hne (hser q p (delivering_of_flight h0) hdel)
    refine ⟨flightOf k st' (pubs p).pc, hp ▸ hview p, fun q => ?_, fun _ => ⟨p, rfl⟩⟩
    by_cases e : q = p
    · exact .inr (by rw [e])
    · exact .inl (hoth q e)

theorem sight_ne_quiet {st : Stage} {r : MailRecord T} {ahead : Nat → Bool} :
    st.sight r ahead ≠ .quiet := by
  cases st with
  | «at» i =>
      simp only [Stage.sight]
      split <;> exact fun h0 => nomatch h0
  | _ => exact fun h0 => nomatch h0

theorem flightOf_quiet {k : Nat} {st : Stage} {pc : PubPc T} :
    flightOf k st pc = .quiet ↔ pc.airborne = false := by
  constructor
  · intro h
    cases pc <;> simp only [flightOf, PubPc.airborne] at h ⊢
    case master | visit | push | drop => exact absurd h sight_ne_quiet
    case base | stamp | store =>
      split at h
      · cases h
      · exact absurd h sight_ne_quiet
  · exact fun h => (PubPc.grounded h k st).1

/-- Attaching, seen from the publish in flight: it has still to look at the slot
or is past it. -/
theorem Flights.join {k i : Nat} {pubs : Nat → PubEp T} {f : Flight T}
    (h : Flights k .before pubs f) (hser : ∀ p q, (pubs p).pc.delivering = true →
      (pubs q).pc.delivering = true → p = q)
    (hptr : ∀ p j, (pubs p).pc.pointer? ≠ some (j, k)) :
    ∃ g, (g = f ∨ ∃ r, f = .coming r ∧ g = .passed r) ∧ Flights k (.at i) pubs g := by
  refine h.restage (P := fun f g => g = f ∨ ∃ r, f = .coming r ∧ g = .passed r) hser
    (.inl rfl) (fun p => ?_) (fun pc h0 => flightOf_quiet.mpr (flightOf_quiet.mp h0))
  -- nobody holds a pointer to a subscriber that is not in the table
  have hp := hptr p
  cases hpc : (pubs p).pc <;> rw [hpc] at hp
  case visit r j =>
    by_cases hj : j ≤ i
    · exact .inl (by simp [flightOf, Stage.sight, hj])
    · exact .inr ⟨r, rfl, by simp [flightOf, Stage.sight, hj]⟩
  case base r j k' | stamp r j k' | store r j k' =>
    have hne : k' ≠ k := by
      rintro rfl
      exact hp j rfl
    by_cases hj : j < i
    · exact .inl (by simp [flightOf, Stage.sight, hj])
    · exact .inr ⟨r, by simp [flightOf, Stage.sight, hne], by
        simp [flightOf, Stage.sight, hne, hj]⟩
  case push r j k' | drop r j k' =>
    by_cases hj : j < i
    · exact .inl (by simp [flightOf, Stage.sight, hj])
    · exact .inr ⟨r, rfl, by simp [flightOf, Stage.sight, hj]⟩
  all_goals exact .inl rfl

/-- Leaving the table: whatever is in flight and not already here is nobody's
business any more. -/
theorem Flights.leave {k i : Nat} {pubs : Nat → PubEp T} {f : Flight T}
    (h : Flights k (.at i) pubs f) (hser : ∀ p q, (pubs p).pc.delivering = true →
      (pubs q).pc.delivering = true → p = q) :
    ∃ g, (g = f ∨ ∃ r, f = .passed r ∧ g = .coming r) ∧ Flights k .after pubs g := by
  refine h.restage (P := fun f g => g = f ∨ ∃ r, f = .passed r ∧ g = .coming r) hser
    (.inl rfl) (fun p => ?_) (fun pc h0 => flightOf_quiet.mpr (flightOf_quiet.mp h0))
  cases hpc : (pubs p).pc
  case visit r j =>
    by_cases hj : j ≤ i
    · exact .inl (by simp [flightOf, Stage.sight, hj])
    · exact .inr ⟨r, by simp [flightOf, Stage.sight, hj], rfl⟩
  case base r j k' | stamp r j k' | store r j k' =>
    by_cases hne : k' = k
    · exact .inl (by simp [flightOf, hne])
    by_cases hj : j < i
    · exact .inl (by simp [flightOf, Stage.sight, hj])
    · exact .inr ⟨r, by simp [flightOf, Stage.sight, hne, hj], by
        simp [flightOf, Stage.sight, hne]⟩
  case push r j k' | drop r j k' =>
    by_cases hj : j < i
    · exact .inl (by simp [flightOf, Stage.sight, hj])
    · exact .inr ⟨r, by simp [flightOf, Stage.sight, hj], rfl⟩
  all_goals exact .inl rfl

/-- A step on the way in or out that is no event. -/
theorem SimAt.putSub_quiet {k : Nat} {st : Stage} {w : World T} {tr : Trace T} {m : Box T}
    (h : SimAt k st w tr m) {pc pc' : SubPc T} {h' : Topic T} (hpc : (w.subs k).pc = pc)
    (hslots : h'.subSlots = w.topic.subSlots)
    (haccepted : h'.acceptedOrdinal = w.topic.acceptedOrdinal)
    (hmaster : h'.master = w.topic.master) (hcores : h'.cores = w.topic.cores)
    (htaking : pc'.taking = pc.taking) (hleft : pc.left = true → pc'.left = true)
    (hearly : pc'.early = true → pc.early = true)
    (hfresh : pc' = .unwired ∨ pc' = .create → pc = .unwired ∨ pc = .create)
    (hseed : ∀ r, pc' = .seed r → w.topic.master = some r) :
    SimAt k st (w.putSub k h' ((w.subs k).at' pc')) tr m := by
  subst hpc
  exact h.putSub hslots haccepted hmaster (by rw [hcores]; exact h.cell)
    (by rw [hcores]; exact h.base) (by rw [hcores]; exact h.overwrites) (htaking.trans h.taking)
    hleft (fun h0 => h.early (hearly h0)) (fun h0 => h.fresh (hfresh h0))
    (fun r hr => h.seeds r (.inl (hseed r hr))) ⟨rfl, rfl, rfl, rfl, rfl⟩ ⟨rfl, rfl⟩ h.returned
    h.charged

section Own

variable {k : Nat} {st : Stage} {w : World T} {tr : Trace T} {m : Box T}

theorem sim_create (h : SimAt k st w tr m) (hlat : (w.subs k).qos.history.isLatest = true)
    (hpc : (w.subs k).pc = .create) :
    SimAt k st (w.putSub k (w.topic.setCore k (.new (w.subs k).qos)) ((w.subs k).at'
      (if (w.subs k).qos.history.isLatest then .loadMaster else .scan 0))) tr m := by
  have hb := (h.early (by rw [hpc]; rfl)).1
  have hf := h.fresh (.inr hpc)
  have hnew : (SubCore.new (w.subs k).qos : SubCore T).box = .latest none := by
    cases hh : (w.subs k).qos.history with
    | latestOnly => simp [SubCore.new, hh]
    | queue d => rw [hh] at hlat; cases hlat
  refine h.putSub rfl rfl rfl ?_ ?_ ?_ ?_ ?_ (fun _ => h.early (by rw [hpc]; rfl)) ?_ ?_
    ⟨rfl, rfl, rfl, rfl, rfl⟩ ⟨rfl, rfl⟩ h.returned h.charged
  · rw [setCore_self, hnew, hf.1]
  · rw [setCore_self, hb]; rfl
  · rw [setCore_self, hf.2]; rfl
  · rw [hlat]
    exact (by rw [hpc] : SubPc.taking (.create : SubPc T) = _).trans h.taking
  · rw [hpc]
    exact fun h0 => nomatch h0
  · rw [hlat]
    rintro (h0 | h0) <;> cases h0
  · rw [hlat]
    exact fun r h0 => nomatch h0

theorem sim_seed (h : SimAt k st w tr m) (hslot : SlotInv w) {r : MailRecord T}
    (hpc : (w.subs k).pc = .seed r) :
    ∃ e m' st', OwnEvent w k e ∧ m.Step e m' ∧
      SimAt k st' (w.putSub k (w.topic.setCore k ((w.topic.cores k).store r))
        ((w.subs k).at' (.scan 0))) tr m' := by
  obtain ⟨hb, hc⟩ := h.early (by rw [hpc]; rfl)
  have hr : r.ordinal ≤ m.accepted := h.accepted ▸ h.seeds r (.inr hpc)
  have hj : m.joined = false := by
    have hstage := h.stage
    rw [h.joined]
    cases st with
    | «at» i => exact absurd hstage.1 (hslot.not_attached (by rw [hpc]; rfl) i)
    | _ => rfl
  refine ⟨.seed r, _, st, .inl rfl, .seed r hj hb hc hr, ?_⟩
  refine h.putSub rfl rfl rfl ?_ ?_ ?_ ?_ ?_ (fun _ => ⟨hb, hc⟩) ?_ (fun x h0 => nomatch h0)
    ⟨rfl, rfl, rfl, rfl, rfl⟩ ⟨rfl, rfl⟩ h.returned h.charged
  · simp [SubCore.store, h.cell]
  · simp [SubCore.store, h.cell, h.base]
  · simp [SubCore.store, h.cell, h.overwrites]
  · exact (by rw [hpc]; rfl : _ = (w.subs k).pc.taking).trans h.taking
  · rw [hpc]
    exact fun h0 => nomatch h0
  · rintro (h0 | h0) <;> cases h0

/-- A store into the table, after which the subscriber is at stage `st'`. -/
theorem SimAt.putSub_stage (h : SimAt k st w tr m) {st' : Stage} {i : Nat} {o : Option Nat}
    {pc' : SubPc T} {g : Flight T} (htaking : pc'.taking = (w.subs k).pc.taking)
    (hearly : pc'.early = false) (hseed : ∀ r, pc' ≠ .seed r)
    (hstage : StageOf (w.putSub k (w.topic.setSlot i o) ((w.subs k).at' pc')) k st')
    (hflight : Flights k st' w.pubs g) :
    SimAt k st' (w.putSub k (w.topic.setSlot i o) ((w.subs k).at' pc')) tr
      { m with joined := st'.joined, flight := g } := by
  constructor
  case accepted => exact h.accepted
  case cell => exact h.cell
  case base => exact h.base
  case overwrites => exact h.overwrites
  case taking =>
    rw [World.putSub_self]
    exact htaking.trans h.taking
  case joined => rfl
  case stage => exact hstage
  case flights => exact hflight
  case early =>
    rw [World.putSub_self, SubEp.at'_pc, hearly]
    exact fun h0 => nomatch h0
  case fresh =>
    rw [World.putSub_self, SubEp.at'_pc]
    rintro (rfl | rfl) <;> cases hearly
  case seeds =>
    intro r hr
    rcases hr with hr | hr
    · exact h.seeds r (.inl hr)
    · rw [World.putSub_self] at hr
      exact absurd hr (hseed r)
  case newest => exact h.newest
  case stored => exact h.stored
  case returned => exact h.returned
  case charged => exact h.charged

/-- Attaching. What is in flight was drawn before, and has looked at the slot or not. -/
theorem sim_attach (h : SimAt k st w tr m) (hslot : SlotInv w) (hser : PubInv w) {i : Nat}
    (hpc : (w.subs k).pc = .attach i) :
    ∃ e m' st', OwnEvent w k e ∧ m.Step e m' ∧
      SimAt k st' (w.putSub k (w.topic.setSlot i (some k)) ((w.subs k).at' .retain)) tr m' := by
  obtain ⟨hb, hc⟩ := h.early (by rw [hpc]; rfl)
  obtain ⟨hn, hi⟩ := (hslot k).attach i hpc
  have hnot : ∀ j, w.topic.subSlots j ≠ some k :=
    hslot.not_attached (by rw [hpc]; rfl)
  -- not in the table and not past it: nobody can be holding a pointer
  have hst : st = .before := by
    have hstage := h.stage
    cases st with
    | before => rfl
    | «at» j => exact absurd hstage.1 (hnot j)
    | after =>
        have := stage_after hstage
        rw [hpc] at this
        cases this
  subst hst
  have hptr := h.stage.2
  obtain ⟨g, hg, hfl⟩ := Flights.join (i := i) h.flights
    (fun _ _ => hser.serialized) hptr
  have hsim : SimAt k (.at i) (w.putSub k (w.topic.setSlot i (some k))
      ((w.subs k).at' .retain)) tr { m with joined := true, flight := g } := by
    refine h.putSub_stage (by rw [hpc]; rfl) rfl (fun r h0 => nomatch h0) ?_ hfl
    refine ⟨?_, fun p j hp => absurd hp (hptr p j)⟩
    simp [Topic.setSlot]
  rcases hg with rfl | ⟨r, hr, rfl⟩
  · exact ⟨.join false, _, .at i, .inr (.inr ⟨false, i, rfl, hpc⟩), .join hb hc, hsim⟩
  · exact ⟨.join true, _, .at i, .inr (.inr ⟨true, i, rfl, hpc⟩),
      .joinLate r hb hc hr, hsim⟩

theorem sim_clear (h : SimAt k st w tr m) (hslot : SlotInv w) (hser : PubInv w) {i : Nat}
    (hpc : (w.subs k).pc = .clear i) :
    ∃ e m' st', OwnEvent w k e ∧ m.Step e m' ∧
      SimAt k st' (w.putSub k (w.topic.setSlot i none) ((w.subs k).at' .uncount)) tr m' := by
  have hi : w.topic.subSlots i = some k := (hslot k).clear i hpc
  have hst : st = .at i := by
    have hstage := h.stage
    cases st with
    | before => exact absurd hi (hstage.1 i)
    | «at» j => rw [(hslot k).unique j i hstage.1 hi]
    | after => exact absurd hi (hstage.1 i)
  subst hst
  obtain ⟨g, hg, hfl⟩ := Flights.leave h.flights (fun _ _ => hser.serialized)
  refine ⟨.leave, _, .after, .inl rfl, .leave g hg, ?_⟩
  refine h.putSub_stage (by rw [hpc]; rfl) rfl (fun r h0 => nomatch h0) ?_ hfl
  refine ⟨fun j hj => ?_, .inl (by rw [World.putSub_self]; rfl)⟩
  by_cases e : j = i
  · simp [Topic.setSlot, e] at hj
  · simp only [World.putSub_topic, Topic.setSlot, Function.update_of_ne e] at hj
    exact e ((hslot k).unique j i hj hi)

/-- One step of the subscriber itself. -/
theorem sim_own (h : SimAt k st w tr m) (hslot : SlotInv w) (hser : PubInv w)
    (hlat : (w.subs k).qos.history.isLatest = true) {a : SubAct} {h' : Topic T}
    {ep' : SubEp T} (hs : subStep w.topic k (w.subs k) a = some (h', ep'))
    {w' : World T} (hw' : w' = w.putSub k h' ep') :
    SimAt k st w' (note w (.sub k a) w' tr) m ∨
    ∃ e m' st', OwnEvent w k e ∧ m.Step e m' ∧
      SimAt k st' w' (note w (.sub k a) w' tr) m' := by
  have hno : ∀ {pc pc' : SubPc T}, pc' ≠ .unwired → pc' ≠ .create →
      pc' = .unwired ∨ pc' = .create → pc = .unwired ∨ pc = .create :=
    fun h1 h2 h0 => (h0.elim h1 h2).elim
  subst hw'
  cases a with
  | subscribe =>
      simp only [note]
      simp only [subStep] at hs
      split at hs
      · next hpc hm =>
          cases hs
          exact .inl (h.putSub_quiet hpc rfl rfl rfl rfl rfl (fun h0 => by cases h0) (fun _ => rfl)
            (fun _ => .inl rfl) (fun r h0 => by cases h0))
      · cases hs
  | takeLatest | tryTake | destroy =>
      simp only [note]
      simp only [subStep] at hs
      split at hs
      · next hpc hm =>
          cases hs
          exact .inl (h.putSub_quiet hpc rfl rfl rfl rfl rfl (fun h0 => by cases h0)
            (fun h0 => by cases h0) (hno (by simp) (by simp)) (fun r h0 => by cases h0))
      · cases hs
  | go now =>
      by_cases hwired : ∃ t, (w.subs k).pc = .wired t
      · obtain ⟨t, hpc⟩ := hwired
        simp only [subStep, hpc] at hs
        split at hs
        · next c t' ht =>
            cases hs
            rcases sim_take h hpc ht rfl with h0 | ⟨e, m', he, hm, h0⟩
            · exact .inl h0
            · exact .inr ⟨e, m', st, he, hm, h0⟩
        · cases hs
      rw [note_quiet (fun t ht => absurd ⟨t, ht⟩ hwired)]
      simp only [subStep] at hs
      cases hpc : (w.subs k).pc <;> simp only [hpc] at hs
      case unwired | gone => cases hs
      case wired t => exact absurd ⟨t, hpc⟩ hwired
      case create =>
        cases hs
        exact .inl (sim_create h hlat hpc)
      case loadMaster =>
        left
        split at hs <;> cases hs
        · next r hr =>
          refine h.putSub_quiet hpc rfl rfl rfl rfl rfl (fun h0 => by cases h0) (fun _ => rfl)
            (hno (by simp) (by simp)) ?_
          rintro x h0
          cases h0
          exact hr
        · exact h.putSub_quiet hpc rfl rfl rfl rfl rfl (fun h0 => by cases h0) (fun _ => rfl)
            (hno (by simp) (by simp)) (fun x h0 => by cases h0)
      case seed r =>
        cases hs
        exact .inr (sim_seed h hslot hpc)
      case scan i =>
        left
        repeat' split at hs
        all_goals cases hs
        all_goals
          exact h.putSub_quiet hpc rfl rfl rfl rfl rfl (fun h0 => by cases h0) (fun _ => rfl)
            (hno (by simp) (by simp)) (fun x h0 => by cases h0)
      case attach i =>
        cases hs
        exact .inr (sim_attach h hslot hser hpc)
      case retain | unlock =>
        cases hs
        exact .inl (h.putSub_quiet hpc rfl rfl rfl rfl rfl (fun h0 => by cases h0)
          (fun h0 => by cases h0) (hno (by simp) (by simp)) (fun x h0 => by cases h0))
      case uncount | leave =>
        cases hs
        exact .inl (h.putSub_quiet hpc rfl rfl rfl rfl rfl (fun _ => rfl)
          (fun h0 => by cases h0) (hno (by simp) (by simp)) (fun x h0 => by cases h0))
      case find i =>
        left
        repeat' split at hs
        all_goals cases hs
        all_goals
          exact h.putSub_quiet hpc rfl rfl rfl rfl rfl (fun h0 => by cases h0)
            (fun h0 => by cases h0) (hno (by simp) (by simp)) (fun x h0 => by cases h0)
      case clear i =>
        cases hs
        exact .inr (sim_clear h hslot hser hpc)

end Own

/-! ## The simulation, assembled -/

theorem simAt_start {w : World T} (hw : w.Fresh) (k : Nat) : SimAt k .before w {} {} := by
  obtain ⟨ht, hsub, hpub⟩ := hw
  have hq : ∀ p, flightOf k .before (w.pubs p).pc = .quiet := by
    intro p
    rw [(hpub p).1]
    rfl
  constructor
  case accepted => rw [ht]
  case cell => rw [ht]; rfl
  case base => rw [ht]; rfl
  case overwrites => rw [ht]; rfl
  case taking => rw [hsub]; rfl
  case joined => rfl
  case stage =>
    refine ⟨fun i => ?_, fun p j => ?_⟩
    · rw [ht]
      exact fun h0 => nomatch h0
    · rw [(hpub p).1]
      exact fun h0 => nomatch h0
  case flights => exact ⟨fun p => .inl (hq p), fun h0 => absurd rfl h0⟩
  case early => exact fun _ => ⟨rfl, rfl⟩
  case fresh => exact fun _ => ⟨rfl, rfl⟩
  case seeds =>
    intro r hr
    rw [ht, hsub] at hr
    rcases hr with hr | hr <;> cases hr
  case newest => rfl
  case stored => rfl
  case returned => rfl
  case charged => rfl

/-- One step of the topic, for one latest-only subscriber. -/
theorem sim_step {k : Nat} {st : Stage} {w w' : World T} {tr : Trace T} {m : Box T}
    (h : SimAt k st w tr m) (hfly : m.Flying) (hslot : SlotInv w) (hser : PubInv w)
    (hlat : (w.subs k).qos.history.isLatest = true) {a : Act T}
    (hs : w.step size a = some w') :
    SimAt k st w' (note w a w' tr) m ∨
    ∃ e m' st', (e.benign = true ∨ OwnEvent w k e ∧ ∃ now, a = .sub k (.go now)) ∧
      m.Step e m' ∧ SimAt k st' w' (note w a w' tr) m' := by
  rcases step_cases hs with ⟨k', b, h', ep', rfl, hst, rfl⟩ | ⟨p, b, h', ep', rfl, hst, rfl⟩
  · by_cases hk : k = k'
    · subst hk
      rcases sim_own h hslot hser hlat hst rfl with h0 | ⟨e, m', st', he, hm, h0⟩
      · exact .inl h0
      · refine .inr ⟨e, m', st', ?_, hm, h0⟩
        by_cases hbe : e.benign = true
        · exact .inl hbe
        · refine .inr ⟨he, ?_⟩
          -- only an access of the subscriber can be a comparison or a join
          have hpc : (∃ r stale, (w.subs k).pc = .wired (.base r stale)) ∨
              ∃ i, (w.subs k).pc = .attach i := by
            rcases he with h1 | ⟨-, h1⟩ | ⟨-, i, -, h1⟩
            · exact absurd h1 hbe
            · exact .inl h1
            · exact .inr ⟨i, h1⟩
          cases b with
          | go now => exact ⟨now, rfl⟩
          | _ =>
              rcases hpc with ⟨r, stale, hpc⟩ | ⟨i, hpc⟩ <;> simp [subStep, hpc] at hst
    · exact .inl (sim_other h hslot hk hst)
  · rcases sim_pub h hfly hslot hser hst with h0 | ⟨e, m', he, hm, h0⟩
    · exact .inl h0
    · exact .inr ⟨e, m', st, .inl he, hm, h0⟩

theorem step_qos {w w' : World T} {a : Act T} (hs : w.step size a = some w') (k : Nat) :
    (w'.subs k).qos = (w.subs k).qos := by
  rcases step_cases hs with ⟨k', b, h', ep', rfl, hst, rfl⟩ | ⟨p, b, h', ep', rfl, hst, rfl⟩
  · by_cases hk : k = k'
    · subst hk
      rw [World.putSub_self]
      exact (subStep_wireMove hst).2
    · rw [World.putSub_ne _ _ _ _ hk]
  · rfl

/-- An invariant of mailboxes holds of every latest-only subscriber of a topic
whose steps meet the discipline. -/
theorem mailbox_reached {ok : World T → Act T → Prop} (Q : Box T → Prop)
    (ok' : Box T → Event T → Prop) (hQ : ∀ m e m', Q m → ok' m e → m.Step e m' → Q m')
    (h0 : Q {}) (k : Nat)
    (hok : ∀ w a w' tr m st e m' st', (traced T size).Reached (fun q a => ok q.1 a) (w, tr) →
      (w.subs k).qos.history.isLatest = true → ok w a → w.step size a = some w' →
      SimAt k st w tr m → m.Step e m' → SimAt k st' w' (note w a w' tr) m' →
      (e.benign = true ∨ OwnEvent w k e ∧ ∃ now, a = .sub k (.go now)) → ok' m e)
    {q : World T × Trace T} (hq : (traced T size).Reached (fun q a => ok q.1 a) q)
    (hlat : (q.1.subs k).qos.history.isLatest = true) :
    ∃ m st, Q m ∧ m.Flying ∧ SimAt k st q.1 q.2 m := by
  have hsim := hq.simulate
    (fun q m => (q.1.subs k).qos.history.isLatest = true → ∃ st, SimAt k st q.1 q.2 m)
    (fun m : Box T => Q m ∧ m.Flying) (fun m m' => ∃ e, ok' m e ∧ m.Step e m')
    (fun m m' hm ⟨e, he, hst⟩ => ⟨hQ m e m' hm.1 he hst, Box.flying_step hm.2 hst⟩)
    (fun q hs => ⟨{}, ⟨h0, fun r hr => nomatch hr⟩, fun _ =>
      ⟨.before, hs.2 ▸ simAt_start hs.1 k⟩⟩) ?_
  · obtain ⟨m, ⟨hm, hf⟩, hr⟩ := hsim
    obtain ⟨st, hst⟩ := hr hlat
    exact ⟨m, st, hm, hf, hst⟩
  · intro q a q' m hr hoka hst hm hrel
    obtain ⟨hs, htr⟩ := Machine.withHistory_step hst
    have hr' := Machine.reached_fst hr
    by_cases hl : (q.1.subs k).qos.history.isLatest = true
    · obtain ⟨st, hsim⟩ := hrel hl
      rcases sim_step hsim hm.2 (slotInv_reached hr') (pubInv_reached hr') hl hs with
        h1 | ⟨e, m', st', he, hmm, h1⟩
      · exact .inl fun _ => ⟨st, htr ▸ h1⟩
      · exact .inr ⟨m', ⟨e, hok _ _ _ _ _ _ _ _ _ hr hl hoka hs hsim hmm h1 he, hmm⟩,
          fun _ => ⟨st', htr ▸ h1⟩⟩
    · exact .inl fun hl' => absurd (step_qos hs k ▸ hl') hl

end Xmmsg.InProc
