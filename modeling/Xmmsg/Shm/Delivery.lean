import Xmmsg.Shm.Owner
import Xmmsg.Mail.Box

/-!
# A segment, as one latest-only subscriber sees it

The shm half of the mailbox story: every step of the segment is an event of the
subscriber's mailbox or none of its business. The subscriber is followed from
before its claim to the first store of its destructor, for as long as its process
lives, in runs that keep the slots and their regions exclusive.

A slot is recycled, so the mailbox takes shape while its region is initialised:
`progress` counts the accesses of `ClaimSubscriberSlot` done so far, and `Opened`
says which words of the region already are the mailbox's.
-/

namespace Xmmsg.Shm

open Xmmsg.Sys Xmmsg.Mail

variable {T : Type} {size : Nat}

/-! ## The record of a run -/

/-- What a step adds to the record of the run. A store or stamp counts for the
endpoint wired at the slot. -/
def note (w : World T) (a : Act T) (_ : World T) (tr : Trace T) : Trace T :=
  match a with
  | .pub p .go =>
      match (w.pubs p).pc with
      | .draw m => { tr with log := tr.log ++ [m.record (w.seg.acceptedOrdinal + 1)] }
      | .stamp r i =>
          if (w.seg.subSlots i).lastConsumedOrdinal = none then
            { tr with origin := fun e =>
                if (w.subs e).pc.wiredAt = some i then some (r.ordinal - 1)
                else tr.origin e }
          else tr
      | .cellEnd r i =>
          { tr with stored := fun e =>
              if (w.subs e).pc.wiredAt = some i then tr.stored e ++ [r.ordinal]
              else tr.stored e }
      | _ => tr
  | .sub e (.go _) =>
      match (w.subs e).pc with
      | .wired _ (.charge r _ last) =>
          let gap := List.range' (last + 1) (r.ordinal - last - 1)
          { tr with charged := extend tr.charged e gap }
      | .wired _ (.ret (some (r, _))) =>
          { tr with returned := extend tr.returned e [r.ordinal] }
      | _ => tr
  | _ => tr

/-- The machine with its trace. -/
def traced (T : Type) (size : Nat) : Machine (World T × Trace T) (Act T) :=
  (machine T size).withHistory {} note

/-! ## Views -/

/-- What a load of the cell gives. -/
def Cell.value : Cell T → Option (MailRecord T)
  | .full r => some r
  | _ => none

@[simp] theorem Cell.value_repair (c : Cell T) : c.repair.value = c.value := by
  cases c <;> rfl

/-- A fan-out that is not at this subscriber's slot, if it has one. -/
def sight (st : Option Nat) (r : MailRecord T) (ahead : Nat → Bool) : Flight T :=
  match st with
  | some i => if ahead i then .coming r else .passed r
  | none => .coming r

/-- The publish in flight as the subscriber wired at `st` sees it. -/
def flightOf (st : Option Nat) : PubPc T → Flight T
  | .masterBegin r | .masterEnd r => sight st r fun _ => true
  | .loadState r j => sight st r fun i => decide (j ≤ i)
  | .loadKind r j | .loadBase r j | .stamp r j =>
      if st = some j then .here r else sight st r fun i => decide (j < i)
  | .cellBegin r j | .cellEnd r j =>
      if st = some j then .stamped r else sight st r fun i => decide (j < i)
  | .push r j | .drop r j => sight st r fun i => decide (j < i)
  | _ => .quiet

/-- The flight of a publisher that lives. -/
def World.flight (w : World T) (st : Option Nat) (p : Nat) : Flight T :=
  if w.alive (w.pubs p).pid then flightOf st (w.pubs p).pc else .quiet

def TakePc.taking : TakePc T → Taking T
  | .idle | .load | .pop | .ret none => .idle
  | .count r | .miss r _ | .base r _ => .got r
  | .charge r _ last => .charging r last
  | .store r _ => .storing r
  | .ret (some (r, _)) => .returning r

def SubPc.taking : SubPc T → Taking T
  | .wired _ t => t.taking
  | _ => .idle

/-- How far the claim has come with the slot. -/
def SubPc.progress : SubPc T → Nat
  | .storeKind _ => 1
  | .storeDepth _ => 2
  | .storeBase _ => 3
  | .storeTake _ => 4
  | .storeDrop _ => 5
  | .storeOverwrite _ => 6
  | .storeMiss _ => 7
  | .initLatest _ | .initRing _ => 8
  | .loadMaster _ => 9
  | .seedBegin _ _ => 10
  | .seedEnd _ _ => 11
  | .storeActive _ => 12
  | .wired _ _ => 13
  | _ => 0

/-- The slot an endpoint is looking at or holds. -/
def SubPc.index : SubPc T → Option Nat
  | .loadPid i | .probePid i _ | .casActive i => some i
  | .wired i _ => some i
  | pc => pc.claiming

def SubPc.seeding : SubPc T → Option (MailRecord T)
  | .seedBegin _ r | .seedEnd _ r => some r
  | _ => none

/-- Where a latest-only endpoint never stands. -/
def SubPc.queueOnly : SubPc T → Bool
  | .initRing _ | .wired _ .pop => true
  | _ => false

/-- The words of slot `i` that the mailbox `m` is made of, after `n` accesses of
its initialisation. -/
structure Opened (h : Segment T) (i n : Nat) (m : Box T) : Prop where
  kind : 2 ≤ n → (h.subSlots i).historyKind = 0
  base : 4 ≤ n → (h.subSlots i).lastConsumedOrdinal = m.base
  overwrites : 7 ≤ n → (h.subSlots i).overwriteCount = m.overwrites
  cell : 9 ≤ n → (h.latest i).value = m.cell

/-- The mailbox `m` is what the segment is to endpoint `e`. -/
structure SimAt (e : Nat) (w : World T) (tr : Trace T) (m : Box T) : Prop where
  accepted : m.accepted = w.seg.acceptedOrdinal
  region : ∀ i, (w.subs e).pc.Holds i → Opened w.seg i (w.subs e).pc.progress m
  unset : (w.subs e).pc.wiredAt = none → m.base = none ∧ m.cached = none ∧ m.overwrites = 0
  unseeded : (w.subs e).pc.progress < 12 → m.cell = none
  cached : (w.subs e).cached = m.cached
  taking : (w.subs e).pc.taking = m.taking
  joined : m.joined = (w.subs e).pc.wiredAt.isSome
  bound : ∀ i, (w.subs e).pc.index = some i → i < kShmMaxSubscribers
  latest : (w.subs e).pc.queueOnly = false
  flights : Aloft (w.flight (w.subs e).pc.wiredAt) m.flight
  seeds : ∀ r, w.seg.master = .full r ∨ (w.subs e).pc.seeding = some r →
    r.ordinal ≤ w.seg.acceptedOrdinal
  newest : m.newest = tr.log.getLast?
  stored : m.stored = tr.stored e
  returned : m.returned = tr.returned e
  charged : m.charged = tr.charged e
  origin : m.origin = tr.origin e

/-- The words of slot `i` that `Opened` reads. -/
structure SameRegion (h h' : Segment T) (i : Nat) : Prop where
  kind : (h'.subSlots i).historyKind = (h.subSlots i).historyKind
  base : (h'.subSlots i).lastConsumedOrdinal = (h.subSlots i).lastConsumedOrdinal
  overwrites : (h'.subSlots i).overwriteCount = (h.subSlots i).overwriteCount
  cell : (h'.latest i).value = (h.latest i).value

theorem Opened.frame {h h' : Segment T} {i n : Nat} {m : Box T} (ho : Opened h i n m)
    (hf : SameRegion h h' i) : Opened h' i n m where
  kind hn := hf.kind.trans (ho.kind hn)
  base hn := hf.base.trans (ho.base hn)
  overwrites hn := hf.overwrites.trans (ho.overwrites hn)
  cell hn := hf.cell.trans (ho.cell hn)

theorem sameRegion_setSlot_ne (h : Segment T) {i j : Nat} (s : SubSlot) (hne : i ≠ j) :
    SameRegion h (h.setSlot j s) i := by
  constructor <;> simp [hne]

theorem sameRegion_setLatest_ne (h : Segment T) {i j : Nat} (c : Cell T) (hne : i ≠ j) :
    SameRegion h (h.setLatest j c) i := by
  constructor <;> simp [hne]

/-- A store into a slot that spares the three words. -/
theorem sameRegion_setSlot (h : Segment T) {i j : Nat} (s : SubSlot)
    (hk : s.historyKind = (h.subSlots j).historyKind)
    (hb : s.lastConsumedOrdinal = (h.subSlots j).lastConsumedOrdinal)
    (ho : s.overwriteCount = (h.subSlots j).overwriteCount) :
    SameRegion h (h.setSlot j s) i := by
  by_cases e : i = j
  · subst e
    constructor <;> simp [hk, hb, ho]
  · exact sameRegion_setSlot_ne h s e

/-! ## The publish in flight -/

/-- Between the ordinal draw and the end of the fan-out. -/
def PubPc.airborne : PubPc T → Bool
  | .masterBegin _ | .masterEnd _ | .loadState _ _ | .loadKind _ _ | .loadBase _ _
  | .stamp _ _ | .cellBegin _ _ | .cellEnd _ _ | .push _ _ | .drop _ _ => true
  | _ => false

theorem PubPc.grounded {pc : PubPc T} (h : pc.airborne = false) (st : Option Nat) :
    flightOf st pc = .quiet := by
  cases pc <;> first | rfl | cases h

theorem PubPc.owning_of_airborne {pc : PubPc T} (h : pc.airborne = true) :
    pc.owning = true := by
  cases pc <;> first | rfl | cases h

theorem flight_live {w : World T} {p : Nat} (hl : w.livePub p) (st : Option Nat) :
    w.flight st p = flightOf st (w.pubs p).pc := if_pos hl

theorem airborne_of_flight {w : World T} {st : Option Nat} {p : Nat}
    (h : w.flight st p ≠ .quiet) : w.livePub p ∧ (w.pubs p).pc.airborne = true := by
  rw [World.flight] at h
  split at h
  · next hl =>
      refine ⟨hl, ?_⟩
      by_contra ha
      exact h (PubPc.grounded (by simpa using ha) st)
  · exact absurd rfl h

theorem flight_alone {w : World T} (hown : OwnerInv w) {p : Nat} (hl : w.livePub p)
    (ho : (w.pubs p).pc.owning = true) (st : Option Nat) :
    ∀ q, q ≠ p → w.flight st q = .quiet := by
  intro q hne
  by_contra hq
  obtain ⟨hlq, ha⟩ := airborne_of_flight hq
  exact hne (hown.unique q p hlq hl (PubPc.owning_of_airborne ha) ho)

theorem flight_putPub_ne (w : World T) {p q : Nat} (h' : Segment T) (ep' : PubEp T)
    (st : Option Nat) (hne : q ≠ p) : (w.putPub p h' ep').flight st q = w.flight st q := by
  rw [World.flight, World.flight, World.putPub_alive, World.putPub_ne _ _ _ _ hne]

theorem flight_putPub_self {w : World T} {p : Nat} (h' : Segment T) {ep' : PubEp T}
    (hl : w.livePub p) (hpid : ep'.pid = (w.pubs p).pid) (st : Option Nat) :
    (w.putPub p h' ep').flight st p = flightOf st ep'.pc := by
  rw [World.flight, World.putPub_alive, World.putPub_self, hpid]
  exact if_pos hl

theorem sight_skip {st : Option Nat} {r : MailRecord T} {j : Nat} (h : st ≠ some j) :
    (sight st r fun i => decide (j ≤ i)) = sight st r fun i => decide (j < i) := by
  cases st with
  | some i =>
      have hne : j ≠ i := fun h0 => h (by rw [h0])
      have : (j ≤ i) = (j < i) := by
        rw [eq_iff_iff]
        omega
      simp only [sight, this]
  | none => rfl

/-- Outside the fan-out and but for the draw, a publisher touches nothing a
mailbox is made of. -/
theorem pubStep_grounded {alive : Nat → Bool} {h h' : Segment T} {ep ep' : PubEp T}
    {a : PubAct T} (hs : pubStep size alive h ep a = some (h', ep'))
    (hg : ep.pc.airborne = false) (hd : ∀ m, ep.pc ≠ .draw m) :
    (∀ i, SameRegion h h' i) ∧ h'.acceptedOrdinal = h.acceptedOrdinal ∧
      (∀ r, h'.master = .full r → h.master = .full r) ∧ ep'.pc.airborne = false := by
  have hsame : ∀ i, SameRegion h h i := fun i => ⟨rfl, rfl, rfl, rfl⟩
  cases a with
  | publish m | destroy =>
      simp only [pubStep] at hs
      cases hpc : ep.pc <;> simp only [hpc] at hs <;> cases hs
      all_goals exact ⟨hsame, rfl, fun _ h0 => h0, rfl⟩
  | go =>
      simp only [pubStep] at hs
      cases hpc : ep.pc <;> simp only [hpc] at hs
      case draw m => exact absurd hpc (hd m)
      case masterBegin | masterEnd | loadState | loadKind | loadBase | stamp | cellBegin
          | cellEnd | push | drop => rw [hpc] at hg; cases hg
      case repairMaster =>
        cases hs
        refine ⟨fun i => ⟨rfl, rfl, rfl, rfl⟩, rfl, fun r hr => ?_, rfl⟩
        cases hm : h.master <;> simp [hm, Cell.repair] at hr
        rw [hr]
      case repairCell j =>
        cases hs
        refine ⟨fun i => ?_, rfl, fun _ h0 => h0, rfl⟩
        by_cases e : i = j
        · subst e
          constructor <;> simp
        · exact sameRegion_setLatest_ne h _ e
      case casRelease =>
        cases hs
        by_cases e : h.pubPid = ep.pid
        · rw [if_pos e]
          exact ⟨fun i => ⟨rfl, rfl, rfl, rfl⟩, rfl, fun _ h0 => h0, rfl⟩
        · rw [if_neg e]
          exact ⟨hsame, rfl, fun _ h0 => h0, rfl⟩
      all_goals
        repeat' split at hs
        all_goals cases hs
        all_goals
          exact ⟨fun i => ⟨rfl, rfl, rfl, rfl⟩, rfl, fun _ h0 => h0, rfl⟩

theorem note_grounded {w w' : World T} {p : Nat} {a : PubAct T} {tr : Trace T}
    (hg : (w.pubs p).pc.airborne = false) (hd : ∀ m, (w.pubs p).pc ≠ .draw m) :
    note w (.pub p a) w' tr = tr := by
  cases a with
  | go =>
      cases hpc : (w.pubs p).pc <;> simp only [note, hpc]
      case draw m => exact absurd hpc (hd m)
      case stamp | cellEnd => rw [hpc] at hg; cases hg
  | _ => rfl

/-! ## Publisher steps -/

/-- What the subscriber's view asks of a publisher's access. -/
theorem SimAt.putPub {e : Nat} {w : World T} {tr tr' : Trace T} {m m' : Box T}
    (h : SimAt e w tr m) {p : Nat} {h' : Segment T} {ep' : PubEp T}
    (hacc : m'.accepted = h'.acceptedOrdinal)
    (hle : w.seg.acceptedOrdinal ≤ h'.acceptedOrdinal)
    (hmaster : ∀ r, h'.master = .full r →
      w.seg.master = .full r ∨ r.ordinal ≤ h'.acceptedOrdinal)
    (hregion : ∀ i, (w.subs e).pc.Holds i → Opened h' i (w.subs e).pc.progress m')
    (hmine : m'.taking = m.taking ∧ m'.joined = m.joined ∧ m'.cached = m.cached)
    (hearly : (w.subs e).pc.wiredAt = none →
      m'.base = m.base ∧ m'.overwrites = m.overwrites ∧ m'.cell = m.cell)
    (hflight : Aloft ((w.putPub p h' ep').flight (w.subs e).pc.wiredAt) m'.flight)
    (hnew : m'.newest = tr'.log.getLast?) (hstored : m'.stored = tr'.stored e)
    (hret : m'.returned = tr'.returned e) (hchg : m'.charged = tr'.charged e)
    (horigin : m'.origin = tr'.origin e) :
    SimAt e (w.putPub p h' ep') tr' m' := by
  constructor
  case accepted => exact hacc
  case region => exact hregion
  case unset =>
    intro hn
    obtain ⟨h1, h2, -⟩ := hearly hn
    rw [h1, h2, hmine.2.2]
    exact h.unset hn
  case unseeded =>
    intro hlt
    have hn : (w.subs e).pc.wiredAt = none := by
      rw [World.putPub_subs] at hlt
      cases hpc : (w.subs e).pc <;> rw [hpc] at hlt <;> first | rfl | simp [SubPc.progress] at hlt
    rw [(hearly hn).2.2]
    exact h.unseeded hlt
  case cached =>
    rw [hmine.2.2]
    exact h.cached
  case taking =>
    rw [hmine.1]
    exact h.taking
  case joined =>
    rw [hmine.2.1]
    exact h.joined
  case bound => exact h.bound
  case latest => exact h.latest
  case flights => exact hflight
  case seeds =>
    intro r hr
    rcases hr with hr | hr
    · rcases hmaster r hr with h0 | h0
      · exact Nat.le_trans (h.seeds r (.inl h0)) hle
      · exact h0
    · exact Nat.le_trans (h.seeds r (.inr hr)) hle
  case newest => exact hnew
  case stored => exact hstored
  case returned => exact hret
  case charged => exact hchg
  case origin => exact horigin

/-- A publisher's access that is no event for this subscriber. -/
theorem SimAt.putPub_same {e : Nat} {w : World T} {tr : Trace T} {m : Box T}
    (h : SimAt e w tr m) {p : Nat} {h' : Segment T} {ep' : PubEp T}
    (hacc : h'.acceptedOrdinal = w.seg.acceptedOrdinal)
    (hmaster : ∀ r, h'.master = .full r →
      w.seg.master = .full r ∨ r.ordinal ≤ w.seg.acceptedOrdinal)
    (hregion : ∀ i, (w.subs e).pc.Holds i → SameRegion w.seg h' i)
    (hflight : Aloft ((w.putPub p h' ep').flight (w.subs e).pc.wiredAt) m.flight) :
    SimAt e (w.putPub p h' ep') tr m :=
  h.putPub (h.accepted.trans hacc.symm) (Nat.le_of_eq hacc.symm)
    (fun r hr => (hmaster r hr).imp_right fun h0 => hacc ▸ h0)
    (fun i hi => (h.region i hi).frame (hregion i hi)) ⟨rfl, rfl, rfl⟩
    (fun _ => ⟨rfl, rfl, rfl⟩) hflight h.newest h.stored h.returned h.charged h.origin

theorem SimAt.putPub_load {e : Nat} {w : World T} {tr : Trace T} {m : Box T}
    (h : SimAt e w tr m) {p : Nat} {ep' : PubEp T}
    (hflight : Aloft ((w.putPub p w.seg ep').flight (w.subs e).pc.wiredAt) m.flight) :
    SimAt e (w.putPub p w.seg ep') tr m :=
  h.putPub_same rfl (fun _ hx => .inl hx) (fun _ _ => ⟨rfl, rfl, rfl, rfl⟩) hflight

/-- A publisher's access that only brings the publish closer. -/
theorem SimAt.putPub_fly {e : Nat} {w : World T} {tr : Trace T} {m : Box T}
    (h : SimAt e w tr m) {p : Nat} {ep' : PubEp T} {f : Flight T}
    (hflight : Aloft ((w.putPub p w.seg ep').flight (w.subs e).pc.wiredAt) f) :
    SimAt e (w.putPub p w.seg ep') tr { m with flight := f } := by
  refine h.putPub h.accepted (Nat.le_refl _) (fun x hx => .inl hx) (fun i hi => ?_)
    ⟨rfl, rfl, rfl⟩ (fun _ => ⟨rfl, rfl, rfl⟩) hflight h.newest h.stored h.returned
    h.charged h.origin
  have := h.region i hi
  exact ⟨this.kind, this.base, this.overwrites, this.cell⟩

/-- An endpoint holds its own slot and no other. -/
theorem SubPc.wiredAt_holds {pc : SubPc T} {i j : Nat} (hw : pc.wiredAt = some j)
    (hi : pc.Holds i) : i = j ∧ pc.progress = 13 := by
  cases pc with
  | wired k t =>
      cases hw
      rcases hi with h0 | h0 <;> cases h0
      exact ⟨rfl, rfl⟩
  | _ => cases hw

/-- A publisher's access is an event of the mailbox, or none of its business. -/
def SimPub (e : Nat) (w : World T) (tr : Trace T) (m : Box T) (p : Nat) (a : PubAct T)
    (h' : Segment T) (ep' : PubEp T) : Prop :=
  SimAt e (w.putPub p h' ep') (note w (.pub p a) (w.putPub p h' ep') tr) m ∨
  ∃ ev m', ev.benign = true ∧ m.Step ev m' ∧
    SimAt e (w.putPub p h' ep') (note w (.pub p a) (w.putPub p h' ep') tr) m'

/-- A publisher inside a publish, or about to draw: it owns the segment, and is the only
one in flight. -/
structure OnlyFlight (e : Nat) (w : World T) (tr : Trace T) (m : Box T) (p : Nat) : Prop where
  sim : SimAt e w tr m
  live : w.livePub p
  flight : m.flight = flightOf (w.subs e).pc.wiredAt (w.pubs p).pc
  alone : ∀ q, q ≠ p → w.flight (w.subs e).pc.wiredAt q = .quiet
  apart : ∀ j, (w.pubs p).pc.writing = some j → (w.subs e).pc.wiredAt ≠ some j →
    ∀ i, (w.subs e).pc.Holds i → i ≠ j

section Publish

variable {e p : Nat} {w : World T} {tr : Trace T} {m : Box T} {h' : Segment T} {ep' : PubEp T}

theorem OnlyFlight.up (c : OnlyFlight e w tr m p) {a : PubAct T}
    (hs : pubStep size w.alive w.seg (w.pubs p) a = some (h', ep')) :
    Aloft ((w.putPub p h' ep').flight (w.subs e).pc.wiredAt)
      (flightOf (w.subs e).pc.wiredAt ep'.pc) := by
  rw [← flight_putPub_self h' c.live (pubStep_pid hs)]
  exact Aloft.alone fun q hq => (flight_putPub_ne w h' ep' _ hq).trans (c.alone q hq)

theorem SimAt.opened (h : SimAt e w tr m) {j : Nat} (hj : (w.subs e).pc.wiredAt = some j) :
    Opened w.seg j 13 m := by
  have := h.region j (.inr hj)
  rwa [(SubPc.wiredAt_holds hj (.inr hj)).2] at this

theorem sim_draw (c : OnlyFlight e w tr m p) {m₀ : Message T}
    (hpc : (w.pubs p).pc = .draw m₀)
    (hs : pubStep size w.alive w.seg (w.pubs p) .go = some (h', ep')) :
    SimPub e w tr m p .go h' ep' := by
  have h := c.sim
  have hf := c.flight
  have hup := c.up hs
  simp only [pubStep, hpc] at hs
  unfold SimPub
  cases hs
  rw [hpc] at hf
  refine .inr ⟨.draw (m₀.record (w.seg.acceptedOrdinal + 1)), _, rfl,
    .draw _ hf (by rw [h.accepted]; rfl), ?_⟩
  simp only [note, hpc]
  refine h.putPub (by rw [h.accepted]) (Nat.le_succ _) (fun r hr => .inl hr)
    (fun i hi => ?_) ⟨rfl, rfl, rfl⟩ (fun _ => ⟨rfl, rfl, rfl⟩) ?_ (by simp) h.stored
    h.returned h.charged h.origin
  · have := h.region i hi
    exact ⟨this.kind, this.base, this.overwrites, this.cell⟩
  · cases hst : (w.subs e).pc.wiredAt <;> rw [hst] at hup <;> exact hup

theorem sim_masterBegin (c : OnlyFlight e w tr m p) {r : MailRecord T}
    (hpc : (w.pubs p).pc = .masterBegin r)
    (hs : pubStep size w.alive w.seg (w.pubs p) .go = some (h', ep')) :
    SimPub e w tr m p .go h' ep' := by
  have h := c.sim
  have hf := c.flight
  have hup := c.up hs
  simp only [pubStep, hpc] at hs
  unfold SimPub
  cases hs
  rw [hpc] at hf
  simp only [note, hpc]
  refine .inl (h.putPub_same rfl (fun x hx => by cases hx)
    (fun _ _ => ⟨rfl, rfl, rfl, rfl⟩) ?_)
  rw [hf]
  exact hup

theorem sim_masterEnd (c : OnlyFlight e w tr m p) (hfly : m.Flying) {r : MailRecord T}
    (hpc : (w.pubs p).pc = .masterEnd r)
    (hs : pubStep size w.alive w.seg (w.pubs p) .go = some (h', ep')) :
    SimPub e w tr m p .go h' ep' := by
  have h := c.sim
  have hf := c.flight
  have hup := c.up hs
  simp only [pubStep, hpc] at hs
  unfold SimPub
  cases hs
  rw [hpc] at hf
  simp only [note, hpc]
  have hr : r.ordinal = m.accepted :=
    (hfly r (by rw [hf]; cases (w.subs e).pc.wiredAt <;> rfl)).1
  refine .inl (h.putPub_same rfl (fun x hx => ?_) (fun _ _ => ⟨rfl, rfl, rfl, rfl⟩) ?_)
  · cases hx
    exact .inr (Nat.le_of_eq (hr.trans h.accepted))
  · rw [hf]
    cases hst : (w.subs e).pc.wiredAt <;> rw [hst] at hup <;> exact hup

/-- The slot of a live wired subscriber is active, so the fan-out stops there. -/
theorem sim_loadState (c : OnlyFlight e w tr m p) (hslot : SlotHeld w) (hle : w.liveSub e)
    {r : MailRecord T} {j : Nat} (hpc : (w.pubs p).pc = .loadState r j)
    (hs : pubStep size w.alive w.seg (w.pubs p) .go = some (h', ep')) :
    SimPub e w tr m p .go h' ep' := by
  have h := c.sim
  have hf := c.flight
  have hup := c.up hs
  simp only [pubStep, hpc] at hs
  unfold SimPub
  rw [hpc] at hf
  simp only [note, hpc]
  simp only [flightOf] at hf
  split at hs
  · by_cases hst : (w.subs e).pc.wiredAt = some j
    · have hact : (w.seg.subSlots j).state = .active := hslot.wired e j hle hst
      rw [hact] at hs
      cases hs
      rw [hst] at hf hup
      simp only [sight, Nat.le_refl, decide_true, if_true] at hf
      refine .inr ⟨.reach, _, rfl, .reach r hf (by rw [h.joined, hst]; rfl), ?_⟩
      refine h.putPub_fly ?_
      rw [hst]
      simpa [flightOf] using hup
    · left
      rw [sight_skip hst] at hf
      split at hs <;> cases hs
      · refine h.putPub_load ?_
        simp only [PubEp.at'_pc, flightOf, if_neg hst] at hup
        rw [hf]
        exact hup
      · refine h.putPub_load ?_
        rw [hf]
        exact hup
  · next hj =>
    cases hs
    have haw : m.awaited = none := by
      rw [Box.awaited, hf]
      cases hst : (w.subs e).pc.wiredAt with
      | none => simp [sight, h.joined, hst]
      | some i =>
          have hb : i < kShmMaxSubscribers := by
            refine h.bound i ?_
            cases hp : (w.subs e).pc <;> rw [hp] at hst <;> cases hst
            rfl
          have : ¬ j ≤ i := by omega
          simp [sight, this]
    exact .inr ⟨.finish, _, rfl, .finish haw, h.putPub_fly hup⟩

theorem sim_loadKind (c : OnlyFlight e w tr m p) {r : MailRecord T} {j : Nat}
    (hpc : (w.pubs p).pc = .loadKind r j)
    (hs : pubStep size w.alive w.seg (w.pubs p) .go = some (h', ep')) :
    SimPub e w tr m p .go h' ep' := by
  have h := c.sim
  have hf := c.flight
  have hup := c.up hs
  simp only [pubStep, hpc] at hs
  unfold SimPub
  rw [hpc] at hf
  simp only [note, hpc]
  left
  split at hs
  · cases hs
    refine h.putPub_load ?_
    rw [hf]
    exact hup
  · next hk =>
    cases hs
    have hst : (w.subs e).pc.wiredAt ≠ some j :=
      fun h0 => hk ((h.opened h0).kind (by omega))
    refine h.putPub_load ?_
    simp only [flightOf, if_neg hst] at hf
    rw [hf]
    exact hup

theorem sim_loadBase (c : OnlyFlight e w tr m p) {r : MailRecord T} {j : Nat}
    (hpc : (w.pubs p).pc = .loadBase r j)
    (hs : pubStep size w.alive w.seg (w.pubs p) .go = some (h', ep')) :
    SimPub e w tr m p .go h' ep' := by
  have h := c.sim
  have hf := c.flight
  have hup := c.up hs
  simp only [pubStep, hpc] at hs
  unfold SimPub
  rw [hpc] at hf
  simp only [note, hpc]
  by_cases hst : (w.subs e).pc.wiredAt = some j
  · have hbase := (h.opened hst).base (by omega)
    rw [hst] at hf hup
    simp only [flightOf, if_true] at hf
    split at hs <;> cases hs
    · refine .inl (h.putPub_load ?_)
      rw [hst, hf]
      simpa [flightOf] using hup
    · next b hb =>
      have hset : m.base ≠ none := by
        rw [← hbase, hb]
        exact Option.some_ne_none b
      refine .inr ⟨.stamp, _, rfl, .stampSet r hf hset, h.putPub_fly ?_⟩
      rw [hst]
      simpa [flightOf] using hup
  · left
    simp only [flightOf, if_neg hst] at hf
    split at hs <;> cases hs
    all_goals
      refine h.putPub_load ?_
      simp only [PubEp.at'_pc, flightOf, if_neg hst] at hup
      rw [hf]
      exact hup

/-- The CAS from the sentinel, in this subscriber's slot or in another. -/
theorem sim_stamp (c : OnlyFlight e w tr m p) {r : MailRecord T} {j : Nat}
    (hpc : (w.pubs p).pc = .stamp r j)
    (hs : pubStep size w.alive w.seg (w.pubs p) .go = some (h', ep')) :
    SimPub e w tr m p .go h' ep' := by
  have h := c.sim
  have hf := c.flight
  have hup := c.up hs
  simp only [pubStep, hpc] at hs
  unfold SimPub
  rw [hpc] at hf
  simp only [note, hpc]
  by_cases hst : (w.subs e).pc.wiredAt = some j
  · have hop := h.opened hst
    have hbase := hop.base (by omega)
    rw [hst] at hf hup
    simp only [flightOf, if_true] at hf
    split at hs
    · next hb =>
      cases hs
      refine .inr ⟨.stamp, _, rfl, .stamp r hf (hbase ▸ hb), ?_⟩
      rw [if_pos hb]
      refine h.putPub h.accepted (Nat.le_refl _) (fun x hx => .inl hx) (fun i hi => ?_)
        ⟨rfl, rfl, rfl⟩ (fun h0 => ?_) ?_ h.newest h.stored h.returned h.charged ?_
      · obtain ⟨rfl, hp⟩ := SubPc.wiredAt_holds hst hi
        rw [hp]
        constructor
        · simpa using hop.kind
        · simp
        · simpa using hop.overwrites
        · simpa using hop.cell
      · rw [hst] at h0
        cases h0
      · rw [hst]
        simpa [flightOf] using hup
      · simp [hst]
    · next b hb =>
      cases hs
      have hset : m.base ≠ none := by
        rw [← hbase, hb]
        exact Option.some_ne_none b
      rw [if_neg (by rw [hb]; exact Option.some_ne_none b)]
      refine .inr ⟨.stamp, _, rfl, .stampSet r hf hset, h.putPub_fly ?_⟩
      rw [hst]
      simpa [flightOf] using hup
  · left
    have hno := c.apart j (by rw [hpc]; rfl) hst
    simp only [flightOf, if_neg hst] at hf
    have hfl : Aloft ((w.putPub p h' ep').flight (w.subs e).pc.wiredAt) m.flight := by
      rw [hf]
      split at hs <;> cases hs <;>
        (simp only [PubEp.at'_pc, flightOf, if_neg hst] at hup; exact hup)
    have hsim : SimAt e (w.putPub p h' ep') tr m := by
      split at hs <;> cases hs
      · exact h.putPub_same rfl (fun x hx => .inl hx)
          (fun i hi => sameRegion_setSlot_ne _ _ (hno i hi)) hfl
      · exact h.putPub_load hfl
    split
    · exact { hsim with origin := hsim.origin.trans (by simp [hst]) }
    · exact hsim

theorem sim_cellBegin (c : OnlyFlight e w tr m p) {r : MailRecord T} {j : Nat}
    (hpc : (w.pubs p).pc = .cellBegin r j)
    (hs : pubStep size w.alive w.seg (w.pubs p) .go = some (h', ep')) :
    SimPub e w tr m p .go h' ep' := by
  have h := c.sim
  have hf := c.flight
  have hup := c.up hs
  simp only [pubStep, hpc] at hs
  unfold SimPub
  cases hs
  rw [hpc] at hf
  simp only [note, hpc]
  by_cases hst : (w.subs e).pc.wiredAt = some j
  · have hop := h.opened hst
    rw [hst] at hf hup
    simp only [flightOf, if_true] at hf
    refine .inr ⟨.tear, _, rfl, .tear r hf, ?_⟩
    refine h.putPub h.accepted (Nat.le_refl _) (fun x hx => .inl hx) (fun i hi => ?_)
      ⟨rfl, rfl, rfl⟩ (fun h0 => ?_) ?_ h.newest h.stored h.returned h.charged h.origin
    · obtain ⟨rfl, hp⟩ := SubPc.wiredAt_holds hst hi
      rw [hp]
      exact ⟨hop.kind, hop.base, hop.overwrites, fun _ => by simp [Cell.value]⟩
    · rw [hst] at h0
      cases h0
    · rw [hst, hf]
      simpa [flightOf] using hup
  · left
    have hno := c.apart j (by rw [hpc]; rfl) hst
    refine h.putPub_same rfl (fun x hx => .inl hx)
      (fun i hi => sameRegion_setLatest_ne _ _ (hno i hi)) ?_
    rw [hf]
    exact hup

theorem sim_cellEnd (c : OnlyFlight e w tr m p) {r : MailRecord T} {j : Nat}
    (hpc : (w.pubs p).pc = .cellEnd r j)
    (hs : pubStep size w.alive w.seg (w.pubs p) .go = some (h', ep')) :
    SimPub e w tr m p .go h' ep' := by
  have h := c.sim
  have hf := c.flight
  have hup := c.up hs
  simp only [pubStep, hpc] at hs
  unfold SimPub
  cases hs
  rw [hpc] at hf
  simp only [note, hpc]
  by_cases hst : (w.subs e).pc.wiredAt = some j
  · have hop := h.opened hst
    rw [hst] at hf hup
    simp only [flightOf, if_true] at hf
    refine .inr ⟨.store, _, rfl, .store r (.passed r) hf (.inl rfl), ?_⟩
    refine h.putPub h.accepted (Nat.le_refl _) (fun x hx => .inl hx) (fun i hi => ?_)
      ⟨rfl, rfl, rfl⟩ (fun h0 => ?_) ?_ h.newest ?_ h.returned h.charged h.origin
    · obtain ⟨rfl, hp⟩ := SubPc.wiredAt_holds hst hi
      rw [hp]
      exact ⟨hop.kind, hop.base, hop.overwrites, fun _ => by simp [Cell.value]⟩
    · rw [hst] at h0
      cases h0
    · rw [hst]
      simpa [flightOf, sight, Nat.not_succ_le_self] using hup
    · simp [hst, h.stored]
  · left
    have hno := c.apart j (by rw [hpc]; rfl) hst
    simp only [flightOf, if_neg hst] at hf
    have hsim : SimAt e (w.putPub p (w.seg.setLatest j (.full r))
        ((w.pubs p).at' (.loadState r (j + 1)))) tr m := by
      refine h.putPub_same rfl (fun x hx => .inl hx)
        (fun i hi => sameRegion_setLatest_ne _ _ (hno i hi)) ?_
      rw [hf]
      exact hup
    exact { hsim with stored := hsim.stored.trans (by simp [hst]) }

theorem sim_push (c : OnlyFlight e w tr m p) {r : MailRecord T} {j : Nat}
    (hpc : (w.pubs p).pc = .push r j)
    (hs : pubStep size w.alive w.seg (w.pubs p) .go = some (h', ep')) :
    SimPub e w tr m p .go h' ep' := by
  have h := c.sim
  have hf := c.flight
  have hup := c.up hs
  simp only [pubStep, hpc] at hs
  unfold SimPub
  rw [hpc] at hf
  simp only [note, hpc]
  left
  split at hs <;> cases hs
  all_goals
    refine h.putPub_same rfl (fun x hx => .inl hx) (fun _ _ => ⟨rfl, rfl, rfl, rfl⟩) ?_
    rw [hf]
    exact hup

theorem sim_drop (c : OnlyFlight e w tr m p) {r : MailRecord T} {j : Nat}
    (hpc : (w.pubs p).pc = .drop r j)
    (hs : pubStep size w.alive w.seg (w.pubs p) .go = some (h', ep')) :
    SimPub e w tr m p .go h' ep' := by
  have h := c.sim
  have hf := c.flight
  have hup := c.up hs
  simp only [pubStep, hpc] at hs
  unfold SimPub
  cases hs
  rw [hpc] at hf
  simp only [note, hpc]
  left
  refine h.putPub_same rfl (fun x hx => .inl hx)
    (fun i _ => sameRegion_setSlot _ _ rfl rfl rfl) ?_
  rw [hf]
  exact hup

/-- One publisher step is an event of the mailbox, or none of its business. -/
theorem sim_pub (h : SimAt e w tr m) (hfly : m.Flying) (hslot : SlotHeld w)
    (hone : OneRegionWriter w) (hown : OwnerInv w) (hle : w.liveSub e) {a : PubAct T}
    (hl : w.livePub p) (hs : pubStep size w.alive w.seg (w.pubs p) a = some (h', ep')) :
    SimPub e w tr m p a h' ep' := by
  by_cases hair : (w.pubs p).pc.airborne = false ∧ ∀ m₀, (w.pubs p).pc ≠ .draw m₀
  · obtain ⟨hg, hd⟩ := hair
    obtain ⟨h1, h2, h3, h4⟩ := pubStep_grounded hs hg hd
    rw [SimPub, note_grounded hg hd]
    refine .inl (h.putPub_same h2 (fun r hr => .inl (h3 r hr)) (fun i _ => h1 i) ?_)
    refine h.flights.congr fun q => ?_
    by_cases hq : q = p
    · subst hq
      rw [flight_putPub_self h' hl (pubStep_pid hs), PubPc.grounded h4, World.flight,
        PubPc.grounded hg, ite_self]
    · exact flight_putPub_ne w h' ep' _ hq
  have howning : (w.pubs p).pc.owning = true := by
    cases hpc : (w.pubs p).pc <;> simp_all [PubPc.airborne, PubPc.owning]
  have halone := flight_alone hown hl howning (w.subs e).pc.wiredAt
  have c : OnlyFlight e w tr m p := by
    refine ⟨h, hl, ?_, halone, ?_⟩
    · rw [h.flights.eq_of_alone halone, flight_live hl]
    · rintro j hj hne i (hi | hi) rfl
      · exact hone e p i hle hl hi hj
      · exact hne hi
  cases a with
  | publish m₀ | destroy =>
      exfalso
      simp only [pubStep] at hs
      cases hpc : (w.pubs p).pc <;> simp_all [PubPc.airborne]
  | go =>
      cases hpc : (w.pubs p).pc
      case draw m₀ => exact sim_draw c hpc hs
      case masterBegin r => exact sim_masterBegin c hpc hs
      case masterEnd r => exact sim_masterEnd c hfly hpc hs
      case loadState r j => exact sim_loadState c hslot hle hpc hs
      case loadKind r j => exact sim_loadKind c hpc hs
      case loadBase r j => exact sim_loadBase c hpc hs
      case stamp r j => exact sim_stamp c hpc hs
      case cellBegin r j => exact sim_cellBegin c hpc hs
      case cellEnd r j => exact sim_cellEnd c hpc hs
      case push r j => exact sim_push c hpc hs
      case drop r j => exact sim_drop c hpc hs
      all_goals exact absurd ⟨by rw [hpc]; rfl, fun m₀ h0 => by rw [hpc] at h0; cases h0⟩ hair

end Publish

/-! ## Steps of other subscribers -/

/-- An access touches the region of no slot the endpoint does not hold. -/
theorem subStep_sameRegion {alive : Nat → Bool} {h h' : Segment T} {ep ep' : SubEp T}
    {a : SubAct} (hs : subStep alive h ep a = some (h', ep')) {j : Nat}
    (hno : ¬ ep.pc.Holds j) : SameRegion h h' j := by
  have hself : SameRegion h h j := ⟨rfl, rfl, rfl, rfl⟩
  cases a with
  | takeLatest | tryTake | destroy =>
      simp only [subStep] at hs
      repeat' split at hs
      all_goals cases hs
      all_goals first | exact hself | exact sameRegion_setSlot _ _ rfl rfl rfl
  | go now =>
      cases hpc : ep.pc <;> simp only [subStep, hpc] at hs
      case wired i t =>
        have hne : j ≠ i := by
          rintro rfl
          exact hno (.inr (by rw [hpc]; rfl))
        cases t <;> simp only [takeStep] at hs
        all_goals
          repeat' split at hs
          all_goals cases hs
          all_goals first
            | exact ⟨rfl, rfl, rfl, rfl⟩
            | exact sameRegion_setSlot_ne _ _ hne
      case storePid i | storeKind i | storeDepth i | storeBase i | storeTake i | storeDrop i
          | storeOverwrite i | storeMiss i | initLatest i | loadMaster i | seedBegin i r
          | seedEnd i r | initRing i | storeActive i =>
        have hne : j ≠ i := by
          rintro rfl
          exact hno (.inl (by rw [hpc]; rfl))
        repeat' split at hs
        all_goals cases hs
        all_goals first
          | exact ⟨rfl, rfl, rfl, rfl⟩
          | exact sameRegion_setSlot_ne _ _ hne
          | exact sameRegion_setLatest_ne _ _ hne
      all_goals
        repeat' split at hs
        all_goals cases hs
        all_goals first
          | exact hself
          | exact sameRegion_setSlot _ _ rfl rfl rfl

theorem note_sub_other (w w' : World T) (a : SubAct) (tr : Trace T) {e e' : Nat}
    (hne : e ≠ e') :
    (note w (.sub e' a) w' tr).log = tr.log ∧
      (note w (.sub e' a) w' tr).stored e = tr.stored e ∧
      (note w (.sub e' a) w' tr).returned e = tr.returned e ∧
      (note w (.sub e' a) w' tr).charged e = tr.charged e ∧
      (note w (.sub e' a) w' tr).origin e = tr.origin e := by
  cases a with
  | go now =>
      simp only [note]
      split
      · exact ⟨rfl, rfl, rfl, extend_ne _ _ hne, rfl⟩
      · exact ⟨rfl, rfl, extend_ne _ _ hne, rfl, rfl⟩
      · exact ⟨rfl, rfl, rfl, rfl, rfl⟩
  | _ => exact ⟨rfl, rfl, rfl, rfl, rfl⟩

theorem sim_other {e e' : Nat} {w : World T} {tr : Trace T} {m : Box T} (h : SimAt e w tr m)
    (hslot : SlotHeld w) (hle : w.liveSub e) (hle' : w.liveSub e') (hne : e ≠ e')
    {a : SubAct} {h' : Segment T} {ep' : SubEp T}
    (hs : subStep w.alive w.seg (w.subs e') a = some (h', ep')) :
    SimAt e (w.putSub e' h' ep') (note w (.sub e' a) (w.putSub e' h' ep') tr) m := by
  obtain ⟨-, hacc, hmas⟩ := subStep_header hs
  obtain ⟨hlog, hsto, hret, hchg, hori⟩ :=
    note_sub_other w (w.putSub e' h' ep') a tr hne
  have hself : (w.putSub e' h' ep').subs e = w.subs e := World.putSub_ne _ _ _ _ hne
  constructor
  case accepted =>
    rw [World.putSub_seg, hacc]
    exact h.accepted
  case region =>
    rw [hself]
    intro i hi
    refine (h.region i hi).frame (subStep_sameRegion hs fun hi' => ?_)
    exact hne (hslot.unique e e' i hle hle' hi hi')
  case unset =>
    rw [hself]
    exact h.unset
  case unseeded =>
    rw [hself]
    exact h.unseeded
  case cached =>
    rw [hself]
    exact h.cached
  case taking =>
    rw [hself]
    exact h.taking
  case joined =>
    rw [hself]
    exact h.joined
  case bound =>
    rw [hself]
    exact h.bound
  case latest =>
    rw [hself]
    exact h.latest
  case flights =>
    rw [hself]
    exact h.flights
  case seeds =>
    rw [hself, World.putSub_seg, hacc, hmas]
    exact h.seeds
  case newest =>
    rw [hlog]
    exact h.newest
  case stored =>
    rw [hsto]
    exact h.stored
  case returned =>
    rw [hret]
    exact h.returned
  case charged =>
    rw [hchg]
    exact h.charged
  case origin =>
    rw [hori]
    exact h.origin

/-! ## The subscriber's own steps -/

theorem SimAt.putSub {e : Nat} {w : World T} {tr tr' : Trace T} {m m' : Box T}
    (h : SimAt e w tr m) {h' : Segment T} {ep' : SubEp T}
    (hacc : h'.acceptedOrdinal = w.seg.acceptedOrdinal) (hmas : h'.master = w.seg.master)
    (hbox : m'.accepted = m.accepted ∧ m'.newest = m.newest ∧ m'.stored = m.stored ∧
      m'.origin = m.origin)
    (hregion : ∀ i, ep'.pc.Holds i → Opened h' i ep'.pc.progress m')
    (hunset : ep'.pc.wiredAt = none → m'.base = none ∧ m'.cached = none ∧ m'.overwrites = 0)
    (hunseeded : ep'.pc.progress < 12 → m'.cell = none)
    (hcached : ep'.cached = m'.cached) (htaking : ep'.pc.taking = m'.taking)
    (hjoined : m'.joined = ep'.pc.wiredAt.isSome)
    (hbound : ∀ i, ep'.pc.index = some i → i < kShmMaxSubscribers)
    (hlatest : ep'.pc.queueOnly = false)
    (hflights : Aloft (w.flight ep'.pc.wiredAt) m'.flight)
    (hseeding : ∀ r, ep'.pc.seeding = some r → r.ordinal ≤ w.seg.acceptedOrdinal)
    (htr : tr'.log = tr.log ∧ tr'.stored e = tr.stored e ∧ tr'.origin e = tr.origin e)
    (hret : m'.returned = tr'.returned e) (hchg : m'.charged = tr'.charged e) :
    SimAt e (w.putSub e h' ep') tr' m' := by
  have hself : (w.putSub e h' ep').subs e = ep' := World.putSub_self _ _ _ _
  constructor
  case accepted =>
    rw [World.putSub_seg, hacc, hbox.1]
    exact h.accepted
  case region =>
    rw [hself]
    exact hregion
  case unset =>
    rw [hself]
    exact hunset
  case unseeded =>
    rw [hself]
    exact hunseeded
  case cached =>
    rw [hself]
    exact hcached
  case taking =>
    rw [hself]
    exact htaking
  case joined =>
    rw [hself]
    exact hjoined
  case bound =>
    rw [hself]
    exact hbound
  case latest =>
    rw [hself]
    exact hlatest
  case flights =>
    rw [hself]
    exact hflights
  case seeds =>
    rw [hself, World.putSub_seg, hacc, hmas]
    rintro r (hr | hr)
    · exact h.seeds r (.inl hr)
    · exact hseeding r hr
  case newest =>
    rw [hbox.2.1, htr.1]
    exact h.newest
  case stored =>
    rw [hbox.2.2.1, htr.2.1]
    exact h.stored
  case returned => exact hret
  case charged => exact hchg
  case origin =>
    rw [hbox.2.2.2, htr.2.2]
    exact h.origin

theorem SubPc.taking_of_unwired {pc : SubPc T} (h : pc.wiredAt = none) :
    pc.taking = .idle := by
  cases pc <;> first | rfl | cases h

/-- An access of the claim that is no event of the mailbox. -/
theorem SimAt.wire {e : Nat} {w : World T} {tr : Trace T} {m : Box T} (h : SimAt e w tr m)
    {h' : Segment T} {pc' : SubPc T} (hacc : h'.acceptedOrdinal = w.seg.acceptedOrdinal)
    (hmas : h'.master = w.seg.master) (hold : (w.subs e).pc.wiredAt = none)
    (hnew : pc'.wiredAt = none) (hregion : ∀ i, pc'.Holds i → Opened h' i pc'.progress m)
    (hunseeded : pc'.progress < 12 → m.cell = none)
    (hbound : ∀ i, pc'.index = some i → i < kShmMaxSubscribers)
    (hlatest : pc'.queueOnly = false)
    (hseeding : ∀ r, pc'.seeding = some r → r.ordinal ≤ w.seg.acceptedOrdinal) :
    SimAt e (w.putSub e h' ((w.subs e).at' pc')) tr m := by
  refine h.putSub hacc hmas ⟨rfl, rfl, rfl, rfl⟩ hregion (fun _ => h.unset hold) hunseeded
    h.cached ?_ ?_ hbound hlatest ?_ hseeding ⟨rfl, rfl, rfl⟩ h.returned h.charged
  · rw [← h.taking, SubPc.taking_of_unwired hold]
    exact SubPc.taking_of_unwired hnew
  · rw [h.joined, hold]
    exact (congrArg Option.isSome hnew).symm
  · have := h.flights
    rw [hold] at this
    rw [SubEp.at'_pc, hnew]
    exact this

/-- The publish in flight, as the slot just activated sees it. -/
theorem flights_join {w : World T} (hown : OwnerInv w) {i : Nat} {f : Flight T}
    (hf : Aloft (w.flight none) f)
    (hno : ∀ p, w.livePub p → (w.pubs p).pc.writing ≠ some i) :
    ∃ g, (g = f ∨ ∃ r, f = .coming r ∧ g = .passed r) ∧ Aloft (w.flight (some i)) g := by
  have hquiet : ∀ p, w.flight none p = .quiet → w.flight (some i) p = .quiet := by
    intro p hp
    rw [World.flight] at hp ⊢
    split at hp
    · next hl =>
        rw [if_pos hl]
        refine PubPc.grounded ?_ (some i)
        cases hpc : (w.pubs p).pc <;> rw [hpc] at hp <;> first | rfl | simp [flightOf, sight] at hp
    · next hl => rw [if_neg hl]
  by_cases he : f = .quiet
  · subst he
    refine ⟨.quiet, .inl rfl, fun p => .inl (hquiet p ?_), fun h0 => absurd rfl h0⟩
    exact (hf.1 p).elim id id
  · obtain ⟨p, hp⟩ := hf.2 he
    have hne : w.flight none p ≠ .quiet := by
      rw [hp]
      exact he
    obtain ⟨hl, hair⟩ := airborne_of_flight hne
    have halone := flight_alone hown hl (PubPc.owning_of_airborne hair) none
    refine ⟨w.flight (some i) p, ?_, Aloft.alone fun q hq => hquiet q (halone q hq)⟩
    have hwr := hno p hl
    rw [← hp, flight_live hl, flight_live hl]
    cases hpc : (w.pubs p).pc <;> rw [hpc] at hair hwr <;>
      simp only [PubPc.airborne, PubPc.writing, ne_eq, Option.some.injEq] at hair hwr
    case masterBegin | masterEnd => exact .inl rfl
    case loadState r j | push r j | drop r j =>
      simp only [flightOf, sight]
      split
      · exact .inl rfl
      · exact .inr ⟨_, rfl, rfl⟩
    case loadKind r j | loadBase r j | stamp r j | cellBegin r j | cellEnd r j =>
      have hne : ¬ i = j := fun h0 => hwr h0.symm
      simp only [flightOf, sight, Option.some.injEq, if_neg hne, reduceCtorEq, if_false]
      split
      · exact .inl rfl
      · exact .inr ⟨_, rfl, rfl⟩
    all_goals cases hair

/-- The events a discipline may have something to say about, and where they
happen. -/
def OwnEvent (w : World T) (e : Nat) (ev : Event T) : Prop :=
  ev.benign = true ∨ (ev = .compare ∧ ∃ i r stale, (w.subs e).pc = .wired i (.base r stale)) ∨
    ∃ late i, ev = .join late ∧ (w.subs e).pc = .storeActive i

theorem SimAt.take {e : Nat} {w : World T} {tr tr' : Trace T} {m m' : Box T}
    (h : SimAt e w tr m) {i : Nat} {t t' : TakePc T} {h' : Segment T} {ep' : SubEp T}
    (hpc : (w.subs e).pc = .wired i t) (hpc' : ep'.pc = .wired i t')
    (hacc : h'.acceptedOrdinal = w.seg.acceptedOrdinal) (hmas : h'.master = w.seg.master)
    (hbox : m'.accepted = m.accepted ∧ m'.newest = m.newest ∧ m'.stored = m.stored ∧
      m'.origin = m.origin)
    (hfly : m'.joined = m.joined ∧ m'.flight = m.flight) (hop : Opened h' i 13 m')
    (hcached : ep'.cached = m'.cached) (htaking : t'.taking = m'.taking) (hpop : t' ≠ .pop)
    (htr : tr'.log = tr.log ∧ tr'.stored e = tr.stored e ∧ tr'.origin e = tr.origin e)
    (hret : m'.returned = tr'.returned e) (hchg : m'.charged = tr'.charged e) :
    SimAt e (w.putSub e h' ep') tr' m' := by
  refine h.putSub hacc hmas hbox ?_ ?_ ?_ hcached ?_ ?_ ?_ ?_ ?_ ?_ htr hret hchg
  · intro j hj
    have hw : ep'.pc.wiredAt = some i := by rw [hpc']; rfl
    obtain ⟨rfl, hp⟩ := SubPc.wiredAt_holds hw hj
    rw [hp]
    exact hop
  · rw [hpc']
    exact fun h0 => nomatch h0
  · rw [hpc']
    exact fun h0 => absurd h0 (by simp [SubPc.progress])
  · rw [hpc']
    exact htaking
  · rw [hpc', hfly.1, h.joined, hpc]
    rfl
  · intro j hj
    refine h.bound j ?_
    rw [hpc'] at hj
    rw [hpc]
    exact hj
  · rw [hpc']
    cases t' <;> first | rfl | exact absurd rfl hpop
  · have := h.flights
    rw [hpc] at this
    rw [hpc', hfly.2]
    exact this
  · rw [hpc']
    exact fun r h0 => nomatch h0

/-- One access of a take is an event of the mailbox or none of its business. -/
theorem sim_take {e : Nat} {w : World T} {tr : Trace T} {m : Box T} (h : SimAt e w tr m)
    (hlat : (w.subs e).history.isLatest = true) {i : Nat} {t : TakePc T} {now : Int}
    {h' : Segment T} {ep' : SubEp T} (hpc : (w.subs e).pc = .wired i t)
    (hs : takeStep w.seg (w.subs e) i now t = some (h', ep')) :
    SimAt e (w.putSub e h' ep') (note w (.sub e (.go now)) (w.putSub e h' ep') tr) m ∨
    ∃ ev m', OwnEvent w e ev ∧ m.Step ev m' ∧
      SimAt e (w.putSub e h' ep') (note w (.sub e (.go now)) (w.putSub e h' ep') tr) m' := by
  have hop : Opened w.seg i 13 m := by
    have := h.region i (.inr (by rw [hpc]; rfl))
    rw [hpc] at this
    exact this
  have htak : t.taking = m.taking := by
    rw [← h.taking, hpc]
    rfl
  have hbase := hop.base (by omega)
  cases t with
  | idle => cases hs
  | pop =>
      have := h.latest
      rw [hpc] at this
      cases this
  | load =>
      have hcell := hop.cell (by omega)
      simp only [takeStep] at hs
      simp only [note, hpc]
      -- an empty and a torn cell read the same, from the cache
      have hread : ∀ r, m.Readable r → ep' = { w.subs e with
          cached := some r, pc := .wired i (.count r) } → h' = w.seg →
          ∃ ev m', OwnEvent w e ev ∧ m.Step ev m' ∧ SimAt e (w.putSub e h' ep') tr m' := by
        rintro r hr rfl rfl
        exact ⟨.load r, _, .inl rfl, .load r htak.symm hr,
          h.take hpc rfl rfl rfl ⟨rfl, rfl, rfl, rfl⟩ ⟨rfl, rfl⟩
            ⟨hop.kind, hop.base, hop.overwrites, hop.cell⟩ rfl rfl (fun h0 => by cases h0)
            ⟨rfl, rfl, rfl⟩ h.returned h.charged⟩
      split at hs
      · next r hr =>
        cases hs
        right
        refine hread r (.inl ?_) rfl rfl
        rw [← hcell, hr]
        rfl
      all_goals
        next hc =>
        have hnone : m.cell = none := by
          rw [← hcell, hc]
          rfl
        split at hs
        · next r hr =>
          cases hs
          right
          refine hread r (.inr ⟨hnone, h.cached ▸ hr⟩) ?_ rfl
          rw [← hr]
          rfl
        · next hr =>
          cases hs
          left
          exact h.take hpc rfl rfl rfl ⟨rfl, rfl, rfl, rfl⟩ ⟨rfl, rfl⟩ hop h.cached htak
            (fun h0 => by cases h0) ⟨rfl, rfl, rfl⟩ h.returned h.charged
  | count r =>
      simp only [takeStep] at hs
      cases hs
      simp only [note, hpc]
      left
      exact h.take hpc rfl rfl rfl ⟨rfl, rfl, rfl, rfl⟩ ⟨rfl, rfl⟩
        (hop.frame (sameRegion_setSlot _ _ rfl rfl rfl)) h.cached htak
        (fun h0 => by cases h0) ⟨rfl, rfl, rfl⟩ h.returned h.charged
  | miss r stale =>
      simp only [takeStep, hlat, if_true] at hs
      simp only [note, hpc]
      left
      repeat' split at hs
      all_goals cases hs
      all_goals
        refine h.take hpc rfl rfl rfl ⟨rfl, rfl, rfl, rfl⟩ ⟨rfl, rfl⟩ ?_ h.cached htak
          (fun h0 => by cases h0) ⟨rfl, rfl, rfl⟩ h.returned h.charged
        first | exact hop | exact hop.frame (sameRegion_setSlot _ _ rfl rfl rfl)
  | base r stale =>
      simp only [takeStep] at hs
      simp only [note, hpc]
      have hev : OwnEvent w e (.compare : Event T) := .inr (.inl ⟨rfl, i, r, stale, hpc⟩)
      right
      split at hs
      · next hb =>
        cases hs
        exact ⟨.compare, _, hev, .compareUnset r htak.symm (hbase ▸ hb),
          h.take hpc rfl rfl rfl ⟨rfl, rfl, rfl, rfl⟩ ⟨rfl, rfl⟩
            ⟨hop.kind, hop.base, hop.overwrites, hop.cell⟩ h.cached rfl
            (fun h0 => by cases h0) ⟨rfl, rfl, rfl⟩ h.returned h.charged⟩
      · next last hb =>
        split at hs
        · next hlt =>
          cases hs
          exact ⟨.compare, _, hev, .compareNew r last htak.symm (hbase ▸ hb) hlt,
            h.take hpc rfl rfl rfl ⟨rfl, rfl, rfl, rfl⟩ ⟨rfl, rfl⟩
              ⟨hop.kind, hop.base, hop.overwrites, hop.cell⟩ h.cached rfl
              (fun h0 => by cases h0) ⟨rfl, rfl, rfl⟩ h.returned h.charged⟩
        · next hlt =>
          cases hs
          exact ⟨.compare, _, hev, .compareOld r last htak.symm (hbase ▸ hb) (by omega),
            h.take hpc rfl rfl rfl ⟨rfl, rfl, rfl, rfl⟩ ⟨rfl, rfl⟩
              ⟨hop.kind, hop.base, hop.overwrites, hop.cell⟩ h.cached rfl
              (fun h0 => by cases h0) ⟨rfl, rfl, rfl⟩ h.returned h.charged⟩
  | charge r stale last =>
      simp only [takeStep] at hs
      cases hs
      simp only [note, hpc]
      refine .inr ⟨.charge, _, .inl rfl, .charge r last htak.symm,
        h.take hpc rfl rfl rfl ⟨rfl, rfl, rfl, rfl⟩ ⟨rfl, rfl⟩ ?_ h.cached rfl
          (fun h0 => by cases h0) ⟨rfl, rfl, rfl⟩ h.returned ?_⟩
      · constructor
        · simpa using hop.kind
        · simpa using hop.base
        · intro hn
          simp [hop.overwrites hn]
        · simpa using hop.cell
      · simp [h.charged]
  | store r stale =>
      simp only [takeStep] at hs
      cases hs
      simp only [note, hpc]
      refine .inr ⟨.advance, _, .inl rfl, .advance r htak.symm,
        h.take hpc rfl rfl rfl ⟨rfl, rfl, rfl, rfl⟩ ⟨rfl, rfl⟩ ?_ h.cached rfl
          (fun h0 => by cases h0) ⟨rfl, rfl, rfl⟩ h.returned h.charged⟩
      constructor
      · simpa using hop.kind
      · simp
      · simpa using hop.overwrites
      · simpa using hop.cell
  | ret x =>
      simp only [takeStep] at hs
      cases hs
      cases x with
      | none =>
          simp only [note, hpc]
          left
          exact h.take hpc rfl rfl rfl ⟨rfl, rfl, rfl, rfl⟩ ⟨rfl, rfl⟩ hop h.cached htak
            (fun h0 => by cases h0) ⟨rfl, rfl, rfl⟩ h.returned h.charged
      | some x =>
          obtain ⟨r, stale⟩ := x
          simp only [note, hpc]
          refine .inr ⟨.ret, _, .inl rfl, .ret r htak.symm,
            h.take hpc rfl rfl rfl ⟨rfl, rfl, rfl, rfl⟩ ⟨rfl, rfl⟩
              ⟨hop.kind, hop.base, hop.overwrites, hop.cell⟩ h.cached rfl
              (fun h0 => by cases h0) ⟨rfl, rfl, rfl⟩ ?_ h.charged⟩
          simp [h.returned]

/-- The destructor has begun, or is over. -/
def SubPc.left : SubPc T → Bool
  | .released _ | .gone => true
  | _ => false

theorem note_unwired {w w' : World T} {e : Nat} {a : SubAct} {tr : Trace T}
    (h : (w.subs e).pc.wiredAt = none) : note w (.sub e a) w' tr = tr := by
  cases a with
  | go now =>
      simp only [note]
      split
      · next hpc => rw [hpc] at h; cases h
      · next hpc => rw [hpc] at h; cases h
      · rfl
  | _ => rfl

/-- The accesses of the claim that are no event of the mailbox. -/
def SubPc.preparing : SubPc T → Bool
  | .seedEnd _ _ | .storeActive _ | .wired _ _ | .released _ => false
  | _ => true

theorem Opened.zero (h : Segment T) (i : Nat) (m : Box T) : Opened h i 0 m := by
  constructor <;> intro hn <;> omega

/-- An access that completes none of the mailbox's words. -/
theorem Opened.next {h h' : Segment T} {i n n' : Nat} {m : Box T} (ho : Opened h i n m)
    (hf : SameRegion h h' i)
    (hn : (2 ≤ n' → 2 ≤ n) ∧ (4 ≤ n' → 4 ≤ n) ∧ (7 ≤ n' → 7 ≤ n) ∧ (9 ≤ n' → 9 ≤ n)) :
    Opened h' i n' m where
  kind h0 := hf.kind.trans (ho.kind (hn.1 h0))
  base h0 := hf.base.trans (ho.base (hn.2.1 h0))
  overwrites h0 := hf.overwrites.trans (ho.overwrites (hn.2.2.1 h0))
  cell h0 := hf.cell.trans (ho.cell (hn.2.2.2 h0))

theorem sim_claim {e : Nat} {w : World T} {tr : Trace T} {m : Box T} (h : SimAt e w tr m)
    (hlat : (w.subs e).history.isLatest = true) {now : Int} {h' : Segment T} {ep' : SubEp T}
    (hs : subStep w.alive w.seg (w.subs e) (.go now) = some (h', ep'))
    (hprep : (w.subs e).pc.preparing = true) : SimAt e (w.putSub e h' ep') tr m := by
  have hu : (w.subs e).pc.wiredAt = none := by
    cases hpc : (w.subs e).pc <;> rw [hpc] at hprep <;> first | rfl | cases hprep
  have hbound := h.bound
  have hregion := h.region
  have hunseeded := h.unseeded
  have hun := h.unset hu
  have hopen : ∀ {i}, (w.subs e).pc.claiming = some i →
      Opened w.seg i (w.subs e).pc.progress m := fun hi => hregion _ (.inl hi)
  cases hpc : (w.subs e).pc <;> simp only [subStep, hpc] at hs <;>
    rw [hpc] at hbound hunseeded hopen
  case refused | gone => cases hs
  case seedEnd | storeActive | wired | released => rw [hpc] at hprep; cases hprep
  case unwired =>
    cases hs
    exact h.wire rfl rfl hu rfl (fun j hj => by rcases hj with hj | hj <;> cases hj)
      (fun _ => hunseeded (by simp [SubPc.progress])) (fun j hj => by cases hj) rfl
      (fun x h0 => by cases h0)
  case casFree i =>
    split at hs
    · next hi =>
      split at hs <;> cases hs
      · exact h.wire rfl rfl hu rfl (fun j _ => Opened.zero _ j m)
          (fun _ => hunseeded (by simp [SubPc.progress]))
          (fun j hj => by cases hj; exact hi) rfl (fun x h0 => by cases h0)
      · exact h.wire rfl rfl hu rfl (fun j _ => Opened.zero _ j m)
          (fun _ => hunseeded (by simp [SubPc.progress])) (fun j hj => by cases hj) rfl
          (fun x h0 => by cases h0)
      · exact h.wire rfl rfl hu rfl (fun j _ => Opened.zero _ j m)
          (fun _ => hunseeded (by simp [SubPc.progress]))
          (fun j hj => by cases hj; exact hi) rfl (fun x h0 => by cases h0)
    · cases hs
      exact h.wire rfl rfl hu rfl (fun j _ => Opened.zero _ j m)
        (fun _ => hunseeded (by simp [SubPc.progress])) (fun j hj => by cases hj) rfl
        (fun x h0 => by cases h0)
  case loadPid i | probePid i pid | casActive i | loadPubPid i | probePub i pid | loadStart i
      | poll i start spin =>
    repeat' split at hs
    all_goals cases hs
    all_goals
      refine h.wire rfl rfl hu rfl (fun j _ => Opened.zero _ j m)
        (fun _ => hunseeded (by simp [SubPc.progress])) (fun j hj => ?_) rfl
        (fun x h0 => by cases h0)
      cases hj <;> exact hbound _ rfl
  case storePid i | storeDepth i | storeTake i | storeDrop i =>
    cases hs
    refine h.wire rfl rfl hu rfl (fun j hj => ?_) (fun _ => hunseeded (by simp [SubPc.progress]))
      hbound rfl (fun x h0 => by cases h0)
    rcases hj with hj | hj <;> cases hj
    exact (hopen rfl).next (sameRegion_setSlot _ _ rfl rfl rfl) (by simp [SubPc.progress])
  case storeMiss i =>
    rw [hlat, if_pos rfl] at hs
    cases hs
    refine h.wire rfl rfl hu rfl (fun j hj => ?_) (fun _ => hunseeded (by simp [SubPc.progress]))
      hbound rfl (fun x h0 => by cases h0)
    rcases hj with hj | hj <;> cases hj
    exact (hopen rfl).next (sameRegion_setSlot _ _ rfl rfl rfl) (by simp [SubPc.progress])
  case storeKind i | storeBase i | storeOverwrite i =>
    cases hs
    refine h.wire rfl rfl hu rfl (fun j hj => ?_) (fun _ => hunseeded (by simp [SubPc.progress]))
      hbound rfl (fun x h0 => by cases h0)
    rcases hj with hj | hj <;> cases hj
    obtain ⟨h1, h2, h3, h4⟩ := hopen rfl
    simp only [SubPc.progress] at h1 h2 h3 h4
    constructor <;> simp_all [SubPc.progress]
  case initLatest i =>
    cases hs
    refine h.wire rfl rfl hu rfl (fun j hj => ?_) (fun _ => hunseeded (by simp [SubPc.progress]))
      hbound rfl (fun x h0 => by cases h0)
    rcases hj with hj | hj <;> cases hj
    have ho := hopen rfl
    exact ⟨fun _ => ho.kind (by simp [SubPc.progress]), fun _ => ho.base (by simp [SubPc.progress]),
      fun _ => ho.overwrites (by simp [SubPc.progress]),
      fun _ => by simp [Cell.value, hunseeded (by simp [SubPc.progress])]⟩
  case loadMaster i =>
    split at hs <;> cases hs
    · next r hr =>
      refine h.wire rfl rfl hu rfl (fun j hj => ?_)
        (fun _ => hunseeded (by simp [SubPc.progress])) hbound rfl (fun x h0 => ?_)
      · rcases hj with hj | hj <;> cases hj
        exact (hopen rfl).next ⟨rfl, rfl, rfl, rfl⟩ (by simp [SubPc.progress])
      · cases h0
        exact h.seeds r (.inl hr)
    all_goals
      refine h.wire rfl rfl hu rfl (fun j hj => ?_)
        (fun _ => hunseeded (by simp [SubPc.progress])) hbound rfl (fun x h0 => by cases h0)
      rcases hj with hj | hj <;> cases hj
      exact (hopen rfl).next ⟨rfl, rfl, rfl, rfl⟩ (by simp [SubPc.progress])
  case seedBegin i r =>
    cases hs
    have hc := hunseeded (by simp [SubPc.progress])
    refine h.wire rfl rfl hu rfl (fun j hj => ?_) (fun _ => hc) hbound rfl (fun x h0 => ?_)
    · rcases hj with hj | hj <;> cases hj
      have ho := hopen rfl
      exact ⟨fun _ => ho.kind (by simp [SubPc.progress]),
        fun _ => ho.base (by simp [SubPc.progress]),
        fun _ => ho.overwrites (by simp [SubPc.progress]), fun _ => by simp [Cell.value, hc]⟩
    · exact h.seeds x (.inr (by rw [hpc]; exact h0))
  case initRing i =>
    have := h.latest
    rw [hpc] at this
    cases this

/-- One access of the subscriber is an event of its mailbox or none of its
business. -/
theorem sim_own {e : Nat} {w : World T} {tr : Trace T} {m : Box T} (h : SimAt e w tr m)
    (hone : OneRegionWriter w) (hown : OwnerInv w) (hle : w.liveSub e)
    (hlat : (w.subs e).history.isLatest = true) {a : SubAct} {h' : Segment T} {ep' : SubEp T}
    (hs : subStep w.alive w.seg (w.subs e) a = some (h', ep')) (hstay : ep'.pc.left = false) :
    SimAt e (w.putSub e h' ep') (note w (.sub e a) (w.putSub e h' ep') tr) m ∨
    ∃ ev m', OwnEvent w e ev ∧ m.Step ev m' ∧
      SimAt e (w.putSub e h' ep') (note w (.sub e a) (w.putSub e h' ep') tr) m' := by
  have hbound := h.bound
  have hregion := h.region
  have hunseeded := h.unseeded
  cases a with
  | takeLatest | tryTake =>
      simp only [subStep] at hs
      split at hs
      · next i hpc =>
        simp only [hlat, if_true] at hs
        cases hs
        all_goals
          have hop := hregion i (.inr (by rw [hpc]; rfl))
          rw [hpc] at hop
          exact .inl (h.take hpc rfl rfl rfl ⟨rfl, rfl, rfl, rfl⟩ ⟨rfl, rfl⟩ hop h.cached
            (by rw [← h.taking, hpc]; rfl) (fun h0 => by cases h0) ⟨rfl, rfl, rfl⟩ h.returned
            h.charged)
      · cases hs
  | destroy =>
      simp only [subStep] at hs
      split at hs <;> cases hs <;> cases hstay
  | go now =>
      cases hpc : (w.subs e).pc <;> simp only [subStep, hpc] at hs
      case wired i t => exact sim_take h hlat hpc hs
      case released i =>
        cases hs
        cases hstay
      case seedEnd i r =>
        cases hs
        have hu : (w.subs e).pc.wiredAt = none := by rw [hpc]; rfl
        rw [note_unwired hu]
        obtain ⟨hb, hc, ho⟩ := h.unset hu
        have hop := hregion i (.inl (by rw [hpc]; rfl))
        rw [hpc] at hop
        refine .inr ⟨.seed r, _, .inl rfl, .seed r (by rw [h.joined, hu]; rfl) hb hc
          (h.accepted ▸ h.seeds r (.inr (by rw [hpc]; rfl))), ?_⟩
        refine h.putSub rfl rfl ⟨rfl, rfl, rfl, rfl⟩ ?_ (fun _ => ⟨hb, hc, ho⟩)
          (fun h0 => absurd h0 (by simp [SubPc.progress])) h.cached
          (by rw [← h.taking, hpc]; rfl) (by rw [h.joined, hu]; rfl)
          (fun j hj => hbound j (by rw [hpc]; exact hj)) rfl ?_ (fun x h0 => by cases h0)
          ⟨rfl, rfl, rfl⟩ h.returned h.charged
        · rintro j (hj | hj) <;> cases hj
          constructor
          · simpa [SubPc.progress] using hop.kind
          · simpa [SubPc.progress] using hop.base
          · simpa [SubPc.progress] using hop.overwrites
          · simp [Cell.value]
        · have := h.flights
          rw [hu] at this
          exact this
      case storeActive i =>
        cases hs
        have hu : (w.subs e).pc.wiredAt = none := by rw [hpc]; rfl
        rw [note_unwired hu]
        obtain ⟨hb, hc, ho⟩ := h.unset hu
        have hop := hregion i (.inl (by rw [hpc]; rfl))
        rw [hpc] at hop
        have hfl := h.flights
        rw [hu] at hfl
        obtain ⟨g, hg, hfl'⟩ := flights_join hown (i := i) hfl
          fun p hp => hone e p i hle hp (by rw [hpc]; rfl)
        have hsim : SimAt e (w.putSub e (w.seg.setSlot i
            { w.seg.subSlots i with state := .active }) ((w.subs e).at' (.wired i .idle))) tr
            { m with joined := true, flight := g } := by
          refine h.putSub rfl rfl ⟨rfl, rfl, rfl, rfl⟩ ?_ (fun h0 => by cases h0)
            (fun h0 => absurd h0 (by simp [SubPc.progress])) h.cached
            (by rw [← h.taking, hpc]; rfl) rfl
            (fun j hj => hbound j (by rw [hpc]; exact hj)) rfl hfl' (fun x h0 => by cases h0)
            ⟨rfl, rfl, rfl⟩ h.returned h.charged
          rintro j (hj | hj) <;> cases hj
          constructor
          · simpa [SubPc.progress] using hop.kind
          · simpa [SubPc.progress] using hop.base
          · simpa [SubPc.progress] using hop.overwrites
          · simpa [SubPc.progress] using hop.cell
        rcases hg with rfl | ⟨r, hr, rfl⟩
        · exact .inr ⟨.join false, _, .inr (.inr ⟨false, i, rfl, hpc⟩), .join hb hc, hsim⟩
        · exact .inr ⟨.join true, _, .inr (.inr ⟨true, i, rfl, hpc⟩), .joinLate r hb hc hr, hsim⟩
      case refused | gone => cases hs
      all_goals
        have hu : (w.subs e).pc.wiredAt = none := by rw [hpc]; rfl
        rw [note_unwired hu]
        have hgo : subStep w.alive w.seg (w.subs e) (.go now) = some (h', ep') := by
          simp only [subStep, hpc, hs]
        exact .inl (sim_claim h hlat hgo (by rw [hpc]; rfl))

/-! ## A death -/

/-- A death is no event, or it is the death of the publisher in flight. -/
theorem sim_die {e : Nat} {w : World T} {tr : Trace T} {m : Box T} (h : SimAt e w tr m)
    (hown : OwnerInv w) (pid : Nat) :
    SimAt e (w.kill pid) tr m ∨
    (∃ p, w.livePub p ∧ (w.pubs p).pid = pid ∧
      w.flight (w.subs e).pc.wiredAt p = m.flight) ∧
      SimAt e (w.kill pid) tr { m with flight := .quiet } := by
  have hview : ∀ f, Aloft ((w.kill pid).flight (w.subs e).pc.wiredAt) f →
      SimAt e (w.kill pid) tr { m with flight := f } := by
    intro f hf
    refine { h with flights := hf, region := fun i hi => ?_ }
    have := h.region i hi
    exact ⟨this.kind, this.base, this.overwrites, this.cell⟩
  have hkill : ∀ st p, (w.kill pid).livePub p → (w.kill pid).flight st p = w.flight st p := by
    intro st p hl
    rw [flight_live hl, flight_live (World.alive_of_kill w pid hl)]
    rfl
  have hdead : ∀ st p, ¬ (w.kill pid).livePub p → (w.kill pid).flight st p = .quiet :=
    fun st p hl => if_neg hl
  by_cases hq : m.flight = .quiet
  · refine .inl (hview m.flight ⟨fun p => .inl ?_, fun h0 => absurd hq h0⟩)
    by_cases hl : (w.kill pid).livePub p
    · rw [hkill _ p hl]
      rcases h.flights.1 p with h0 | h0
      · exact h0
      · rw [h0, hq]
    · exact hdead _ p hl
  · obtain ⟨p, hp⟩ := h.flights.2 hq
    have hne : w.flight (w.subs e).pc.wiredAt p ≠ .quiet := by
      rw [hp]
      exact hq
    obtain ⟨hlp, hair⟩ := airborne_of_flight hne
    have halone := flight_alone hown hlp (PubPc.owning_of_airborne hair) (w.subs e).pc.wiredAt
    have hothers : ∀ q, q ≠ p → (w.kill pid).flight (w.subs e).pc.wiredAt q = .quiet := by
      intro q hqp
      by_cases hl : (w.kill pid).livePub q
      · rw [hkill _ q hl]
        exact halone q hqp
      · exact hdead _ q hl
    by_cases hl : (w.kill pid).livePub p
    · left
      have := Aloft.alone hothers
      rw [hkill _ p hl, hp] at this
      exact hview m.flight this
    · right
      refine ⟨⟨p, hlp, ?_, hp⟩, hview .quiet ?_⟩
      · by_contra hpid
        refine hl ?_
        have h0 : w.alive (w.pubs p).pid = true := hlp
        simpa [World.livePub, World.alive, World.kill, hpid] using h0
      · have := Aloft.alone hothers
        rw [hdead _ p hl] at this
        exact this

/-! ## The simulation, assembled -/

theorem simAt_start {w : World T} (hw : w.Fresh) (e : Nat) : SimAt e w {} {} := by
  obtain ⟨hseg, -, hsub, hpub⟩ := hw
  have hpc : (w.subs e).pc = .unwired := (hsub e).2.1
  have hq : ∀ st p, w.flight st p = .quiet := by
    intro st p
    rw [World.flight, (hpub p).2.1]
    exact ite_self _
  constructor
  case accepted => rw [hseg]
  case region =>
    rw [hpc]
    rintro i (hi | hi) <;> cases hi
  case unset => exact fun _ => ⟨rfl, rfl, rfl⟩
  case unseeded => exact fun _ => rfl
  case cached => exact (hsub e).2.2
  case taking => rw [hpc]; rfl
  case joined => rw [hpc]; rfl
  case bound =>
    rw [hpc]
    exact fun i hi => nomatch hi
  case latest => rw [hpc]; rfl
  case flights => exact ⟨fun p => .inl (hq _ p), fun h0 => absurd rfl h0⟩
  case seeds =>
    rw [hseg, hpc]
    rintro r (hr | hr) <;> cases hr
  case newest => rfl
  case stored => rfl
  case returned => rfl
  case charged => rfl
  case origin => rfl

/-- Endpoint `e` is followed while its process lives and until it is destroyed. -/
structure Followed (w : World T) (e : Nat) : Prop where
  live : w.liveSub e
  latest : (w.subs e).history.isLatest = true
  stays : (w.subs e).pc.left = false

theorem takeStep_history {h h' : Segment T} {ep ep' : SubEp T} {i : Nat} {now : Int}
    {t : TakePc T} (hs : takeStep h ep i now t = some (h', ep')) : ep'.history = ep.history := by
  cases t <;> simp only [takeStep] at hs
  all_goals
    repeat' split at hs
    all_goals cases hs
    all_goals rfl

theorem subStep_history {alive : Nat → Bool} {h h' : Segment T} {ep ep' : SubEp T}
    {a : SubAct} (hs : subStep alive h ep a = some (h', ep')) :
    ep'.history = ep.history ∧ (ep.pc.left = true → ep'.pc.left = true) := by
  cases a with
  | go now =>
      cases hpc : ep.pc <;> simp only [subStep, hpc] at hs
      case wired i t => exact ⟨takeStep_history hs, fun h0 => by cases h0⟩
      all_goals
        repeat' split at hs
        all_goals cases hs
        all_goals first
          | exact ⟨rfl, fun _ => rfl⟩
          | exact ⟨rfl, fun h0 => by cases h0⟩
  | _ =>
      cases hpc : ep.pc <;> simp only [subStep, hpc] at hs
      all_goals
        repeat' split at hs
        all_goals cases hs
        all_goals first
          | exact ⟨rfl, fun _ => rfl⟩
          | exact ⟨rfl, fun h0 => by cases h0⟩

theorem Followed.before {w w' : World T} {a : Act T} {e : Nat} (h : Followed w' e)
    (hs : w.step size a = some w') : Followed w e := by
  rcases step_cases hs with ⟨pid, rfl, rfl⟩ | ⟨e', b, h', ep', rfl, hal, hsub, rfl⟩ |
    ⟨p, b, h', ep', rfl, -, -, rfl⟩
  · exact ⟨World.alive_of_kill w pid h.live, h.latest, h.stays⟩
  · by_cases he : e = e'
    · subst he
      obtain ⟨-, hlat, hstay⟩ := h
      rw [World.putSub_self] at hlat hstay
      obtain ⟨h1, h2⟩ := subStep_history hsub
      refine ⟨hal, h1 ▸ hlat, ?_⟩
      by_contra hleft
      rw [h2 (by simpa using hleft)] at hstay
      cases hstay
    · obtain ⟨hl, hlat, hstay⟩ := h
      rw [World.liveSub, World.putSub_ne _ _ _ _ he] at hl
      rw [World.putSub_ne _ _ _ _ he] at hlat hstay
      exact ⟨hl, hlat, hstay⟩
  · exact ⟨h.live, h.latest, h.stays⟩

/-- What a discipline may be asked about: the subscriber's own comparison or
join, and the death of a publisher in flight. -/
inductive Notable (w : World T) (e : Nat) (m : Box T) : Act T → Event T → Prop
  | own {now : Int} {ev : Event T} : OwnEvent w e ev → Notable w e m (.sub e (.go now)) ev
  | crash {p : Nat} : w.livePub p → w.flight (w.subs e).pc.wiredAt p = m.flight →
      Notable w e m (.die (w.pubs p).pid) .crash

/-- One step of the segment, for one followed subscriber. -/
theorem sim_step {e : Nat} {w w' : World T} {tr : Trace T} {m : Box T} (h : SimAt e w tr m)
    (hfly : m.Flying) (hslot : SlotHeld w) (hone : OneRegionWriter w) (hown : OwnerInv w)
    {a : Act T} (hs : w.step size a = some w') (hfol : Followed w' e) :
    SimAt e w' (note w a w' tr) m ∨
    ∃ ev m', (ev.benign = true ∨ Notable w e m a ev) ∧ m.Step ev m' ∧
      SimAt e w' (note w a w' tr) m' := by
  have hold := hfol.before hs
  rcases step_cases hs with ⟨pid, rfl, rfl⟩ | ⟨e', b, h', ep', rfl, hal, hsub, rfl⟩ |
    ⟨p, b, h', ep', rfl, hal, hpub, rfl⟩
  · rcases sim_die h hown pid with h0 | ⟨⟨p, hl, rfl, hp⟩, h0⟩
    · exact .inl h0
    · exact .inr ⟨.crash, _, .inr (.crash hl hp), .crash, h0⟩
  · by_cases he : e = e'
    · subst he
      have hstay := hfol.stays
      rw [World.putSub_self] at hstay
      rcases sim_own h hone hown hold.live hold.latest hsub hstay with h0 | ⟨ev, m', he, hm, h0⟩
      · exact .inl h0
      · refine .inr ⟨ev, m', ?_, hm, h0⟩
        by_cases hbe : ev.benign = true
        · exact .inl hbe
        · -- only an access can be a comparison or a join
          cases b with
          | go now => exact .inr (.own he)
          | _ =>
              rcases he with h1 | ⟨-, i, r, stale, hpc⟩ | ⟨-, i, -, hpc⟩
              · exact absurd h1 hbe
              · simp [subStep, hpc] at hsub
              · simp [subStep, hpc] at hsub
    · exact .inl (sim_other h hslot hold.live hal he hsub)
  · rcases sim_pub h hfly hslot hone hown hold.live hal hpub with h0 | ⟨ev, m', he, hm, h0⟩
    · exact .inl h0
    · exact .inr ⟨ev, m', .inl he, hm, h0⟩

/-- An invariant of mailboxes holds of every followed subscriber of a segment
whose steps keep slots and regions exclusive and meet the discipline. -/
theorem mailbox_reached {ok : World T → Act T → Prop} (Q : Box T → Prop)
    (ok' : Box T → Event T → Prop) (hQ : ∀ m e m', Q m → ok' m e → m.Step e m' → Q m')
    (h0 : Q {}) (e : Nat)
    (hok : ∀ w a w' tr m ev m',
      (traced T size).Reached (fun q a => RegionDiscipline q.1 a ∧ ok q.1 a) (w, tr) →
      ok w a → w.step size a = some w' → Followed w' e → SimAt e w tr m → m.Step ev m' →
      SimAt e w' (note w a w' tr) m' → (ev.benign = true ∨ Notable w e m a ev) → ok' m ev)
    {q : World T × Trace T}
    (hq : (traced T size).Reached (fun q a => RegionDiscipline q.1 a ∧ ok q.1 a) q)
    (hfol : Followed q.1 e) : ∃ m, Q m ∧ m.Flying ∧ SimAt e q.1 q.2 m := by
  have hsim := hq.simulate (fun q m => Followed q.1 e → SimAt e q.1 q.2 m)
    (fun m : Box T => Q m ∧ m.Flying) (fun m m' => ∃ ev, ok' m ev ∧ m.Step ev m')
    (fun m m' hm ⟨ev, he, hst⟩ => ⟨hQ m ev m' hm.1 he hst, Box.flying_step hm.2 hst⟩)
    (fun q hs => ⟨{}, ⟨h0, fun r hr => nomatch hr⟩, fun _ => hs.2 ▸ simAt_start hs.1 e⟩) ?_
  · obtain ⟨m, ⟨hm, hf⟩, hr⟩ := hsim
    exact ⟨m, hm, hf, hr hfol⟩
  · intro q a q' m hr hoka hst hm hrel
    obtain ⟨hs, htr⟩ := Machine.withHistory_step hst
    have hr' : (machine T size).Reached RegionDiscipline q.1 :=
      Machine.reached_fst (hr.weaken fun _ _ h => h.1)
    obtain ⟨hslot, hone⟩ := region_reached hr'
    by_cases hf : Followed q'.1 e
    · rcases sim_step (hrel (hf.before hs)) hm.2 hslot hone (ownerInv_reached hr') hs hf with
        h1 | ⟨ev, m', he, hmm, h1⟩
      · exact .inl fun _ => htr ▸ h1
      · exact .inr ⟨m', ⟨ev, hok _ _ _ _ _ _ _ hr hoka.2 hs hf (hrel (hf.before hs)) hmm h1 he,
          hmm⟩, fun _ => htr ▸ h1⟩
    · exact .inl fun hf' => absurd hf' hf

theorem lonely_reached {ok : World T × Trace T → Act T → Prop} :
    (traced T size).Reached ok (lonely T, {}) :=
  .start ⟨lonely_fresh T, rfl⟩

end Xmmsg.Shm
