import Xmmsg.Shm.Delivery

/-!
# What a reliable declaration means on the shared segment

The segment has no back-pressure: a ring that is full drops the record and counts
it. A publisher declared reliable must therefore not be wired at all, and
`ShmAdvertiseImpl` refuses one, but only if it declares a queue history for itself.
Which mailbox a record goes into is the subscriber's declaration. So a reliable
publisher with the default history is accepted, and drops as soon as somebody has
subscribed with a queue and does not keep up.

The wiring gates read declarations and nothing else. They are put in front of the
steps of the segment here: an endpoint whose declaration is refused makes none.
-/

namespace Xmmsg.Shm

open Xmmsg.Sys

variable {T : Type} {size : Nat}

/-- The refusals of `ShmAdvertiseImpl` before any segment is touched: reliable
queues and shared ownership. -/
def advertiseRefused (qos : Qos) : Bool :=
  (qos.reliability == .reliable && !qos.history.isLatest) || qos.ownership == .shared

/-- The refusal of `ShmSubscribeImpl`: a queue deeper than the ring reservation. -/
def subscribeRefused (qos : Qos) : Bool :=
  !qos.history.isLatest && decide (kShmRingCapacity < qos.history.depth)

/-- What the endpoints of a topic declare. -/
structure Declarations where
  pub : Nat → Qos
  sub : Nat → Qos

def declaredStep (size : Nat) (d : Declarations) (w : World T) (a : Act T) : Option (World T) :=
  match a with
  | .pub e _ => if advertiseRefused (d.pub e) then none else w.step size a
  | .sub s _ => if subscribeRefused (d.sub s) then none else w.step size a
  | .die _ => w.step size a

/-- The machine of one shm topic with the wiring gates. -/
def declared (T : Type) (size : Nat) (d : Declarations) : Machine (World T) (Act T) where
  start w := w.Fresh ∧ ∀ s, (w.subs s).history = (d.sub s).history ∧
    (w.subs s).deadline = (d.sub s).deadline
  step := declaredStep size d

/-- No step of publisher `e`, in any run, adds to a subscriber's `drop_count`. A
`Publish` on this reach always returns `kOk`. -/
def NeverDrops (T : Type) (size : Nat) (d : Declarations) (e : Nat) : Prop :=
  ∀ w a w', (declared T size d).Reached anyStep w →
    (declared T size d).step w (.pub e a) = some w' →
    ∀ i, (w'.seg.subSlots i).dropCount = (w.seg.subSlots i).dropCount

/-! ## Without a queue subscriber nothing is dropped -/

/-- About to push into a ring, or to count what it refused. -/
def PubPc.queueing : PubPc T → Bool
  | .push _ _ | .drop _ _ => true
  | _ => false

/-- No slot ever says queue, so no fan-out takes a slot for one. -/
structure NoQueue (w : World T) : Prop where
  kinds : ∀ i, (w.seg.subSlots i).historyKind = 0
  pubs : ∀ e, (w.pubs e).pc.queueing = false

theorem setSlot_kind {h : Segment T} {j : Nat} {s : SubSlot}
    (hk : ∀ i, (h.subSlots i).historyKind = 0) (hs : s.historyKind = 0) (i : Nat) :
    ((h.setSlot j s).subSlots i).historyKind = 0 := by
  by_cases hij : i = j
  · subst hij
    simpa using hs
  · simpa [hij] using hk i

theorem takeStep_kind {h h' : Segment T} {ep ep' : SubEp T} {j : Nat} {now : Int} {t : TakePc T}
    (hs : takeStep h ep j now t = some (h', ep')) (hk : ∀ i, (h.subSlots i).historyKind = 0)
    (i : Nat) : (h'.subSlots i).historyKind = 0 := by
  cases t <;> simp only [takeStep] at hs
  all_goals
    repeat' split at hs
    all_goals cases hs
    all_goals first | exact hk i | (refine setSlot_kind hk ?_ i; exact hk j)

theorem subStep_kind {alive : Nat → Bool} {h h' : Segment T} {ep ep' : SubEp T} {a : SubAct}
    (hs : subStep alive h ep a = some (h', ep')) (hlat : ep.history.isLatest = true)
    (hk : ∀ i, (h.subSlots i).historyKind = 0) (i : Nat) :
    (h'.subSlots i).historyKind = 0 := by
  cases a with
  | go now =>
      cases hpc : ep.pc <;> simp only [subStep, hpc] at hs
      case wired j t => exact takeStep_kind hs hk i
      case storeKind j =>
        cases hs
        exact setSlot_kind hk (by simp [hlat]) i
      all_goals
        repeat' split at hs
        all_goals cases hs
        all_goals first | exact hk i | (refine setSlot_kind hk ?_ i; exact hk _)
  | _ =>
      simp only [subStep] at hs
      repeat' split at hs
      all_goals cases hs
      all_goals first | exact hk i | (refine setSlot_kind hk ?_ i; exact hk _)

/-- A publisher writes no history kind, takes a slot for a queue only if it says so,
and adds to a drop count only where a ring has refused its record. -/
theorem pubStep_queueing {alive : Nat → Bool} {h h' : Segment T} {ep ep' : PubEp T}
    {a : PubAct T} (hs : pubStep size alive h ep a = some (h', ep'))
    (hq : ep.pc.queueing = false) :
    (∀ i, (h'.subSlots i).historyKind = (h.subSlots i).historyKind) ∧
      (∀ i, (h'.subSlots i).dropCount = (h.subSlots i).dropCount) ∧
      ((∀ i, (h.subSlots i).historyKind = 0) → ep'.pc.queueing = false) := by
  cases a with
  | publish m | destroy =>
      simp only [pubStep] at hs
      split at hs <;> cases hs <;> exact ⟨fun _ => rfl, fun _ => rfl, fun _ => rfl⟩
  | go =>
      cases hpc : ep.pc <;> simp only [pubStep, hpc] at hs
      case loadKind r i =>
        split at hs <;> cases hs
        · exact ⟨fun _ => rfl, fun _ => rfl, fun _ => rfl⟩
        · next hne => exact ⟨fun _ => rfl, fun _ => rfl, fun hk => absurd (hk i) hne⟩
      case stamp r j =>
        split at hs <;> cases hs
        · refine ⟨fun i => ?_, fun i => ?_, fun _ => rfl⟩ <;>
            by_cases hij : i = j <;> simp [hij]
        · exact ⟨fun _ => rfl, fun _ => rfl, fun _ => rfl⟩
      case push r i => rw [hpc] at hq; cases hq
      case drop r i => rw [hpc] at hq; cases hq
      all_goals
        repeat' split at hs
        all_goals cases hs
        all_goals exact ⟨fun _ => rfl, fun _ => rfl, fun _ => rfl⟩

variable {d : Declarations} {w w' : World T} {a : Act T}

/-- A step of the gated machine is a step of an endpoint the gates let through. -/
theorem declaredStep_cases (h : declaredStep size d w a = some w') :
    w.step size a = some w' ∧ (∀ e b, a = .pub e b → advertiseRefused (d.pub e) = false) ∧
      ∀ s b, a = .sub s b → subscribeRefused (d.sub s) = false := by
  cases a with
  | die pid => exact ⟨h, fun _ _ h0 => (nomatch h0), fun _ _ h0 => (nomatch h0)⟩
  | pub e b =>
      simp only [declaredStep] at h
      split at h
      · cases h
      · next hg =>
          exact ⟨h, fun _ _ h0 => by cases h0; simpa using hg, fun _ _ h0 => (nomatch h0)⟩
  | sub s b =>
      simp only [declaredStep] at h
      split at h
      · cases h
      · next hg =>
          exact ⟨h, fun _ _ h0 => (nomatch h0), fun _ _ h0 => by cases h0; simpa using hg⟩

theorem declared_history (h : (declared T size d).Reached anyStep w) (s : Nat) :
    (w.subs s).history = (d.sub s).history := by
  refine Machine.Reached.invariant
    (P := fun w : World T => (w.subs s).history = (d.sub s).history) ?_ ?_ h
  · exact fun w h0 => (h0.2 s).1
  · intro w a w' _ hi _ hs
    rcases step_cases (declaredStep_cases hs).1 with
      ⟨pid, -, rfl⟩ | ⟨e, b, h', ep', -, -, hst, rfl⟩ | ⟨e, b, h', ep', -, -, -, rfl⟩
    · exact hi
    · by_cases he : s = e
      · subst he
        rw [World.putSub_self, (subStep_history hst).1]
        exact hi
      · rw [World.putSub_ne _ _ _ _ he]
        exact hi
    · exact hi

theorem noQueue_reached (hsub : ∀ s, subscribeRefused (d.sub s) = false →
      (d.sub s).history.isLatest = true) (h : (declared T size d).Reached anyStep w) :
    NoQueue w := by
  refine Machine.Reached.invariant (P := NoQueue) ?_ ?_ h
  · rintro w ⟨⟨hseg, -, -, hpub⟩, -⟩
    refine ⟨fun i => by rw [hseg], fun e => ?_⟩
    rw [(hpub e).2.1]
    rfl
  · intro w a w' hr hi _ hs
    obtain ⟨hstep, -, hgate⟩ := declaredStep_cases hs
    rcases step_cases hstep with
      ⟨pid, -, rfl⟩ | ⟨s, b, h', ep', rfl, -, hst, rfl⟩ | ⟨e, b, h', ep', -, -, hst, rfl⟩
    · exact ⟨hi.kinds, hi.pubs⟩
    · have hlat : (w.subs s).history.isLatest = true := by
        rw [declared_history hr s]
        exact hsub s (hgate s b rfl)
      exact ⟨subStep_kind hst hlat hi.kinds, hi.pubs⟩
    · obtain ⟨hkind, -, hqueue⟩ := pubStep_queueing hst (hi.pubs e)
      refine ⟨fun i => (hkind i).trans (hi.kinds i), fun p => ?_⟩
      by_cases hp : p = e
      · subst hp
        rw [World.putPub_self]
        exact hqueue hi.kinds
      · rw [World.putPub_ne _ _ _ _ hp]
        exact hi.pubs p

/-! ## With one, a run drops

The subscriber takes slot 0 and never takes a value; the publisher publishes until
the ring is full, and once more. -/

section Run

variable {e s : Nat} {h h' : Segment T} {pe pe' : PubEp T} {se se' : SubEp T}

/-- One more access of the publisher. -/
theorem reached_pub {b : PubAct T} (hr : (declared T size d).Reached anyStep (w.putPub e h pe))
    (hal : w.alive pe.pid = true) (hg : advertiseRefused (d.pub e) = false)
    (hs : pubStep size w.alive h pe b = some (h', pe')) :
    (declared T size d).Reached anyStep (w.putPub e h' pe') := by
  refine hr.next (a := .pub e b) trivial ?_
  show declaredStep size d (w.putPub e h pe) (.pub e b) = some (w.putPub e h' pe')
  simp only [declaredStep, hg, Bool.false_eq_true, if_false, World.step, World.putPub_self,
    World.putPub_alive, World.putPub_seg, hal, hs, if_true, World.putPub_putPub]

theorem reached_sub {b : SubAct} (hr : (declared T size d).Reached anyStep (w.putSub s h se))
    (hal : w.alive se.pid = true) (hg : subscribeRefused (d.sub s) = false)
    (hs : subStep w.alive h se b = some (h', se')) :
    (declared T size d).Reached anyStep (w.putSub s h' se') := by
  refine hr.next (a := .sub s b) trivial ?_
  show declaredStep size d (w.putSub s h se) (.sub s b) = some (w.putSub s h' se')
  simp only [declaredStep, hg, Bool.false_eq_true, if_false, World.step, World.putSub_self,
    World.putSub_alive, World.putSub_seg, hal, hs, if_true, World.putSub_putSub]

/-- One queue subscriber holds slot 0, with `n` records waiting in a ring for `k`,
and nobody else is wired. -/
structure Waiting (n k : Nat) (h : Segment T) : Prop where
  state : (h.subSlots 0).state = .active
  kind : (h.subSlots 0).historyKind ≠ 0
  free : ∀ i, i ≠ 0 → (h.subSlots i).state = .free
  items : (h.ring 0).items.length = n
  depth : (h.ring 0).depth = k

theorem Waiting.congr {n k : Nat} (hw : Waiting n k h) (hs : h'.subSlots = h.subSlots)
    (hr : h'.ring = h.ring) : Waiting n k h' := by
  refine ⟨?_, ?_, ?_, ?_, ?_⟩
  · rw [hs]; exact hw.state
  · rw [hs]; exact hw.kind
  · rw [hs]; exact hw.free
  · rw [hr]; exact hw.items
  · rw [hr]; exact hw.depth

/-- Some run moves nobody but publisher `e` of `w` and leaves it at an access, with
the segment in front of it, as `Q` says. -/
def Stands (d : Declarations) (size : Nat) (w : World T) (e : Nat)
    (Q : PubPc T → Segment T → Prop) : Prop :=
  ∃ h pe, (declared T size d).Reached anyStep (w.putPub e h pe) ∧
    w.alive pe.pid = true ∧ Q pe.pc h

/-- One more access. -/
theorem Stands.go {Q R : PubPc T → Segment T → Prop} (b : PubAct T)
    (hst : Stands d size w e Q) (hg : advertiseRefused (d.pub e) = false)
    (hgo : ∀ h pe, Q pe.pc h → ∃ h' pe', pubStep size w.alive h pe b = some (h', pe') ∧
      pe'.pid = pe.pid ∧ R pe'.pc h') : Stands d size w e R := by
  obtain ⟨h, pe, hr, hal, hq⟩ := hst
  obtain ⟨h', pe', hs, hpid, hq'⟩ := hgo h pe hq
  exact ⟨h', pe', reached_pub hr hal hg hs, by rw [hpid]; exact hal, hq'⟩

/-- At access `pc`, before a ring that holds `n` of `k` records. -/
def At (pc : PubPc T) (n k : Nat) (q : PubPc T) (h : Segment T) : Prop :=
  q = pc ∧ Waiting n k h

/-- A loop over the slots passes the free ones. -/
theorem Stands.scan {pc : Nat → PubPc T} {n k i : Nat}
    (hg : advertiseRefused (d.pub e) = false) (hi : i ≠ 0) (hle : i ≤ kShmMaxSubscribers)
    (hnext : ∀ i h pe, i < kShmMaxSubscribers → (h.subSlots i).state = .free →
      pe.pc = pc i → pubStep size w.alive h pe .go = some (h, pe.at' (pc (i + 1))))
    (hst : Stands d size w e (At (pc i) n k)) :
    Stands d size w e (At (pc kShmMaxSubscribers) n k) := by
  obtain ⟨m, hm⟩ : ∃ m, m + i = kShmMaxSubscribers := ⟨_, Nat.sub_add_cancel hle⟩
  induction m generalizing i with
  | zero =>
      obtain rfl : i = kShmMaxSubscribers := by omega
      exact hst
  | succ m ih =>
      refine ih (i := i + 1) (by omega) (by omega) ?_ (by omega)
      refine hst.go .go hg ?_
      rintro h pe ⟨hpc, hw⟩
      exact ⟨_, _, hnext i h pe (by omega) (hw.free i hi) hpc, rfl, rfl, hw⟩

/-- `ClaimPublisherSlot` beside one queue subscriber: the publisher is wired. -/
theorem stands_advertised {n k : Nat} (hg : advertiseRefused (d.pub e) = false)
    (hst : Stands d size w e fun pc h => At .unwired n k pc h ∧ h.pubPid = 0) :
    Stands d size w e (At .idle n k) := by
  have h1 : Stands d size w e fun pc h => At .casZero n k pc h ∧ h.pubPid = 0 := by
    refine hst.go .go hg ?_
    rintro h pe ⟨⟨hpc, hw⟩, hpid⟩
    exact ⟨h, pe.at' .casZero, by simp [pubStep, hpc], rfl, ⟨rfl, hw⟩, hpid⟩
  have h2 : Stands d size w e (At .bumpEpoch n k) := by
    refine h1.go .go hg ?_
    rintro h pe ⟨⟨hpc, hw⟩, hpid⟩
    refine ⟨{ h with pubPid := pe.pid }, { pe with ownsPublisherSlot := true, pc := .bumpEpoch },
      ?_, rfl, rfl, hw.congr rfl rfl⟩
    simp [pubStep, hpc, hpid]
  have h3 : Stands d size w e (At .repairMaster n k) := by
    refine h2.go .go hg ?_
    rintro h pe ⟨hpc, hw⟩
    exact ⟨{ h with pubEpoch := h.pubEpoch + 1 }, pe.at' .repairMaster, by simp [pubStep, hpc],
      rfl, rfl, hw.congr rfl rfl⟩
  have h4 : Stands d size w e (At (.repairState 0) n k) := by
    refine h3.go .go hg ?_
    rintro h pe ⟨hpc, hw⟩
    exact ⟨{ h with master := h.master.repair }, pe.at' (.repairState 0), by simp [pubStep, hpc],
      rfl, rfl, hw.congr rfl rfl⟩
  have h5 : Stands d size w e (At (.repairKind 0) n k) := by
    refine h4.go .go hg ?_
    rintro h pe ⟨hpc, hw⟩
    refine ⟨h, pe.at' (.repairKind 0), ?_, rfl, rfl, hw⟩
    simp [pubStep, hpc, hw.state, kShmMaxSubscribers]
  have h6 : Stands d size w e (At (.repairState 1) n k) := by
    refine h5.go .go hg ?_
    rintro h pe ⟨hpc, hw⟩
    refine ⟨h, pe.at' (.repairState 1), ?_, rfl, rfl, hw⟩
    simp [pubStep, hpc, hw.kind]
  have h7 := Stands.scan hg (by decide) (by decide)
    (fun i h pe hi hfree hpc => by simp [pubStep, hpc, hi, hfree]) h6
  refine h7.go .go hg ?_
  rintro h pe ⟨hpc, hw⟩
  exact ⟨h, pe.at' .idle, by simp [pubStep, hpc], rfl, rfl, hw⟩

/-- A `Publish`, up to the ring of the subscriber. -/
theorem stands_pushing {n k : Nat} (m : Message T) (hg : advertiseRefused (d.pub e) = false)
    (hst : Stands d size w e (At .idle n k)) :
    ∃ r, Stands d size w e (At (.push r 0) n k) := by
  obtain ⟨h, pe, hr, hal, hpc, hw⟩ := hst
  have h1 : Stands d size w e fun q g => At (.draw m) n k q g ∧
      g.acceptedOrdinal = h.acceptedOrdinal :=
    ⟨h, pe.at' (.draw m), reached_pub hr hal hg (b := .publish m) (by simp [pubStep, hpc]), hal,
      ⟨rfl, hw⟩, rfl⟩
  refine ⟨m.record (h.acceptedOrdinal + 1), ?_⟩
  generalize hrec : m.record (h.acceptedOrdinal + 1) = r
  have h2 : Stands d size w e (At (.masterBegin r) n k) := by
    refine h1.go .go hg ?_
    rintro g pe ⟨⟨hpc, hw⟩, hord⟩
    refine ⟨{ g with acceptedOrdinal := g.acceptedOrdinal + 1 }, pe.at' (.masterBegin r), ?_,
      rfl, rfl, hw.congr rfl rfl⟩
    simp [pubStep, hpc, hord, hrec]
  have h3 : Stands d size w e (At (.masterEnd r) n k) := by
    refine h2.go .go hg ?_
    rintro h pe ⟨hpc, hw⟩
    exact ⟨{ h with master := .torn }, pe.at' (.masterEnd r), by simp [pubStep, hpc], rfl, rfl,
      hw.congr rfl rfl⟩
  have h4 : Stands d size w e (At (.loadState r 0) n k) := by
    refine h3.go .go hg ?_
    rintro h pe ⟨hpc, hw⟩
    exact ⟨{ h with master := .full r }, pe.at' (.loadState r 0), by simp [pubStep, hpc], rfl, rfl,
      hw.congr rfl rfl⟩
  have h5 : Stands d size w e (At (.loadKind r 0) n k) := by
    refine h4.go .go hg ?_
    rintro h pe ⟨hpc, hw⟩
    refine ⟨h, pe.at' (.loadKind r 0), ?_, rfl, rfl, hw⟩
    simp [pubStep, hpc, hw.state, kShmMaxSubscribers]
  refine h5.go .go hg ?_
  rintro h pe ⟨hpc, hw⟩
  refine ⟨h, pe.at' (.push r 0), ?_, rfl, rfl, hw⟩
  simp [pubStep, hpc, hw.kind]

/-- While the ring has room, the record goes in and the `Publish` returns. -/
theorem stands_published {n k : Nat} (m : Message T) (hg : advertiseRefused (d.pub e) = false)
    (hroom : n < k) (hst : Stands d size w e (At .idle n k)) :
    Stands d size w e (At .idle (n + 1) k) := by
  obtain ⟨r, h1⟩ := stands_pushing m hg hst
  have h2 : Stands d size w e (At (.loadState r 1) (n + 1) k) := by
    refine h1.go .go hg ?_
    rintro h pe ⟨hpc, hw⟩
    cases hpush : (h.ring 0).tryPush r with
    | none =>
        have hfull := Fifo.full_iff.mp (Fifo.tryPush_none.mp hpush)
        rw [hw.items, hw.depth] at hfull
        omega
    | some q =>
        obtain ⟨hitems, hdepth, -⟩ := Fifo.tryPush_some hpush
        refine ⟨h.setRing 0 q, pe.at' (.loadState r 1), by simp [pubStep, hpc, hpush], rfl, rfl,
          hw.state, hw.kind, hw.free, ?_, ?_⟩
        · simp [Segment.setRing, hitems, hw.items]
        · simp [Segment.setRing, hdepth, hw.depth]
  have h3 := Stands.scan hg (by decide) (by decide)
    (fun i h pe hi hfree hpc => by simp [pubStep, hpc, hi, hfree]) h2
  have h4 : Stands d size w e (At .countLocal (n + 1) k) := by
    refine h3.go .go hg ?_
    rintro h pe ⟨hpc, hw⟩
    exact ⟨h, pe.at' .countLocal, by simp [pubStep, hpc], rfl, rfl, hw⟩
  have h5 : Stands d size w e (At .countShared (n + 1) k) := by
    refine h4.go .go hg ?_
    rintro h pe ⟨hpc, hw⟩
    let counted : PubEp T :=
      { pe with publishCount := pe.publishCount + 1, bytes := pe.bytes + size, pc := .countShared }
    exact ⟨h, counted, by simp [pubStep, hpc, counted], rfl, rfl, hw⟩
  have h6 : Stands d size w e (At .bytesShared (n + 1) k) := by
    refine h5.go .go hg ?_
    rintro h pe ⟨hpc, hw⟩
    exact ⟨{ h with pubPublishCount := h.pubPublishCount + 1 }, pe.at' .bytesShared,
      by simp [pubStep, hpc], rfl, rfl, hw.congr rfl rfl⟩
  refine h6.go .go hg ?_
  rintro h pe ⟨hpc, hw⟩
  exact ⟨{ h with pubBytes := h.pubBytes + size }, pe.at' .idle, by simp [pubStep, hpc], rfl,
    rfl, hw.congr rfl rfl⟩

theorem stands_filled {k : Nat} (m : Message T) (hg : advertiseRefused (d.pub e) = false)
    (hst : Stands d size w e (At .idle 0 k)) :
    ∀ n, n ≤ k → Stands d size w e (At .idle n k) := by
  intro n
  induction n with
  | zero => exact fun _ => hst
  | succ n ih => exact fun hle => stands_published m hg hle (ih (by omega))

/-- The `Publish` after the one that filled the ring is a drop. -/
theorem drops_of_idle {k : Nat} (m : Message T) (hg : advertiseRefused (d.pub e) = false)
    (hst : Stands d size w e (At .idle 0 k)) : ¬ NeverDrops T size d e := by
  intro hnever
  obtain ⟨r, h1⟩ := stands_pushing m hg (stands_filled m hg hst k (Nat.le_refl k))
  have h2 : Stands d size w e (At (.drop r 0) k k) := by
    refine h1.go .go hg ?_
    rintro h pe ⟨hpc, hw⟩
    have hfull : (h.ring 0).tryPush r = none :=
      Fifo.tryPush_none.mpr (Fifo.full_iff.mpr (hw.items.trans hw.depth.symm))
    exact ⟨h, pe.at' (.drop r 0), by simp [pubStep, hpc, hfull], rfl, rfl, hw⟩
  obtain ⟨h, pe, hr, hal, hpc, -⟩ := h2
  let h' := h.setSlot 0 { h.subSlots 0 with dropCount := (h.subSlots 0).dropCount + 1 }
  have hstep : (declared T size d).step (w.putPub e h pe) (.pub e .go) =
      some (w.putPub e h' (pe.at' (.loadState r 1))) := by
    show declaredStep size d (w.putPub e h pe) (.pub e .go) = _
    have hs : pubStep size w.alive h pe .go = some (h', pe.at' (.loadState r 1)) := by
      simp [pubStep, hpc, h']
    simp only [declaredStep, hg, Bool.false_eq_true, if_false, World.step, World.putPub_self,
      World.putPub_alive, World.putPub_seg, hal, hs, if_true, World.putPub_putPub]
  have hsame := hnever _ _ _ hr hstep 0
  simp [h'] at hsame

/-- Some run moves nobody but subscriber `s` of `w`. -/
def Waits (d : Declarations) (size : Nat) (w : World T) (s : Nat)
    (Q : SubPc T → Segment T → Prop) : Prop :=
  ∃ h se, (declared T size d).Reached anyStep (w.putSub s h se) ∧
    w.alive se.pid = true ∧ se.history = (d.sub s).history ∧ Q se.pc h

theorem Waits.go {Q R : SubPc T → Segment T → Prop} (hwt : Waits d size w s Q)
    (hg : subscribeRefused (d.sub s) = false)
    (hgo : ∀ h se, se.history = (d.sub s).history → Q se.pc h →
      ∃ h' se', subStep w.alive h se (.go 0) = some (h', se') ∧ se'.pid = se.pid ∧
        se'.history = se.history ∧ R se'.pc h') : Waits d size w s R := by
  obtain ⟨h, se, hr, hal, hh, hq⟩ := hwt
  obtain ⟨h', se', hs, hpid, hh', hq'⟩ := hgo h se hh hq
  exact ⟨h', se', reached_sub hr hal hg hs, by rw [hpid]; exact hal, hh'.trans hh, hq'⟩

/-- Slot 0 is being claimed, and says queue if `said`. -/
structure Claiming (said : Prop) (pc q : SubPc T) (h : Segment T) : Prop where
  pc : q = pc
  free : ∀ i, i ≠ 0 → (h.subSlots i).state = .free
  pubPid : h.pubPid = 0
  kind : said → (h.subSlots 0).historyKind ≠ 0

/-- A store of the claimer into its slot. -/
theorem Waits.store {said said' : Prop} {p p' : SubPc T} (f : SubEp T → SubSlot → SubSlot)
    (hwt : Waits d size w s (Claiming said p)) (hg : subscribeRefused (d.sub s) = false)
    (hs : ∀ h se, se.history = (d.sub s).history → se.pc = p →
      subStep w.alive h se (.go 0) = some (h.setSlot 0 (f se (h.subSlots 0)), se.at' p'))
    (hk : ∀ se sl, se.history = (d.sub s).history → (said → sl.historyKind ≠ 0) →
      said' → (f se sl).historyKind ≠ 0) :
    Waits d size w s (Claiming said' p') := by
  refine hwt.go hg ?_
  intro h se hh hc
  refine ⟨_, _, hs h se hh hc.pc, rfl, rfl, rfl, fun i hi => ?_, hc.pubPid, fun h0 => ?_⟩
  · simpa [hi] using hc.free i hi
  · simpa using hk se _ hh hc.kind h0

/-- `ClaimSubscriberSlot` of a queue subscriber on a fresh segment. -/
theorem waits_wired (hg : subscribeRefused (d.sub s) = false)
    (hq : (d.sub s).history.isLatest = false)
    (hwt : Waits d size w s fun pc h => pc = .unwired ∧ h = {}) :
    ∃ k, Waits d size w s fun _ h => Waiting 0 k h ∧ h.pubPid = 0 := by
  have h1 : Waits d size w s fun pc h => pc = .casFree 0 ∧ h = {} := by
    refine hwt.go hg ?_
    rintro h se - ⟨hpc, rfl⟩
    exact ⟨{}, se.at' (.casFree 0), by simp [subStep, hpc], rfl, rfl, rfl, rfl⟩
  have h2 : Waits d size w s (Claiming False (.storePid 0)) := by
    refine h1.go hg ?_
    rintro h se - ⟨hpc, rfl⟩
    refine ⟨Segment.setSlot {} 0 { state := .claimed }, se.at' (.storePid 0),
      by simp [subStep, hpc, kShmMaxSubscribers], rfl, rfl, rfl, fun i hi => ?_, rfl, False.elim⟩
    simp [hi]
  have h3 : Waits d size w s (Claiming False (.storeKind 0)) :=
    h2.store (fun se sl => { sl with pid := se.pid }) hg
      (fun h se _ hpc => by simp [subStep, hpc]) (fun _ _ _ _ => False.elim)
  have h4 : Waits d size w s (Claiming True (.storeDepth 0)) :=
    h3.store (fun _ sl => { sl with historyKind := 1 }) hg
      (fun h se hh hpc => by simp [subStep, hpc, hh, hq]) (fun _ _ _ _ _ => Nat.one_ne_zero)
  have h5 : Waits d size w s (Claiming True (.storeBase 0)) :=
    h4.store (fun se sl => { sl with queueDepth := se.history.depth }) hg
      (fun h se _ hpc => by simp [subStep, hpc]) (fun _ _ _ hk => hk)
  have h6 : Waits d size w s (Claiming True (.storeTake 0)) :=
    h5.store (fun _ sl => { sl with lastConsumedOrdinal := none }) hg
      (fun h se _ hpc => by simp [subStep, hpc]) (fun _ _ _ hk => hk)
  have h7 : Waits d size w s (Claiming True (.storeDrop 0)) :=
    h6.store (fun _ sl => { sl with takeCount := 0 }) hg
      (fun h se _ hpc => by simp [subStep, hpc]) (fun _ _ _ hk => hk)
  have h8 : Waits d size w s (Claiming True (.storeOverwrite 0)) :=
    h7.store (fun _ sl => { sl with dropCount := 0 }) hg
      (fun h se _ hpc => by simp [subStep, hpc]) (fun _ _ _ hk => hk)
  have h9 : Waits d size w s (Claiming True (.storeMiss 0)) :=
    h8.store (fun _ sl => { sl with overwriteCount := 0 }) hg
      (fun h se _ hpc => by simp [subStep, hpc]) (fun _ _ _ hk => hk)
  have h10 : Waits d size w s (Claiming True (.initRing 0)) :=
    h9.store (fun _ sl => { sl with deadlineMissCount := 0 }) hg
      (fun h se hh hpc => by simp [subStep, hpc, hh, hq]) (fun _ _ _ hk => hk)
  let k := if (d.sub s).history.depth = 0 then 1 else (d.sub s).history.depth
  have h11 : Waits d size w s fun pc h => Claiming True (.storeActive 0) pc h ∧
      h.ring 0 = .empty k := by
    refine h10.go hg ?_
    intro h se hh hc
    refine ⟨h.setRing 0 (.empty k), se.at' (.storeActive 0), by simp [subStep, hc.pc, hh, k],
      rfl, rfl, ⟨rfl, hc.free, hc.pubPid, hc.kind⟩, ?_⟩
    simp [Segment.setRing]
  refine ⟨k, h11.go hg ?_⟩
  rintro h se hh ⟨hc, hring⟩
  refine ⟨h.setSlot 0 { h.subSlots 0 with state := .active }, se.at' (.wired 0 .idle),
    by simp [subStep, hc.pc], rfl, rfl, ⟨?_, ?_, fun i hi => ?_, ?_, ?_⟩, hc.pubPid⟩
  · simp
  · simpa using hc.kind trivial
  · simpa [hi] using hc.free i hi
  · show (h.ring 0).items.length = 0
    rw [hring]
    rfl
  · show (h.ring 0).depth = k
    rw [hring]
    rfl

end Run

/-- Everybody in one process, nobody wired. -/
def unwiredWorld (T : Type) (d : Declarations) : World T where
  subs s := { pid := 1, history := (d.sub s).history, deadline := (d.sub s).deadline }
  pubs _ := { pid := 1 }

theorem unwiredWorld_reached (d : Declarations) :
    (declared T size d).Reached anyStep (unwiredWorld T d) := by
  refine .start ⟨⟨rfl, fun _ => rfl, fun s => ⟨?_, rfl, rfl⟩, fun e => ⟨?_, rfl, rfl⟩⟩,
    fun s => ⟨rfl, rfl⟩⟩
  · exact Nat.one_ne_zero
  · exact Nat.one_ne_zero

/-- A queue subscriber the gates accept makes an accepted publisher drop. -/
theorem drops_of_queue {e s : Nat} (m : Message T) (hg : advertiseRefused (d.pub e) = false)
    (hs : subscribeRefused (d.sub s) = false) (hq : (d.sub s).history.isLatest = false) :
    ¬ NeverDrops T size d e := by
  let w := unwiredWorld T d
  have h0 : Waits d size w s fun pc h => pc = .unwired ∧ h = {} := by
    refine ⟨w.seg, w.subs s, ?_, rfl, rfl, rfl, rfl⟩
    have hself : w.putSub s w.seg (w.subs s) = w := by simp [World.putSub]
    rw [hself]
    exact unwiredWorld_reached d
  obtain ⟨k, h, se, hr, -, -, hw, hpid⟩ := waits_wired hs hq h0
  have h1 : Stands d size (w.putSub s h se) e
      fun pc h => At .unwired 0 k pc h ∧ h.pubPid = 0 := by
    refine ⟨h, w.pubs e, ?_, rfl, ⟨rfl, hw⟩, hpid⟩
    have hself : (w.putSub s h se).putPub e h (w.pubs e) = w.putSub s h se := by
      simp [World.putPub, World.putSub]
    rw [hself]
    exact hr
  exact drops_of_idle m hg (stands_advertised hg h1)

/-! ## Exactly when a reliable publisher never drops -/

theorem neverDrops_of_latest {e : Nat} (hsub : ∀ s, subscribeRefused (d.sub s) = false →
      (d.sub s).history.isLatest = true) : NeverDrops T size d e := by
  intro w b w' hr hs i
  have hs' : declaredStep size d w (.pub e b) = some w' := hs
  obtain ⟨hstep, -, -⟩ := declaredStep_cases hs'
  rcases step_cases hstep with
    ⟨pid, h0, -⟩ | ⟨s, b, h', ep', h0, -, -, -⟩ | ⟨p, b, h', ep', h0, -, hst, rfl⟩
  · cases h0
  · cases h0
  · exact (pubStep_queueing hst ((noQueue_reached hsub hr).pubs p)).2.1 i

/-- A refused endpoint makes no step. -/
theorem neverDrops_of_refused {e : Nat} (hg : advertiseRefused (d.pub e) = true) :
    NeverDrops T size d e := by
  intro w b w' _ hs
  have hs' : declaredStep size d w (.pub e b) = some w' := hs
  have h0 := (declaredStep_cases hs').2.1 e b rfl
  rw [hg] at h0
  cases h0

/-- Whether a reliable publisher on this reach can drop is decided by the wiring
declarations: it cannot if its own queue history or shared ownership has it refused,
or if no subscriber the reach accepts has declared a queue. -/
theorem reliable_neverDrops_iff [Inhabited T] {e : Nat}
    (hrel : (d.pub e).reliability = .reliable) :
    NeverDrops T size d e ↔ (d.pub e).history.isLatest = false ∨ (d.pub e).ownership = .shared ∨
      ∀ s, (d.sub s).history.isLatest = true ∨ kShmRingCapacity < (d.sub s).history.depth := by
  have hadv : advertiseRefused (d.pub e) = true ↔
      (d.pub e).history.isLatest = false ∨ (d.pub e).ownership = .shared := by
    simp [advertiseRefused, hrel]
  have hsubs : ∀ s, subscribeRefused (d.sub s) = false ↔
      ((d.sub s).history.isLatest = false → ¬ kShmRingCapacity < (d.sub s).history.depth) := by
    intro s
    cases hl : (d.sub s).history.isLatest <;> simp [subscribeRefused, hl]
  rw [← or_assoc, ← hadv]
  constructor
  · intro hnever
    by_contra hcon
    rw [not_or] at hcon
    obtain ⟨hg, hq⟩ := hcon
    rw [Bool.not_eq_true] at hg
    rw [not_forall] at hq
    obtain ⟨s, hs⟩ := hq
    rw [not_or, Bool.not_eq_true] at hs
    obtain ⟨hlat, hdeep⟩ := hs
    have hacc := (hsubs s).mpr fun _ => hdeep
    exact drops_of_queue { value := default } hg hacc hlat hnever
  · rintro (hg | hq)
    · exact neverDrops_of_refused hg
    · refine neverDrops_of_latest fun s hacc => ?_
      by_contra hlat
      rw [Bool.not_eq_true] at hlat
      rcases hq s with h0 | h0
      · rw [hlat] at h0
        cases h0
      · exact (hsubs s).mp hacc hlat h0

/-- Reliable publishers of the default history, and subscribers that declare `sub`. -/
def reliableWith (sub : Qos) : Declarations where
  pub _ := { reliability := .reliable }
  sub _ := sub

theorem reliable_neverDrops_latest :
    NeverDrops Nat 8 (reliableWith {}) 0 :=
  (reliable_neverDrops_iff (d := reliableWith {}) (e := 0) rfl).mpr
    (.inr (.inr fun _ => .inl rfl))

theorem reliable_drops_queue :
    ¬ ∀ (d : Declarations) (e : Nat), (d.pub e).reliability = .reliable →
      NeverDrops Nat 8 d e := by
  intro hall
  have hnever := hall (reliableWith { history := .queue 1 }) 0 rfl
  exact drops_of_queue (s := 0) { value := 0 } rfl rfl rfl hnever

end Xmmsg.Shm
