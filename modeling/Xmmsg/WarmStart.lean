import Xmmsg.InProc.Accounting
import Xmmsg.InProc.Join
import Xmmsg.Shm.Join

/-!
# Warm start, on both reaches

A latest-only subscriber that joins a topic with a value must find the newest
value. On both reaches the join reads the master slot first and becomes visible
to the fan-out in a later step, and a publish that fits in between is in neither:
the seed is older, and the fan-out did not see the mailbox. Silence afterwards
makes it permanent.
-/

namespace Xmmsg

open Xmmsg.Sys Xmmsg.Mail

namespace InProc

variable {T : Type}

/-- Subscriber `k` has come out of `Subscribe` connected, no fan-out is under way,
and something has been accepted. -/
structure Settled (w : World T) (k : Nat) : Prop where
  latest : (w.subs k).qos.history.isLatest = true
  seated : ∃ i, w.topic.subSlots i = some k
  idle : (w.subs k).pc = .wired .idle
  grounded : ∀ p, (w.pubs p).pc.airborne = false
  accepted : 0 < w.topic.acceptedOrdinal

/-- The mailbox holds the last record accepted, and a take hands it back. -/
def HasNewest (size : Nat) (w : World T) (tr : Trace T) (k : Nat) : Prop :=
  ∃ r, (w.topic.cores k).box = .latest (some r) ∧ r.ordinal = w.topic.acceptedOrdinal ∧
    tr.log.getLast? = some r ∧
    ∀ now, ∃ n w' stale, (machine T size).exec
        (.sub k .takeLatest :: List.replicate n (.sub k (.go now))) w = some w' ∧
      (w'.subs k).pc = .wired (.ret (some (r, stale)))

/-! Runs in which nobody but publisher 0 publishes. -/

def onlyPublisher : Act T → Bool
  | .pub p _ => p == 0
  | _ => true

theorem onlyPublisher_keeps {size : Nat} {q q' : World T × Trace T} {a : Act T}
    (hJ : ∀ p, p ≠ 0 → (q.1.pubs p).pc = .unadvertised) (h : onlyPublisher a = true)
    (hs : (traced T size).step q a = some q') :
    ∀ p, p ≠ 0 → (q'.1.pubs p).pc = .unadvertised := by
  intro p hp
  have hst := (Machine.withHistory_step hs).1
  rcases step_cases hst with ⟨k, b, h', ep', rfl, -, he⟩ | ⟨p', b, h', ep', rfl, -, he⟩
  · rw [he]
    exact hJ p hp
  · have hz : p' = 0 := by simpa [onlyPublisher] using h
    rw [he, World.putPub_ne _ _ _ _ (by rw [hz]; exact hp)]
    exact hJ p hp

def settledCheck (i : Nat) (w : World T) : Bool :=
  (w.subs 0).qos.history.isLatest && w.topic.subSlots i == some 0 &&
    (match (w.subs 0).pc with
      | .wired .idle => true
      | _ => false) &&
    !(w.pubs 0).pc.airborne && decide (0 < w.topic.acceptedOrdinal)

theorem settled_of_check {i : Nat} {w : World T}
    (hp : ∀ p, p ≠ 0 → (w.pubs p).pc = .unadvertised)
    (h : settledCheck i w = true) : Settled w 0 := by
  simp only [settledCheck, Bool.and_eq_true, beq_iff_eq, Bool.not_eq_eq_eq_not, Bool.not_true,
    decide_eq_true_eq] at h
  obtain ⟨⟨⟨⟨h1, h2⟩, h3⟩, h4⟩, h5⟩ := h
  refine ⟨h1, ⟨i, h2⟩, ?_, fun p => ?_, h5⟩
  · split at h3
    · assumption
    · cases h3
  · by_cases e : p = 0
    · rw [e]
      exact h4
    · rw [hp p e]
      rfl

/-- A decidable part of the discipline, for subscriber 0. -/
def joinCheck (q : World T × Trace T) (a : Act T) : Bool :=
  onlyPublisher a &&
    match a with
    | .sub k _ => k != 0 ||
        match (q.1.subs 0).pc with
        | .attach i => q.1.topic.acceptedOrdinal == 0 || (q.1.pubs 0).pc.ahead i
        | _ => true
    | _ => true

theorem joinCheck_sound (q : World T × Trace T) (a : Act T)
    (h : joinCheck q a = true) : JoinDiscipline 0 q.1 a := by
  cases a with
  | pub p b => trivial
  | sub k b =>
      cases b with
      | go now =>
          rintro rfl
          cases hpc : (q.1.subs 0).pc <;> simp only [joinCheck, onlyPublisher, bne_self_eq_false,
            Bool.false_or, hpc] at h ⊢
          case attach i =>
            rw [Bool.true_and, Bool.or_eq_true, beq_iff_eq] at h
            exact fun _ => h.imp_right fun h0 => .inl ⟨0, h0⟩
      | _ => trivial

theorem joinCheck_keeps {size : Nat} {q q' : World T × Trace T} {a : Act T}
    (hJ : ∀ p, p ≠ 0 → (q.1.pubs p).pc = .unadvertised) (h : joinCheck q a = true)
    (hs : (traced T size).step q a = some q') :
    ∀ p, p ≠ 0 → (q'.1.pubs p).pc = .unadvertised := by
  unfold joinCheck at h
  exact onlyPublisher_keeps hJ (Bool.and_eq_true _ _ ▸ h).1 hs

end InProc

namespace Shm

variable {T : Type}

/-- Endpoint `e` has come out of `Subscribe` wired, no fan-out is under way, and
something has been accepted. -/
structure Settled (w : World T) (e i : Nat) : Prop where
  latest : (w.subs e).history.isLatest = true
  idle : (w.subs e).pc = .wired i .idle
  grounded : ∀ p, (w.pubs p).pc.airborne = false
  accepted : 0 < w.seg.acceptedOrdinal

/-- The mailbox holds the last record accepted, and a take hands it back. -/
def HasNewest (size : Nat) (w : World T) (tr : Trace T) (e i : Nat) : Prop :=
  ∃ r, w.seg.latest i = .full r ∧ r.ordinal = w.seg.acceptedOrdinal ∧
    tr.log.getLast? = some r ∧
    ∀ now, ∃ n w' stale, (machine T size).exec
        (.sub e .takeLatest :: List.replicate n (.sub e (.go now))) w = some w' ∧
      (w'.subs e).pc = .wired i (.ret (some (r, stale)))

def settledCheck (w : World T) : Bool :=
  (w.subs 0).history.isLatest &&
    (match (w.subs 0).pc with
      | .wired 0 .idle => true
      | _ => false) &&
    !(w.pubs 0).pc.airborne && decide (0 < w.seg.acceptedOrdinal)

theorem settled_of_check {w : World T} (hfew : Few 1 1 w)
    (h : settledCheck w = true) : Settled w 0 0 := by
  simp only [settledCheck, Bool.and_eq_true, Bool.not_eq_eq_eq_not, Bool.not_true,
    decide_eq_true_eq] at h
  obtain ⟨⟨⟨h1, h2⟩, h3⟩, h4⟩ := h
  refine ⟨h1, ?_, fun p => ?_, h4⟩
  · split at h2
    · assumption
    · cases h2
  · by_cases e : p = 0
    · rw [e]
      exact h3
    · rw [hfew.2 p (Nat.pos_of_ne_zero e)]
      rfl

/-- A decidable part of the discipline, for runs whose only publisher is endpoint
0. -/
def activateCheck (w : World T) : Act T → Bool
  | .die _ => false
  | .sub e (.go _) =>
      match (w.subs e).pc with
      | .storeActive i => w.seg.acceptedOrdinal == 0 ||
          (w.alive (w.pubs 0).pid && (w.pubs 0).pc.ahead i)
      | _ => true
  | _ => true

def joinCheck (q : World T × Trace T) (a : Act T) : Bool :=
  stayCheck 1 1 q.1 a && activateCheck q.1 a

theorem joinCheck_sound (q : World T × Trace T) (a : Act T) (hJ : Few 1 1 q.1)
    (h : joinCheck q a = true) : Staying q.1 a ∧ JoinDiscipline 0 q.1 a := by
  rw [joinCheck, Bool.and_eq_true] at h
  obtain ⟨h1, h2⟩ := h
  refine ⟨stayCheck_sound hJ h1, ?_⟩
  cases a with
  | die pid => cases h2
  | pub p b => trivial
  | sub e b =>
      cases b with
      | go now =>
          rintro rfl
          cases hpc : (q.1.subs 0).pc <;> simp only [activateCheck, hpc] at h2 ⊢
          case storeActive i =>
            rw [Bool.or_eq_true, beq_iff_eq, Bool.and_eq_true] at h2
            exact fun _ => h2.imp_right fun h0 => .inl ⟨0, h0⟩
      | _ => trivial

theorem stayCheck_keeps_traced {size : Nat} {q q' : World T × Trace T} {a : Act T}
    (hJ : Few 1 1 q.1) (h : stayCheck 1 1 q.1 a = true)
    (hs : (traced T size).step q a = some q') : Few 1 1 q'.1 :=
  stayCheck_keeps hJ h (Machine.withHistory_step hs).1

theorem joinCheck_keeps {size : Nat} {q q' : World T × Trace T} {a : Act T}
    (hJ : Few 1 1 q.1) (h : joinCheck q a = true)
    (hs : (traced T size).step q a = some q') : Few 1 1 q'.1 := by
  rw [joinCheck, Bool.and_eq_true] at h
  exact stayCheck_keeps_traced hJ h.1 hs

end Shm

/-- Whoever joins under the discipline finds the newest record once the publishes
are over, however the others join. -/
theorem warm_start {T : Type} {size : Nat} :
    (∀ k w tr, (InProc.traced T size).Reached (fun q a => InProc.JoinDiscipline k q.1 a) (w, tr) →
      InProc.Settled w k → InProc.HasNewest size w tr k) ∧
    (∀ e w tr, (Shm.traced T size).Reached (fun q a =>
        Shm.RegionDiscipline q.1 a ∧ Shm.JoinDiscipline e q.1 a) (w, tr) →
      ∀ i, Shm.Settled w e i → Shm.HasNewest size w tr e i) := by
  constructor
  · intro k w tr hw hk
    obtain ⟨i, hi⟩ := hk.seated
    obtain ⟨r, hbox, hord, hlog⟩ :=
      InProc.current_reached hw hk.latest hi hk.grounded hk.accepted
    exact ⟨r, hbox, hord, hlog, fun now => InProc.takeLatest_returns now hk.idle hbox⟩
  · intro e w tr hw i he
    obtain ⟨r, hcell, hord, hlog⟩ :=
      Shm.current_reached hw he.latest (by rw [he.idle]; rfl) he.grounded he.accepted
    have hlive := (Shm.join_reached hw).2.1 e
    exact ⟨r, hcell, hord, hlog,
      fun now => Shm.takeLatest_returns now hlive he.latest he.idle hcell⟩

/-- A `Latest` mailbox nothing was written to. -/
def InProc.Mailbox.isBare {T : Type} : InProc.Mailbox T → Bool
  | .latest none => true
  | _ => false

/-- On either reach, a subscriber that joins while the first publish is in flight: the
publish has still to look at its slot. In the process another one has found the master slot
empty before, and is passed over. -/
theorem warm_start_inflight :
    (∃ w tr, (InProc.traced Nat 8).Reached (fun q a => InProc.JoinDiscipline 0 q.1 a) (w, tr) ∧
      (w.topic.cores 1).box.isBare = true ∧ InProc.Settled w 0 ∧ InProc.HasNewest 8 w tr 0) ∧
    (∃ w tr, (Shm.traced Nat 8).Reached (fun q a =>
        Shm.RegionDiscipline q.1 a ∧ Shm.JoinDiscipline 0 q.1 a) (w, tr) ∧
      Shm.Settled w 0 0 ∧ Shm.HasNewest 8 w tr 0 0) := by
  constructor
  · have hrun : ((InProc.traced Nat 8).execOk InProc.joinCheck
        (.pub 0 .advertise :: .sub 1 .subscribe :: InProc.subGo 1 3 ++
          InProc.publishMaster 0 10 ++ InProc.pubGo 0 1 ++ InProc.subGo 1 3 ++
          .sub 0 .subscribe :: InProc.subGo 0 8 ++ InProc.pubGo 0 70) (InProc.quietTopic, {})).map
          (fun q => (InProc.settledCheck 1 q.1, (q.1.topic.cores 1).box.isBare)) =
        some (true, true) := by decide +kernel
    obtain ⟨⟨w, tr⟩, hw, hf⟩ := Option.map_eq_some_iff.mp hrun
    simp only [Prod.mk.injEq] at hf
    have hkeep := Machine.execOk_keeps (M := InProc.traced Nat 8)
      (J := fun q => ∀ p, p ≠ 0 → (q.1.pubs p).pc = .unadvertised)
      (fun _ _ _ => InProc.joinCheck_keeps) (fun _ _ => rfl) hw
    have hr := Machine.reached_of_execOk (M := InProc.traced Nat 8) (J := fun _ => True)
      (fun q a _ => InProc.joinCheck_sound q a) (fun _ _ _ _ _ _ => trivial) trivial
      InProc.quietTopic_reached hw
    have hset : InProc.Settled w 0 := InProc.settled_of_check hkeep hf.1
    exact ⟨w, tr, hr, hf.2, hset, warm_start.1 0 w tr hr hset⟩
  · have hrun : ((Shm.traced Nat 8).execOk Shm.joinCheck
        (Shm.pubGo 0 21 ++ .pub 0 (.publish { value := 10 }) :: Shm.pubGo 0 3 ++
          Shm.subGo 0 15 ++ Shm.pubGo 0 25) (Shm.lonely Nat, {})).map
          (fun q => Shm.settledCheck q.1) = some true := by decide
    obtain ⟨⟨w, tr⟩, hw, hf⟩ := Option.map_eq_some_iff.mp hrun
    have hkeep := Machine.execOk_keeps (M := Shm.traced Nat 8)
      (J := fun q => Shm.Few 1 1 q.1) (fun _ _ _ => Shm.joinCheck_keeps) (Shm.lonely_few 1 1) hw
    have hstay : (Shm.traced Nat 8).Reached
        (fun q a => Shm.Staying q.1 a ∧ Shm.JoinDiscipline 0 q.1 a) (w, tr) :=
      Machine.reached_of_execOk (J := fun q => Shm.Few 1 1 q.1) Shm.joinCheck_sound
        (fun _ _ _ => Shm.joinCheck_keeps) (Shm.lonely_few 1 1) Shm.lonely_reached hw
    have hr := Shm.staying_region hstay
    have hset : Shm.Settled w 0 0 := Shm.settled_of_check hkeep hf
    exact ⟨w, tr, hr, hset, warm_start.2 0 w tr hr 0 hset⟩

/-- A step of a thread, not a death. -/
def Shm.Act.isThread {T : Type} : Shm.Act T → Bool
  | .die _ => false
  | _ => true

/-- On either reach: the subscriber finds the master slot empty, one publish runs
from start to end, the subscriber becomes visible. The mailbox is empty. -/
theorem warm_start_missed :
    ¬ (∀ w tr, (InProc.traced Nat 8).Reached anyStep (w, tr) →
      ∀ k, InProc.Settled w k → InProc.HasNewest 8 w tr k) ∧
    ¬ (∀ w tr, (Shm.traced Nat 8).Reached (fun _ a => ∀ pid, a ≠ .die pid) (w, tr) →
      ∀ e i, Shm.Settled w e i → Shm.HasNewest 8 w tr e i) := by
  constructor
  · intro hall
    have hrun : ((InProc.traced Nat 8).execOk (fun _ a => InProc.onlyPublisher a)
        (.pub 0 .advertise :: .sub 0 .subscribe :: InProc.subGo 0 3 ++
          InProc.publishMaster 0 10 ++ InProc.pubGo 0 67 ++ InProc.subGo 0 3)
        (InProc.quietTopic, {})).map
          (fun q => (InProc.settledCheck 0 q.1, (q.1.topic.cores 0).box.isBare)) =
        some (true, true) := by decide
    obtain ⟨⟨w, tr⟩, hw, hf⟩ := Option.map_eq_some_iff.mp hrun
    simp only [Prod.mk.injEq] at hf
    have hkeep := Machine.execOk_keeps (M := InProc.traced Nat 8)
      (J := fun q => ∀ p, p ≠ 0 → (q.1.pubs p).pc = .unadvertised)
      (fun _ _ _ => InProc.onlyPublisher_keeps) (fun _ _ => rfl) hw
    have hr : (InProc.traced Nat 8).Reached anyStep (w, tr) :=
      Machine.reached_of_execOk (J := fun _ => True) (fun _ _ _ _ => trivial)
        (fun _ _ _ _ _ _ => trivial) trivial InProc.quietTopic_reached hw
    obtain ⟨r, hbox, -⟩ := hall w tr hr 0 (InProc.settled_of_check hkeep hf.1)
    simp [hbox, InProc.Mailbox.isBare] at hf
  · intro hall
    have hrun : ((Shm.traced Nat 8).execOk
        (fun q a => Shm.stayCheck 1 1 q.1 a && a.isThread)
        (Shm.pubGo 0 21 ++ Shm.subGo 0 12 ++ .pub 0 (.publish { value := 10 }) ::
          Shm.pubGo 0 23 ++ Shm.subGo 0 1) (Shm.lonely Nat, {})).map
          (fun q => (Shm.settledCheck q.1, q.1.seg.latest 0 == .empty)) =
        some (true, true) := by decide
    obtain ⟨⟨w, tr⟩, hw, hf⟩ := Option.map_eq_some_iff.mp hrun
    simp only [Prod.mk.injEq, beq_iff_eq] at hf
    have hkeep := Machine.execOk_keeps (M := Shm.traced Nat 8) (J := fun q => Shm.Few 1 1 q.1)
      (fun q a q' hJ h hs => Shm.stayCheck_keeps_traced hJ (Bool.and_eq_true _ _ ▸ h).1 hs)
      (Shm.lonely_few 1 1) hw
    have hr : (Shm.traced Nat 8).Reached (fun _ a => ∀ pid, a ≠ .die pid) (w, tr) := by
      refine Machine.reached_of_execOk (J := fun _ => True) ?_ (fun _ _ _ _ _ _ => trivial)
        trivial Shm.lonely_reached hw
      rintro q a - h pid rfl
      simp [Shm.Act.isThread] at h
    obtain ⟨r, hcell, -⟩ := hall w tr hr 0 0 (Shm.settled_of_check hkeep hf.1)
    rw [hf.2] at hcell
    cases hcell

end Xmmsg
