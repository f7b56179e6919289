import Xmmsg.InProc.Wiring
import Xmmsg.Sys.Progress

/-!
# The in-process reach never deadlocks

Two mutexes guard a topic: the wiring mutex, which `Advertise`, `Subscribe` and the
destructors hold, and the write mutex, which the publishes of declared-shared publishers
hold. Nobody acquires one while holding the other, and whoever holds one has a bounded
straight line in front of it: the walk over sixty-four slots, or one fan-out. So the only
endpoints that can be stopped inside a verb are a shared publisher in front of a held write
mutex and a wiring verb in front of a held wiring mutex; the holder can always move, and it
lets go after a fixed number of its own accesses. Takes and exclusive publishes never meet
a mutex at all.

In `machine` a wiring verb begins with the acquisition, so a thread that has called one and
has not got the mutex is nowhere in it. `contended` adds where it stands: the call, which
touches nothing, and the acquisition when the mutex is free. The topic goes through the
same states (`contended_world`, `world_contended`). It is the only topic of its domain
here, so that the wiring mutex is asked for by its endpoints alone.

The budgets are read off the program counter, as on the shm reach. What is new is that a
mutex names its holder, `HeldInv`. A load or store of a mailbox and a push or pop of a ring
count as one access: that they return is the base library's affair.
-/

namespace Xmmsg.InProc

open Xmmsg.Sys

variable {T : Type} {size : Nat}

/-! ## What is left of a verb -/

/-- Accesses left in `PublishFrom`: two a slot in the reliable pre-check, four a slot in
the fan-out. -/
def PubPc.budget : PubPc T → Nat
  | .lock _ => 393
  | .check _ i => 264 + 2 * (kMaxSubscribers - i)
  | .probe _ i _ => 265 + 2 * (kMaxSubscribers - (i + 1))
  | .clock _ => 263
  | .draw _ => 262
  | .master _ => 261
  | .visit _ i => 4 + 4 * (kMaxSubscribers - i)
  | .base _ i _ => 7 + 4 * (kMaxSubscribers - (i + 1))
  | .stamp _ i _ | .push _ i _ => 6 + 4 * (kMaxSubscribers - (i + 1))
  | .store _ i _ | .drop _ i _ => 5 + 4 * (kMaxSubscribers - (i + 1))
  | .countPublish => 3
  | .countBytes | .refuse => 2
  | .ret _ => 1
  | .unadvertised | .idle | .refused | .gone => 0

def TakePc.budget : TakePc T → Nat
  | .load | .pop => 7
  | .count _ => 6
  | .base _ _ => 5
  | .charge _ _ _ => 4
  | .store _ _ => 3
  | .latch _ _ => 2
  | .ret _ => 1
  | .idle => 0

/-- Accesses left in `AddSubscriber`, a take verb or `RemoveSubscriber`. -/
def SubPc.budget : SubPc T → Nat
  | .create => 71
  | .loadMaster => 70
  | .seed _ => 69
  | .scan i | .find i => 4 + (kMaxSubscribers - i)
  | .attach _ | .clear _ => 3
  | .retain | .uncount => 2
  | .unlock | .leave => 1
  | .wired t => t.budget
  | .unwired | .gone => 0

theorem PubPc.budget_le (pc : PubPc T) : pc.budget ≤ 393 := by
  cases pc <;> simp only [PubPc.budget, kMaxSubscribers] <;> omega

theorem PubPc.budget_delivering {pc : PubPc T} (h : pc.delivering = true) :
    0 < pc.budget ∧ pc.budget ≤ 392 := by
  cases pc <;> simp only [PubPc.budget, kMaxSubscribers] <;>
    first | cases h; done | (constructor <;> omega)

theorem SubPc.budget_le (pc : SubPc T) : pc.budget ≤ 71 := by
  cases pc with
  | wired t => cases t <;> simp only [SubPc.budget, TakePc.budget] <;> omega
  | _ =>
      simp only [SubPc.budget, kMaxSubscribers]
      omega

theorem SubPc.budget_wiring {pc : SubPc T} (h : pc.wiring = true) : 0 < pc.budget := by
  cases pc <;> simp only [SubPc.budget] <;> first | cases h; done | omega

/-! ## Own steps -/

theorem pubStep_budget {h h' : Topic T} {p : Nat} {ep ep' : PubEp T} {now : Int}
    (hs : pubStep size h p ep (.go now) = some (h', ep')) : ep'.pc.budget < ep.pc.budget := by
  simp only [pubStep] at hs
  cases hpc : ep.pc <;> simp only [hpc] at hs
  case lock m =>
    split at hs <;> cases hs
    have := PubPc.budget_delivering (ep.deliver_delivering m).2
    show (ep.deliver m).pc.budget < 393
    omega
  all_goals
    repeat' split at hs
    all_goals cases hs
    all_goals simp only [PubEp.at'_pc, PubPc.budget, kMaxSubscribers] at *
    all_goals omega

theorem takeStep_budget {c c' : SubCore T} {now : Int} {t t' : TakePc T}
    (hs : takeStep c now t = some (c', t')) : t'.budget < t.budget := by
  cases t <;> simp only [takeStep] at hs
  all_goals
    repeat' split at hs
    all_goals cases hs
    all_goals simp only [TakePc.budget]
    all_goals omega

theorem subStep_budget {h h' : Topic T} {k : Nat} {ep ep' : SubEp T} {now : Int}
    (hs : subStep h k ep (.go now) = some (h', ep')) : ep'.pc.budget < ep.pc.budget := by
  simp only [subStep] at hs
  cases hpc : ep.pc <;> simp only [hpc] at hs
  case wired t =>
    split at hs
    · next c t' ht =>
        cases hs
        exact takeStep_budget ht
    · cases hs
  all_goals
    repeat' split at hs
    all_goals cases hs
    all_goals try simp only [SubEp.at'_pc]
    all_goals simp only [SubPc.budget, TakePc.budget, kMaxSubscribers] at *
    all_goals omega

/-! ## When the next access is possible -/

theorem takeStep_enabled (c : SubCore T) (now : Int) {t : TakePc T} (ht : t.budget ≠ 0) :
    ∃ c' t', takeStep c now t = some (c', t') := by
  cases t <;> simp only [TakePc.budget, ne_eq, not_true_eq_false] at ht <;> simp only [takeStep]
  all_goals
    repeat' split
    all_goals exact ⟨_, _, rfl⟩

theorem subStep_enabled (h : Topic T) (k : Nat) {ep : SubEp T} (now : Int)
    (hl : ep.pc.budget ≠ 0) : (subStep h k ep (.go now)).isSome = true := by
  simp only [subStep]
  cases hpc : ep.pc <;> simp only [hpc, SubPc.budget, ne_eq, not_true_eq_false] at hl ⊢
  case wired t =>
    obtain ⟨c', t', ht⟩ := takeStep_enabled (h.cores k) now hl
    rw [ht]
    rfl
  all_goals
    repeat' split
    all_goals rfl

/-- Only in front of the write mutex can a publisher be stopped. -/
theorem pubStep_enabled (h : Topic T) (p : Nat) {ep : PubEp T} (now : Int)
    (hl : ep.pc.budget ≠ 0) (hlock : ∀ m, ep.pc = .lock m → h.sharedWriteMutex = none) :
    (pubStep size h p ep (.go now)).isSome = true := by
  simp only [pubStep]
  cases hpc : ep.pc <;> simp only [hpc, PubPc.budget, ne_eq, not_true_eq_false] at hl ⊢
  case lock m =>
    rw [hlock m hpc]
    rfl
  all_goals
    repeat' split
    all_goals rfl

theorem subStep_start {h h' : Topic T} {k : Nat} {ep ep' : SubEp T} {b : SubAct}
    (hb : ∀ now, b ≠ .go now) (hs : subStep h k ep b = some (h', ep')) : ep.pc.budget = 0 := by
  cases b with
  | go now => exact absurd rfl (hb now)
  | subscribe | takeLatest | tryTake | destroy =>
      simp only [subStep] at hs
      split at hs
      all_goals first | cases hs; done | (next hpc _ => rw [hpc]; rfl)

theorem pubStep_start {h h' : Topic T} {p : Nat} {ep ep' : PubEp T} {b : PubAct T}
    (hb : ∀ now, b ≠ .go now) (hs : pubStep size h p ep b = some (h', ep')) :
    ep.pc.budget = 0 := by
  cases b with
  | go now => exact absurd rfl (hb now)
  | advertise | publish m | destroy =>
      simp only [pubStep] at hs
      split at hs
      all_goals first | cases hs; done | (next hpc _ => rw [hpc]; rfl) | (next hpc => rw [hpc]; rfl)

/-! ## Who holds a mutex -/

/-- A held mutex names an endpoint that is on its way to releasing it. -/
structure HeldInv (w : World T) : Prop where
  wiring : ∀ k, w.topic.wiringMutex = some k → (w.subs k).pc.wiring = true
  write : ∀ p, w.topic.sharedWriteMutex = some p →
    (w.pubs p).pc.delivering = true ∧ (w.pubs p).qos.ownership = .shared
  lock : ∀ p m, (w.pubs p).pc = .lock m → (w.pubs p).qos.ownership = .shared

/-- After a subscriber's access the wiring mutex is held by it, or by whoever held it. -/
theorem WireMove.holder {h h' : Topic T} {k k' : Nat} {pc pc' : SubPc T}
    (hm : WireMove h k pc h' pc') (hold : h.wiringMutex = some k → pc.wiring = true)
    (hk : h'.wiringMutex = some k') :
    k' = k ∧ pc'.wiring = true ∨ k' ≠ k ∧ h.wiringMutex = some k' := by
  by_cases e : k' = k
  · subst e
    refine .inl ⟨rfl, ?_⟩
    cases hm with
    | quiet _ hmut hw =>
        rw [hw]
        exact hold (hmut ▸ hk)
    | acquire _ _ hpc => rcases hpc with ⟨-, rfl⟩ | ⟨-, rfl⟩ <;> rfl
    | release => cases hk
    | _ => rfl
  · refine .inr ⟨e, ?_⟩
    cases hm with
    | quiet _ hmut => exact hmut ▸ hk
    | acquire => exact absurd (Option.some.inj hk).symm e
    | release => cases hk
    | _ => exact hk

/-- What a publisher's access does to the write mutex. -/
inductive LockMove (h : Topic T) (p : Nat) (ep : PubEp T) : Topic T → PubEp T → Prop
  | quiet {h' : Topic T} {ep' : PubEp T} : h'.sharedWriteMutex = h.sharedWriteMutex →
      (ep.pc.delivering = true → ep.qos.ownership = .shared → ep'.pc.delivering = true) →
      (∀ m, ep'.pc = .lock m → ep.qos.ownership = .shared) → LockMove h p ep h' ep'
  | lock {h' : Topic T} {ep' : PubEp T} (m : Message T) : ep.pc = .lock m →
      h'.sharedWriteMutex = some p → ep'.pc.delivering = true → LockMove h p ep h' ep'
  | unlock {h' : Topic T} {ep' : PubEp T} : h'.sharedWriteMutex = none → ep'.pc = .idle →
      LockMove h p ep h' ep'

theorem pubStep_lockMove {h h' : Topic T} {p : Nat} {ep ep' : PubEp T} {a : PubAct T}
    (hs : pubStep size h p ep a = some (h', ep')) : LockMove h p ep h' ep' := by
  cases a with
  | advertise | destroy =>
      simp only [pubStep] at hs
      cases hpc : ep.pc <;> simp only [hpc] at hs
      all_goals
        repeat' split at hs
        all_goals cases hs
        all_goals exact .quiet rfl (fun h0 => by rw [hpc] at h0; cases h0) (fun m h0 => by cases h0)
  | publish m =>
      simp only [pubStep] at hs
      cases hpc : ep.pc <;> simp only [hpc] at hs <;> try cases hs
      split at hs
      · next hsh =>
          cases hs
          exact .quiet rfl (fun h0 => by rw [hpc] at h0; cases h0) (fun _ _ => hsh)
      · cases hs
        refine .quiet rfl (fun h0 => by rw [hpc] at h0; cases h0) (fun m' h0 => ?_)
        have := (ep.deliver_delivering m).2
        rw [h0] at this
        cases this
  | go now =>
      simp only [pubStep] at hs
      cases hpc : ep.pc <;> simp only [hpc] at hs
      case lock m =>
        split at hs <;> cases hs
        exact .lock m hpc rfl (ep.deliver_delivering m).2
      case ret st =>
        cases hs
        by_cases hsh : ep.qos.ownership = .shared
        · exact .unlock (by rw [if_pos hsh]) rfl
        · exact .quiet (by rw [if_neg hsh]) (fun _ h0 => absurd h0 hsh) (fun m h0 => by cases h0)
      all_goals
        repeat' split at hs
        all_goals cases hs
        all_goals exact .quiet rfl (fun _ _ => rfl) (fun m h0 => by cases h0)

/-- After a publisher's access the write mutex is held by it, or by whoever held it. -/
theorem LockMove.holder {h h' : Topic T} {p q : Nat} {ep ep' : PubEp T}
    (hm : LockMove h p ep h' ep') (hqos : ep'.qos = ep.qos)
    (hold : h.sharedWriteMutex = some p → ep.pc.delivering = true ∧ ep.qos.ownership = .shared)
    (hlock : ∀ m, ep.pc = .lock m → ep.qos.ownership = .shared)
    (hq : h'.sharedWriteMutex = some q) :
    q = p ∧ ep'.pc.delivering = true ∧ ep'.qos.ownership = .shared ∨
      q ≠ p ∧ h.sharedWriteMutex = some q := by
  rw [hqos]
  cases hm with
  | quiet hmut hdel _ =>
      rw [hmut] at hq
      by_cases e : q = p
      · subst e
        obtain ⟨h1, h2⟩ := hold hq
        exact .inl ⟨rfl, hdel h1 h2, h2⟩
      · exact .inr ⟨e, hq⟩
  | lock m hpc hmut hdel =>
      rw [hmut] at hq
      exact .inl ⟨(Option.some.inj hq).symm, hdel, hlock m hpc⟩
  | unlock hmut _ =>
      rw [hmut] at hq
      cases hq

theorem LockMove.shared {h h' : Topic T} {p : Nat} {ep ep' : PubEp T}
    (hm : LockMove h p ep h' ep') {m : Message T} (hpc : ep'.pc = .lock m) :
    ep.qos.ownership = .shared := by
  cases hm with
  | quiet _ _ hsh => exact hsh m hpc
  | lock _ _ _ hdel =>
      rw [hpc] at hdel
      cases hdel
  | unlock _ hidle =>
      rw [hpc] at hidle
      cases hidle

theorem heldInv_reached {ok : World T → Act T → Prop} {w : World T}
    (hw : (machine T size).Reached ok w) : HeldInv w := by
  refine hw.invariant (P := HeldInv) ?_ ?_
  · rintro w ⟨ht, -, hpub⟩
    constructor
    case wiring =>
      intro k h0
      rw [ht] at h0
      cases h0
    case write =>
      intro p h0
      rw [ht] at h0
      cases h0
    case lock =>
      intro p m h0
      rw [(hpub p).1] at h0
      cases h0
  · intro w a w' _ h _ hs
    rcases step_cases hs with ⟨k, b, h', ep', -, hst, rfl⟩ | ⟨p, b, h', ep', -, hst, rfl⟩
    · constructor
      case wiring =>
        intro k' hk'
        rcases (subStep_wireMove hst).1.holder (h.wiring k) hk' with ⟨rfl, h1⟩ | ⟨e, h1⟩
        · rw [World.putSub_self]
          exact h1
        · rw [World.putSub_ne _ _ _ _ e]
          exact h.wiring k' h1
      case write =>
        intro p hp
        rw [World.putSub_topic, (subStep_owner hst).2.2] at hp
        exact h.write p hp
      case lock => exact h.lock
    · have hqos := (pubStep_table hst).2.2
      have hm := pubStep_lockMove hst
      constructor
      case wiring =>
        intro k hk
        rw [World.putPub_topic, (pubStep_table hst).2.1] at hk
        exact h.wiring k hk
      case write =>
        intro q hq
        rcases hm.holder hqos (h.write p) (h.lock p) hq with ⟨rfl, h1⟩ | ⟨e, h1⟩
        · rw [World.putPub_self]
          exact h1
        · rw [World.putPub_ne _ _ _ _ e]
          exact h.write q h1
      case lock =>
        intro q m hq
        by_cases e : q = p
        · subst e
          rw [World.putPub_self] at hq ⊢
          rw [hqos]
          exact hm.shared hq
        · rw [World.putPub_ne _ _ _ _ e] at hq ⊢
          exact h.lock q m hq

/-! ## The participants -/

inductive Party where
  | sub (k : Nat)
  | pub (p : Nat)
  deriving DecidableEq, Repr

/-- The next access of the endpoint. -/
def Party.go (now : Int) : Party → Act T
  | .sub k => .sub k (.go now)
  | .pub p => .pub p (.go now)

/-- An access of the endpoint, as against the start of a verb or what others do. -/
def Party.goes : Party → Act T → Bool
  | .sub k, .sub k' (.go _) => k' == k
  | .pub p, .pub p' (.go _) => p' == p
  | _, _ => false

def World.budget (w : World T) : Party → Nat
  | .sub k => (w.subs k).pc.budget
  | .pub p => (w.pubs p).pc.budget

/-- The endpoint is in no verb. -/
def World.AtRest (w : World T) : Party → Prop
  | .sub k => (w.subs k).pc = .unwired ∨ (w.subs k).pc = .wired .idle ∨ (w.subs k).pc = .gone
  | .pub p => (w.pubs p).pc = .unadvertised ∨ (w.pubs p).pc = .idle ∨
      (w.pubs p).pc = .refused ∨ (w.pubs p).pc = .gone

theorem atRest_iff (w : World T) (x : Party) : w.AtRest x ↔ w.budget x = 0 := by
  cases x with
  | sub k =>
      simp only [World.AtRest, World.budget]
      cases (w.subs k).pc with
      | wired t => cases t <;> simp [SubPc.budget, TakePc.budget]
      | _ => simp [SubPc.budget]
  | pub p =>
      simp only [World.AtRest, World.budget]
      cases (w.pubs p).pc <;> simp [PubPc.budget]

theorem budget_le (w : World T) (x : Party) : w.budget x ≤ 393 := by
  cases x with
  | sub k => exact Nat.le_trans (SubPc.budget_le _) (by decide)
  | pub p => exact PubPc.budget_le _

theorem step_verb {w w' : World T} {x : Party} {a : Act T} (hx : w.budget x ≠ 0)
    (ha : x.goes a = false) (hs : w.step size a = some w') : w'.budget x = w.budget x := by
  rcases step_cases hs with ⟨k, b, h', ep', rfl, hst, rfl⟩ | ⟨p, b, h', ep', rfl, hst, rfl⟩
  · cases x with
    | pub p => rfl
    | sub k' =>
        by_cases hk : k' = k
        · subst hk
          refine absurd (subStep_start (fun now hb => ?_) hst) hx
          subst hb
          simp [Party.goes] at ha
        · simp only [World.budget, World.putSub_ne _ _ _ _ hk]
  · cases x with
    | sub k => rfl
    | pub p' =>
        by_cases hp : p' = p
        · subst hp
          refine absurd (pubStep_start (fun now hb => ?_) hst) hx
          subst hb
          simp [Party.goes] at ha
        · simp only [World.budget, World.putPub_ne _ _ _ _ hp]

theorem step_own {w w' : World T} {x : Party} {a : Act T} (ha : x.goes a = true)
    (hs : w.step size a = some w') : w'.budget x < w.budget x := by
  rcases step_cases hs with ⟨k, b, h', ep', rfl, hst, rfl⟩ | ⟨p, b, h', ep', rfl, hst, rfl⟩
  · cases x with
    | pub p => cases ha
    | sub k' =>
        cases b with
        | go now =>
            simp only [Party.goes, beq_iff_eq] at ha
            subst ha
            simp only [World.budget, World.putSub_self]
            exact subStep_budget hst
        | _ => cases ha
  · cases x with
    | sub k => cases ha
    | pub p' =>
        cases b with
        | go now =>
            simp only [Party.goes, beq_iff_eq] at ha
            subst ha
            simp only [World.budget, World.putPub_self]
            exact pubStep_budget hst
        | _ => cases ha

theorem sub_enabled {w : World T} {k : Nat} (hk : (w.subs k).pc.budget ≠ 0) (now : Int) :
    (w.step size (.sub k (.go now))).isSome = true := by
  obtain ⟨⟨h', ep'⟩, hs⟩ := Option.isSome_iff_exists.mp (subStep_enabled w.topic k now hk)
  simp [World.step, hs]

theorem pub_enabled {w : World T} {p : Nat} (hp : (w.pubs p).pc.budget ≠ 0)
    (hlock : ∀ m, (w.pubs p).pc = .lock m → w.topic.sharedWriteMutex = none) (now : Int) :
    (w.step size (.pub p (.go now))).isSome = true := by
  have hpub : (pubStep size w.topic p (w.pubs p) (.go now)).isSome = true :=
    pubStep_enabled w.topic p now hp hlock
  obtain ⟨⟨h', ep'⟩, hs⟩ := Option.isSome_iff_exists.mp hpub
  simp [World.step, hs]

/-! ## Waiting for the wiring mutex -/

/-- `Advertise` or `Subscribe`, and the destructor. -/
inductive WiringVerb where
  | wire
  | unwire
  deriving DecidableEq, Repr

/-- The first access of the verb, which takes `DomainState::mutex_`. -/
def WiringVerb.act : WiringVerb → Party → Act T
  | .wire, .sub k => .sub k .subscribe
  | .wire, .pub p => .pub p .advertise
  | .unwire, .sub k => .sub k .destroy
  | .unwire, .pub p => .pub p .destroy

def Act.party : Act T → Party
  | .sub k _ => .sub k
  | .pub p _ => .pub p

/-- The wiring verb that the action is the first access of. -/
def Act.wiring : Act T → Option WiringVerb
  | .sub _ .subscribe | .pub _ .advertise => some .wire
  | .sub _ .destroy | .pub _ .destroy => some .unwire
  | _ => none

@[simp] theorem WiringVerb.act_party (v : WiringVerb) (x : Party) :
    (v.act x : Act T).party = x := by
  cases v <;> cases x <;> rfl

@[simp] theorem WiringVerb.act_wiring (v : WiringVerb) (x : Party) :
    (v.act x : Act T).wiring = some v := by
  cases v <;> cases x <;> rfl

@[simp] theorem Party.go_party (x : Party) (now : Int) : (x.go now : Act T).party = x := by
  cases x <;> rfl

@[simp] theorem Party.go_wiring (x : Party) (now : Int) : (x.go now : Act T).wiring = none := by
  cases x <;> rfl

theorem Act.eq_of_wiring {a : Act T} {v : WiringVerb} (h : a.wiring = some v) :
    a = v.act a.party := by
  cases a with
  | sub k b => cases b <;> cases h <;> rfl
  | pub p b => cases b <;> cases h <;> rfl

/-- The handle is there for the verb to be called on. -/
def World.offers (w : World T) : WiringVerb → Party → Bool
  | .wire, .sub k => match (w.subs k).pc with | .unwired => true | _ => false
  | .wire, .pub p => match (w.pubs p).pc with | .unadvertised => true | _ => false
  | .unwire, .sub k => match (w.subs k).pc with | .wired .idle => true | _ => false
  | .unwire, .pub p => match (w.pubs p).pc with | .idle | .refused => true | _ => false

/-- A topic with its endpoints, and which of them have called a wiring verb and not got the
mutex yet. -/
structure Callers (T : Type) where
  world : World T
  waits : Party → Option WiringVerb := fun _ => none

inductive CallAct (T : Type) where
  | call (x : Party) (v : WiringVerb)
  | act (a : Act T)

/-- The call of a wiring verb touches nothing. From then on the acquisition is the only
action its endpoint has, and nobody acquires without a call. -/
def Callers.step (size : Nat) (s : Callers T) : CallAct T → Option (Callers T)
  | .call x v =>
      if s.waits x = none ∧ s.world.offers v x = true then
        some { s with waits := Function.update s.waits x (some v) }
      else none
  | .act a =>
      if s.waits a.party = a.wiring then
        match s.world.step size a with
        | some w => some ⟨w, Function.update s.waits a.party none⟩
        | none => none
      else none

/-- The machine of one in-process topic whose wiring verbs wait. -/
def contended (T : Type) (size : Nat) : Machine (Callers T) (CallAct T) where
  start s := s.world.Fresh ∧ ∀ x, s.waits x = none
  step := Callers.step size

theorem Callers.step_cases {s s' : Callers T} {a : CallAct T} (hs : s.step size a = some s') :
    (∃ x v, a = .call x v ∧ s.waits x = none ∧ s.world.offers v x = true ∧
      s' = { s with waits := Function.update s.waits x (some v) }) ∨
    ∃ b w, a = .act b ∧ s.waits b.party = b.wiring ∧ s.world.step size b = some w ∧
      s' = ⟨w, Function.update s.waits b.party none⟩ := by
  cases a with
  | call x v =>
      simp only [Callers.step] at hs
      split at hs
      · next h =>
          cases hs
          exact .inl ⟨x, v, rfl, h.1, h.2, rfl⟩
      · cases hs
  | act b =>
      simp only [Callers.step] at hs
      split at hs
      · next h =>
          split at hs
          · next w hw =>
              cases hs
              exact .inr ⟨b, w, rfl, h, hw, rfl⟩
          · cases hs
      · cases hs

/-- What the endpoint does next: it acquires the mutex it waits for, or makes its next
access. -/
def Callers.next (s : Callers T) (now : Int) (x : Party) : CallAct T :=
  .act (match s.waits x with | some v => v.act x | none => x.go now)

/-- An access of the endpoint, the acquisition included. -/
def Party.moves (x : Party) : CallAct T → Bool
  | .call _ _ => false
  | .act a => x.goes a || (a.party == x && a.wiring.isSome)

/-- The endpoint is in no verb and waits for none. -/
def Callers.AtRest (s : Callers T) (x : Party) : Prop :=
  s.waits x = none ∧ s.world.AtRest x

/-- Accesses left, the acquisition included. -/
def Callers.budget (s : Callers T) (x : Party) : Nat :=
  match s.waits x with
  | some _ => 72
  | none => s.world.budget x

theorem Callers.atRest_iff (s : Callers T) (x : Party) : s.AtRest x ↔ s.budget x = 0 := by
  simp only [Callers.AtRest, Callers.budget]
  cases s.waits x with
  | some v => simp
  | none => simp [InProc.atRest_iff]

theorem Callers.budget_le (s : Callers T) (x : Party) : s.budget x ≤ 393 := by
  simp only [Callers.budget]
  cases s.waits x with
  | some v => exact Nat.le_of_ble_eq_true rfl
  | none => exact InProc.budget_le s.world x

/-- A handle that a wiring verb can be called on is in no verb. -/
theorem offers_rest {w : World T} {v : WiringVerb} {x : Party} (h : w.offers v x = true) :
    w.budget x = 0 := by
  cases v <;> cases x <;> simp only [World.offers, World.budget] at h ⊢ <;> split at h
  all_goals first | cases h; done | (next hpc => rw [hpc]; rfl)

theorem offers_of_step {w w' : World T} {a : Act T} {v : WiringVerb} (ha : a.wiring = some v)
    (hs : w.step size a = some w') : w.offers v a.party = true := by
  rw [Act.eq_of_wiring ha] at hs
  rcases InProc.step_cases hs with ⟨k, b, h', ep', hb, hst, rfl⟩ | ⟨p, b, h', ep', hb, hst, rfl⟩
  all_goals
    generalize a.party = x at hb ⊢
    cases v <;> cases x <;> cases hb
    all_goals
      simp only [subStep, pubStep] at hst
      simp only [World.offers]
      split at hst
      all_goals first | cases hst; done | simp_all only

/-- After the acquisition at most seventy-one accesses are left. -/
theorem acquired_budget {w w' : World T} {a : Act T} {v : WiringVerb} (ha : a.wiring = some v)
    (hs : w.step size a = some w') : w'.budget a.party ≤ 71 := by
  rcases InProc.step_cases hs with ⟨k, b, h', ep', rfl, hst, rfl⟩ | ⟨p, b, h', ep', rfl, hst, rfl⟩
  · simp only [Act.party, World.budget, World.putSub_self]
    exact SubPc.budget_le _
  · simp only [Act.party, World.budget, World.putPub_self]
    cases b <;> cases ha
    all_goals
      simp only [pubStep] at hst
      repeat' split at hst
      all_goals cases hst
      all_goals exact Nat.zero_le _

/-- The steps of others leave a handle as it is. -/
theorem offers_theirs {w w' : World T} {a : Act T} {v : WiringVerb} {x : Party}
    (hx : a.party ≠ x) (hs : w.step size a = some w') : w'.offers v x = w.offers v x := by
  rcases InProc.step_cases hs with ⟨k, b, h', ep', rfl, hst, rfl⟩ | ⟨p, b, h', ep', rfl, hst, rfl⟩
  · cases x with
    | pub p => cases v <;> rfl
    | sub k' =>
        have hk : k' ≠ k := fun e => hx (by rw [e]; rfl)
        cases v <;> simp only [World.offers, World.putSub_ne _ _ _ _ hk]
  · cases x with
    | sub k => cases v <;> rfl
    | pub p' =>
        have hp : p' ≠ p := fun e => hx (by rw [e]; rfl)
        cases v <;> simp only [World.offers, World.putPub_ne _ _ _ _ hp]

/-- Whoever waits for the wiring mutex is still at the handle it called the verb on. -/
def WaitInv (s : Callers T) : Prop := ∀ x v, s.waits x = some v → s.world.offers v x = true

/-- A topic whose wiring verbs wait is in no state but those of `machine`. -/
theorem contended_world {s : Callers T} (hs : (contended T size).Reached anyStep s) :
    (machine T size).Reached anyStep s.world ∧ WaitInv s := by
  refine hs.invariant (P := fun s => (machine T size).Reached anyStep s.world ∧ WaitInv s) ?_ ?_
  · rintro s ⟨hfresh, hnone⟩
    refine ⟨.start hfresh, fun x v hx => ?_⟩
    rw [hnone x] at hx
    cases hx
  · intro s a s' _ ⟨hw, hinv⟩ _ hst
    rcases Callers.step_cases hst with ⟨x, v, rfl, -, hoff, rfl⟩ | ⟨b, w, rfl, -, hstep, rfl⟩
    · refine ⟨hw, fun y u hy => ?_⟩
      by_cases e : y = x
      · subst e
        simp only [Function.update_self, Option.some.injEq] at hy
        exact hy ▸ hoff
      · simp only [Function.update_of_ne e] at hy
        exact hinv y u hy
    · refine ⟨hw.next trivial hstep, fun y u hy => ?_⟩
      by_cases e : y = b.party
      · subst e
        simp only [Function.update_self] at hy
        cases hy
      · simp only [Function.update_of_ne e] at hy
        rw [offers_theirs (Ne.symm e) hstep]
        exact hinv y u hy

/-- And it is in all of them: a wiring verb may be called just before it gets the mutex. -/
theorem world_contended {w : World T} (hw : (machine T size).Reached anyStep w) :
    (contended T size).Reached anyStep { world := w } := by
  refine hw.invariant (P := fun w => (contended T size).Reached anyStep { world := w }) ?_ ?_
  · exact fun w hfresh => .start ⟨hfresh, fun _ => rfl⟩
  · intro w a w' _ ih _ hs
    cases ha : a.wiring with
    | none =>
        refine ih.next (a := .act a) trivial ?_
        replace hs : w.step size a = some w' := hs
        simp only [contended, Callers.step, ha, hs, if_true, Function.update_eq_self]
    | some v =>
        have hcall := ih.next (a := .call a.party v)
          (t := { world := w, waits := Function.update (fun _ => none) a.party (some v) }) trivial
          (by simp [contended, Callers.step, offers_of_step ha hs])
        refine hcall.next (a := .act a) trivial ?_
        replace hs : w.step size a = some w' := hs
        simp [contended, Callers.step, ha, hs]

/-! ## Who can be stopped, and for how long -/

theorem Party.moves_goes {x : Party} {a : Act T} (h : x.goes a = true) :
    a.party = x ∧ a.wiring = none := by
  cases x <;> cases a
  case sub.sub k k' b =>
    cases b <;> simp only [Party.goes, beq_iff_eq, Bool.false_eq_true] at h
    exact ⟨congrArg Party.sub h, rfl⟩
  case pub.pub p p' b =>
    cases b <;> simp only [Party.goes, beq_iff_eq, Bool.false_eq_true] at h
    exact ⟨congrArg Party.pub h, rfl⟩
  all_goals cases h

theorem Callers.step_own {s s' : Callers T} {x : Party} {a : CallAct T}
    (ha : x.moves a = true) (hs : s.step size a = some s') : s'.budget x < s.budget x := by
  rcases Callers.step_cases hs with ⟨y, v, rfl, -⟩ | ⟨b, w, rfl, hwait, hstep, rfl⟩
  · cases ha
  · rcases Bool.or_eq_true_iff.mp ha with hgo | hacq
    · obtain ⟨rfl, hnone⟩ := Party.moves_goes hgo
      rw [hnone] at hwait
      simp only [Callers.budget, Function.update_self, hwait]
      exact InProc.step_own hgo hstep
    · simp only [Bool.and_eq_true, beq_iff_eq] at hacq
      obtain ⟨rfl, hsome⟩ := hacq
      obtain ⟨v, hv⟩ := Option.isSome_iff_exists.mp hsome
      rw [hv] at hwait
      simp only [Callers.budget, Function.update_self, hwait]
      exact Nat.lt_succ_of_le (acquired_budget hv hstep)

/-- What others do, and the start of a take or a publish, leaves a busy endpoint where it
is. -/
theorem Callers.step_theirs {s s' : Callers T} {x : Party} {a : CallAct T}
    (hx : 0 < s.budget x) (ha : x.moves a = false) (hs : s.step size a = some s') :
    s'.budget x = s.budget x := by
  rcases Callers.step_cases hs with ⟨y, v, rfl, hnone, hoff, rfl⟩ | ⟨b, w, rfl, hwait, hstep, rfl⟩
  · by_cases e : x = y
    · subst e
      simp only [Callers.budget, hnone, offers_rest hoff] at hx
      cases hx
    · simp only [Callers.budget, Function.update_of_ne e]
  · obtain ⟨hgo, hacq⟩ := Bool.or_eq_false_iff.mp ha
    have hworld : s.waits x = none → w.budget x = s.world.budget x := by
      intro hnone
      simp only [Callers.budget, hnone] at hx
      exact step_verb hx.ne' hgo hstep
    by_cases e : x = b.party
    · subst e
      have hnone : s.waits b.party = none := by
        rw [hwait]
        simpa using hacq
      simp only [Callers.budget, Function.update_self, hnone]
      exact hworld hnone
    · simp only [Callers.budget, Function.update_of_ne e]
      cases hw : s.waits x with
      | some v => rfl
      | none => exact hworld hw

/-- The endpoint is busy as long as `busy` holds and only then: what is to be shown of
`busy` is that it leaves some of the budget. -/
theorem party_paced (x : Party) {busy : Callers T → Prop}
    (hbusy : ∀ s, busy s → 0 < s.budget x) : (contended T size).Paced anyStep x.moves busy
    (fun s => s.budget x) where
  left := fun {s} h => hbusy s h
  mine := fun _ ha _ hs => Callers.step_own ha hs
  theirs := fun {s _ _} hb ha _ hs => Nat.le_of_eq (Callers.step_theirs (hbusy s hb) ha hs)

/-- An endpoint that waits for nothing and is not in front of the write mutex. -/
theorem Callers.next_act {s : Callers T} {x : Party} {now : Int} (hx : s.waits x = none)
    (hs : (s.world.step size (x.go now)).isSome = true) :
    (s.step size (s.next now x)).isSome = true := by
  obtain ⟨w, hw⟩ := Option.isSome_iff_exists.mp hs
  simp [Callers.step, Callers.next, hx, hw]

/-- A free wiring mutex can be had by whoever waits for it. -/
theorem acquire_enabled {w : World T} {x : Party} {v : WiringVerb}
    (hoff : w.offers v x = true) (hfree : w.topic.wiringMutex = none) :
    (w.step size (v.act x)).isSome = true := by
  cases v <;> cases x <;> simp only [World.offers] at hoff <;> split at hoff
  all_goals first | cases hoff; done | skip
  all_goals next hpc =>
    simp only [WiringVerb.act, World.step, subStep, pubStep, hpc, hfree]
    first | rfl | (split_ifs <;> rfl)

theorem Callers.next_acquire {s : Callers T} {x : Party} {v : WiringVerb} {now : Int}
    (hinv : WaitInv s) (hx : s.waits x = some v) (hfree : s.world.topic.wiringMutex = none) :
    (s.step size (s.next now x)).isSome = true := by
  have hstep : (s.world.step size (v.act x)).isSome = true := acquire_enabled (hinv x v hx) hfree
  obtain ⟨w, hw⟩ := Option.isSome_iff_exists.mp hstep
  simp [Callers.step, Callers.next, hx, hw]

/-- The holder of a mutex is inside a verb, so it waits for neither. -/
theorem WaitInv.busy {s : Callers T} (hinv : WaitInv s) {x : Party}
    (hx : 0 < s.world.budget x) : s.waits x = none := by
  cases hw : s.waits x with
  | none => rfl
  | some v =>
      rw [offers_rest (hinv x v hw)] at hx
      cases hx

theorem Callers.budget_world {s : Callers T} {x : Party} (hx : s.waits x = none) :
    s.budget x = s.world.budget x := by
  simp only [Callers.budget, hx]

/-- What takes some of the endpoint's accesses is over once it has made them all. -/
theorem Callers.done {s : Callers T} (hs : (contended T size).Reached anyStep s) {x : Party}
    {B : World T → Prop} (hB : ∀ w, B w → 0 < w.budget x) {n : Nat}
    (hn : s.budget x ≤ n) {P : Callers T → Prop}
    (hP : ∀ u : Callers T, HeldInv u.world → ¬ B u.world → P u) :
    (contended T size).Within anyStep x.moves n s P := by
  have hpos : ∀ u : Callers T, B u.world → 0 < u.budget x := by
    intro u hu
    cases hw : u.waits x with
    | none => exact Callers.budget_world hw ▸ hB u.world hu
    | some v => simp [Callers.budget, hw]
  refine ((party_paced x hpos).rests hn).imp hs fun u hu hrest => ?_
  exact hP u (heldInv_reached (contended_world hu).1) hrest

/-- In every state a run reaches, an endpoint inside a verb or waiting to enter one can make
its next access, unless it stands in front of the write mutex and another publisher holds
it, or waits for the wiring mutex and another endpoint holds that. The holder of a mutex
can make its own, and lets go after 71 of them, or 392 for a write mutex. So as long as
anyone is inside a verb or waiting, someone can move; and no verb makes more than 393
accesses. All of it whatever the others do. -/
theorem no_deadlock {s : Callers T} (hs : (contended T size).Reached anyStep s) :
    (∀ x, ¬ s.AtRest x → (∀ now, (s.step size (s.next now x)).isSome = true) ∨
      (∃ p q, x = .pub p ∧ s.waits x = none ∧ s.world.topic.sharedWriteMutex = some q ∧
        q ≠ p) ∨
      ∃ k, s.waits x ≠ none ∧ s.world.topic.wiringMutex = some k ∧ x ≠ .sub k) ∧
    (∀ k, s.world.topic.wiringMutex = some k →
      (∀ now, (s.step size (s.next now (.sub k))).isSome = true) ∧
      (contended T size).Within anyStep (Party.sub k).moves 71 s
        (·.world.topic.wiringMutex ≠ some k)) ∧
    (∀ p, s.world.topic.sharedWriteMutex = some p →
      (∀ now, (s.step size (s.next now (.pub p))).isSome = true) ∧
      (contended T size).Within anyStep (Party.pub p).moves 392 s
        (·.world.topic.sharedWriteMutex ≠ some p)) ∧
    ((∃ x, ¬ s.AtRest x) → ∃ y, ¬ s.AtRest y ∧
      ∀ now, (s.step size (s.next now y)).isSome = true) ∧
    ∀ x, (contended T size).Within anyStep (Party.moves x) 393 s (·.AtRest x) := by
  obtain ⟨hw, hinv⟩ := contended_world hs
  have hheld := heldInv_reached hw
  have hwire : ∀ k, s.world.topic.wiringMutex = some k →
      0 < s.world.budget (.sub k) := fun k hk => SubPc.budget_wiring (hheld.wiring k hk)
  have hwrite : ∀ p, s.world.topic.sharedWriteMutex = some p →
      0 < s.world.budget (.pub p) := fun p hp =>
    (PubPc.budget_delivering (hheld.write p hp).1).1
  have hmoveWire : ∀ k, s.world.topic.wiringMutex = some k →
      ∀ now, (s.step size (s.next now (.sub k))).isSome = true := by
    intro k hk now
    exact Callers.next_act (hinv.busy (hwire k hk)) (sub_enabled (hwire k hk).ne' now)
  have hmoveWrite : ∀ p, s.world.topic.sharedWriteMutex = some p →
      ∀ now, (s.step size (s.next now (.pub p))).isSome = true := by
    intro p hp now
    refine Callers.next_act (hinv.busy (hwrite p hp))
      (pub_enabled (hwrite p hp).ne' (fun m hpc => ?_) now)
    -- the holder itself is past the lock
    have hdel := (hheld.write p hp).1
    rw [hpc] at hdel
    cases hdel
  have hcan : ∀ x, ¬ s.AtRest x → (∀ now, (s.step size (s.next now x)).isSome = true) ∨
      (∃ p q, x = .pub p ∧ s.waits x = none ∧ s.world.topic.sharedWriteMutex = some q ∧
        q ≠ p) ∨
      ∃ k, s.waits x ≠ none ∧ s.world.topic.wiringMutex = some k ∧ x ≠ .sub k := by
    intro x hx
    cases hwait : s.waits x with
    | some v =>
        cases hm : s.world.topic.wiringMutex with
        | none => exact .inl fun now => Callers.next_acquire hinv hwait hm
        | some k =>
            refine .inr (.inr ⟨k, by simp, rfl, ?_⟩)
            rintro rfl
            have := hinv.busy (hwire k hm)
            rw [hwait] at this
            cases this
    | none =>
        rw [Callers.atRest_iff, Callers.budget_world hwait] at hx
        cases x with
        | sub k => exact .inl fun now => Callers.next_act hwait (sub_enabled hx now)
        | pub p =>
            cases hm : s.world.topic.sharedWriteMutex with
            | none =>
                exact .inl fun now => Callers.next_act hwait (pub_enabled hx (fun _ _ => hm) now)
            | some q =>
                by_cases hq : q = p
                · exact .inl (hq ▸ hmoveWrite q hm)
                · exact .inr (.inl ⟨p, q, rfl, rfl, rfl, hq⟩)
  refine ⟨hcan, fun k hk => ⟨hmoveWire k hk, ?_⟩, fun p hp => ⟨hmoveWrite p hp, ?_⟩, ?_,
    fun x => ?_⟩
  · have hle : s.budget (.sub k) ≤ 71 := by
      rw [Callers.budget_world (hinv.busy (hwire k hk))]
      exact SubPc.budget_le _
    refine Callers.done hs (x := .sub k) (B := fun w => (w.subs k).pc.wiring = true)
      (fun w h => SubPc.budget_wiring h) hle fun u hu hrest hmut => ?_
    exact hrest (hu.wiring k hmut)
  · have hle : s.budget (.pub p) ≤ 392 := by
      rw [Callers.budget_world (hinv.busy (hwrite p hp))]
      exact (PubPc.budget_delivering (hheld.write p hp).1).2
    refine Callers.done hs (x := .pub p) (B := fun w => (w.pubs p).pc.delivering = true)
      (fun w h => (PubPc.budget_delivering h).1) hle fun u hu hrest hmut => ?_
    exact hrest (hu.write p hmut).1
  · rintro ⟨x, hx⟩
    rcases hcan x hx with hgo | ⟨p, q, -, -, hq, -⟩ | ⟨k, -, hk, -⟩
    · exact ⟨x, hx, hgo⟩
    · refine ⟨.pub q, fun hrest => ?_, hmoveWrite q hq⟩
      have := hwrite q hq
      rw [(InProc.atRest_iff _ _).mp hrest.2] at this
      cases this
    · refine ⟨.sub k, fun hrest => ?_, hmoveWire k hk⟩
      have := hwire k hk
      rw [(InProc.atRest_iff _ _).mp hrest.2] at this
      cases this
  · have hpace : (contended T size).Paced anyStep x.moves (fun u => u.budget x ≠ 0)
        (·.budget x) := party_paced x fun u hu => Nat.pos_of_ne_zero hu
    refine (hpace.rests (Callers.budget_le s x)).imp hs fun u _ hrest => ?_
    exact (Callers.atRest_iff u x).mpr (not_not.mp hrest)

/-- Two declared-shared publishers and two subscribers: the first subscriber is inside
`Subscribe` and the second waits for it, the first publisher is inside its fan-out and
waits for nobody, the second is in front of the write mutex. -/
def crowdedRun : List (CallAct Nat) :=
  [.call (.pub 0) .wire, .act (.pub 0 .advertise),
    .call (.pub 1) .wire, .act (.pub 1 .advertise),
    .call (.sub 0) .wire, .call (.sub 1) .wire, .act (.sub 0 .subscribe),
    .act (.pub 0 (.publish { value := 1 })), .act (.pub 1 (.publish { value := 2 })),
    .act (.pub 0 (.go 0))]

theorem no_deadlock_contended : ∃ s : Callers Nat, (contended Nat 8).Reached anyStep s ∧
    s.world.topic.wiringMutex = some 0 ∧ s.waits (.sub 1) = some .wire ∧
    (s.step 8 (s.next 0 (.sub 1))).isNone = true ∧
    s.world.topic.sharedWriteMutex = some 0 ∧ (s.step 8 (s.next 0 (.pub 1))).isNone = true ∧
    (s.step 8 (s.next 0 (.sub 0))).isSome = true ∧
    (contended Nat 8).Within anyStep (Party.pub 0).moves 392 s
      (·.world.topic.sharedWriteMutex ≠ some 0) := by
  have hrun : ((contended Nat 8).exec crowdedRun
      { world := { subs := fun _ => {}, pubs := fun _ => { qos := { ownership := .shared } } }
        waits := fun _ => none }).map
        (fun s => (s.world.topic.wiringMutex, s.waits (.sub 1),
          (s.step 8 (s.next 0 (.sub 1))).isNone, s.world.topic.sharedWriteMutex,
          (s.step 8 (s.next 0 (.pub 1))).isNone)) =
      some (some 0, some .wire, true, some 0, true) := by decide
  obtain ⟨s, hs, hf⟩ := Option.map_eq_some_iff.mp hrun
  simp only [Prod.mk.injEq] at hf
  obtain ⟨hmutex, hwait, hstuck, hwrite, hfront⟩ := hf
  have hr : (contended Nat 8).Reached anyStep s := by
    refine Machine.reached_of_exec (.start ⟨⟨rfl, fun _ => rfl, fun _ => ?_⟩, fun _ => rfl⟩) hs
    exact ⟨rfl, rfl, rfl, rfl⟩
  obtain ⟨-, hwiring, hwriting, -⟩ := no_deadlock hr
  exact ⟨s, hr, hmutex, hwait, hstuck, hwrite, hfront, (hwiring 0 hmutex).1 0,
    (hwriting 0 hwrite).2⟩

end Xmmsg.InProc
