import Xmmsg.Shm.Takes
import Xmmsg.Sys.Progress

/-!
# Every verb of the shm reach is wait-free

There is no lock in a segment and no loop whose exit depends on a peer: the claims walk
sixteen slots, the wait of a dead-owner reclaim polls twenty times, a publish visits
each slot once and a take reads its own mailbox or ring. So an endpoint is done with the
verb it is in after a fixed number of its own accesses, whatever the other participants
do meanwhile, dying at any point included.

`PubPc.budget` and `SubPc.budget` are the accesses an endpoint has still to make at
most. They are read off the program counter alone, which is why nobody else can raise
them.

An access here is one of the machine's: a bounded load of a cell with all its rounds, half
of a store into one, a repair, an initialisation, a push or a pop count once. What these
come to in operations on memory is the base library's, and a parameter (`Costs`); with it
`PubPc.work` and `SubPc.work` are the operations still to make, and they are bounded too.
-/

namespace Xmmsg.Shm

open Xmmsg.Sys

variable {T : Type} {size : Nat}

/-! ## What is left of a verb -/

/-- Accesses left in `ClaimPublisherSlot`, `Publish` or the destructor. A slot costs a
publish six of them, the repair three. -/
def PubPc.budget : PubPc T → Nat
  | .unwired => 55
  | .casZero => 54
  | .probeOwner _ => 53
  | .casOwner _ => 52
  | .bumpEpoch => 51
  | .repairMaster => 50
  | .repairState i => 1 + 3 * (kShmMaxSubscribers - i)
  | .repairKind i => 3 + 3 * (kShmMaxSubscribers - (i + 1))
  | .repairCell i => 2 + 3 * (kShmMaxSubscribers - (i + 1))
  | .draw _ => 103
  | .masterBegin _ => 102
  | .masterEnd _ => 101
  | .loadState _ i => 4 + 6 * (kShmMaxSubscribers - i)
  | .loadKind _ i => 9 + 6 * (kShmMaxSubscribers - (i + 1))
  | .loadBase _ i => 8 + 6 * (kShmMaxSubscribers - (i + 1))
  | .stamp _ i => 7 + 6 * (kShmMaxSubscribers - (i + 1))
  | .cellBegin _ i | .push _ i => 6 + 6 * (kShmMaxSubscribers - (i + 1))
  | .cellEnd _ i | .drop _ i => 5 + 6 * (kShmMaxSubscribers - (i + 1))
  | .countLocal => 3
  | .countShared => 2
  | .bytesShared | .casRelease => 1
  | .idle | .refused | .gone => 0

/-- Accesses left in `ClaimSubscriberSlot`, a take verb or the destructor. A slot not to
be had costs four, and the claim of one that is costs thirty-eight with the wait. -/
def SubPc.budget : SubPc T → Nat
  | .unwired => 103
  | .casFree i => 38 + 4 * (kShmMaxSubscribers - i)
  | .loadPid i => 41 + 4 * (kShmMaxSubscribers - (i + 1))
  | .probePid i _ => 40 + 4 * (kShmMaxSubscribers - (i + 1))
  | .casActive i => 39 + 4 * (kShmMaxSubscribers - (i + 1))
  | .loadPubPid _ => 37
  | .probePub _ _ => 36
  | .loadStart _ => 35
  | .poll _ _ spin => 14 + (20 - spin)
  | .storePid _ => 13
  | .storeKind _ => 12
  | .storeDepth _ => 11
  | .storeBase _ => 10
  | .storeTake _ => 9
  | .storeDrop _ => 8
  | .storeOverwrite _ => 7
  | .storeMiss _ => 6
  | .initLatest _ => 5
  | .loadMaster _ => 4
  | .seedBegin _ _ => 3
  | .seedEnd _ _ | .initRing _ => 2
  | .storeActive _ | .released _ => 1
  | .wired _ t => t.remaining
  | .refused | .gone => 0

/-- The most operations on memory that an access stands for: a `LoadBounded` with its
retries; the beginning or the end of a `Store`, a repair or an initialisation of a cell; a
`TryPush`, a `TryPop` or an initialisation of a ring. Every other access is one. -/
structure Costs where
  load : Nat
  store : Nat
  ring : Nat

section Work

variable (c : Costs)

/-- What the next access comes to. -/
def PubPc.cost : PubPc T → Nat
  | .masterBegin _ | .masterEnd _ | .cellBegin _ _ | .cellEnd _ _ | .repairMaster
  | .repairCell _ => c.store
  | .push _ _ => c.ring
  | _ => 1

def SubPc.cost : SubPc T → Nat
  | .loadMaster _ | .wired _ .load => c.load
  | .initLatest _ | .seedBegin _ _ | .seedEnd _ _ => c.store
  | .initRing _ | .wired _ .pop => c.ring
  | _ => 1

/-- What a slot costs a publish, as a mailbox or as a ring. -/
def Costs.slot : Nat := 4 + 2 * c.store + c.ring

/-- Operations left in `ClaimPublisherSlot`, `Publish` or the destructor. -/
def PubPc.work : PubPc T → Nat
  | .unwired => 38 + 17 * c.store
  | .casZero => 37 + 17 * c.store
  | .probeOwner _ => 36 + 17 * c.store
  | .casOwner _ => 35 + 17 * c.store
  | .bumpEpoch => 34 + 17 * c.store
  | .repairMaster => 33 + 17 * c.store
  | .repairState i => 1 + (2 + c.store) * (kShmMaxSubscribers - i)
  | .repairKind i => 2 + c.store + (2 + c.store) * (kShmMaxSubscribers - (i + 1))
  | .repairCell i => 1 + c.store + (2 + c.store) * (kShmMaxSubscribers - (i + 1))
  | .draw _ => 5 + 2 * c.store + c.slot * kShmMaxSubscribers
  | .masterBegin _ => 4 + 2 * c.store + c.slot * kShmMaxSubscribers
  | .masterEnd _ => 4 + c.store + c.slot * kShmMaxSubscribers
  | .loadState _ i => 4 + c.slot * (kShmMaxSubscribers - i)
  | .loadKind _ i => 7 + 2 * c.store + c.ring + c.slot * (kShmMaxSubscribers - (i + 1))
  | .loadBase _ i => 6 + 2 * c.store + c.slot * (kShmMaxSubscribers - (i + 1))
  | .stamp _ i => 5 + 2 * c.store + c.slot * (kShmMaxSubscribers - (i + 1))
  | .cellBegin _ i => 4 + 2 * c.store + c.slot * (kShmMaxSubscribers - (i + 1))
  | .cellEnd _ i => 4 + c.store + c.slot * (kShmMaxSubscribers - (i + 1))
  | .push _ i => 5 + c.ring + c.slot * (kShmMaxSubscribers - (i + 1))
  | .drop _ i => 5 + c.slot * (kShmMaxSubscribers - (i + 1))
  | .countLocal => 3
  | .countShared => 2
  | .bytesShared | .casRelease => 1
  | .idle | .refused | .gone => 0

/-- The claimed slot's mailbox with its seed, or its ring. -/
def Costs.seed : Nat := 1 + c.load + 3 * c.store + c.ring

/-- Operations left in `ClaimSubscriberSlot`, a take verb or the destructor. -/
def SubPc.work : SubPc T → Nat
  | .unwired => 98 + c.seed
  | .casFree i => 33 + c.seed + 4 * (kShmMaxSubscribers - i)
  | .loadPid i => 36 + c.seed + 4 * (kShmMaxSubscribers - (i + 1))
  | .probePid i _ => 35 + c.seed + 4 * (kShmMaxSubscribers - (i + 1))
  | .casActive i => 34 + c.seed + 4 * (kShmMaxSubscribers - (i + 1))
  | .loadPubPid _ => 32 + c.seed
  | .probePub _ _ => 31 + c.seed
  | .loadStart _ => 30 + c.seed
  | .poll _ _ spin => 9 + (20 - spin) + c.seed
  | .storePid _ => 8 + c.seed
  | .storeKind _ => 7 + c.seed
  | .storeDepth _ => 6 + c.seed
  | .storeBase _ => 5 + c.seed
  | .storeTake _ => 4 + c.seed
  | .storeDrop _ => 3 + c.seed
  | .storeOverwrite _ => 2 + c.seed
  | .storeMiss _ => 1 + c.seed
  | .initLatest _ => 1 + c.load + 3 * c.store
  | .loadMaster _ => 1 + c.load + 2 * c.store
  | .seedBegin _ _ => 1 + 2 * c.store
  | .seedEnd _ _ => 1 + c.store
  | .initRing _ => 1 + c.ring
  | .storeActive _ | .released _ => 1
  | .wired _ .load => 6 + c.load
  | .wired _ .pop => 6 + c.ring
  | .wired _ t => t.remaining
  | .refused | .gone => 0

/-- Enough for every verb. -/
def Costs.bound : Nat := 99 + c.load + 34 * c.store + 17 * c.ring

/-- A slot still to be visited, and the ones after it. -/
theorem slots_left (k : Nat) {i : Nat} (hi : i < kShmMaxSubscribers) :
    k * (kShmMaxSubscribers - i) = k + k * (kShmMaxSubscribers - (i + 1)) := by
  have hsub : kShmMaxSubscribers - i = (kShmMaxSubscribers - (i + 1)) + 1 := by omega
  rw [hsub, Nat.mul_succ, Nat.add_comm]

theorem slot_mul_le {n m : Nat} (hn : n ≤ m) :
    c.slot * n ≤ 4 * m + 2 * (c.store * m) + c.ring * m := by
  calc c.slot * n ≤ c.slot * m := Nat.mul_le_mul_left _ hn
    _ = 4 * m + 2 * (c.store * m) + c.ring * m := by
      simp only [Costs.slot, Nat.add_mul, Nat.mul_assoc]

theorem PubPc.work_le (pc : PubPc T) : pc.work c ≤ c.bound := by
  cases pc with
  | loadState r i =>
      have h := slot_mul_le c (Nat.sub_le kShmMaxSubscribers i)
      simp only [PubPc.work, Costs.bound, kShmMaxSubscribers] at h ⊢
      omega
  | loadKind r i | loadBase r i | stamp r i | cellBegin r i | cellEnd r i | push r i
  | drop r i =>
      have hi : kShmMaxSubscribers - (i + 1) ≤ 15 := by
        simp only [kShmMaxSubscribers]
        omega
      have h := slot_mul_le c hi
      simp only [PubPc.work, Costs.bound] at h ⊢
      omega
  | repairState i | repairKind i | repairCell i =>
      have h1 := Nat.mul_le_mul_left (2 + c.store) (Nat.sub_le kShmMaxSubscribers i)
      have h2 := Nat.mul_le_mul_left (2 + c.store) (Nat.sub_le kShmMaxSubscribers (i + 1))
      simp only [PubPc.work, Costs.bound, kShmMaxSubscribers] at h1 h2 ⊢
      omega
  | draw | masterBegin | masterEnd =>
      have h := slot_mul_le c (Nat.le_refl kShmMaxSubscribers)
      simp only [PubPc.work, Costs.bound, kShmMaxSubscribers] at h ⊢
      omega
  | _ =>
      simp only [PubPc.work, Costs.bound]
      omega

theorem SubPc.work_le (pc : SubPc T) : pc.work c ≤ c.bound := by
  cases pc with
  | wired i t =>
      cases t <;> simp only [SubPc.work, Costs.bound, TakePc.remaining] <;> omega
  | _ =>
      simp only [SubPc.work, Costs.seed, Costs.bound, kShmMaxSubscribers]
      omega

theorem PubPc.work_pos {pc : PubPc T} (h : 0 < pc.budget) : 0 < pc.work c := by
  cases pc <;> simp only [PubPc.budget, PubPc.work] at h ⊢ <;> omega

theorem SubPc.work_pos {pc : SubPc T} (h : 0 < pc.budget) : 0 < pc.work c := by
  cases pc with
  | wired i t =>
      cases t <;> simp only [SubPc.budget, SubPc.work, TakePc.remaining] at h ⊢ <;> omega
  | _ =>
      simp only [SubPc.budget, SubPc.work, Costs.seed] at h ⊢
      omega

theorem pubStep_work {alive : Nat → Bool} {h h' : Segment T} {ep ep' : PubEp T}
    (hs : pubStep size alive h ep .go = some (h', ep')) :
    ep'.pc.work c + ep.pc.cost c ≤ ep.pc.work c := by
  simp only [pubStep] at hs
  cases hpc : ep.pc <;> simp only [hpc] at hs
  case repairState i =>
    have hk := @slots_left (2 + c.store) i
    repeat' split at hs
    all_goals cases hs
    all_goals simp only [PubEp.at'_pc, PubPc.work, PubPc.cost] at *
    all_goals omega
  case loadState r i =>
    have hk := @slots_left c.slot i
    have hc : c.slot = 4 + 2 * c.store + c.ring := rfl
    repeat' split at hs
    all_goals cases hs
    all_goals simp only [PubEp.at'_pc, PubPc.work, PubPc.cost] at *
    all_goals omega
  all_goals
    repeat' split at hs
    all_goals cases hs
    all_goals simp only [PubEp.at'_pc, PubPc.work, PubPc.cost, kShmMaxSubscribers] at *
    all_goals omega

theorem takeStep_work {h h' : Segment T} {ep ep' : SubEp T} {i : Nat} {now : Int}
    {t : TakePc T} (hs : takeStep h ep i now t = some (h', ep')) :
    ep'.pc.work c + (SubPc.wired i t).cost c ≤ (SubPc.wired i t).work c := by
  cases t with
  | miss r stale =>
      simp only [takeStep] at hs
      cases hl : ep.history.isLatest <;> simp only [hl, if_true, Bool.false_eq_true, if_false] at hs
      all_goals
        repeat' split at hs
        all_goals cases hs
        all_goals simp [SubPc.work, SubPc.cost, TakePc.remaining]
  | _ =>
      simp only [takeStep] at hs
      repeat' split at hs
      all_goals cases hs
      all_goals simp only [SubEp.at'_pc, SubPc.work, SubPc.cost, TakePc.remaining]
      all_goals omega

theorem subStep_work {alive : Nat → Bool} {h h' : Segment T} {ep ep' : SubEp T} {now : Int}
    (hs : subStep alive h ep (.go now) = some (h', ep')) :
    ep'.pc.work c + ep.pc.cost c ≤ ep.pc.work c := by
  simp only [subStep] at hs
  cases hpc : ep.pc <;> simp only [hpc] at hs
  case wired i t => exact takeStep_work c hs
  case storeMiss i =>
    cases hs
    simp only [SubEp.at'_pc]
    split <;> simp only [SubPc.work, SubPc.cost, Costs.seed] <;> omega
  all_goals
    repeat' split at hs
    all_goals cases hs
    all_goals simp only [SubEp.at'_pc, SubPc.work, SubPc.cost, TakePc.remaining, Costs.seed,
      kShmMaxSubscribers] at *
    all_goals omega

end Work

theorem PubPc.budget_le (pc : PubPc T) : pc.budget ≤ 103 := by
  cases pc <;> simp only [PubPc.budget, kShmMaxSubscribers] <;> omega

theorem SubPc.budget_le (pc : SubPc T) : pc.budget ≤ 103 := by
  cases pc with
  | wired i t => cases t <;> simp only [SubPc.budget, TakePc.remaining] <;> omega
  | _ =>
      simp only [SubPc.budget, kShmMaxSubscribers]
      omega

/-! ## Own steps -/

theorem pubStep_budget {alive : Nat → Bool} {h h' : Segment T} {ep ep' : PubEp T}
    (hs : pubStep size alive h ep .go = some (h', ep')) : ep'.pc.budget < ep.pc.budget := by
  simp only [pubStep] at hs
  cases hpc : ep.pc <;> simp only [hpc] at hs
  all_goals
    repeat' split at hs
    all_goals cases hs
    all_goals simp only [PubEp.at'_pc, PubPc.budget, kShmMaxSubscribers] at *
    all_goals omega

theorem subStep_budget {alive : Nat → Bool} {h h' : Segment T} {ep ep' : SubEp T} {now : Int}
    (hs : subStep alive h ep (.go now) = some (h', ep')) : ep'.pc.budget < ep.pc.budget := by
  simp only [subStep] at hs
  cases hpc : ep.pc <;> simp only [hpc] at hs
  case wired i t =>
    by_cases ht : t = .idle
    · subst ht
      cases hs
    · obtain ⟨h₁, ep₁, t', hstep, hpc', hlt⟩ := takeStep_remaining h ep i now ht
      rw [hstep] at hs
      cases hs
      rw [hpc']
      exact hlt
  case storeMiss i =>
    cases hs
    simp only [SubEp.at'_pc]
    split <;> simp only [SubPc.budget] <;> omega
  all_goals
    repeat' split at hs
    all_goals cases hs
    all_goals simp only [SubEp.at'_pc, SubPc.budget, TakePc.remaining, kShmMaxSubscribers] at *
    all_goals omega

/-! ## Nobody waits for anybody -/

theorem pubStep_enabled (alive : Nat → Bool) (h : Segment T) {ep : PubEp T}
    (hl : ep.pc.budget ≠ 0) : (pubStep size alive h ep .go).isSome = true := by
  simp only [pubStep]
  cases hpc : ep.pc <;> simp only [hpc, PubPc.budget, ne_eq, not_true_eq_false] at hl ⊢
  all_goals
    repeat' split
    all_goals rfl

theorem subStep_enabled (alive : Nat → Bool) (h : Segment T) {ep : SubEp T} (now : Int)
    (hl : ep.pc.budget ≠ 0) : (subStep alive h ep (.go now)).isSome = true := by
  simp only [subStep]
  cases hpc : ep.pc <;> simp only [hpc, SubPc.budget, ne_eq, not_true_eq_false] at hl ⊢
  case wired i t =>
    have ht : t ≠ .idle := by
      rintro rfl
      exact hl rfl
    obtain ⟨h₁, ep₁, t', hstep, -, -⟩ := takeStep_remaining h ep i now ht
    rw [hstep]
    rfl
  all_goals
    repeat' split
    all_goals rfl

/-! ## The participants -/

inductive Party where
  | sub (e : Nat)
  | pub (p : Nat)
  deriving DecidableEq, Repr

/-- The next access of the endpoint. -/
def Party.go (now : Int) : Party → Act T
  | .sub e => .sub e (.go now)
  | .pub p => .pub p .go

/-- An access of the endpoint, as against the start of a verb or what others do. -/
def Party.goes : Party → Act T → Bool
  | .sub e, .sub e' (.go _) => e' == e
  | .pub p, .pub p' .go => p' == p
  | _, _ => false

def World.budget (w : World T) : Party → Nat
  | .sub e => (w.subs e).pc.budget
  | .pub p => (w.pubs p).pc.budget

/-- What the endpoint's next access comes to. -/
def World.cost (w : World T) (c : Costs) : Party → Nat
  | .sub e => (w.subs e).pc.cost c
  | .pub p => (w.pubs p).pc.cost c

def World.work (w : World T) (c : Costs) : Party → Nat
  | .sub e => (w.subs e).pc.work c
  | .pub p => (w.pubs p).pc.work c

def World.liveParty (w : World T) : Party → Prop
  | .sub e => w.liveSub e
  | .pub p => w.livePub p

/-- The endpoint is in no verb: wired and between two calls, refused, or gone. -/
def World.AtRest (w : World T) : Party → Prop
  | .sub e => (∃ i, (w.subs e).pc = .wired i .idle) ∨ (w.subs e).pc = .refused ∨
      (w.subs e).pc = .gone
  | .pub p => (w.pubs p).pc = .idle ∨ (w.pubs p).pc = .refused ∨ (w.pubs p).pc = .gone

theorem atRest_iff (w : World T) (x : Party) : w.AtRest x ↔ w.budget x = 0 := by
  cases x with
  | sub e =>
      simp only [World.AtRest, World.budget]
      cases (w.subs e).pc with
      | wired i t => cases t <;> simp [SubPc.budget, TakePc.remaining]
      | _ => simp [SubPc.budget]
  | pub p =>
      simp only [World.AtRest, World.budget]
      cases (w.pubs p).pc <;> simp [PubPc.budget]

theorem work_pos (c : Costs) {w : World T} {x : Party} (hx : ¬ w.AtRest x) :
    0 < w.work c x := by
  rw [atRest_iff] at hx
  cases x with
  | sub e => exact SubPc.work_pos c (Nat.pos_of_ne_zero hx)
  | pub p => exact PubPc.work_pos c (Nat.pos_of_ne_zero hx)

theorem work_le (w : World T) (c : Costs) (x : Party) : w.work c x ≤ c.bound := by
  cases x with
  | sub e => exact SubPc.work_le c _
  | pub p => exact PubPc.work_le c _

theorem budget_le (w : World T) (x : Party) : w.budget x ≤ 103 := by
  cases x with
  | sub e => exact SubPc.budget_le _
  | pub p => exact PubPc.budget_le _

/-- A live endpoint inside a verb can make its next access, in any state at all. -/
theorem step_enabled {w : World T} {x : Party} (hlive : w.liveParty x)
    (hx : ¬ w.AtRest x) (now : Int) : (w.step size (x.go now)).isSome = true := by
  rw [atRest_iff] at hx
  cases x with
  | sub e =>
      have hal : w.alive (w.subs e).pid = true := hlive
      obtain ⟨⟨h', ep'⟩, hs⟩ := Option.isSome_iff_exists.mp
        (subStep_enabled w.alive w.seg now hx)
      simp [World.step, Party.go, hal, hs]
  | pub p =>
      have hal : w.alive (w.pubs p).pid = true := hlive
      have hpub : (pubStep size w.alive w.seg (w.pubs p) .go).isSome = true :=
        pubStep_enabled w.alive w.seg hx
      obtain ⟨⟨h', ep'⟩, hs⟩ := Option.isSome_iff_exists.mp hpub
      simp [World.step, Party.go, hal, hs]

/-- No verb starts inside a verb. -/
theorem subStep_start {alive : Nat → Bool} {h h' : Segment T} {ep ep' : SubEp T} {b : SubAct}
    (hb : ∀ now, b ≠ .go now) (hs : subStep alive h ep b = some (h', ep')) :
    ep.pc.budget = 0 := by
  cases b with
  | go now => exact absurd rfl (hb now)
  | takeLatest | tryTake | destroy =>
      simp only [subStep] at hs
      split at hs
      all_goals first | cases hs; done | (next hpc => rw [hpc]; rfl)

theorem pubStep_start {alive : Nat → Bool} {h h' : Segment T} {ep ep' : PubEp T} {b : PubAct T}
    (hb : b ≠ .go) (hs : pubStep size alive h ep b = some (h', ep')) : ep.pc.budget = 0 := by
  cases b with
  | go => exact absurd rfl hb
  | publish m | destroy =>
      simp only [pubStep] at hs
      split at hs
      all_goals first | cases hs; done | (next hpc => rw [hpc]; rfl)

/-- What others do leaves a busy endpoint where it is in its verb. -/
theorem step_theirs {w w' : World T} {x : Party} {a : Act T} (hx : ¬ w.AtRest x)
    (ha : x.goes a = false) (hs : w.step size a = some w') :
    w'.budget x = w.budget x ∧ ∀ c, w'.work c x = w.work c x := by
  rw [atRest_iff] at hx
  rcases step_cases hs with ⟨pid, rfl, rfl⟩ | ⟨e, b, h', ep', rfl, -, hst, rfl⟩ |
    ⟨p, b, h', ep', rfl, -, hst, rfl⟩
  · cases x <;> exact ⟨rfl, fun _ => rfl⟩
  · cases x with
    | pub p => exact ⟨rfl, fun _ => rfl⟩
    | sub e' =>
        by_cases he : e' = e
        · subst he
          refine absurd (subStep_start (fun now hb => ?_) hst) hx
          subst hb
          simp [Party.goes] at ha
        · simp only [World.budget, World.work, World.putSub_ne _ _ _ _ he, true_and]
          exact fun _ => trivial
  · cases x with
    | sub e => exact ⟨rfl, fun _ => rfl⟩
    | pub p' =>
        by_cases hp : p' = p
        · subst hp
          refine absurd (pubStep_start (fun hb => ?_) hst) hx
          subst hb
          simp [Party.goes] at ha
        · simp only [World.budget, World.work, World.putPub_ne _ _ _ _ hp, true_and]
          exact fun _ => trivial

/-- An own step takes the endpoint on by one access and by what that comes to. -/
theorem step_mine {w w' : World T} {x : Party} {a : Act T} (ha : x.goes a = true)
    (hs : w.step size a = some w') :
    w'.budget x < w.budget x ∧ ∀ c, w'.work c x + w.cost c x ≤ w.work c x := by
  rcases step_cases hs with ⟨pid, rfl, rfl⟩ | ⟨e, b, h', ep', rfl, -, hst, rfl⟩ |
    ⟨p, b, h', ep', rfl, -, hst, rfl⟩
  · cases x <;> cases ha
  · cases x with
    | pub p => cases ha
    | sub e' =>
        cases b with
        | go now =>
            simp only [Party.goes, beq_iff_eq] at ha
            subst ha
            simp only [World.budget, World.work, World.cost, World.putSub_self]
            exact ⟨subStep_budget hst, fun c => subStep_work c hst⟩
        | _ => cases ha
  · cases x with
    | sub e => cases ha
    | pub p' =>
        cases b with
        | go =>
            simp only [Party.goes, beq_iff_eq] at ha
            subst ha
            simp only [World.budget, World.work, World.cost, World.putPub_self]
            exact ⟨pubStep_budget hst, fun c => pubStep_work c hst⟩
        | _ => cases ha

theorem party_paced (x : Party) : (machine T size).Paced anyStep x.goes
    (fun w => ¬ w.AtRest x) (fun w => w.budget x) where
  left := fun h => Nat.pos_of_ne_zero (fun h0 => h ((atRest_iff _ x).mpr h0))
  mine := fun _ ha _ hs => (step_mine ha hs).1
  theirs := fun hx ha _ hs => Nat.le_of_eq (step_theirs hx ha hs).1

theorem party_metered (x : Party) (c : Costs) : (machine T size).Metered anyStep x.goes
    (fun w => ¬ w.AtRest x) (fun w => w.work c x) (fun w => w.cost c x) where
  left := fun h => work_pos c h
  mine := fun _ ha _ hs => (step_mine ha hs).2 c
  theirs := fun hx ha _ hs => Nat.le_of_eq ((step_theirs hx ha hs).2 c)

/-- Every verb of every endpoint, from any state and under any schedule: while its
process lives its next access is possible, and after 103 of them it has returned,
whatever the others did and whoever died in between. At whatever the accesses come to in
operations, it has returned by the time its own amount to the bound. -/
theorem verbs_wait_free (x : Party) (w : World T) :
    (w.liveParty x → ¬ w.AtRest x → ∀ now, (w.step size (x.go now)).isSome = true) ∧
    (machine T size).Within anyStep x.goes 103 w (·.AtRest x) ∧
    ∀ (c : Costs) as n w', (machine T size).Spent anyStep x.goes (·.cost c x) w as n w' →
      c.bound ≤ n → ∃ pre u, pre <+: as ∧ (machine T size).Run anyStep w pre u ∧
        u.AtRest x := by
  refine ⟨fun hlive hx now => step_enabled hlive hx now, fun as w' hrun hn => ?_,
    fun c as n w' hrun hn => ?_⟩
  · obtain ⟨pre, u, hpre, hu, hrest⟩ := (party_paced x).rests (budget_le w x) as w' hrun hn
    exact ⟨pre, u, hpre, hu, not_not.mp hrest⟩
  · obtain ⟨pre, u, hpre, hu, hrest⟩ :=
      (party_metered x c).rests hrun (Nat.le_trans (work_le w c x) hn)
    exact ⟨pre, u, hpre, hu, not_not.mp hrest⟩

/-- A publisher's claim and four publishes, a subscriber joining in the middle of the
second: 126 accesses of the publisher. -/
def busyRun : List (Act Nat) :=
  pubGo 0 21 ++ .pub 0 (.publish { value := 1 }) :: pubGo 0 23 ++
    .pub 0 (.publish { value := 2 }) :: pubGo 0 3 ++ subGo 0 15 ++ pubGo 0 25 ++
    .pub 0 (.publish { value := 3 }) :: pubGo 0 27 ++
    .pub 0 (.publish { value := 4 }) :: pubGo 0 27

theorem verbs_wait_free_joined : ∃ pre u, pre <+: busyRun ∧
    (machine Nat 8).Run anyStep (lonely Nat) pre u ∧ u.AtRest (.pub 0) := by
  have hsome : ((machine Nat 8).exec busyRun (lonely Nat)).isSome = true := by decide
  obtain ⟨w, hw⟩ := Option.isSome_iff_exists.mp hsome
  exact (verbs_wait_free (.pub 0) (lonely Nat)).2.1 _ _
    (Machine.run_of_exec (fun _ _ _ => trivial) hw) (by decide +kernel)

end Xmmsg.Shm
