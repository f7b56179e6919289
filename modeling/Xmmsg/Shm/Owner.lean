import Xmmsg.Shm.Region

/-!
# Who owns the publisher slot

`pub_pid` is the exclusive claim. It is taken by a CAS from zero or from the pid
of a process found dead, and a dead process stays dead, so no live owner can lose
it and no two live endpoints own it at once, in one process or in two. The
destructor gives it back by a CAS from its own pid.
-/

namespace Xmmsg.Shm

open Xmmsg.Sys

variable {T : Type} {size : Nat}

/-- From the successful claim to the release. -/
def PubPc.owning : PubPc T → Bool
  | .unwired | .casZero | .probeOwner _ | .casOwner _ | .refused | .gone => false
  | _ => true

structure OwnerInv (w : World T) : Prop where
  signed : ∀ p, w.livePub p → (w.pubs p).pc.owning = true → w.seg.pubPid = (w.pubs p).pid
  unique : ∀ p q, w.livePub p → w.livePub q → (w.pubs p).pc.owning = true →
    (w.pubs q).pc.owning = true → p = q
  -- between the probe and the CAS
  found : ∀ p owner, (w.pubs p).pc = .casOwner owner → w.alive owner = false

/-- What one access does to the claim. -/
inductive OwnerMove (alive : Nat → Bool) (h : Segment T) (ep : PubEp T) :
    Segment T → PubEp T → Prop
  | quiet {h' : Segment T} {ep' : PubEp T} : h'.pubPid = h.pubPid →
      ep'.pc.owning = ep.pc.owning → (∀ o, ep'.pc = .casOwner o → alive o = false) →
      OwnerMove alive h ep h' ep'
  | claim : h.pubPid = 0 ∨ ep.pc = .casOwner h.pubPid →
      OwnerMove alive h ep { h with pubPid := ep.pid }
        { ep with ownsPublisherSlot := true, pc := .bumpEpoch }
  | release {h' : Segment T} : ep.pc = .casRelease → OwnerMove alive h ep h' (ep.at' .gone)

theorem pubStep_owner {alive : Nat → Bool} {h h' : Segment T} {ep ep' : PubEp T}
    {a : PubAct T} (hs : pubStep size alive h ep a = some (h', ep')) :
    OwnerMove alive h ep h' ep' := by
  cases a with
  | publish m | destroy =>
      simp only [pubStep] at hs
      cases hpc : ep.pc <;> simp only [hpc] at hs <;> cases hs
      all_goals exact .quiet rfl (by rw [hpc]; rfl) (fun o h0 => by cases h0)
  | go =>
      simp only [pubStep] at hs
      cases hpc : ep.pc <;> simp only [hpc] at hs
      case casZero =>
        split at hs <;> cases hs
        · next h0 => exact .claim (.inl h0)
        · exact .quiet rfl (by rw [hpc]; rfl) (fun o h0 => by cases h0)
      case probeOwner owner =>
        split at hs <;> cases hs
        · exact .quiet rfl (by rw [hpc]; rfl) (fun o h0 => by cases h0)
        · next hd =>
          refine .quiet rfl (by rw [hpc]; rfl) (fun o h0 => ?_)
          cases h0
          exact Bool.not_eq_true _ ▸ hd
      case casOwner owner =>
        split at hs <;> cases hs
        · next h0 => exact .claim (.inr (h0 ▸ hpc))
        · exact .quiet rfl (by rw [hpc]; rfl) (fun o h0 => by cases h0)
      case casRelease =>
        cases hs
        exact .release hpc
      all_goals
        repeat' split at hs
        all_goals cases hs
        all_goals exact .quiet rfl (by rw [hpc]; rfl) (fun o h0 => by cases h0)

/-- A subscriber leaves the publisher's words alone. -/
theorem subStep_header {alive : Nat → Bool} {h h' : Segment T} {ep ep' : SubEp T}
    {a : SubAct} (hs : subStep alive h ep a = some (h', ep')) :
    h'.pubPid = h.pubPid ∧ h'.acceptedOrdinal = h.acceptedOrdinal ∧ h'.master = h.master := by
  cases a with
  | go now =>
      cases hpc : ep.pc <;> simp only [subStep, hpc] at hs
      case wired i t =>
        cases t <;> simp only [takeStep] at hs
        all_goals
          repeat' split at hs
          all_goals cases hs
          all_goals exact ⟨rfl, rfl, rfl⟩
      all_goals
        repeat' split at hs
        all_goals cases hs
        all_goals exact ⟨rfl, rfl, rfl⟩
  | _ =>
      simp only [subStep] at hs
      repeat' split at hs
      all_goals cases hs
      all_goals exact ⟨rfl, rfl, rfl⟩

theorem alive_pos {w : World T} {pid : Nat} (h : w.alive pid = true) : pid ≠ 0 := by
  rintro rfl
  simp [World.alive] at h

theorem ownerInv_pub {w : World T} (h : OwnerInv w) {p₀ : Nat} {a : PubAct T}
    {h' : Segment T} {ep' : PubEp T} (hl₀ : w.livePub p₀)
    (hs : pubStep size w.alive w.seg (w.pubs p₀) a = some (h', ep')) :
    OwnerInv (w.putPub p₀ h' ep') := by
  have hpid := pubStep_pid hs
  have hlive : ∀ p, (w.putPub p₀ h' ep').livePub p → w.livePub p := by
    intro p hl
    by_cases hp : p = p₀
    · rw [hp]; exact hl₀
    · simpa [World.livePub, World.putPub_ne _ _ _ _ hp] using hl
  have hmove := pubStep_owner hs
  -- when the claim succeeds, or is given back, no other live endpoint owns the slot
  have hnone : ∀ p, p ≠ p₀ → w.livePub p →
      (ep'.pc.owning = true ∧ (w.pubs p₀).pc.owning = false ∨ (w.pubs p₀).pc = .casRelease) →
      (w.pubs p).pc.owning = false := by
    intro p hp hl hcase
    by_contra hown
    rw [Bool.not_eq_false] at hown
    have hsig := h.signed p hl hown
    rcases hcase with ⟨hnew, hold⟩ | hrel
    · cases hmove with
      | quiet _ ho => rw [ho, hold] at hnew; cases hnew
      | claim hc =>
          rcases hc with h0 | h0
          · exact alive_pos hl (hsig.symm.trans h0)
          · have := h.found p₀ _ h0
            rw [hsig] at this
            rw [World.livePub, this] at hl
            cases hl
      | release => cases hnew
    · exact hp (h.unique p p₀ hl hl₀ hown (by rw [hrel]; rfl))
  constructor
  case signed =>
    intro p hl hown
    by_cases hp : p = p₀
    · subst hp
      rw [World.putPub_self] at hown ⊢
      rw [World.putPub_seg, hpid]
      cases hmove with
      | quiet h1 h2 => rw [h1]; exact h.signed p hl₀ (h2 ▸ hown)
      | claim => rfl
      | release => cases hown
    · rw [World.putPub_ne _ _ _ _ hp] at hown ⊢
      rw [World.putPub_seg]
      have hold := h.signed p (hlive p hl) hown
      cases hmove with
      | quiet h1 => rw [h1]; exact hold
      | claim hc =>
          have := hnone p hp (hlive p hl) (.inl ⟨rfl, ?_⟩)
          · rw [this] at hown; cases hown
          · rcases hc with h0 | h0
            · by_contra hown0
              rw [Bool.not_eq_false] at hown0
              exact alive_pos hl₀ ((h.signed p₀ hl₀ hown0).symm.trans h0)
            · rw [h0]; rfl
      | release hpc =>
          rw [hnone p hp (hlive p hl) (.inr hpc)] at hown
          cases hown
  case unique =>
    intro p q hlp hlq hp hq
    have hold : ∀ x, (w.putPub p₀ h' ep').livePub x →
        ((w.putPub p₀ h' ep').pubs x).pc.owning = true → x ≠ p₀ →
        w.livePub x ∧ (w.pubs x).pc.owning = true := by
      intro x hx hox hne
      rw [World.putPub_ne _ _ _ _ hne] at hox
      exact ⟨hlive x hx, hox⟩
    have hmeet : ∀ x, (w.putPub p₀ h' ep').livePub x →
        ((w.putPub p₀ h' ep').pubs x).pc.owning = true → ep'.pc.owning = true → x = p₀ := by
      intro x hx hox hown
      by_contra hne
      obtain ⟨hl, ho⟩ := hold x hx hox hne
      by_cases hown₀ : (w.pubs p₀).pc.owning = true
      · exact hne (h.unique x p₀ hl hl₀ ho hown₀)
      · rw [hnone x hne hl (.inl ⟨hown, by simpa using hown₀⟩)] at ho
        cases ho
    by_cases ep : p = p₀
    · rw [ep, World.putPub_self] at hp
      rw [ep, hmeet q hlq hq hp]
    · by_cases eq : q = p₀
      · rw [eq, World.putPub_self] at hq
        rw [eq, hmeet p hlp hp hq]
      · obtain ⟨h1, h2⟩ := hold p hlp hp ep
        obtain ⟨h3, h4⟩ := hold q hlq hq eq
        exact h.unique p q h1 h3 h2 h4
  case found =>
    intro p o ho
    rw [World.putPub_alive]
    by_cases hp : p = p₀
    · subst hp
      rw [World.putPub_self] at ho
      cases hmove with
      | quiet _ _ h0 => exact h0 o ho
      | claim => cases ho
      | release => cases ho
    · rw [World.putPub_ne _ _ _ _ hp] at ho
      exact h.found p o ho

theorem ownerInv_step {w w' : World T} {a : Act T} (h : OwnerInv w)
    (hs : w.step size a = some w') : OwnerInv w' := by
  rcases step_cases hs with ⟨pid, rfl, rfl⟩ | ⟨e, b, h', ep', rfl, hal, hsub, rfl⟩ |
    ⟨p, b, h', ep', rfl, hal, hpub, rfl⟩
  · have hlive : ∀ p, (w.kill pid).livePub p → w.livePub p := fun p => World.alive_of_kill w pid
    constructor
    · exact fun p hl => h.signed p (hlive p hl)
    · exact fun p q hp hq => h.unique p q (hlive p hp) (hlive q hq)
    · intro p o ho
      by_contra hne
      rw [Bool.not_eq_false] at hne
      have := World.alive_of_kill w pid hne
      rw [h.found p o ho] at this
      cases this
  · constructor
    · intro p hl ho
      rw [World.putSub_seg, (subStep_header hsub).1]
      exact h.signed p hl ho
    · exact h.unique
    · exact h.found
  · exact ownerInv_pub h hal hpub

theorem ownerInv_reached {ok : World T → Act T → Prop} {w : World T}
    (hw : (machine T size).Reached ok w) : OwnerInv w := by
  refine hw.invariant (P := OwnerInv) ?_ (fun _ _ _ _ h _ hs => ownerInv_step h hs)
  intro w hw
  constructor
  case signed =>
    intro p _ ho
    rw [(hw.2.2.2 p).2.1] at ho
    cases ho
  case unique =>
    intro p q _ _ ho
    rw [(hw.2.2.2 p).2.1] at ho
    cases ho
  case found =>
    intro p o ho
    rw [(hw.2.2.2 p).2.1] at ho
    cases ho

/-! ## What a refusal says

A claim is refused when the pid it met belongs to a live process, or when the
second CAS finds the word changed. Either way somebody alive owned the slot while
the claim was running, which is recorded beside the state. -/

/-- A live endpoint that has claimed the slot and not released it. -/
def World.Owns (w : World T) (p : Nat) : Prop :=
  w.livePub p ∧ (w.pubs p).ownsPublisherSlot = true ∧ (w.pubs p).pc ≠ .gone

/-- Inside `ClaimPublisherSlot`, the outcome open. -/
def PubPc.claiming : PubPc T → Bool
  | .casZero | .probeOwner _ | .casOwner _ => true
  | _ => false

/-- By publisher: whether the slot has had a live owner since its claim began. -/
def noteOwned (w : World T) (a : Act T) (w' : World T) (seen : Nat → Prop) : Nat → Prop :=
  fun p =>
    match a with
    | .pub q .go =>
        match (w.pubs q).pc with
        | .unwired => if q = p then ∃ o, w'.Owns o else seen p ∨ ∃ o, w'.Owns o
        | _ => seen p ∨ ∃ o, w'.Owns o
    | _ => seen p ∨ ∃ o, w'.Owns o

/-- The machine with its claims. -/
def claimed (T : Type) (size : Nat) : Machine (World T × (Nat → Prop)) (Act T) :=
  (machine T size).withHistory (fun _ => False) noteOwned

/-- The flag says whether the endpoint owns the slot. -/
def PubEp.FlagOk (ep : PubEp T) : Prop :=
  (ep.ownsPublisherSlot = true → ep.pc.owning = true ∨ ep.pc = .gone) ∧
    (ep.pc.owning = true → ep.ownsPublisherSlot = true)

/-- What a claim knows: the word still is the pid it met, or has been changed by a
live owner; and if that pid is alive, it is a live owner itself. -/
def ClaimAt (w : World T) (seen : Prop) : PubPc T → Prop
  | .probeOwner owner =>
      (w.seg.pubPid = owner ∨ seen) ∧ (w.alive owner = true → seen)
  | .casOwner owner => w.seg.pubPid = owner ∨ seen
  | .refused => seen
  | _ => True

structure ClaimInv (w : World T) (seen : Nat → Prop) : Prop where
  flag : ∀ p, (w.pubs p).FlagOk
  -- a pid in the word is the pid of an endpoint that owns the slot, alive or dead
  backed : w.seg.pubPid ≠ 0 → ∃ p, (w.pubs p).pid = w.seg.pubPid ∧
    (w.pubs p).pc.owning = true
  current : ∀ p, (w.pubs p).pc.claiming = true → (∃ o, w.Owns o) → seen p
  call : ∀ p, ClaimAt w (seen p) (w.pubs p).pc

theorem PubPc.owning_not_gone {pc : PubPc T} (h : pc.owning = true) : pc ≠ .gone := by
  rintro rfl
  cases h

/-- What one access does to a claim and to the flag. -/
theorem pubStep_claim {alive : Nat → Bool} {h h' : Segment T} {ep ep' : PubEp T}
    {a : PubAct T} (hs : pubStep size alive h ep a = some (h', ep')) :
    (ep.pc.claiming = false ∧ ep'.pc.claiming = false ∧ ep'.pc ≠ .refused ∧
      h'.pubPid = h.pubPid ∧ ep'.ownsPublisherSlot = ep.ownsPublisherSlot ∧
      ep'.pc.owning = ep.pc.owning ∧ (ep.pc = .gone ↔ ep'.pc = .gone)) ∨
    (ep.pc = .unwired ∧ ep' = ep.at' .casZero ∧ h' = h) ∨
    (ep.pc = .casZero ∧ h.pubPid ≠ 0 ∧ ep' = ep.at' (.probeOwner h.pubPid) ∧ h' = h) ∨
    (∃ o, ep.pc = .probeOwner o ∧ alive o = true ∧ ep' = ep.at' .refused ∧ h' = h) ∨
    (∃ o, ep.pc = .probeOwner o ∧ alive o = false ∧ ep' = ep.at' (.casOwner o) ∧ h' = h) ∨
    (∃ o, ep.pc = .casOwner o ∧ h.pubPid ≠ o ∧ ep' = ep.at' .refused ∧ h' = h) ∨
    (ep.pc.claiming = true ∧ h' = { h with pubPid := ep.pid } ∧
      ep' = { ep with ownsPublisherSlot := true, pc := .bumpEpoch }) ∨
    (ep.pc = .casRelease ∧ ep' = ep.at' .gone ∧
      h' = if h.pubPid = ep.pid then { h with pubPid := 0 } else h) ∨
    (ep.pc = .refused ∧ ep' = ep.at' .gone ∧ h' = h) := by
  cases a with
  | publish m =>
      cases hpc : ep.pc <;> simp only [pubStep, hpc] at hs <;> cases hs
      exact .inl ⟨rfl, rfl, by simp, rfl, rfl, rfl, by simp⟩
  | destroy =>
      cases hpc : ep.pc <;> simp only [pubStep, hpc] at hs <;> cases hs
      · exact .inl ⟨rfl, rfl, by simp, rfl, rfl, rfl, by simp⟩
      · simp
  | go =>
      cases hpc : ep.pc <;> simp only [pubStep, hpc] at hs
      case unwired => cases hs; simp
      case casZero =>
        split at hs <;> cases hs
        · simp [PubPc.claiming]
        · next h0 => simp [h0]
      case probeOwner o =>
        split at hs <;> cases hs
        · next h0 => simp [h0]
        · next h0 => simp [h0]
      case casOwner o =>
        split at hs <;> cases hs
        · simp [PubPc.claiming]
        · next h0 => simp [h0]
      case casRelease => cases hs; simp
      all_goals
        repeat' split at hs
        all_goals cases hs
        all_goals exact .inl ⟨rfl, rfl, by simp, rfl, rfl, rfl, by simp⟩

theorem noteOwned_current {w w' : World T} {a : Act T} {seen : Nat → Prop} {o : Nat}
    (ho : w'.Owns o) (p : Nat) : noteOwned w a w' seen p := by
  unfold noteOwned
  repeat' split
  all_goals first | exact ⟨o, ho⟩ | exact .inr ⟨o, ho⟩

/-- What has been seen stays seen, until the next claim. -/
theorem noteOwned_seen {w w' : World T} {a : Act T} {seen : Nat → Prop} {p : Nat}
    (hs : seen p) (hp : (w.pubs p).pc ≠ .unwired) : noteOwned w a w' seen p := by
  unfold noteOwned
  repeat' split
  · next hpc e => exact absurd (e ▸ hpc) hp
  all_goals exact .inl hs

theorem ClaimAt.others {w : World T} {a : Act T} {w' : World T} {seen : Nat → Prop} {p : Nat}
    (h : ClaimAt w (seen p) (w.pubs p).pc)
    (hpid : (w.pubs p).pc.claiming = true → w'.seg.pubPid = w.seg.pubPid ∨
      noteOwned w a w' seen p)
    (halive : ∀ pid, w'.alive pid = true → w.alive pid = true) :
    ClaimAt w' (noteOwned w a w' seen p) (w.pubs p).pc := by
  have hmono : (w.pubs p).pc ≠ .unwired → seen p → noteOwned w a w' seen p :=
    fun h1 h2 => noteOwned_seen h2 h1
  cases hpc : (w.pubs p).pc <;> rw [hpc] at h hpid hmono
  case probeOwner owner =>
    refine ⟨?_, fun hal => hmono (by simp) (h.2 (halive _ hal))⟩
    rcases hpid rfl with h3 | h3
    · exact h.1.imp (h3.trans ·) (hmono (by simp))
    · exact .inr h3
  case casOwner owner =>
    rcases hpid rfl with h3 | h3
    · exact h.imp (h3.trans ·) (hmono (by simp))
    · exact .inr h3
  case refused => exact hmono (by simp) h
  all_goals trivial

/-- A step that leaves the endpoints and the word alone. -/
theorem ClaimInv.frame {w w' : World T} {a : Act T} {seen : Nat → Prop} (h : ClaimInv w seen)
    (hpubs : w'.pubs = w.pubs) (hpid : w'.seg.pubPid = w.seg.pubPid)
    (halive : ∀ pid, w'.alive pid = true → w.alive pid = true) :
    ClaimInv w' (noteOwned w a w' seen) where
  flag := hpubs ▸ h.flag
  backed h0 := by
    rw [hpid] at h0 ⊢
    rw [hpubs]
    exact h.backed h0
  current p _ := fun ⟨_, ho⟩ => noteOwned_current ho p
  call p := by
    rw [hpubs]
    exact (h.call p).others (fun _ => .inl hpid) halive

/-- When the word changes, a live owner takes it or gives it back. -/
theorem pubStep_changes {w : World T} {seen : Nat → Prop} (h : ClaimInv w seen) {p₀ : Nat}
    {a : PubAct T} {h' : Segment T} {ep' : PubEp T} (hl₀ : w.livePub p₀)
    (hs : pubStep size w.alive w.seg (w.pubs p₀) a = some (h', ep')) {p : Nat}
    (hp : (w.pubs p).pc.claiming = true) : h'.pubPid = w.seg.pubPid ∨
      noteOwned w (.pub p₀ a) (w.putPub p₀ h' ep') seen p := by
  have hne : (w.pubs p).pc ≠ .unwired := by
    intro h0
    rw [h0] at hp
    cases hp
  rcases pubStep_claim hs with ⟨-, -, -, h1, -⟩ | ⟨-, -, rfl⟩ | ⟨-, -, -, rfl⟩ |
    ⟨o, -, -, -, rfl⟩ | ⟨o, -, -, -, rfl⟩ | ⟨o, -, -, -, rfl⟩ | ⟨-, -, rfl⟩ | ⟨hpc, -, -⟩ |
    ⟨-, -, rfl⟩
  · exact .inl h1
  · exact .inl rfl
  · exact .inl rfl
  · exact .inl rfl
  · exact .inl rfl
  · exact .inl rfl
  · refine .inr (noteOwned_current (o := p₀) ⟨?_, ?_, ?_⟩ p)
    · rw [World.livePub, World.putPub_self, World.putPub_alive]
      exact hl₀
    · rw [World.putPub_self]
    · rw [World.putPub_self]
      simp
  · have hown : (w.pubs p₀).pc.owning = true := by rw [hpc]; rfl
    exact .inr (noteOwned_seen (h.current p hp
      ⟨p₀, hl₀, (h.flag p₀).2 hown, PubPc.owning_not_gone hown⟩) hne)
  · exact .inl rfl

theorem claimInv_backed {w : World T} {seen : Nat → Prop} (h : ClaimInv w seen) {p₀ : Nat}
    {a : PubAct T} {h' : Segment T} {ep' : PubEp T}
    (hs : pubStep size w.alive w.seg (w.pubs p₀) a = some (h', ep')) (h0 : h'.pubPid ≠ 0) :
    ∃ p, ((w.putPub p₀ h' ep').pubs p).pid = h'.pubPid ∧
      ((w.putPub p₀ h' ep').pubs p).pc.owning = true := by
  have hpid := pubStep_pid hs
  have hkeep : h'.pubPid = w.seg.pubPid →
      ((w.pubs p₀).pc.owning = true → (w.pubs p₀).pid = w.seg.pubPid → ep'.pc.owning = true) →
      ∃ p, ((w.putPub p₀ h' ep').pubs p).pid = h'.pubPid ∧
        ((w.putPub p₀ h' ep').pubs p).pc.owning = true := by
    intro h1 h2
    rw [h1] at h0 ⊢
    obtain ⟨p, hp, ho⟩ := h.backed h0
    refine ⟨p, ?_⟩
    by_cases e : p = p₀
    · subst e
      rw [World.putPub_self, hpid]
      exact ⟨hp, h2 ho hp⟩
    · rw [World.putPub_ne _ _ _ _ e]
      exact ⟨hp, ho⟩
  have hnot : ∀ {pc : PubPc T}, (w.pubs p₀).pc = pc → pc.owning = false →
      (w.pubs p₀).pc.owning = true → (w.pubs p₀).pid = w.seg.pubPid → ep'.pc.owning = true := by
    intro pc h1 h2 h3
    rw [h1, h2] at h3
    cases h3
  rcases pubStep_claim hs with ⟨-, -, -, h1, -, h2, -⟩ | ⟨h1, -, rfl⟩ | ⟨h1, -, -, rfl⟩ |
    ⟨o, h1, -, -, rfl⟩ | ⟨o, h1, -, -, rfl⟩ | ⟨o, h1, -, -, rfl⟩ | ⟨-, rfl, rfl⟩ |
    ⟨-, -, h1⟩ | ⟨h1, -, rfl⟩
  · exact hkeep h1 fun ho _ => h2.trans ho
  · exact hkeep rfl (hnot h1 rfl)
  · exact hkeep rfl (hnot h1 rfl)
  · exact hkeep rfl (hnot h1 rfl)
  · exact hkeep rfl (hnot h1 rfl)
  · exact hkeep rfl (hnot h1 rfl)
  · exact ⟨p₀, by rw [World.putPub_self], by rw [World.putPub_self]; rfl⟩
  · by_cases hmine : w.seg.pubPid = (w.pubs p₀).pid
    · rw [if_pos hmine] at h1
      rw [h1] at h0
      exact absurd rfl h0
    · rw [if_neg hmine] at h1
      exact hkeep (by rw [h1]) fun _ hp => absurd hp.symm hmine
  · exact hkeep rfl (hnot h1 rfl)

/-- The endpoint's own part of the invariant. -/
theorem claimInv_own {w : World T} {seen : Nat → Prop} (h : ClaimInv w seen) {p : Nat}
    {a : PubAct T} {h' : Segment T} {ep' : PubEp T}
    (hs : pubStep size w.alive w.seg (w.pubs p) a = some (h', ep')) :
    ep'.FlagOk ∧ ClaimAt (w.putPub p h' ep')
      (noteOwned w (.pub p a) (w.putPub p h' ep') seen p) ep'.pc := by
  have hmono : (w.pubs p).pc ≠ .unwired → seen p →
      noteOwned w (.pub p a) (w.putPub p h' ep') seen p := fun h1 h2 => noteOwned_seen h2 h1
  have hflag := h.flag p
  have hcall := h.call p
  -- while the claim is open the flag is down
  have hdown : ∀ {pc pc' : PubPc T}, (w.pubs p).pc = pc → pc.owning = false → pc ≠ .gone →
      pc'.owning = false → ((w.pubs p).at' pc').FlagOk := by
    intro pc pc' h1 h2 h3 h4
    refine ⟨fun h0 => ?_, fun h0 => ?_⟩
    · rcases hflag.1 h0 with h5 | h5
      · rw [h1, h2] at h5; cases h5
      · exact absurd (h1 ▸ h5) h3
    · rw [PubEp.at'_pc, h4] at h0
      cases h0
  rcases pubStep_claim hs with ⟨-, h0, h1, -, h2, h3, h4⟩ | ⟨hpc, rfl, -⟩ |
    ⟨hpc, hnz, rfl, rfl⟩ | ⟨o, hpc, hal, rfl, -⟩ | ⟨o, hpc, -, rfl, rfl⟩ | ⟨o, hpc, hne, rfl, -⟩ |
    ⟨-, -, rfl⟩ | ⟨-, rfl, -⟩ | ⟨-, rfl, -⟩
  · refine ⟨⟨fun h5 => ?_, fun h5 => ?_⟩, ?_⟩
    · exact (hflag.1 (h2 ▸ h5)).imp (h3.trans ·) h4.mp
    · exact h2.trans (hflag.2 (h3 ▸ h5))
    · cases hpc : ep'.pc <;> rw [hpc] at h0 h1
      case probeOwner => cases h0
      case casOwner => cases h0
      case refused => exact absurd rfl h1
      all_goals trivial
  · exact ⟨hdown hpc rfl (by simp) rfl, trivial⟩
  · refine ⟨hdown hpc rfl (by simp) rfl, .inl rfl, fun hal => ?_⟩
    obtain ⟨q, hq, ho⟩ := h.backed hnz
    refine hmono (by rw [hpc]; simp) (h.current p (by rw [hpc]; rfl)
      ⟨q, ?_, (h.flag q).2 ho, PubPc.owning_not_gone ho⟩)
    rw [World.livePub, hq]
    exact hal
  · rw [hpc] at hcall
    exact ⟨hdown hpc rfl (by simp) rfl, hmono (by rw [hpc]; simp) (hcall.2 hal)⟩
  · rw [hpc] at hcall
    exact ⟨hdown hpc rfl (by simp) rfl, hcall.1.imp id (hmono (by rw [hpc]; simp))⟩
  · rw [hpc] at hcall
    exact ⟨hdown hpc rfl (by simp) rfl, hmono (by rw [hpc]; simp) (hcall.resolve_left hne)⟩
  · exact ⟨⟨fun _ => .inl rfl, fun _ => rfl⟩, trivial⟩
  · exact ⟨⟨fun _ => .inr rfl, fun h0 => (by cases h0)⟩, trivial⟩
  · exact ⟨⟨fun _ => .inr rfl, fun h0 => (by cases h0)⟩, trivial⟩

theorem claimInv_pub {w : World T} {seen : Nat → Prop} (h : ClaimInv w seen) {p₀ : Nat}
    {a : PubAct T} {h' : Segment T} {ep' : PubEp T} (hl₀ : w.livePub p₀)
    (hs : pubStep size w.alive w.seg (w.pubs p₀) a = some (h', ep')) :
    ClaimInv (w.putPub p₀ h' ep') (noteOwned w (.pub p₀ a) (w.putPub p₀ h' ep') seen) := by
  obtain ⟨hflag, hcall⟩ := claimInv_own h hs
  refine ⟨fun p => ?_, claimInv_backed h hs, fun p _ => fun ⟨o, ho⟩ => noteOwned_current ho p,
    fun p => ?_⟩
  · by_cases e : p = p₀
    · subst e
      rw [World.putPub_self]
      exact hflag
    · rw [World.putPub_ne _ _ _ _ e]
      exact h.flag p
  · by_cases e : p = p₀
    · subst e
      rw [World.putPub_self]
      exact hcall
    · rw [World.putPub_ne _ _ _ _ e]
      exact (h.call p).others (fun hp => pubStep_changes h hl₀ hs hp) fun _ hal => hal

theorem claimInv_reached {q : World T × (Nat → Prop)}
    (hq : (claimed T size).Reached anyStep q) : ClaimInv q.1 q.2 := by
  refine hq.invariant (P := fun q => ClaimInv q.1 q.2) ?_ ?_
  · rintro ⟨w, seen⟩ ⟨hw, -⟩
    have hpc := fun p => (hw.2.2.2 p).2.1
    refine ⟨fun p => ⟨fun h0 => ?_, fun h0 => ?_⟩, fun h0 => ?_, fun p h0 => ?_, fun p => ?_⟩
    · rw [(hw.2.2.2 p).2.2] at h0; cases h0
    · rw [hpc p] at h0; cases h0
    · rw [hw.1] at h0; exact absurd rfl h0
    · rw [hpc p] at h0; cases h0
    · rw [hpc p]; trivial
  · rintro ⟨w, seen⟩ a ⟨w', seen'⟩ - h - hst
    obtain ⟨hs, hn⟩ := Machine.withHistory_step hst
    simp only at hs hn
    subst hn
    rcases step_cases hs with ⟨pid, rfl, rfl⟩ | ⟨e, b, h', ep', rfl, -, hsub, rfl⟩ |
      ⟨p, b, h', ep', rfl, hal, hpub, rfl⟩
    · have hkill : ClaimInv (w.kill pid) (noteOwned w (.die pid) (w.kill pid) seen) :=
        h.frame rfl rfl fun _ => World.alive_of_kill w pid
      exact hkill
    · have hput : ClaimInv (w.putSub e h' ep')
          (noteOwned w (.sub e b) (w.putSub e h' ep') seen) :=
        h.frame rfl (subStep_header hsub).1 fun _ h0 => h0
      exact hput
    · exact claimInv_pub h hal hpub

/-- Inside `Publish`. -/
def PubPc.publishing : PubPc T → Bool
  | .draw _ | .masterBegin _ | .masterEnd _ | .loadState _ _ | .loadKind _ _ | .loadBase _ _
  | .stamp _ _ | .cellBegin _ _ | .cellEnd _ _ | .push _ _ | .drop _ _ | .countLocal
  | .countShared | .bytesShared => true
  | _ => false

structure SolePublisher (w : World T) (seen : Nat → Prop) : Prop where
  unique : ∀ p q, w.Owns p → w.Owns q → p = q
  signed : ∀ p, w.Owns p → w.seg.pubPid = (w.pubs p).pid
  publishing : ∀ p q, w.livePub p → w.livePub q → (w.pubs p).pc.publishing = true →
    (w.pubs q).pc.publishing = true → p = q
  refused : ∀ p, (w.pubs p).pc = .refused → seen p

/-- In every run, processes dying at any access, at most one live endpoint owns
the publisher slot and the word is its pid, no two live endpoints are inside
`Publish`, and a claim is refused only if somebody alive owned the slot while it
was running. -/
theorem sole_publisher {w : World T} {seen : Nat → Prop}
    (hw : (claimed T size).Reached anyStep (w, seen)) : SolePublisher w seen := by
  have hown := ownerInv_reached (Machine.reached_any hw)
  have hclaim := claimInv_reached hw
  have howns : ∀ p, w.Owns p → (w.pubs p).pc.owning = true :=
    fun p hp => ((hclaim.flag p).1 hp.2.1).resolve_right hp.2.2
  refine ⟨fun p q hp hq => ?_, fun p hp => ?_, fun p q hlp hlq hp hq => ?_, fun p hp => ?_⟩
  · exact hown.unique p q hp.1 hq.1 (howns p hp) (howns q hq)
  · exact hown.signed p hp.1 (howns p hp)
  · refine hown.unique p q hlp hlq ?_ ?_
    · cases hpc : (w.pubs p).pc <;> rw [hpc] at hp <;> first | rfl | cases hp
    · cases hpc : (w.pubs q).pc <;> rw [hpc] at hq <;> first | rfl | cases hq
  · have := hclaim.call p
    rw [hp] at this
    exact this

/-- A second process claims while the first one owns the slot. -/
theorem sole_publisher_refused : ∃ (w : World Nat) (seen : Nat → Prop),
    (claimed Nat 8).Reached anyStep (w, seen) ∧ w.Owns 0 ∧ (w.pubs 1).pc = .refused ∧
      SolePublisher w seen := by
  let w₀ : World Nat :=
    { subs := fun _ => { pid := 1 }, pubs := fun p => { pid := p + 1 } }
  have hrun : ((claimed Nat 8).exec
      (List.replicate 2 (Act.pub 0 .go) ++ List.replicate 3 (Act.pub 1 .go))
      (w₀, fun _ => False)).map
        (fun q => ((q.1.pubs 0).ownsPublisherSlot, q.1.alive (q.1.pubs 0).pid,
          match (q.1.pubs 0).pc with
          | .bumpEpoch => true
          | _ => false,
          match (q.1.pubs 1).pc with
          | .refused => true
          | _ => false)) = some (true, true, true, true) := by decide
  obtain ⟨⟨w, seen⟩, hw, hf⟩ := Option.map_eq_some_iff.mp hrun
  simp only [Prod.mk.injEq] at hf
  have hstart : (claimed Nat 8).Reached anyStep (w₀, fun _ => False) :=
    .start ⟨⟨rfl, fun _ => rfl, fun _ => ⟨by simp [w₀], rfl, rfl⟩,
      fun _ => ⟨by simp [w₀], rfl, rfl⟩⟩, rfl⟩
  have hr := Machine.reached_of_exec hstart hw
  refine ⟨w, seen, hr, ⟨hf.2.1, hf.1, ?_⟩, ?_, sole_publisher hr⟩
  · intro h0
    rw [h0] at hf
    exact absurd hf.2.2.1 (by decide)
  · have h1 := hf.2.2.2
    split at h1
    · assumption
    · cases h1

end Xmmsg.Shm
