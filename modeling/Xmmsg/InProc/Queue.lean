import Xmmsg.InProc.Cores
import Xmmsg.InProc.Join

/-!
# A queue subscriber: conservation and order

Every publish whose fan-out loads the pointer of a queue subscriber either goes
behind what its ring holds or, finding the ring at its declared depth, is dropped
and counted. `TryTake` removes from the front. So what was kept is what was taken,
followed by what a take has in hand, followed by the ring: nothing is displaced,
reordered or counted twice.

At most one publisher is inside `Deliver`, so one program counter says all there
is to say about deliveries half done. The invariant is stated for it, and steps
of the other publishers change neither it nor the books.
-/

namespace Xmmsg.InProc

open Xmmsg.Sys Xmmsg.Mail

variable {T : Type} {size : Nat}

/-! ## The record of a run -/

/-- What has happened on the topic, and by subscriber what has happened to it. -/
structure Journal (T : Type) where
  log : List (MailRecord T) := []           -- accepted publishes, in accepted order
  completed : Nat := 0                      -- fan-outs that have ended
  -- at the attach
  since : Nat → Nat := fun _ => 0           -- fan-outs that had ended
  joinedAt : Nat → Nat := fun _ => 0        -- publishes accepted
  busy : Nat → Prop := fun _ => False       -- a fan-out was under way
  -- since then
  visited : Nat → List (MailRecord T) := fun _ => []
  found : Nat → List (MailRecord T × Nat) := fun _ => []
  dropped : Nat → List (MailRecord T) := fun _ => []
  taken : Nat → List (MailRecord T) := fun _ => []

def World.Busy (w : World T) : Prop := ∃ p, (w.pubs p).pc.airborne = true

/-- What a step adds. A push notes how many values the ring held when it came. -/
def noteQueue (w : World T) (a : Act T) (_ : World T) (tr : Journal T) : Journal T :=
  match a with
  | .pub p (.go _) =>
      match (w.pubs p).pc with
      | .draw m => { tr with log := tr.log ++ [m.record (w.topic.acceptedOrdinal + 1)] }
      | .visit r i =>
          if i < kMaxSubscribers then
            match w.topic.subSlots i with
            | some k => { tr with visited := extend tr.visited k [r] }
            | none => tr
          else { tr with completed := tr.completed + 1 }
      | .push r _ k =>
          match (w.topic.cores k).box with
          | .queue q => { tr with found := extend tr.found k [(r, q.items.length)] }
          | .latest _ => tr
      | .drop r _ k => { tr with dropped := extend tr.dropped k [r] }
      | _ => tr
  | .sub k (.go _) =>
      match (w.subs k).pc with
      | .attach _ =>
          { tr with
            since := Function.update tr.since k tr.completed
            joinedAt := Function.update tr.joinedAt k w.topic.acceptedOrdinal
            busy := Function.update tr.busy k w.Busy }
      | .wired (.ret (some (r, _))) => { tr with taken := extend tr.taken k [r] }
      | _ => tr
  | _ => tr

/-- The machine with its journal. -/
def journaled (T : Type) (size : Nat) : Machine (World T × Journal T) (Act T) :=
  (machine T size).withHistory {} noteQueue

/-! ## Views -/

/-- The values in the ring, oldest first. -/
def SubCore.ring (c : SubCore T) : List (MailRecord T) :=
  match c.box with
  | .queue q => q.items
  | .latest _ => []

/-- Those that found fewer than `N` values, and those that found `N`. -/
def kept (N : Nat) (found : List (MailRecord T × Nat)) : List (MailRecord T) :=
  (found.filter fun f => f.2 ≠ N).map Prod.fst

def lost (N : Nat) (found : List (MailRecord T × Nat)) : List (MailRecord T) :=
  (found.filter fun f => f.2 = N).map Prod.fst

/-- The record a take has popped and not handed back yet. -/
def TakePc.inHand : TakePc T → List (MailRecord T)
  | .count r | .base r _ | .charge r _ _ | .store r _ | .latch r _ | .ret (some (r, _)) => [r]
  | _ => []

def SubPc.inHand : SubPc T → List (MailRecord T)
  | .wired t => t.inHand
  | _ => []

/-- Popped and not counted yet. -/
def SubPc.uncounted : SubPc T → Nat
  | .wired (.count _) => 1
  | _ => 0

/-- The record about to be pushed into the ring of `k`. -/
def PubPc.pushing (k : Nat) : PubPc T → List (MailRecord T)
  | .push r _ k' => if k' = k then [r] else []
  | _ => []

/-- The record refused by the ring of `k`, its drop still to be counted. -/
def PubPc.dropping (k : Nat) : PubPc T → List (MailRecord T)
  | .drop r _ k' => if k' = k then [r] else []
  | _ => []

def PubPc.record? : PubPc T → Option (MailRecord T)
  | .master r | .visit r _ | .base r _ _ | .stamp r _ _ | .store r _ _ | .push r _ _
  | .drop r _ _ => some r
  | _ => none

/-! ## Invariants -/

/-- The accepted publishes, and how many of them are through; `pc` is where the
publisher inside `Deliver` stands. -/
structure LogInv (h : Topic T) (pc : PubPc T) (tr : Journal T) : Prop where
  ordinals : tr.log.map MailRecord.ordinal = List.range' 1 h.acceptedOrdinal
  newest : ∀ r, pc.record? = some r → tr.log.getLast? = some r
  airborne : pc.airborne = true → tr.completed + 1 = h.acceptedOrdinal
  grounded : pc.airborne = false → tr.completed = h.acceptedOrdinal

/-- The books of queue subscriber `k` of declared depth `N`, standing at `spc`. -/
structure LineInv (h : Topic T) (spc : SubPc T) (pc : PubPc T) (tr : Journal T) (k N : Nat) :
    Prop where
  kept : kept N (tr.found k) = tr.taken k ++ spc.inHand ++ (h.cores k).ring
  takes : (h.cores k).takeCount + spc.uncounted = (tr.taken k).length + spc.inHand.length
  lost : lost N (tr.found k) = tr.dropped k ++ pc.dropping k
  drops : (h.cores k).dropCount = (tr.dropped k).length
  visited : tr.visited k = (tr.found k).map Prod.fst ++ pc.pushing k
  early : spc.early = true → tr.visited k = []
  range : (tr.visited k).Sublist (tr.log.drop (tr.since k))
  ahead : ∀ j, h.subSlots j = some k → pc.ahead j = true →
    (tr.visited k).Sublist (tr.log.dropLast.drop (tr.since k))
  since : tr.since k ≤ tr.completed
  joined : tr.since k ≤ tr.joinedAt k ∧ tr.joinedAt k ≤ tr.since k + 1 ∧
    (¬ tr.busy k → tr.joinedAt k = tr.since k)

/-- Nobody but possibly `p` is inside `Deliver`. -/
def World.AtWork (w : World T) (p : Nat) : Prop :=
  ∀ q, q ≠ p → (w.pubs q).pc.delivering = false

/-- Two journals that say the same of `k`. -/
structure Journal.Agree (tr tr' : Journal T) (k : Nat) : Prop where
  log : tr'.log = tr.log
  completed : tr'.completed = tr.completed
  since : tr'.since k = tr.since k
  joinedAt : tr'.joinedAt k = tr.joinedAt k
  busy : tr'.busy k = tr.busy k
  visited : tr'.visited k = tr.visited k
  found : tr'.found k = tr.found k
  dropped : tr'.dropped k = tr.dropped k
  taken : tr'.taken k = tr.taken k

theorem Journal.Agree.refl (tr : Journal T) (k : Nat) : tr.Agree tr k :=
  ⟨rfl, rfl, rfl, rfl, rfl, rfl, rfl, rfl, rfl⟩

/-- A step that is none of the line's business. -/
theorem LineInv.put {h h' : Topic T} {spc spc' : SubPc T} {pc : PubPc T} {tr tr' : Journal T}
    {k N : Nat} (hl : LineInv h spc pc tr k N) (htr : tr.Agree tr' k)
    (hring : (h'.cores k).ring = (h.cores k).ring)
    (htakes : (h'.cores k).takeCount = (h.cores k).takeCount)
    (hdrops : (h'.cores k).dropCount = (h.cores k).dropCount)
    (hslots : ∀ j, h'.subSlots j = some k → h.subSlots j = some k)
    (hhand : spc'.inHand = spc.inHand) (hun : spc'.uncounted = spc.uncounted)
    (hearly : spc'.early = true → spc.early = true) : LineInv h' spc' pc tr' k N where
  kept := by rw [htr.found, htr.taken, hhand, hring]; exact hl.kept
  takes := by rw [htr.taken, htakes, hhand, hun]; exact hl.takes
  lost := by rw [htr.found, htr.dropped]; exact hl.lost
  drops := by rw [htr.dropped, hdrops]; exact hl.drops
  visited := by rw [htr.visited, htr.found]; exact hl.visited
  early he := by rw [htr.visited]; exact hl.early (hearly he)
  range := by rw [htr.visited, htr.log, htr.since]; exact hl.range
  ahead j hj ha := by
    rw [htr.visited, htr.log, htr.since]
    exact hl.ahead j (hslots j hj) ha
  since := by rw [htr.since, htr.completed]; exact hl.since
  joined := by rw [htr.since, htr.joinedAt, htr.busy]; exact hl.joined

/-- Nothing has happened to a line before it is attached. -/
theorem LineInv.blank {h : Topic T} {spc : SubPc T} {pc : PubPc T} {tr : Journal T} {k N : Nat}
    (hl : LineInv h spc pc tr k N) (he : spc.early = true) :
    tr.found k = [] ∧ tr.taken k = [] ∧ tr.dropped k = [] ∧ (h.cores k).ring = [] ∧
      pc.pushing k = [] ∧ pc.dropping k = [] := by
  have hv := hl.visited
  rw [hl.early he, eq_comm, List.append_eq_nil_iff, List.map_eq_nil_iff] at hv
  have hk : [] = tr.taken k ++ spc.inHand ++ (h.cores k).ring := by
    rw [← hl.kept, hv.1]
    rfl
  have hd : [] = tr.dropped k ++ pc.dropping k := by
    rw [← hl.lost, hv.1]
    rfl
  rw [eq_comm, List.append_eq_nil_iff, List.append_eq_nil_iff] at hk
  rw [eq_comm, List.append_eq_nil_iff] at hd
  exact ⟨hv.1, hk.1.1, hd.1, hk.2, hv.2, hd.2⟩

/-! ## The subscriber's own steps -/

theorem SubCore.new_ring (qos : Qos) : (SubCore.new qos : SubCore T).ring = [] := by
  simp only [SubCore.new, SubCore.ring]
  cases qos.history <;> rfl

theorem SubCore.store_books (c : SubCore T) (r : MailRecord T) :
    (c.store r).ring = c.ring ∧ (c.store r).takeCount = c.takeCount ∧
      (c.store r).dropCount = c.dropCount := by
  cases hb : c.box <;> simp [SubCore.store, SubCore.ring, hb]

/-- One access of `TryTake`, with what it hands back. -/
theorem takeStep_line {c c' : SubCore T} {now : Int} {t t' : TakePc T} {q : Fifo (MailRecord T)}
    (hs : takeStep c now t = some (c', t')) (hq : c.box = .queue q) :
    (∃ r, (SubPc.wired t).inHand = [] ∧ (SubPc.wired t).uncounted = 0 ∧
      (SubPc.wired t').inHand = [r] ∧ (SubPc.wired t').uncounted = 1 ∧
      c.ring = r :: c'.ring ∧ c'.takeCount = c.takeCount ∧ c'.dropCount = c.dropCount ∧
      (∀ r' s, t ≠ .ret (some (r', s)))) ∨
    (c'.ring = c.ring ∧ c'.dropCount = c.dropCount ∧
      (SubPc.wired t').inHand = (SubPc.wired t).inHand ∧
      c'.takeCount + (SubPc.wired t').uncounted = c.takeCount + (SubPc.wired t).uncounted ∧
      (∀ r' s, t ≠ .ret (some (r', s)))) ∨
    (∃ r s, t = .ret (some (r, s)) ∧ t' = .idle ∧ c' = c) := by
  cases t with
  | idle => cases hs
  | load =>
      simp only [takeStep, hq] at hs
      cases hs
      exact .inr (.inl ⟨rfl, rfl, rfl, rfl, by simp⟩)
  | pop =>
      simp only [takeStep, hq] at hs
      split at hs
      · next r q' hp =>
        cases hs
        refine .inl ⟨r, rfl, rfl, rfl, rfl, ?_, rfl, rfl, by simp⟩
        simp only [SubCore.ring, hq]
        exact (Fifo.tryPop_some hp).1
      · cases hs
        exact .inr (.inl ⟨rfl, rfl, rfl, rfl, by simp⟩)
  | count r =>
      simp only [takeStep, hq] at hs
      cases hs
      exact .inr (.inl ⟨by simp [SubCore.ring, hq], rfl, rfl, rfl, by simp⟩)
  | base r stale =>
      simp only [takeStep] at hs
      repeat' split at hs
      all_goals cases hs
      all_goals exact .inr (.inl ⟨rfl, rfl, rfl, rfl, by simp⟩)
  | charge r stale last | store r stale | latch r stale =>
      simp only [takeStep] at hs
      cases hs
      exact .inr (.inl ⟨rfl, rfl, rfl, rfl, by simp⟩)
  | ret x =>
      simp only [takeStep] at hs
      cases hs
      cases x with
      | none => exact .inr (.inl ⟨rfl, rfl, rfl, rfl, by simp⟩)
      | some rs => exact .inr (.inr ⟨rs.1, rs.2, rfl, rfl, rfl⟩)

/-- The journal notes a subscriber's attach and the samples it is handed. -/
theorem noteQueue_sub {w w' : World T} {k : Nat} {a : SubAct} {tr : Journal T}
    (hattach : ∀ i, (w.subs k).pc ≠ .attach i)
    (hret : ∀ r s, (w.subs k).pc ≠ .wired (.ret (some (r, s)))) :
    noteQueue w (.sub k a) w' tr = tr := by
  cases a with
  | go now =>
      simp only [noteQueue]
  | _ => rfl

theorem noteQueue_other {w w' : World T} {k k' : Nat} {a : SubAct} {tr : Journal T}
    (hne : k ≠ k') : tr.Agree (noteQueue w (.sub k' a) w' tr) k := by
  cases a with
  | go now =>
      simp only [noteQueue]
      split
      · constructor <;> first | rfl | simp [Function.update_of_ne hne]
      · constructor <;> first | rfl | simp [extend_ne _ _ hne]
      · exact .refl tr k
  | _ => exact .refl tr k

theorem noteQueue_log (w w' : World T) (k : Nat) (a : SubAct) (tr : Journal T) :
    (noteQueue w (.sub k a) w' tr).log = tr.log ∧
      (noteQueue w (.sub k a) w' tr).completed = tr.completed := by
  cases a with
  | go now =>
      simp only [noteQueue]
      split <;> exact ⟨rfl, rfl⟩
  | _ => exact ⟨rfl, rfl⟩

theorem line_take {w : World T} {pc : PubPc T} {tr : Journal T} {k N : Nat} {t t' : TakePc T}
    {h' : Topic T} {now : Int} (hl : LineInv w.topic (w.subs k).pc pc tr k N)
    (hpc : (w.subs k).pc = .wired t) (w' : World T)
    (hs : takeStep (w.topic.cores k) now t = some (h'.cores k, t'))
    (hslots : h'.subSlots = w.topic.subSlots) {q : Fifo (MailRecord T)}
    (hq : (w.topic.cores k).box = .queue q) :
    LineInv h' (.wired t') pc (noteQueue w (.sub k (.go now)) w' tr) k N := by
  have hwired : ∀ i, (w.subs k).pc ≠ .attach i := by
    intro i h0
    rw [hpc] at h0
    cases h0
  have hsame : (∀ r s, t ≠ .ret (some (r, s))) →
      noteQueue w (.sub k (.go now)) w' tr = tr := by
    intro hret
    refine noteQueue_sub hwired fun r s h0 => ?_
    rw [hpc] at h0
    exact hret r s (by cases h0; rfl)
  rw [hpc] at hl
  rcases takeStep_line hs hq with ⟨r, h1, h2, h3, h4, h5, h6, h7, h8⟩ | ⟨h1, h2, h3, h4, h5⟩ |
    ⟨r, s, rfl, rfl, h1⟩
  · rw [hsame h8]
    have hk := hl.kept
    have ht := hl.takes
    rw [h1, h5] at hk
    rw [h1, h2] at ht
    exact {
      kept := by rw [h3]; simpa using hk
      takes := by rw [h3, h4, h6]; simpa using ht
      lost := hl.lost
      drops := by rw [h7]; exact hl.drops
      visited := hl.visited
      early := fun h0 => nomatch h0
      range := hl.range
      ahead := fun j hj => hl.ahead j (hslots ▸ hj)
      since := hl.since
      joined := hl.joined }
  · rw [hsame h5]
    exact {
      kept := by rw [h1, h3]; exact hl.kept
      takes := by rw [h4, h3]; exact hl.takes
      lost := hl.lost
      drops := by rw [h2]; exact hl.drops
      visited := hl.visited
      early := fun h0 => nomatch h0
      range := hl.range
      ahead := fun j hj => hl.ahead j (hslots ▸ hj)
      since := hl.since
      joined := hl.joined }
  · -- the sample leaves the take's hands for the caller's
    have hnote : noteQueue w (.sub k (.go now)) w' tr =
        { tr with taken := extend tr.taken k [r] } := by
      simp only [noteQueue, hpc]
    rw [hnote]
    have hk := hl.kept
    have ht := hl.takes
    simp only [SubPc.inHand, TakePc.inHand, SubPc.uncounted] at hk ht
    exact {
      kept := by simpa [h1, SubPc.inHand, TakePc.inHand] using hk
      takes := by simpa [h1, SubPc.inHand, TakePc.inHand, SubPc.uncounted] using ht
      lost := hl.lost
      drops := by rw [h1]; exact hl.drops
      visited := hl.visited
      early := fun h0 => nomatch h0
      range := hl.range
      ahead := fun j hj => hl.ahead j (hslots ▸ hj)
      since := hl.since
      joined := hl.joined }

/-- The attach: the line starts here. -/
theorem line_attach {w : World T} {p : Nat} {tr : Journal T} {k N i : Nat}
    (hl : LineInv w.topic (w.subs k).pc (w.pubs p).pc tr k N)
    (hlog : LogInv w.topic (w.pubs p).pc tr) (hpc : (w.subs k).pc = .attach i) (now : Int)
    (w' : World T) :
    LineInv (w.topic.setSlot i (some k)) .retain (w.pubs p).pc
      (noteQueue w (.sub k (.go now)) w' tr) k N := by
  have hnote : noteQueue w (.sub k (.go now)) w' tr =
      { tr with
        since := Function.update tr.since k tr.completed
        joinedAt := Function.update tr.joinedAt k w.topic.acceptedOrdinal
        busy := Function.update tr.busy k w.Busy } := by
    simp only [noteQueue, hpc]
  have he : (w.subs k).pc.early = true := by rw [hpc]; rfl
  have hk := hl.kept
  have ht := hl.takes
  rw [hpc] at hk ht
  rw [hnote]
  refine ⟨hk, ht, hl.lost, hl.drops, hl.visited, fun h0 => (nomatch h0), ?_, fun j _ _ => ?_,
    ?_, ?_⟩
  · rw [hl.early he]
    exact List.nil_sublist _
  · rw [hl.early he]
    exact List.nil_sublist _
  · simp
  · simp only [Function.update_self]
    cases ha : (w.pubs p).pc.airborne with
    | false =>
        have := hlog.grounded ha
        exact ⟨by omega, by omega, fun _ => this.symm⟩
    | true =>
        have := hlog.airborne ha
        exact ⟨by omega, by omega, fun h0 => absurd ⟨p, ha⟩ h0⟩

theorem line_own {w : World T} {p : Nat} {tr : Journal T} {k N : Nat} {a : SubAct}
    {h' : Topic T} {ep' : SubEp T} (hl : LineInv w.topic (w.subs k).pc (w.pubs p).pc tr k N)
    (hlog : LogInv w.topic (w.pubs p).pc tr) (hcore : CoreInv w)
    (hN : (w.subs k).qos.history = .queue N) (w' : World T)
    (hs : subStep w.topic k (w.subs k) a = some (h', ep')) :
    LineInv h' ep'.pc (w.pubs p).pc (noteQueue w (.sub k a) w' tr) k N := by
  have hquiet : ∀ {pc' : SubPc T}, (∀ i, (w.subs k).pc ≠ .attach i) →
      (∀ r s, (w.subs k).pc ≠ .wired (.ret (some (r, s)))) → h'.cores = w.topic.cores →
      (∀ j, h'.subSlots j = some k → w.topic.subSlots j = some k) →
      pc'.inHand = (w.subs k).pc.inHand → pc'.uncounted = (w.subs k).pc.uncounted →
      (pc'.early = true → (w.subs k).pc.early = true) →
      LineInv h' pc' (w.pubs p).pc (noteQueue w (.sub k a) w' tr) k N := by
    intro pc' h1 h2 h3 h4 h5 h6 h7
    rw [noteQueue_sub h1 h2]
    exact hl.put (.refl tr k) (by rw [h3]) (by rw [h3]) (by rw [h3]) h4 h5 h6 h7
  cases a with
  | subscribe | destroy | takeLatest | tryTake =>
      simp only [subStep] at hs
      split at hs
      · next hpc _ =>
        cases hs
        rw [hpc] at hquiet
        exact hquiet (by simp) (by simp) rfl (fun _ h0 => h0) rfl rfl
          (fun h0 => by first | rfl | cases h0)
      · cases hs
  | go now =>
      cases hpc : (w.subs k).pc <;> simp only [subStep, hpc] at hs
      case create =>
        cases hs
        rw [noteQueue_sub (by rw [hpc]; simp) (by rw [hpc]; simp)]
        obtain ⟨h1, h2, h3, h4, h5, h6⟩ := hl.blank (by rw [hpc]; rfl)
        have hpc' : ∀ b : Bool,
            (if b = true then SubPc.loadMaster else .scan 0 : SubPc T).inHand = [] ∧
            (if b = true then SubPc.loadMaster else .scan 0 : SubPc T).uncounted = 0 := by
          intro b
          cases b <;> exact ⟨rfl, rfl⟩
        refine ⟨?_, ?_, hl.lost, ?_, hl.visited, fun _ => hl.early (by rw [hpc]; rfl), hl.range,
          hl.ahead, hl.since, hl.joined⟩
        · rw [setCore_self, SubCore.new_ring, h1, h2, SubEp.at'_pc, (hpc' _).1]
          rfl
        · rw [setCore_self, h2, SubEp.at'_pc, (hpc' _).1, (hpc' _).2]
          rfl
        · rw [setCore_self, h3]
          rfl
      case seed r =>
        cases hs
        obtain ⟨h1, h2, h3⟩ := (w.topic.cores k).store_books r
        rw [noteQueue_sub (by rw [hpc]; simp) (by rw [hpc]; simp)]
        exact hl.put (.refl tr k) (by rw [setCore_self, h1]) (by rw [setCore_self, h2])
          (by rw [setCore_self, h3]) (fun _ h0 => h0) (by rw [hpc]; rfl) (by rw [hpc]; rfl)
          (fun _ => by rw [hpc]; rfl)
      case attach i =>
        cases hs
        exact line_attach hl hlog hpc now w'
      case wired t =>
        have hfits := hcore.fits k (by rw [hpc]; rfl)
        rw [hN] at hfits
        obtain ⟨q, hq, -⟩ := hfits.queue rfl
        split at hs
        · next c t' hc =>
          cases hs
          exact line_take hl hpc w' (by simpa using hc) rfl hq
        · cases hs
      case clear i =>
        cases hs
        refine hquiet (by simp [hpc]) (by simp [hpc]) rfl (fun j hj => ?_) (by rw [hpc]; rfl)
          (by rw [hpc]; rfl) (fun h0 => by cases h0)
        by_cases e : j = i
        · rw [e] at hj
          simp [Topic.setSlot] at hj
        · simpa only [Topic.setSlot, Function.update_of_ne e] using hj
      all_goals
        repeat' split at hs
        all_goals cases hs
        all_goals
          exact hquiet (by simp [hpc]) (by simp [hpc]) rfl (fun _ h0 => h0) (by rw [hpc]; rfl)
            (by rw [hpc]; rfl) (fun h0 => by first | (rw [hpc]; rfl) | cases h0)

/-! ## The publisher at work -/

/-- Outside the fan-out there is nothing half done. -/
theorem PubPc.idle_hands {pc : PubPc T} (h : pc.airborne = false) (k : Nat) :
    pc.pushing k = [] ∧ pc.dropping k = [] ∧ (∀ j, pc.ahead j = false) ∧ pc.record? = none := by
  cases pc <;> first | exact ⟨rfl, rfl, fun _ => rfl, rfl⟩ | cases h

/-- Publishers outside the fan-out hand over to one another. -/
theorem LineInv.ground {h h' : Topic T} {spc : SubPc T} {pc pc' : PubPc T} {tr : Journal T}
    {k N : Nat} (hl : LineInv h spc pc tr k N) (hg : pc.airborne = false)
    (hg' : pc'.airborne = false) (hcores : h'.cores = h.cores) : LineInv h' spc pc' tr k N := by
  obtain ⟨h1, h2, -⟩ := pc.idle_hands hg k
  obtain ⟨h3, h4, h5, -⟩ := pc'.idle_hands hg' k
  have hv := hl.visited
  have hd := hl.lost
  rw [h1] at hv
  rw [h2] at hd
  exact {
    kept := by rw [hcores]; exact hl.kept
    takes := by rw [hcores]; exact hl.takes
    lost := by rw [h4]; exact hd
    drops := by rw [hcores]; exact hl.drops
    visited := by rw [h3]; exact hv
    early := hl.early
    range := hl.range
    ahead := fun j _ ha => by rw [h5 j] at ha; cases ha
    since := hl.since
    joined := hl.joined }

theorem LogInv.ground {h h' : Topic T} {pc pc' : PubPc T} {tr : Journal T}
    (hl : LogInv h pc tr) (hg : pc.airborne = false) (hg' : pc'.airborne = false)
    (hacc : h'.acceptedOrdinal = h.acceptedOrdinal) : LogInv h' pc' tr where
  ordinals := by rw [hacc]; exact hl.ordinals
  newest r hr := by rw [(pc'.idle_hands hg' 0).2.2.2] at hr; cases hr
  airborne h0 := by rw [hg'] at h0; cases h0
  grounded _ := by rw [hacc]; exact hl.grounded hg

/-- A step of the fan-out that is not at `k`. -/
theorem LineInv.pass {h h' : Topic T} {spc : SubPc T} {pc pc' : PubPc T} {tr tr' : Journal T}
    {k N : Nat} (hl : LineInv h spc pc tr k N) (htr : tr.Agree tr' k)
    (hring : (h'.cores k).ring = (h.cores k).ring)
    (htakes : (h'.cores k).takeCount = (h.cores k).takeCount)
    (hdrops : (h'.cores k).dropCount = (h.cores k).dropCount)
    (hslots : h'.subSlots = h.subSlots)
    (hpush : pc'.pushing k = pc.pushing k) (hdrop : pc'.dropping k = pc.dropping k)
    (hahead : ∀ j, pc'.ahead j = true → pc.ahead j = true) : LineInv h' spc pc' tr' k N where
  kept := by rw [htr.found, htr.taken, hring]; exact hl.kept
  takes := by rw [htr.taken, htakes]; exact hl.takes
  lost := by rw [htr.found, htr.dropped, hdrop]; exact hl.lost
  drops := by rw [htr.dropped, hdrops]; exact hl.drops
  visited := by rw [htr.visited, htr.found, hpush]; exact hl.visited
  early he := by rw [htr.visited]; exact hl.early he
  range := by rw [htr.visited, htr.log, htr.since]; exact hl.range
  ahead j hj ha := by
    rw [htr.visited, htr.log, htr.since]
    exact hl.ahead j (hslots ▸ hj) (hahead j ha)
  since := by rw [htr.since, htr.completed]; exact hl.since
  joined := by rw [htr.since, htr.joinedAt, htr.busy]; exact hl.joined

/-- A step of the fan-out that writes the core of another subscriber. -/
theorem LineInv.passCore {h : Topic T} {spc : SubPc T} {pc pc' : PubPc T} {tr tr' : Journal T}
    {k k' N : Nat} {c : SubCore T} (hl : LineInv h spc pc tr k N) (htr : tr.Agree tr' k)
    (hne : k ≠ k') (hpush : pc'.pushing k = pc.pushing k) (hdrop : pc'.dropping k = pc.dropping k)
    (hahead : ∀ j, pc'.ahead j = true → pc.ahead j = true) :
    LineInv (h.setCore k' c) spc pc' tr' k N :=
  hl.pass htr (by rw [setCore_ne _ _ hne]) (by rw [setCore_ne _ _ hne])
    (by rw [setCore_ne _ _ hne]) rfl hpush hdrop hahead

/-- What is ahead of the next visit was ahead of this one. -/
theorem PubPc.ahead_of_next {r : MailRecord T} {i j : Nat} {pc : PubPc T}
    (hpc : pc.ahead j = decide (i ≤ j) ∨ pc.ahead j = decide (i < j))
    (h : (PubPc.visit r (i + 1)).ahead j = true) : pc.ahead j = true := by
  simp only [PubPc.ahead, decide_eq_true_eq] at h
  rcases hpc with hpc | hpc <;> rw [hpc, decide_eq_true_eq] <;> omega

theorem log_draw {h : Topic T} {tr : Journal T} {m : Message T}
    (hl : LogInv h (.draw m) tr) :
    LogInv { h with acceptedOrdinal := h.acceptedOrdinal + 1 }
      (.master (m.record (h.acceptedOrdinal + 1)))
      { tr with log := tr.log ++ [m.record (h.acceptedOrdinal + 1)] } where
  ordinals := by
    simp only [List.map_append, hl.ordinals, List.map_cons, List.map_nil, Message.record_ordinal]
    rw [List.range'_1_concat]
    simp [Nat.add_comm]
  newest r hr := by
    cases hr
    simp
  airborne _ := by rw [hl.grounded rfl]
  grounded h0 := nomatch h0

theorem line_draw {h : Topic T} {spc : SubPc T} {tr : Journal T} {k N : Nat} {m : Message T}
    (hl : LineInv h spc (.draw m) tr k N) :
    LineInv { h with acceptedOrdinal := h.acceptedOrdinal + 1 } spc
      (.master (m.record (h.acceptedOrdinal + 1)))
      { tr with log := tr.log ++ [m.record (h.acceptedOrdinal + 1)] } k N where
  kept := hl.kept
  takes := hl.takes
  lost := hl.lost
  drops := hl.drops
  visited := hl.visited
  early := hl.early
  range := hl.range.trans ((List.sublist_append_left _ _).drop _)
  ahead j _ _ := by
    simp only [List.dropLast_concat]
    exact hl.range
  since := hl.since
  joined := hl.joined

/-- The fan-out loads the pointer of `k`. -/
theorem line_visit {h : Topic T} {spc : SubPc T} {tr : Journal T} {k N i : Nat}
    {r : MailRecord T} (hl : LineInv h spc (.visit r i) tr k N) (hlog : LogInv h (.visit r i) tr)
    (hown : Own h k spc) (hk : h.subSlots i = some k) (he : spc.early = false) :
    LineInv h spc (.push r i k) { tr with visited := extend tr.visited k [r] } k N where
  kept := hl.kept
  takes := hl.takes
  lost := hl.lost
  drops := hl.drops
  visited := by
    have := hl.visited
    simp only [PubPc.pushing, List.append_nil] at this
    simp [PubPc.pushing, this]
  early h0 := by rw [he] at h0; cases h0
  range := by
    obtain ⟨ys, hys⟩ := List.getLast?_eq_some_iff.mp (hlog.newest r rfl)
    have hlen : ys.length = tr.completed := by
      have h1 := congrArg List.length hlog.ordinals
      have h2 := hlog.airborne rfl
      simp only [hys, List.length_map, List.length_append, List.length_cons, List.length_nil,
        List.length_range'] at h1
      omega
    have hpre := hl.ahead i hk (by simp [PubPc.ahead])
    rw [hys, List.dropLast_concat] at hpre
    simp only [extend_self, hys]
    rw [List.drop_append_of_le_length (by rw [hlen]; exact hl.since)]
    exact hpre.append (List.Sublist.refl _)
  ahead j hj ha := by
    have hij := hown.unique j i hj hk
    simp [PubPc.ahead, hij] at ha
  since := hl.since
  joined := hl.joined

theorem kept_append (N : Nat) (found : List (MailRecord T × Nat)) (r : MailRecord T) (n : Nat) :
    kept N (found ++ [(r, n)]) = kept N found ++ if n = N then [] else [r] := by
  by_cases h : n = N <;> simp [kept, h]

theorem lost_append (N : Nat) (found : List (MailRecord T × Nat)) (r : MailRecord T) (n : Nat) :
    lost N (found ++ [(r, n)]) = lost N found ++ if n = N then [r] else [] := by
  by_cases h : n = N <;> simp [lost, h]

/-- The push goes in behind what the ring holds. -/
theorem line_push {h : Topic T} {spc : SubPc T} {tr : Journal T} {k N i : Nat}
    {r : MailRecord T} (hl : LineInv h spc (.push r i k) tr k N) {q q' : Fifo (MailRecord T)}
    (hq : (h.cores k).box = .queue q) (hN : q.depth = N) (hp : q.tryPush r = some q') :
    LineInv (h.setCore k { h.cores k with box := .queue q' }) spc (.visit r (i + 1))
      { tr with found := extend tr.found k [(r, q.items.length)] } k N := by
  obtain ⟨h1, -, h2⟩ := Fifo.tryPush_some hp
  have hne : ¬ q.items.length = N := by
    have := Fifo.not_full_iff.mp h2
    omega
  have hk := hl.kept
  have hv := hl.visited
  have hd := hl.lost
  simp only [SubCore.ring, hq] at hk
  simp only [PubPc.pushing, if_pos] at hv
  simp only [PubPc.dropping, List.append_nil] at hd
  exact {
    kept := by
      simp only [extend_self, kept_append, if_neg hne, setCore_self, SubCore.ring, h1]
      rw [hk, List.append_assoc]
    takes := by rw [setCore_self]; exact hl.takes
    lost := by
      simp only [extend_self, lost_append, if_neg hne, PubPc.dropping]
      rw [hd]
    drops := by rw [setCore_self]; exact hl.drops
    visited := by simp [PubPc.pushing, hv]
    early := hl.early
    range := hl.range
    ahead := fun j hj ha => hl.ahead j hj (by simpa [PubPc.ahead, Nat.succ_le_iff] using ha)
    since := hl.since
    joined := hl.joined }

/-- The ring was full: the record is lost, and nothing else is. -/
theorem line_refuse {h : Topic T} {spc : SubPc T} {tr : Journal T} {k N i : Nat}
    {r : MailRecord T} (hl : LineInv h spc (.push r i k) tr k N) {q : Fifo (MailRecord T)}
    (hN : q.depth = N) (hp : q.tryPush r = none) :
    LineInv h spc (.drop r i k)
      { tr with found := extend tr.found k [(r, q.items.length)] } k N := by
  have hfull : q.items.length = N := (Fifo.full_iff.mp (Fifo.tryPush_none.mp hp)).trans hN
  have hv := hl.visited
  have hd := hl.lost
  simp only [PubPc.pushing, if_pos] at hv
  simp only [PubPc.dropping, List.append_nil] at hd
  exact {
    kept := by
      simp only [extend_self, kept_append, if_pos hfull, List.append_nil]
      exact hl.kept
    takes := hl.takes
    lost := by
      simp only [extend_self, lost_append, if_pos hfull, PubPc.dropping, if_pos]
      rw [hd]
    drops := hl.drops
    visited := by simp [PubPc.pushing, hv]
    early := hl.early
    range := hl.range
    ahead := hl.ahead
    since := hl.since
    joined := hl.joined }

theorem line_drop {h : Topic T} {spc : SubPc T} {tr : Journal T} {k N i : Nat}
    {r : MailRecord T} (hl : LineInv h spc (.drop r i k) tr k N) :
    LineInv (h.setCore k { h.cores k with dropCount := (h.cores k).dropCount + 1 }) spc
      (.visit r (i + 1)) { tr with dropped := extend tr.dropped k [r] } k N where
  kept := by rw [setCore_self]; exact hl.kept
  takes := by rw [setCore_self]; exact hl.takes
  lost := by
    have := hl.lost
    simp only [PubPc.dropping, if_pos] at this
    simp [PubPc.dropping, this]
  drops := by simp [hl.drops]
  visited := hl.visited
  early := hl.early
  range := hl.range
  ahead j hj ha := hl.ahead j hj (by simpa [PubPc.ahead, Nat.succ_le_iff] using ha)
  since := hl.since
  joined := hl.joined

theorem noteQueue_grounded {w w' : World T} {p : Nat} {a : PubAct T} {tr : Journal T}
    (hg : (w.pubs p).pc.airborne = false) (hd : ∀ m, (w.pubs p).pc ≠ .draw m) :
    noteQueue w (.pub p a) w' tr = tr := by
  cases a with
  | go now =>
      cases hpc : (w.pubs p).pc <;> simp only [noteQueue, hpc]
      case draw m => exact absurd hpc (hd m)
      case visit | push | drop => rw [hpc] at hg; cases hg
  | _ => rfl

theorem log_pub {w : World T} {p : Nat} {tr : Journal T} {a : PubAct T} {h' : Topic T}
    {ep' : PubEp T} (hl : LogInv w.topic (w.pubs p).pc tr) (w' : World T)
    (hs : pubStep size w.topic p (w.pubs p) a = some (h', ep')) :
    LogInv h' ep'.pc (noteQueue w (.pub p a) w' tr) := by
  by_cases hd : ∃ m, (w.pubs p).pc = .draw m
  · obtain ⟨m, hpc⟩ := hd
    cases a with
    | go now =>
        simp only [pubStep, hpc] at hs
        cases hs
        simp only [noteQueue, hpc]
        rw [hpc] at hl
        exact log_draw hl
    | _ => simp [pubStep, hpc] at hs
  by_cases hg : (w.pubs p).pc.airborne = false
  · have hd' : ∀ m, (w.pubs p).pc ≠ .draw m := fun m h0 => hd ⟨m, h0⟩
    obtain ⟨-, -, h1, h2⟩ := pubStep_grounded hs hg hd'
    rw [noteQueue_grounded hg hd']
    exact hl.ground hg h2 h1
  rw [Bool.not_eq_false] at hg
  cases a with
  | go now =>
      cases hpc : (w.pubs p).pc <;> rw [hpc] at hg <;> try (cases hg; done)
      all_goals
        simp only [pubStep, hpc] at hs
        rw [hpc] at hl
      case visit r i =>
        split at hs
        · next hi =>
          have hlog : LogInv w.topic (.visit r i) (noteQueue w (.pub p (.go now)) w' tr) := by
            simp only [noteQueue, hpc, if_pos hi]
            split <;> exact ⟨hl.ordinals, hl.newest, hl.airborne, hl.grounded⟩
          repeat' split at hs
          all_goals cases hs
          all_goals exact ⟨hlog.ordinals, hlog.newest, hlog.airborne, hlog.grounded⟩
        · next hi =>
          cases hs
          simp only [noteQueue, hpc, if_neg hi]
          refine ⟨hl.ordinals, fun r h0 => (by cases h0), fun h0 => (by cases h0), fun _ => ?_⟩
          exact hl.airborne rfl
      all_goals
        have hlog : LogInv w.topic (w.pubs p).pc (noteQueue w (.pub p (.go now)) w' tr) := by
          rw [hpc]
          simp only [noteQueue, hpc]
          repeat' split
          all_goals exact ⟨hl.ordinals, hl.newest, hl.airborne, hl.grounded⟩
        rw [hpc] at hlog
        repeat' split at hs
        all_goals cases hs
        all_goals exact ⟨hlog.ordinals, hlog.newest, hlog.airborne, hlog.grounded⟩
  | _ =>
      cases hpc : (w.pubs p).pc <;> rw [hpc] at hg <;>
        first | (cases hg; done) | simp [pubStep, hpc] at hs

/-- At a visit: an empty slot, the subscriber `k`, another one, or the end. -/
theorem line_atVisit {w : World T} {p i : Nat} {tr : Journal T} {k N : Nat} {r : MailRecord T}
    {now : Int} {h' : Topic T} {ep' : PubEp T} (hpc : (w.pubs p).pc = .visit r i)
    (hl : LineInv w.topic (w.subs k).pc (.visit r i) tr k N)
    (hlog : LogInv w.topic (.visit r i) tr) (hslot : SlotInv w)
    (hbox : (w.subs k).pc.early = false → ∃ q, (w.topic.cores k).box = .queue q ∧ q.depth = N)
    (w' : World T) (hs : pubStep size w.topic p (w.pubs p) (.go now) = some (h', ep')) :
    LineInv h' (w.subs k).pc ep'.pc (noteQueue w (.pub p (.go now)) w' tr) k N := by
  simp only [pubStep, hpc] at hs
  simp only [noteQueue, hpc]
  split at hs
  · next hi =>
    rw [if_pos hi]
    split at hs
    · next hn =>
      cases hs
      rw [hn]
      exact hl.pass (.refl tr k) rfl rfl rfl rfl rfl rfl fun j =>
        PubPc.ahead_of_next (.inl rfl)
    · next k' hk' =>
      rw [hk']
      by_cases e : k' = k
      · subst e
        have he := hslot.not_early hk'
        obtain ⟨q, hq, -⟩ := hbox he
        rw [hq] at hs
        cases hs
        exact line_visit hl hlog (hslot k') hk' he
      · have hagree : tr.Agree { tr with visited := extend tr.visited k' [r] } k :=
          ⟨rfl, rfl, rfl, rfl, rfl, extend_ne _ _ (Ne.symm e), rfl, rfl, rfl⟩
        split at hs <;> cases hs
        all_goals
          refine hl.pass hagree rfl rfl rfl rfl ?_ rfl fun j hj => ?_
          · simp [PubPc.pushing, e]
          · simp only [PubEp.at'_pc, PubPc.ahead, decide_eq_true_eq] at hj ⊢
            omega
  · next hi =>
    cases hs
    rw [if_neg hi]
    exact {
      kept := hl.kept
      takes := hl.takes
      lost := hl.lost
      drops := hl.drops
      visited := hl.visited
      early := hl.early
      range := hl.range
      ahead := fun j _ ha => by cases ha
      since := Nat.le_succ_of_le hl.since
      joined := hl.joined }

/-- At a store of the stamp, and at a store of the record, of any subscriber. -/
theorem line_atStore {h : Topic T} {spc : SubPc T} {pc pc' : PubPc T} {tr : Journal T}
    {k k' N : Nat} {c : SubCore T} (hl : LineInv h spc pc tr k N)
    (hring : c.ring = (h.cores k').ring) (htakes : c.takeCount = (h.cores k').takeCount)
    (hdrops : c.dropCount = (h.cores k').dropCount) (hpush : pc'.pushing k = pc.pushing k)
    (hdrop : pc'.dropping k = pc.dropping k)
    (hahead : ∀ j, pc'.ahead j = true → pc.ahead j = true) :
    LineInv (h.setCore k' c) spc pc' tr k N := by
  by_cases e : k = k'
  · subst e
    exact hl.pass (.refl tr k) (by rw [setCore_self, hring]) (by rw [setCore_self, htakes])
      (by rw [setCore_self, hdrops]) rfl hpush hdrop hahead
  · exact hl.passCore (.refl tr k) e hpush hdrop hahead

/-- At a push into the ring of another subscriber. -/
theorem line_push_other {w : World T} {p i : Nat} {tr : Journal T} {k k' N : Nat}
    {r : MailRecord T} {now : Int} {h' : Topic T} {ep' : PubEp T} (hne : k ≠ k')
    (hpc : (w.pubs p).pc = .push r i k')
    (hl : LineInv w.topic (w.subs k).pc (.push r i k') tr k N) (w' : World T)
    (hs : pubStep size w.topic p (w.pubs p) (.go now) = some (h', ep')) :
    LineInv h' (w.subs k).pc ep'.pc (noteQueue w (.pub p (.go now)) w' tr) k N := by
  have hagree : tr.Agree (noteQueue w (.pub p (.go now)) w' tr) k := by
    simp only [noteQueue, hpc]
    split
    · exact ⟨rfl, rfl, rfl, rfl, rfl, rfl, extend_ne _ _ hne, rfl, rfl⟩
    · exact .refl tr k
  have hpush : (PubPc.push r i k').pushing k = [] := by simp [PubPc.pushing, hne.symm]
  simp only [pubStep, hpc] at hs
  repeat' split at hs
  all_goals cases hs
  · exact hl.passCore hagree hne hpush.symm rfl fun j => PubPc.ahead_of_next (.inr rfl)
  · exact hl.pass hagree rfl rfl rfl rfl hpush.symm (by simp [PubPc.dropping, hne.symm])
      fun _ h0 => h0
  · exact hl.pass hagree rfl rfl rfl rfl hpush.symm rfl fun j => PubPc.ahead_of_next (.inr rfl)

/-- One access of the publisher at work, as the line of `k` sees it. -/
theorem line_pub {w : World T} {p : Nat} {tr : Journal T} {k N : Nat} {a : PubAct T}
    {h' : Topic T} {ep' : PubEp T} (hl : LineInv w.topic (w.subs k).pc (w.pubs p).pc tr k N)
    (hlog : LogInv w.topic (w.pubs p).pc tr) (hslot : SlotInv w) (hcore : CoreInv w)
    (hN : (w.subs k).qos.history = .queue N) (w' : World T)
    (hs : pubStep size w.topic p (w.pubs p) a = some (h', ep')) :
    LineInv h' (w.subs k).pc ep'.pc (noteQueue w (.pub p a) w' tr) k N := by
  have hbox : (w.subs k).pc.early = false →
      ∃ q, (w.topic.cores k).box = .queue q ∧ q.depth = N := by
    intro he
    have hf := hcore.fits k (SubPc.made_of_not_early he)
    rw [hN] at hf
    obtain ⟨q, hq, hd⟩ := hf.queue rfl
    exact ⟨q, hq, (History.queue.inj hd).symm⟩
  by_cases hd : ∃ m, (w.pubs p).pc = .draw m
  · obtain ⟨m, hpc⟩ := hd
    cases a with
    | go now =>
        simp only [pubStep, hpc] at hs
        cases hs
        simp only [noteQueue, hpc]
        rw [hpc] at hl
        exact line_draw hl
    | _ => simp [pubStep, hpc] at hs
  by_cases hg : (w.pubs p).pc.airborne = false
  · have hd' : ∀ m, (w.pubs p).pc ≠ .draw m := fun m h0 => hd ⟨m, h0⟩
    obtain ⟨h1, -, -, h2⟩ := pubStep_grounded hs hg hd'
    rw [noteQueue_grounded hg hd']
    exact hl.ground hg h2 h1
  rw [Bool.not_eq_false] at hg
  cases a with
  | go now =>
      cases hpc : (w.pubs p).pc <;> rw [hpc] at hg <;> try (cases hg; done)
      all_goals rw [hpc] at hl hlog
      case visit r i => exact line_atVisit hpc hl hlog hslot hbox w' hs
      all_goals simp only [noteQueue, hpc]
      case push r i k' =>
        by_cases e : k' = k
        · subst e
          obtain ⟨q, hq, hdep⟩ := hbox (hcore.held p i k' (by rw [hpc]; rfl)).1
          simp only [pubStep, hpc, hq] at hs
          simp only [hq]
          split at hs <;> cases hs
          · next q' hp => exact line_push hl hq hdep hp
          · next hp => exact line_refuse hl hdep hp
        · have hother := line_push_other (Ne.symm e) hpc hl w' hs
          simpa only [noteQueue, hpc] using hother
      all_goals simp only [pubStep, hpc] at hs
      case master r =>
        cases hs
        exact hl.pass (.refl tr k) rfl rfl rfl rfl rfl rfl fun _ _ => rfl
      case base r i k' =>
        split at hs <;> cases hs
        all_goals exact hl.pass (.refl tr k) rfl rfl rfl rfl rfl rfl fun _ h0 => h0
      case stamp r i k' =>
        split at hs <;> cases hs
        · exact line_atStore hl rfl rfl rfl rfl rfl fun _ h0 => h0
        · exact hl.pass (.refl tr k) rfl rfl rfl rfl rfl rfl fun _ h0 => h0
      case store r i k' =>
        cases hs
        obtain ⟨h1, h2, h3⟩ := (w.topic.cores k').store_books r
        exact line_atStore hl h1 h2 h3 rfl rfl fun j => PubPc.ahead_of_next (.inr rfl)
      case drop r i k' =>
        cases hs
        by_cases e : k' = k
        · subst e
          exact line_drop hl
        · exact hl.passCore ⟨rfl, rfl, rfl, rfl, rfl, rfl, rfl, extend_ne _ _ (Ne.symm e), rfl⟩
            (Ne.symm e) rfl (by simp [PubPc.dropping, e]) fun j => PubPc.ahead_of_next (.inr rfl)
  | _ =>
      cases hpc : (w.pubs p).pc <;> rw [hpc] at hg <;>
        first | (cases hg; done) | simp [pubStep, hpc] at hs

/-! ## Runs -/

/-- Some publisher is the only one that may be inside `Deliver`, and seen from it
the log and every queue's books are in order. -/
def QueueInv (w : World T) (tr : Journal T) : Prop :=
  ∃ p, w.AtWork p ∧ LogInv w.topic (w.pubs p).pc tr ∧
    ∀ k N, (w.subs k).qos.history = .queue N →
      LineInv w.topic (w.subs k).pc (w.pubs p).pc tr k N

theorem queueInv_start {w : World T} (hw : w.Fresh) : QueueInv w {} := by
  obtain ⟨ht, hsub, hpub⟩ := hw
  refine ⟨0, fun q _ => by rw [(hpub q).1]; rfl, ?_, fun k N _ => ?_⟩
  · rw [(hpub 0).1, ht]
    exact ⟨rfl, fun r h0 => (nomatch h0), fun h0 => (nomatch h0), fun _ => rfl⟩
  · rw [(hpub 0).1, hsub k, ht]
    exact ⟨rfl, rfl, rfl, rfl, rfl, fun _ => rfl, List.nil_sublist _,
      fun j _ h0 => (nomatch h0), Nat.le_refl 0, ⟨Nat.le_refl 0, Nat.le_succ 0, fun _ => rfl⟩⟩

theorem queueInv_sub {w : World T} {tr : Journal T} {k : Nat} {a : SubAct} {h' : Topic T}
    {ep' : SubEp T} (hq : QueueInv w tr) (hslot : SlotInv w) (hcore : CoreInv w)
    (hs : subStep w.topic k (w.subs k) a = some (h', ep')) (w' : World T) :
    QueueInv (w.putSub k h' ep') (noteQueue w (.sub k a) w' tr) := by
  obtain ⟨p, hwork, hlog, hlines⟩ := hq
  obtain ⟨-, hacc, hcores⟩ := subStep_others hs
  obtain ⟨hm, hqos⟩ := subStep_wireMove hs
  refine ⟨p, hwork, ?_, fun k' N hN => ?_⟩
  · obtain ⟨h1, h2⟩ := noteQueue_log w w' k a tr
    rw [World.putSub_topic, World.putSub_pubs]
    refine ⟨?_, fun r hr => ?_, fun h0 => ?_, fun h0 => ?_⟩
    · rw [h1, hacc]; exact hlog.ordinals
    · rw [h1]; exact hlog.newest r hr
    · rw [h2, hacc]; exact hlog.airborne h0
    · rw [h2, hacc]; exact hlog.grounded h0
  · by_cases e : k' = k
    · subst e
      rw [World.putSub_self] at hN ⊢
      rw [hqos] at hN
      exact line_own (hlines k' N hN) hlog hcore hN w' hs
    · rw [World.putSub_ne _ _ _ _ e] at hN ⊢
      rw [World.putSub_topic, World.putSub_pubs]
      exact (hlines k' N hN).put (noteQueue_other e) (by rw [hcores k' e]) (by rw [hcores k' e])
        (by rw [hcores k' e]) (fun j hj => (hm.slots_other e (hslot k) j).mp hj) rfl rfl id

/-- A publisher's step. If it has just entered `Deliver`, the one that was at work
has left. -/
theorem queueInv_pub {w : World T} {tr : Journal T} {p : Nat} {a : PubAct T} {h' : Topic T}
    {ep' : PubEp T} (hq : QueueInv w tr) (hslot : SlotInv w) (hcore : CoreInv w)
    (hs : pubStep size w.topic p (w.pubs p) a = some (h', ep'))
    (hser : PubInv (w.putPub p h' ep')) (w' : World T) :
    QueueInv (w.putPub p h' ep') (noteQueue w (.pub p a) w' tr) := by
  obtain ⟨q, hwork, hlog, hlines⟩ := hq
  obtain ⟨hslots, -⟩ := pubStep_table hs
  by_cases e : p = q
  · subst e
    refine ⟨p, fun q hne => ?_, ?_, fun k N hN => ?_⟩
    · rw [World.putPub_ne _ _ _ _ hne]
      exact hwork q hne
    · rw [World.putPub_self]
      exact log_pub hlog w' hs
    · rw [World.putPub_self]
      exact line_pub (hlines k N hN) hlog hslot hcore hN w' hs
  -- `p` is outside `Deliver`, so its step is invisible
  have hout := hwork p e
  have hgr : (w.pubs p).pc.airborne = false := by
    cases hpc : (w.pubs p).pc <;> rw [hpc] at hout <;> first | rfl | cases hout
  have hdraw : ∀ m, (w.pubs p).pc ≠ .draw m := by
    intro m h0
    rw [h0] at hout
    cases hout
  obtain ⟨hcores, -, hacc, hgr'⟩ := pubStep_grounded hs hgr hdraw
  rw [noteQueue_grounded hgr hdraw]
  by_cases hin : ep'.pc.delivering = true
  · have hq : (w.pubs q).pc.airborne = false := by
      by_contra hair
      refine e (hser.serialized (p := p) (q := q) ?_ ?_)
      · rw [World.putPub_self]
        exact hin
      · rw [World.putPub_ne _ _ _ _ (Ne.symm e)]
        cases hpc : (w.pubs q).pc <;> rw [hpc] at hair <;> first | rfl | exact absurd rfl hair
    refine ⟨p, fun q' hne => ?_, ?_, fun k N hN => ?_⟩
    · by_contra hd
      refine hne (hser.serialized (p := q') (q := p) ?_ ?_)
      · simpa using hd
      · rw [World.putPub_self]
        exact hin
    · rw [World.putPub_self]
      exact hlog.ground hq hgr' hacc
    · rw [World.putPub_self]
      exact (hlines k N hN).ground hq hgr' hcores
  · refine ⟨q, fun q' hne => ?_, ?_, fun k N hN => ?_⟩
    · by_cases e' : q' = p
      · subst e'
        rw [World.putPub_self]
        simpa using hin
      · rw [World.putPub_ne _ _ _ _ e']
        exact hwork q' hne
    · rw [World.putPub_ne _ _ _ _ (Ne.symm e), World.putPub_topic]
      refine ⟨?_, hlog.newest, fun h0 => ?_, fun h0 => ?_⟩
      · rw [hacc]; exact hlog.ordinals
      · rw [hacc]; exact hlog.airborne h0
      · rw [hacc]; exact hlog.grounded h0
    · rw [World.putPub_ne _ _ _ _ (Ne.symm e), World.putPub_topic]
      exact (hlines k N hN).pass (.refl tr k) (by rw [hcores]) (by rw [hcores]) (by rw [hcores])
        hslots rfl rfl fun _ h0 => h0

theorem queueInv_reached {w : World T} {tr : Journal T}
    (hw : (journaled T size).Reached anyStep (w, tr)) : QueueInv w tr := by
  refine Machine.Reached.invariant (M := journaled T size) (P := fun q => QueueInv q.1 q.2)
    ?_ ?_ hw
  · rintro ⟨w, tr⟩ ⟨hw, rfl⟩
    exact queueInv_start hw
  · rintro ⟨w, tr⟩ a ⟨w', tr'⟩ hr h _ hst
    have hr' : (machine T size).Reached anyStep w' :=
      Machine.reached_any (hr.next trivial hst)
    obtain ⟨hs, htr⟩ := Machine.withHistory_step hst
    simp only at hs htr
    subst htr
    have hbase : (machine T size).Reached anyStep w := Machine.reached_any hr
    have hslot := slotInv_reached hbase
    have hcore := coreInv_reached hbase
    rcases step_cases hs with ⟨k, b, h', ep', rfl, hsub, rfl⟩ | ⟨p, b, h', ep', rfl, hpub, rfl⟩
    · exact queueInv_sub h hslot hcore hsub (w.putSub k h' ep')
    · exact queueInv_pub h hslot hcore hpub (pubInv_reached hr') (w.putPub p h' ep')

/-- No fan-out on the topic and no take of `k` is under way. -/
def World.Calm (w : World T) (k : Nat) : Prop :=
  (∀ p, (w.pubs p).pc.airborne = false) ∧ ∀ t, (w.subs k).pc = .wired t → t = .idle

/-- The books of queue subscriber `k` of declared depth `N`. -/
structure QueueBooks (w : World T) (tr : Journal T) (k N : Nat) : Prop where
  -- the log is the accepted publishes, numbered from one
  accepted : tr.log.map MailRecord.ordinal = List.range' 1 w.topic.acceptedOrdinal
  -- what was through before the attach: everything, or all but the one under way
  since : tr.since k ≤ tr.joinedAt k ∧ tr.joinedAt k ≤ tr.since k + 1 ∧
    (¬ tr.busy k → tr.joinedAt k = tr.since k)
  taken : (tr.taken k).Sublist (tr.log.drop (tr.since k))
  increasing : ((tr.taken k).map MailRecord.ordinal).Pairwise (· < ·)
  visited : (tr.visited k).Sublist (tr.log.drop (tr.since k))
  balance : w.Calm k →
    (w.topic.cores k).takeCount + (w.topic.cores k).ring.length +
      (w.topic.cores k).dropCount = (tr.visited k).length
  dropped : w.Calm k → tr.visited k = (tr.found k).map Prod.fst ∧
    tr.dropped k = lost N (tr.found k) ∧
    (w.topic.cores k).dropCount = (tr.dropped k).length
  intact : w.Calm k → tr.taken k ++ (w.topic.cores k).ring = kept N (tr.found k)

theorem kept_lost_length (N : Nat) (found : List (MailRecord T × Nat)) :
    (kept N found).length + (lost N found).length = found.length := by
  have := List.length_eq_length_filter_add (l := found) fun f => decide (f.2 = N)
  simp only [kept, lost, List.length_map, ne_eq, decide_not]
  omega

theorem LineInv.taken_sublist {h : Topic T} {spc : SubPc T} {pc : PubPc T} {tr : Journal T}
    {k N : Nat} (hl : LineInv h spc pc tr k N) :
    (tr.taken k).Sublist (tr.log.drop (tr.since k)) := by
  have h1 : (tr.taken k).Sublist (InProc.kept N (tr.found k)) := by
    rw [hl.kept, List.append_assoc]
    exact List.sublist_append_left _ _
  have h2 : (InProc.kept N (tr.found k)).Sublist ((tr.found k).map Prod.fst) :=
    List.filter_sublist.map _
  have h3 : ((tr.found k).map Prod.fst).Sublist (tr.visited k) := by
    rw [hl.visited]
    exact List.sublist_append_left _ _
  exact h1.trans (h2.trans (h3.trans hl.range))

theorem LogInv.increasing {h : Topic T} {pc : PubPc T} {tr : Journal T} (hl : LogInv h pc tr)
    {l : List (MailRecord T)} {n : Nat} (hsub : l.Sublist (tr.log.drop n)) :
    (l.map MailRecord.ordinal).Pairwise (· < ·) := by
  have hlog : (tr.log.map MailRecord.ordinal).Pairwise (· < ·) := by
    rw [hl.ordinals]
    exact List.pairwise_lt_range'
  exact hlog.sublist ((hsub.trans (List.drop_sublist _ _)).map _)

/-- In every run, every queue subscriber takes a subsequence of the publishes
accepted since its attach, in accepted order; and whenever nothing is under way,
what visited its slot is what it took, what its ring holds and what it dropped,
the dropped ones being those that found the ring full. -/
theorem queue_conservation {w : World T} {tr : Journal T}
    (hw : (journaled T size).Reached anyStep (w, tr)) {k N : Nat}
    (hN : (w.subs k).qos.history = .queue N) : QueueBooks w tr k N := by
  obtain ⟨p, -, hlog, hlines⟩ := queueInv_reached hw
  have hl := hlines k N hN
  have hcalm : w.Calm k → (w.subs k).pc.inHand = [] ∧ (w.subs k).pc.uncounted = 0 ∧
      (w.pubs p).pc.pushing k = [] ∧ (w.pubs p).pc.dropping k = [] := by
    intro hc
    obtain ⟨h1, h2, -⟩ := (w.pubs p).pc.idle_hands (hc.1 p) k
    have hidle := hc.2
    cases hpc : (w.subs k).pc with
    | wired t =>
        rw [hidle t hpc]
        exact ⟨rfl, rfl, h1, h2⟩
    | _ => exact ⟨rfl, rfl, h1, h2⟩
  have hbooks : w.Calm k → tr.visited k = (tr.found k).map Prod.fst ∧
      tr.dropped k = lost N (tr.found k) ∧
      tr.taken k ++ (w.topic.cores k).ring = kept N (tr.found k) ∧
      (w.topic.cores k).takeCount = (tr.taken k).length := by
    intro hc
    obtain ⟨h1, h2, h3, h4⟩ := hcalm hc
    have hv := hl.visited
    have hd := hl.lost
    have hk := hl.kept
    have ht := hl.takes
    rw [h3, List.append_nil] at hv
    rw [h4, List.append_nil] at hd
    rw [h1, List.append_nil] at hk
    rw [h1, h2] at ht
    exact ⟨hv, hd.symm, hk.symm, ht⟩
  exact {
    accepted := hlog.ordinals
    since := hl.joined
    taken := hl.taken_sublist
    increasing := hlog.increasing hl.taken_sublist
    visited := hl.range
    balance := fun hc => by
      obtain ⟨h1, h2, h3, h4⟩ := hbooks hc
      have h5 := congrArg List.length h3
      have h6 := kept_lost_length N (tr.found k)
      rw [List.length_append] at h5
      rw [h1, List.length_map, h4, hl.drops, h2]
      omega
    dropped := fun hc => ⟨(hbooks hc).1, (hbooks hc).2.1, hl.drops⟩
    intact := fun hc => (hbooks hc).2.2.1 }

/-- A ring of one value, and two publishes before the first take. -/
theorem queue_conservation_full : ∃ (w : World Nat) (tr : Journal Nat),
    (journaled Nat 8).Reached anyStep (w, tr) ∧ (w.subs 0).qos.history = .queue 1 ∧
      (tr.taken 0).map MailRecord.payload = [7] ∧
      (tr.dropped 0).map MailRecord.payload = [8] ∧ QueueBooks w tr 0 1 := by
  have hrun : ((journaled Nat 8).exec
      (Act.pub 0 .advertise :: Act.sub 0 .subscribe :: List.replicate 5 (Act.sub 0 (.go 0)) ++
        Act.pub 0 (.publish { value := 7 }) :: List.replicate 72 (Act.pub 0 (.go 0)) ++
        Act.pub 0 (.publish { value := 8 }) :: List.replicate 73 (Act.pub 0 (.go 0)) ++
        Act.sub 0 .tryTake :: List.replicate 4 (Act.sub 0 (.go 0)))
      ({ subs := fun _ => { qos := { history := .queue 1 } }, pubs := fun _ => {} }, {})).map
        (fun q => ((q.2.taken 0).map MailRecord.payload, (q.2.dropped 0).map MailRecord.payload,
          (q.1.subs 0).qos.history)) =
      some ([7], [8], .queue 1) := by decide
  obtain ⟨⟨w, tr⟩, hw, hf⟩ := Option.map_eq_some_iff.mp hrun
  simp only [Prod.mk.injEq] at hf
  have hstart : (journaled Nat 8).Reached anyStep
      ({ subs := fun _ => { qos := { history := .queue 1 } }, pubs := fun _ => {} }, {}) :=
    .start ⟨⟨rfl, fun _ => rfl, fun _ => ⟨rfl, rfl, rfl, rfl⟩⟩, rfl⟩
  have hr := Machine.reached_of_exec hstart hw
  exact ⟨w, tr, hr, hf.2.2, hf.1, hf.2.1, queue_conservation hr hf.2.2⟩

end Xmmsg.InProc
