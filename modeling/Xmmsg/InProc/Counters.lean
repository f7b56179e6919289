import Xmmsg.InProc.Fanout
import Xmmsg.Sys.Edges

/-!
# The counters of the in-process reach are exact

What a publisher and a subscriber count of their own traffic, over any interleaving:
`publish_count`, `refused_count` and `bytes` against what `Publish` returned,
`accepted_ordinal` against all publishes of the topic together, `take_count` against the
samples handed back, and `deadline_miss_count` against their freshness. The overwrite and
drop counters are in `Accounting.lean` and `Queue.lean`.

Each counter moves some accesses before its call returns, so the invariant carries what a
call under way has counted ahead. The miss counter is the latch of `Edges.lean`: one miss
for every Fresh to Stale transition, so an outage of the publisher counts once however
often it is looked at.
-/

namespace Xmmsg.InProc

open Xmmsg.Sys Xmmsg.Mail

variable {T : Type} {size : Nat}

/-- The record of a run: the values takes have found, with the clock read for them, the
samples handed back, and what publishes have returned. -/
structure Tape (T : Type) where
  looks : Nat → List (MailRecord T × Int) := fun _ => []
  taken : Nat → List (MailRecord T × Bool) := fun _ => []
  results : List (Nat × PublishStatus) := []

def noteTape (w : World T) (a : Act T) (_ : World T) (tp : Tape T) : Tape T :=
  match a with
  | .pub p (.go _) =>
      match (w.pubs p).pc with
      | .ret st => { tp with results := tp.results ++ [(p, st)] }
      | _ => tp
  | .sub k (.go now) =>
      match (w.subs k).pc with
      | .wired (.count r) => { tp with looks := extend tp.looks k [(r, now)] }
      | .wired (.ret (some x)) => { tp with taken := extend tp.taken k [x] }
      | _ => tp
  | _ => tp

/-- The machine with its tape. -/
def taped (T : Type) (size : Nat) : Machine (World T × Tape T) (Act T) :=
  (machine T size).withHistory {} noteTape

/-- The results `st` of publisher `p`. -/
def Tape.count (tp : Tape T) (p : Nat) (st : PublishStatus) : Nat := tp.results.count (p, st)

/-- The publishes accepted, of all publishers. -/
def Tape.accepted (tp : Tape T) : Nat := tp.results.countP fun x => x.2 = .ok

/-! ## Publishers -/

/-- Counted in `publish_count`, not returned yet. -/
def PubPc.countedAhead : PubPc T → Nat
  | .countBytes | .ret .ok => 1
  | _ => 0

/-- Counted in `bytes`, not returned yet. -/
def PubPc.bytesAhead : PubPc T → Nat
  | .ret .ok => 1
  | _ => 0

/-- Counted in `refused_count`, not returned yet. -/
def PubPc.refusedAhead : PubPc T → Nat
  | .ret .wouldBlock => 1
  | _ => 0

/-- Holds an ordinal, not returned yet. -/
def PubPc.drawnAhead : PubPc T → Nat
  | .master _ | .visit _ _ | .base _ _ _ | .stamp _ _ _ | .store _ _ _ | .push _ _ _
  | .drop _ _ _ | .countPublish | .countBytes | .ret .ok => 1
  | _ => 0

theorem PubPc.delivering_of_drawn {pc : PubPc T} (h : pc.drawnAhead ≠ 0) :
    pc.delivering = true := by
  cases pc <;> first | rfl | exact absurd rfl h

/-- All that is counted ahead. -/
def PubPc.tallies (pc : PubPc T) : Nat × Nat × Nat × Nat :=
  (pc.countedAhead, pc.bytesAhead, pc.refusedAhead, pc.drawnAhead)

/-- An access that does not return moves a counter and what is counted ahead together. -/
structure PubTally (size : Nat) (h h' : Topic T) (ep ep' : PubEp T) : Prop where
  published : ep'.publishCount + ep.pc.countedAhead = ep.publishCount + ep'.pc.countedAhead
  bytes : ep'.bytes + size * ep.pc.bytesAhead = ep.bytes + size * ep'.pc.bytesAhead
  refused : ep'.refusedCount + ep.pc.refusedAhead = ep.refusedCount + ep'.pc.refusedAhead
  accepted : h'.acceptedOrdinal + ep.pc.drawnAhead = h.acceptedOrdinal + ep'.pc.drawnAhead
  holds : ep.pc.drawnAhead ≤ ep'.pc.drawnAhead

/-- An access that counts nothing. -/
theorem PubTally.moved {h h' : Topic T} {ep : PubEp T} {pc' : PubPc T}
    (hpc : pc'.tallies = ep.pc.tallies) (hacc : h'.acceptedOrdinal = h.acceptedOrdinal) :
    PubTally size h h' ep (ep.at' pc') := by
  simp only [PubPc.tallies, Prod.mk.injEq] at hpc
  obtain ⟨hc, hb, hr, hd⟩ := hpc
  refine ⟨?_, ?_, ?_, ?_, ?_⟩ <;> rw [PubEp.at'_pc]
  · rw [hc]
    rfl
  · rw [hb]
    rfl
  · rw [hr]
    rfl
  · rw [hd, hacc]
  · rw [hd]

theorem PubTally.deliver {h h' : Topic T} {ep : PubEp T} (m : Message T)
    (hpc : ep.pc.tallies = (0, 0, 0, 0)) (hacc : h'.acceptedOrdinal = h.acceptedOrdinal) :
    PubTally size h h' ep (ep.deliver m) := by
  unfold PubEp.deliver
  refine .moved ?_ hacc
  rw [hpc]
  split <;> rfl

/-- What one access of a publisher does to the counters. -/
theorem pubStep_tally {h h' : Topic T} {p : Nat} {ep ep' : PubEp T} {a : PubAct T}
    (hs : pubStep size h p ep a = some (h', ep')) :
    (∃ now st, a = .go now ∧ ep.pc = .ret st ∧ ep'.pc = .idle ∧
      ep'.publishCount = ep.publishCount ∧ ep'.bytes = ep.bytes ∧
      ep'.refusedCount = ep.refusedCount ∧ h'.acceptedOrdinal = h.acceptedOrdinal) ∨
    ((∀ st, ep.pc ≠ .ret st) ∧ PubTally size h h' ep ep') := by
  cases a with
  | go now =>
      cases hpc : ep.pc <;> simp only [pubStep, hpc] at hs
      case ret st =>
        cases hs
        refine .inl ⟨now, st, rfl, rfl, rfl, rfl, rfl, rfl, ?_⟩
        split <;> rfl
      all_goals refine .inr ⟨fun _ h0 => (by cases h0), ?_⟩
      case lock m =>
        split at hs <;> cases hs
        exact .deliver m (by rw [hpc]; rfl) rfl
      case refuse | draw | countPublish =>
        cases hs
        refine ⟨?_, ?_, ?_, ?_, ?_⟩ <;> rw [hpc] <;> first | rfl | exact Nat.zero_le _
      case countBytes =>
        cases hs
        refine ⟨?_, ?_, ?_, ?_, ?_⟩ <;> rw [hpc]
        · rfl
        · simp only [PubPc.bytesAhead, Nat.mul_zero, Nat.mul_one, Nat.add_zero]
        · rfl
        · rfl
        · exact Nat.le_refl _
      all_goals
        repeat' split at hs
        all_goals cases hs
        all_goals exact .moved (by rw [hpc]; rfl) rfl
  | publish m =>
      simp only [pubStep] at hs
      split at hs
      · next hpc =>
          refine .inr ⟨fun st h0 => (by rw [hpc] at h0; cases h0), ?_⟩
          split at hs <;> cases hs
          · exact .moved (by rw [hpc]; rfl) rfl
          · exact .deliver m (by rw [hpc]; rfl) rfl
      · cases hs
  | advertise =>
      simp only [pubStep] at hs
      split at hs
      · next hpc _ =>
          refine .inr ⟨fun st h0 => (by rw [hpc] at h0; cases h0), ?_⟩
          split at hs <;> cases hs <;> exact .moved (by rw [hpc]; rfl) rfl
      · cases hs
  | destroy =>
      simp only [pubStep] at hs
      split at hs
      · next hpc _ =>
          cases hs
          exact .inr ⟨fun st h0 => (by rw [hpc] at h0; cases h0), .moved (by rw [hpc]; rfl) rfl⟩
      · next _ hpc =>
          cases hs
          exact .inr ⟨fun st h0 => (by rw [hpc] at h0; cases h0), .moved (by rw [hpc]; rfl) rfl⟩
      · cases hs

/-- What the publishers of a topic have counted. -/
structure PubBooks (size : Nat) (w : World T) (tp : Tape T) : Prop where
  published : ∀ p, (w.pubs p).publishCount = tp.count p .ok + (w.pubs p).pc.countedAhead
  bytes : ∀ p, (w.pubs p).bytes = size * tp.count p .ok + size * (w.pubs p).pc.bytesAhead
  refused : ∀ p,
    (w.pubs p).refusedCount = tp.count p .wouldBlock + (w.pubs p).pc.refusedAhead
  accepted : ∀ p, (∀ q, q ≠ p → (w.pubs q).pc.drawnAhead = 0) →
    w.topic.acceptedOrdinal = tp.accepted + (w.pubs p).pc.drawnAhead

theorem PubBooks.sub {w : World T} {tp tp' : Tape T} (h : PubBooks size w tp) {k : Nat}
    {h' : Topic T} {ep' : SubEp T} {a : SubAct}
    (hs : subStep w.topic k (w.subs k) a = some (h', ep'))
    (ht : tp'.results = tp.results) : PubBooks size (w.putSub k h' ep') tp' := by
  have hcount : ∀ p st, tp'.count p st = tp.count p st := fun p st => by
    rw [Tape.count, ht, Tape.count]
  refine ⟨fun p => ?_, fun p => ?_, fun p => ?_, fun p hq => ?_⟩
  · rw [hcount]
    exact h.published p
  · rw [hcount]
    exact h.bytes p
  · rw [hcount]
    exact h.refused p
  · rw [Tape.accepted, ht, World.putSub_topic, (subStep_others hs).2.1]
    exact h.accepted p hq

/-- What holds of every endpoint holds with one of them put back. -/
theorem World.putPub_all {P : Nat → PubEp T → Prop} {w : World T} {p : Nat} {h' : Topic T}
    {ep' : PubEp T} (hrest : ∀ q, q ≠ p → P q (w.pubs q)) (hp : P p ep') (q : Nat) :
    P q ((w.putPub p h' ep').pubs q) := by
  by_cases e : q = p
  · rw [e, World.putPub_self]
    exact hp
  · rw [World.putPub_ne _ _ _ _ e]
    exact hrest q e

theorem PubBooks.tally {w : World T} {tp : Tape T} (h : PubBooks size w tp) {p : Nat}
    {h' : Topic T} {ep' : PubEp T} (ht : PubTally size w.topic h' (w.pubs p) ep') :
    PubBooks size (w.putPub p h' ep') tp := by
  refine ⟨?_, ?_, ?_, fun q hq => ?_⟩
  · refine World.putPub_all (P := fun q ep => ep.publishCount = tp.count q .ok + ep.pc.countedAhead)
      (fun q _ => h.published q) ?_
    have h1 := h.published p
    have h2 := ht.published
    omega
  · refine World.putPub_all
      (P := fun q ep => ep.bytes = size * tp.count q .ok + size * ep.pc.bytesAhead)
      (fun q _ => h.bytes q) ?_
    have h1 := h.bytes p
    have h2 := ht.bytes
    omega
  · refine World.putPub_all
      (P := fun q ep => ep.refusedCount = tp.count q .wouldBlock + ep.pc.refusedAhead)
      (fun q _ => h.refused q) ?_
    have h1 := h.refused p
    have h2 := ht.refused
    omega
  · have hacc := ht.accepted
    rw [World.putPub_topic]
    by_cases e : q = p
    · subst e
      have h1 := h.accepted q fun r hr => by
        have := hq r hr
        rwa [World.putPub_ne _ _ _ _ hr] at this
      rw [World.putPub_self]
      omega
    · -- `p` holds no ordinal after the step, so it held none before
      have hp : ep'.pc.drawnAhead = 0 := by
        have := hq p (Ne.symm e)
        rwa [World.putPub_self] at this
      have hp' := ht.holds
      have h1 := h.accepted q fun r hr => by
        by_cases er : r = p
        · rw [er]
          omega
        · have := hq r hr
          rwa [World.putPub_ne _ _ _ _ er] at this
      rw [World.putPub_ne _ _ _ _ e]
      omega

/-- A `Publish` returns. -/
theorem PubBooks.ret {w : World T} {tp : Tape T} (h : PubBooks size w tp) (hone : PubInv w)
    {p : Nat} {st : PublishStatus} {h' : Topic T} {ep' : PubEp T} (hpc : (w.pubs p).pc = .ret st)
    (hpc' : ep'.pc = .idle) (hpub : ep'.publishCount = (w.pubs p).publishCount)
    (hbytes : ep'.bytes = (w.pubs p).bytes) (href : ep'.refusedCount = (w.pubs p).refusedCount)
    (hacc : h'.acceptedOrdinal = w.topic.acceptedOrdinal) :
    PubBooks size (w.putPub p h' ep') { tp with results := tp.results ++ [(p, st)] } := by
  have hcount : ∀ q st', Tape.count { tp with results := tp.results ++ [(p, st)] } q st' =
      tp.count q st' + if q = p ∧ st' = st then 1 else 0 := by
    intro q st'
    simp only [Tape.count, List.count_append, List.count_singleton, beq_iff_eq, Prod.mk.injEq]
    congr 1
    simp only [eq_comm]
  have hall : Tape.accepted { tp with results := tp.results ++ [(p, st)] } =
      tp.accepted + if st = .ok then 1 else 0 := by
    simp only [Tape.accepted, List.countP_append, List.countP_singleton, decide_eq_true_eq]
  have hother : ∀ q st', q ≠ p →
      Tape.count { tp with results := tp.results ++ [(p, st)] } q st' = tp.count q st' :=
    fun q st' e => by rw [hcount, if_neg fun h0 => e h0.1, Nat.add_zero]
  refine ⟨?_, ?_, ?_, fun q hq => ?_⟩
  · refine World.putPub_all (P := fun q ep => ep.publishCount =
      Tape.count { tp with results := tp.results ++ [(p, st)] } q .ok + ep.pc.countedAhead)
      (fun q e => by rw [hother q .ok e]; exact h.published q) ?_
    have h1 := h.published p
    rw [hpc] at h1
    rw [hcount, hpc', hpub, h1]
    cases st <;> simp [PubPc.countedAhead]
  · refine World.putPub_all (P := fun q ep => ep.bytes =
      size * Tape.count { tp with results := tp.results ++ [(p, st)] } q .ok +
        size * ep.pc.bytesAhead)
      (fun q e => by rw [hother q .ok e]; exact h.bytes q) ?_
    have h1 := h.bytes p
    rw [hpc] at h1
    rw [hcount, hpc', hbytes, h1]
    cases st <;> simp [PubPc.bytesAhead, Nat.mul_add]
  · refine World.putPub_all (P := fun q ep => ep.refusedCount =
      Tape.count { tp with results := tp.results ++ [(p, st)] } q .wouldBlock +
        ep.pc.refusedAhead)
      (fun q e => by rw [hother q .wouldBlock e]; exact h.refused q) ?_
    have h1 := h.refused p
    rw [hpc] at h1
    rw [hcount, hpc', href, h1]
    cases st <;> simp [PubPc.refusedAhead]
  · -- nobody else is between its draw and its return
    have halone : ∀ r, r ≠ p → (w.pubs r).pc.drawnAhead = 0 := by
      intro r hr
      by_contra hd
      exact hr (hone.serialized (PubPc.delivering_of_drawn hd) (by rw [hpc]; rfl))
    have h1 := h.accepted p halone
    rw [hpc] at h1
    have hzero : ((w.putPub p h' ep').pubs q).pc.drawnAhead = 0 :=
      World.putPub_all (P := fun _ ep => ep.pc.drawnAhead = 0) halone (by rw [hpc']; rfl) q
    rw [World.putPub_topic, hacc, h1, hzero, hall]
    cases st <;> rfl

/-! ## Subscribers -/

/-- A value found and the clock read for it, with the freshness they give. -/
def verdict (deadline : Option Int) (x : MailRecord T × Int) : MailRecord T × Bool :=
  (x.1, isStale deadline x.2 x.1.envelope.publishStampNs)

/-- Judged, the latch still to move. -/
def TakePc.unlatched : TakePc T → List (MailRecord T × Bool)
  | .base r stale | .charge r stale _ | .store r stale | .latch r stale => [(r, stale)]
  | _ => []

/-- Judged, not handed back yet. -/
def TakePc.unreturned : TakePc T → List (MailRecord T × Bool)
  | .base r stale | .charge r stale _ | .store r stale | .latch r stale
  | .ret (some (r, stale)) => [(r, stale)]
  | _ => []

def SubPc.take : SubPc T → TakePc T
  | .wired t => t
  | _ => .idle

/-- The counters of a core, with a take under way at `t`. -/
structure TakeBooks (c : SubCore T) (t : TakePc T) (looks : List (MailRecord T × Int))
    (taken : List (MailRecord T × Bool)) : Prop where
  takes : c.takeCount = looks.length
  returned : looks.map (verdict c.deadline) = taken ++ t.unreturned
  misses : ∃ seen, looks.map (verdict c.deadline) = seen ++ t.unlatched ∧
    EdgeCounter.after (seen.map Prod.snd) = ⟨c.staleLatched, c.deadlineMissCount⟩

/-- What an access of a take adds to the tape. -/
def TakePc.looked (now : Int) : TakePc T → List (MailRecord T × Int)
  | .count r => [(r, now)]
  | _ => []

def TakePc.handed : TakePc T → List (MailRecord T × Bool)
  | .ret (some x) => [x]
  | _ => []

theorem takeStep_books {c c' : SubCore T} {now : Int} {t t' : TakePc T}
    {looks : List (MailRecord T × Int)} {taken : List (MailRecord T × Bool)}
    (hs : takeStep c now t = some (c', t')) (h : TakeBooks c t looks taken) :
    TakeBooks c' t' (looks ++ t.looked now) (taken ++ t.handed) ∧ c'.deadline = c.deadline := by
  obtain ⟨htakes, hret, seen, hseen, hedge⟩ := h
  cases t with
  | idle => cases hs
  | count r =>
      simp only [takeStep] at hs
      cases hs
      have hmap : (looks ++ [(r, now)]).map (verdict c.deadline) =
          looks.map (verdict c.deadline) ++
            [(r, isStale c.deadline now r.envelope.publishStampNs)] := by
        rw [List.map_append]
        rfl
      have hlook : (TakePc.count r).looked now = [(r, now)] := rfl
      have hhand : (TakePc.count r).handed = [] := rfl
      simp only [TakePc.unreturned, TakePc.unlatched, List.append_nil] at hret hseen
      rw [hlook, hhand, List.append_nil]
      refine ⟨⟨?_, ?_, looks.map (verdict c.deadline), ?_, ?_⟩, rfl⟩
      · rw [List.length_append, ← htakes]
        rfl
      · rw [hmap, hret]
        cases c.box <;> rfl
      · rw [hmap]
        cases c.box <;> rfl
      · rw [hseen]
        exact hedge
  | latch r stale =>
      simp only [takeStep] at hs
      cases hs
      simp only [TakePc.looked, TakePc.handed, List.append_nil, and_true]
      refine ⟨htakes, hret, seen ++ [(r, stale)], ?_, ?_⟩
      · rw [hseen]
        exact (List.append_nil _).symm
      · rw [List.map_append, List.map_cons, List.map_nil, EdgeCounter.after_concat, hedge]
        rfl
  | ret x =>
      simp only [takeStep] at hs
      cases hs
      have hlook : (TakePc.ret x).looked now = [] := rfl
      rw [hlook, List.append_nil]
      refine ⟨⟨htakes, ?_, seen, hseen, hedge⟩, rfl⟩
      rw [hret]
      cases x with
      | none => exact (List.append_nil _).symm
      | some x => exact (List.append_nil _).symm
  | base r stale =>
      simp only [takeStep] at hs
      simp only [TakePc.looked, TakePc.handed, List.append_nil]
      split at hs
      · cases hs
        exact ⟨⟨htakes, hret, seen, hseen, hedge⟩, rfl⟩
      · split at hs <;> cases hs <;> exact ⟨⟨htakes, hret, seen, hseen, hedge⟩, rfl⟩
  | load | pop =>
      simp only [takeStep] at hs
      simp only [TakePc.looked, TakePc.handed, List.append_nil]
      repeat' split at hs
      all_goals cases hs
      all_goals exact ⟨⟨htakes, hret, seen, hseen, hedge⟩, rfl⟩
  | charge r stale last | store r stale =>
      simp only [takeStep] at hs
      simp only [TakePc.looked, TakePc.handed, List.append_nil]
      cases hs
      exact ⟨⟨htakes, hret, seen, hseen, hedge⟩, rfl⟩

/-- The words of a core that only its own takes move. -/
def SubCore.meters (c : SubCore T) : Nat × Nat × Bool × Option Int :=
  (c.takeCount, c.deadlineMissCount, c.staleLatched, c.deadline)

theorem SubCore.deadline_of_meters {c c' : SubCore T} (h : c'.meters = c.meters) :
    c'.deadline = c.deadline :=
  congrArg (fun m => m.2.2.2) h

theorem TakeBooks.congr {c c' : SubCore T} {t : TakePc T} {looks : List (MailRecord T × Int)}
    {taken : List (MailRecord T × Bool)} (h : TakeBooks c t looks taken)
    (hm : c'.meters = c.meters) : TakeBooks c' t looks taken := by
  simp only [SubCore.meters, Prod.mk.injEq] at hm
  obtain ⟨h1, h2, h3, h4⟩ := hm
  obtain ⟨htakes, hret, seen, hseen, hedge⟩ := h
  refine ⟨h1.trans htakes, ?_, seen, ?_, ?_⟩
  · rw [h4]
    exact hret
  · rw [h4]
    exact hseen
  · rw [h2, h3]
    exact hedge

/-- Nothing judged is under way. -/
def TakePc.Quiet (t : TakePc T) : Prop := t.unlatched = [] ∧ t.unreturned = []

theorem TakeBooks.quiet {c : SubCore T} {t t' : TakePc T} {looks : List (MailRecord T × Int)}
    {taken : List (MailRecord T × Bool)} (h : TakeBooks c t looks taken) (ht : t.Quiet)
    (ht' : t'.Quiet) : TakeBooks c t' looks taken := by
  obtain ⟨htakes, hret, seen, hseen, hedge⟩ := h
  refine ⟨htakes, ?_, seen, ?_, hedge⟩
  · rw [ht'.2, ← ht.2]
    exact hret
  · rw [ht'.1, ← ht.1]
    exact hseen

theorem SubCore.store_meters (c : SubCore T) (r : MailRecord T) :
    (c.store r).meters = c.meters := by
  unfold SubCore.store
  split <;> rfl

/-- A publisher moves none of them. -/
theorem pubStep_meters {h h' : Topic T} {p : Nat} {ep ep' : PubEp T} {a : PubAct T}
    (hs : pubStep size h p ep a = some (h', ep')) (k : Nat) :
    (h'.cores k).meters = (h.cores k).meters := by
  rcases pubStep_core hs k with h1 | ⟨r, i, -, -, h1⟩ | ⟨r, i, -, -, h1⟩ |
    ⟨r, i, q, q', -, -, -, -, h1⟩ | ⟨r, i, -, -, h1⟩
  · rw [h1]
  · rw [h1]
    rfl
  · rw [h1, SubCore.store_meters]
  · rw [h1]
    rfl
  · rw [h1]
    rfl

/-- An access outside a take leaves nothing judged under way. -/
theorem subStep_quiet {h h' : Topic T} {k : Nat} {ep ep' : SubEp T} {a : SubAct}
    (hs : subStep h k ep a = some (h', ep')) (hout : ∀ now t, ¬ (a = .go now ∧ ep.pc = .wired t)) :
    ep.pc.take.Quiet ∧ ep'.pc.take.Quiet := by
  cases a with
  | go now =>
      cases hpc : ep.pc <;> simp only [subStep, hpc] at hs
      case wired t => exact absurd ⟨rfl, hpc⟩ (hout now t)
      case create =>
        cases hs
        refine ⟨⟨rfl, rfl⟩, ?_⟩
        simp only [SubEp.at'_pc]
        split <;> exact ⟨rfl, rfl⟩
      all_goals
        repeat' split at hs
        all_goals cases hs
        all_goals exact ⟨⟨rfl, rfl⟩, ⟨rfl, rfl⟩⟩
  | subscribe | takeLatest | tryTake | destroy =>
      simp only [subStep] at hs
      split at hs
      · next hpc _ =>
          cases hs
          rw [hpc]
          exact ⟨⟨rfl, rfl⟩, ⟨rfl, rfl⟩⟩
      · cases hs

theorem noteTape_out {w w' : World T} {k : Nat} {a : SubAct} (tp : Tape T)
    (hout : ∀ now t, ¬ (a = .go now ∧ (w.subs k).pc = .wired t)) :
    noteTape w (.sub k a) w' tp = tp := by
  cases a with
  | go now =>
      cases hpc : (w.subs k).pc <;> simp only [noteTape, hpc]
      case wired t => exact absurd ⟨rfl, hpc⟩ (hout now t)
  | _ => rfl

theorem extend_nil {α : Type} (f : Nat → List α) (k : Nat) : extend f k [] = f := by
  funext j
  by_cases e : j = k
  · rw [e, extend_self, List.append_nil]
  · rw [extend_ne f [] e]

theorem noteTape_take {w : World T} (w' : World T) {k : Nat} {now : Int} {t : TakePc T}
    (tp : Tape T) (hpc : (w.subs k).pc = .wired t) :
    (noteTape w (.sub k (.go now)) w' tp).looks = extend tp.looks k (t.looked now) ∧
      (noteTape w (.sub k (.go now)) w' tp).taken = extend tp.taken k t.handed := by
  cases t with
  | count r =>
      simp only [noteTape, hpc, TakePc.looked, TakePc.handed, extend_nil, and_self]
  | ret x =>
      cases x <;> simp only [noteTape, hpc, TakePc.looked, TakePc.handed, extend_nil, and_self]
  | _ => simp only [noteTape, hpc, TakePc.looked, TakePc.handed, extend_nil, and_self]

theorem noteTape_results {w w' : World T} {k : Nat} {a : SubAct} (tp : Tape T) :
    (noteTape w (.sub k a) w' tp).results = tp.results := by
  cases a with
  | go now =>
      simp only [noteTape]
      split <;> rfl
  | _ => rfl

/-- What subscriber `k` has counted. -/
structure SubBooks (w : World T) (tp : Tape T) (k : Nat) : Prop where
  unmade : (w.subs k).pc.made = false → tp.looks k = [] ∧ tp.taken k = []
  deadline : (w.subs k).pc.made = true →
    (w.topic.cores k).deadline = (w.subs k).qos.deadline
  books : (w.subs k).pc.made = true →
    TakeBooks (w.topic.cores k) (w.subs k).pc.take (tp.looks k) (tp.taken k)

theorem SubBooks.congr {w w' : World T} {tp tp' : Tape T} {k : Nat} (h : SubBooks w tp k)
    (hsub : w'.subs k = w.subs k) (hm : (w'.topic.cores k).meters = (w.topic.cores k).meters)
    (hl : tp'.looks k = tp.looks k) (ht : tp'.taken k = tp.taken k) : SubBooks w' tp' k := by
  have hd := SubCore.deadline_of_meters hm
  refine ⟨fun h0 => ?_, fun h0 => ?_, fun h0 => ?_⟩
  · rw [hl, ht]
    exact h.unmade (by rwa [hsub] at h0)
  · rw [hd, hsub]
    exact h.deadline (by rwa [hsub] at h0)
  · rw [hl, ht, hsub]
    exact (h.books (by rwa [hsub] at h0)).congr hm

/-- A core just built has counted nothing. -/
theorem takeBooks_new (qos : Qos) {t : TakePc T} (ht : t.Quiet) :
    TakeBooks (SubCore.new qos : SubCore T) t [] [] := by
  refine ⟨rfl, ?_, [], ?_, rfl⟩
  · rw [ht.2]
    rfl
  · rw [ht.1]
    rfl

/-- A core is built once. -/
theorem subStep_unmade {h h' : Topic T} {k : Nat} {ep ep' : SubEp T} {a : SubAct}
    (hs : subStep h k ep a = some (h', ep')) (hm : ep'.pc.made = false) : ep.pc = .unwired := by
  cases a with
  | go now =>
      cases hpc : ep.pc <;> simp only [subStep, hpc] at hs
      case create =>
        cases hs
        simp only [SubEp.at'_pc] at hm
        split at hm <;> cases hm
      all_goals
        repeat' split at hs
        all_goals cases hs
        all_goals cases hm
  | subscribe =>
      simp only [subStep] at hs
      split at hs
      · assumption
      · cases hs
  | takeLatest | tryTake | destroy =>
      simp only [subStep] at hs
      split at hs <;> cases hs
      cases hm

theorem subStep_wired {h h' : Topic T} {k : Nat} {ep ep' : SubEp T} {now : Int} {t : TakePc T}
    (hpc : ep.pc = .wired t) (hs : subStep h k ep (.go now) = some (h', ep')) :
    ∃ t', ep'.pc = .wired t' ∧ takeStep (h.cores k) now t = some (h'.cores k, t') := by
  simp only [subStep, hpc] at hs
  split at hs
  · next c t' hc =>
      cases hs
      exact ⟨t', rfl, by rw [setCore_self]; exact hc⟩
  · cases hs

/-- An access of subscriber `k` itself. -/
theorem SubBooks.own {w : World T} {tp : Tape T} {k : Nat} (h : SubBooks w tp k)
    {h' : Topic T} {ep' : SubEp T} {a : SubAct}
    (hs : subStep w.topic k (w.subs k) a = some (h', ep')) :
    SubBooks (w.putSub k h' ep') (noteTape w (.sub k a) (w.putSub k h' ep') tp) k := by
  have hqos : ep'.qos = (w.subs k).qos := (subStep_wireMove hs).2
  by_cases hin : ∃ now t, a = .go now ∧ (w.subs k).pc = .wired t
  · obtain ⟨now, t, rfl, hpc⟩ := hin
    obtain ⟨t', hpc', hstep⟩ := subStep_wired hpc hs
    have hmade : (w.subs k).pc.made = true := by rw [hpc]; rfl
    have hbooks := h.books hmade
    rw [hpc] at hbooks
    obtain ⟨hnew, hd⟩ := takeStep_books hstep hbooks
    obtain ⟨hl, ht⟩ := noteTape_take (w.putSub k h' ep') tp hpc
    refine ⟨fun h0 => ?_, fun _ => ?_, fun _ => ?_⟩
    · rw [World.putSub_self, hpc'] at h0
      cases h0
    · rw [World.putSub_self, hqos, World.putSub_topic, hd]
      exact h.deadline hmade
    · rw [World.putSub_self, hpc', World.putSub_topic, hl, ht, extend_self, extend_self]
      exact hnew
  · have hout : ∀ now t, ¬ (a = .go now ∧ (w.subs k).pc = .wired t) :=
      fun now t h0 => hin ⟨now, t, h0⟩
    obtain ⟨hq, hq'⟩ := subStep_quiet hs hout
    rw [noteTape_out tp hout]
    have hunmade : (w.putSub k h' ep').subs k = ep' := World.putSub_self w k h' ep'
    refine ⟨fun h0 => ?_, fun h0 => ?_, fun h0 => ?_⟩
    · rw [hunmade] at h0
      exact h.unmade (by rw [subStep_unmade hs h0]; rfl)
    · rw [hunmade, hqos, World.putSub_topic]
      rw [hunmade] at h0
      rcases subStep_core hs with ⟨-, hcore⟩ | ⟨r, hpc, hcore⟩ | ⟨t, t', now, hpc, -, ha, -⟩ |
        ⟨hcore, hmade⟩
      · rw [hcore]
        rfl
      · have hm : (h'.cores k).meters = (w.topic.cores k).meters := by
          rw [hcore, SubCore.store_meters]
        rw [SubCore.deadline_of_meters hm]
        exact h.deadline (by rw [hpc]; rfl)
      · exact absurd ⟨ha, hpc⟩ (hout now t)
      · rw [hcore]
        exact h.deadline (hmade h0)
    · rw [hunmade, World.putSub_topic]
      rw [hunmade] at h0
      rcases subStep_core hs with ⟨hpc, hcore⟩ | ⟨r, hpc, hcore⟩ | ⟨t, t', now, hpc, -, ha, -⟩ |
        ⟨hcore, hmade⟩
      · obtain ⟨hl, ht⟩ := h.unmade (by rw [hpc]; rfl)
        rw [hcore, hl, ht]
        exact takeBooks_new _ hq'
      · have hm : (h'.cores k).meters = (w.topic.cores k).meters := by
          rw [hcore, SubCore.store_meters]
        exact ((h.books (by rw [hpc]; rfl)).quiet hq hq').congr hm
      · exact absurd ⟨ha, hpc⟩ (hout now t)
      · rw [hcore]
        exact (h.books (hmade h0)).quiet hq hq'

/-! ## Every run -/

theorem noteTape_other (w w' : World T) {k k' : Nat} (a : SubAct) (tp : Tape T) (hne : k ≠ k') :
    (noteTape w (.sub k' a) w' tp).looks k = tp.looks k ∧
      (noteTape w (.sub k' a) w' tp).taken k = tp.taken k := by
  cases a with
  | go now =>
      simp only [noteTape]
      split
      · exact ⟨extend_ne _ _ hne, rfl⟩
      · exact ⟨rfl, extend_ne _ _ hne⟩
      · exact ⟨rfl, rfl⟩
  | _ => exact ⟨rfl, rfl⟩

theorem noteTape_pub (w w' : World T) (p : Nat) (a : PubAct T) (tp : Tape T) :
    (noteTape w (.pub p a) w' tp).looks = tp.looks ∧
      (noteTape w (.pub p a) w' tp).taken = tp.taken := by
  cases a with
  | go now =>
      simp only [noteTape]
      split <;> exact ⟨rfl, rfl⟩
  | _ => exact ⟨rfl, rfl⟩

structure Books (size : Nat) (w : World T) (tp : Tape T) : Prop where
  pubs : PubBooks size w tp
  subs : ∀ k, SubBooks w tp k

theorem books_start {w : World T} (hw : w.Fresh) : Books size w {} := by
  obtain ⟨ht, hsub, hpub⟩ := hw
  refine ⟨⟨fun p => ?_, fun p => ?_, fun p => ?_, fun p _ => ?_⟩, fun k => ⟨fun _ => ⟨rfl, rfl⟩,
    fun h0 => ?_, fun h0 => ?_⟩⟩
  · rw [(hpub p).1, (hpub p).2.1]
    rfl
  · rw [(hpub p).1, (hpub p).2.2.2]
    rfl
  · rw [(hpub p).1, (hpub p).2.2.1]
    rfl
  · rw [(hpub p).1, ht]
    rfl
  · rw [hsub k] at h0
    cases h0
  · rw [hsub k] at h0
    cases h0

theorem books_pub {w : World T} {tp : Tape T} (h : Books size w tp) (hone : PubInv w) {p : Nat}
    {a : PubAct T} {h' : Topic T} {ep' : PubEp T}
    (hs : pubStep size w.topic p (w.pubs p) a = some (h', ep')) :
    Books size (w.putPub p h' ep') (noteTape w (.pub p a) (w.putPub p h' ep') tp) := by
  refine ⟨?_, fun k => ?_⟩
  · rcases pubStep_tally hs with ⟨now, st, rfl, hpc, hpc', hpub, hbytes, href, hacc⟩ | ⟨hno, ht⟩
    · have hnote : noteTape w (.pub p (.go now)) (w.putPub p h' ep') tp =
          { tp with results := tp.results ++ [(p, st)] } := by
        simp only [noteTape, hpc]
      rw [hnote]
      exact h.pubs.ret hone hpc hpc' hpub hbytes href hacc
    · have hnote : noteTape w (.pub p a) (w.putPub p h' ep') tp = tp := by
        cases a with
        | go now =>
            cases hpc : (w.pubs p).pc <;> simp only [noteTape, hpc]
            case ret st => exact absurd hpc (hno st)
        | _ => rfl
      rw [hnote]
      exact h.pubs.tally ht
  · obtain ⟨hl, htk⟩ := noteTape_pub w (w.putPub p h' ep') p a tp
    exact (h.subs k).congr rfl (pubStep_meters hs k) (congrFun hl k) (congrFun htk k)

theorem books_sub {w : World T} {tp : Tape T} (h : Books size w tp) {k : Nat} {a : SubAct}
    {h' : Topic T} {ep' : SubEp T}
    (hs : subStep w.topic k (w.subs k) a = some (h', ep')) :
    Books size (w.putSub k h' ep') (noteTape w (.sub k a) (w.putSub k h' ep') tp) := by
  refine ⟨h.pubs.sub hs (noteTape_results tp), fun k' => ?_⟩
  by_cases e : k' = k
  · rw [e]
    exact (h.subs k).own hs
  · obtain ⟨hl, ht⟩ := noteTape_other w (w.putSub k h' ep') a tp e
    refine (h.subs k').congr (World.putSub_ne _ _ _ _ e) ?_ hl ht
    rw [World.putSub_topic, (subStep_others hs).2.2 k' e]

theorem books_reached {w : World T} {tp : Tape T}
    (hr : (taped T size).Reached anyStep (w, tp)) : Books size w tp := by
  refine Machine.Reached.invariant (M := taped T size) (P := fun q => Books size q.1 q.2) ?_ ?_ hr
  · rintro ⟨w, tp⟩ ⟨hw, rfl⟩
    exact books_start hw
  · rintro ⟨w, tp⟩ a ⟨w', tp'⟩ hr h _ hst
    have hbase : (machine T size).Reached anyStep w := Machine.reached_any hr
    obtain ⟨hs, htp⟩ := Machine.withHistory_step hst
    simp only at hs htp
    subst htp
    rcases step_cases hs with ⟨k, b, h', ep', rfl, hsub, rfl⟩ | ⟨p, b, h', ep', rfl, hpub, rfl⟩
    · exact books_sub h hsub
    · exact books_pub h (pubInv_reached hbase) hpub

/-- What the counters say between calls. -/
structure CountersExact (size : Nat) (w : World T) (tp : Tape T) : Prop where
  /-- A publisher outside `Publish` has counted what its publishes returned. -/
  published : ∀ p, (w.pubs p).pc.delivering = false →
    (w.pubs p).publishCount = tp.count p .ok ∧ (w.pubs p).bytes = size * tp.count p .ok ∧
      (w.pubs p).refusedCount = tp.count p .wouldBlock
  /-- With nobody inside `Publish`, every ordinal is an accepted publish. -/
  accepted : (∀ p, (w.pubs p).pc.delivering = false) → w.topic.acceptedOrdinal = tp.accepted
  /-- Otherwise at most one ordinal is ahead. -/
  ahead : tp.accepted ≤ w.topic.acceptedOrdinal ∧ w.topic.acceptedOrdinal ≤ tp.accepted + 1
  /-- A subscriber outside its takes has counted the samples it handed back, each judged by
  the deadline at the clock read for it, and one miss for each time they turned stale. -/
  taken : ∀ k, (w.subs k).pc = .wired .idle →
    (w.topic.cores k).takeCount = (tp.taken k).length ∧
    tp.taken k = (tp.looks k).map (verdict (w.subs k).qos.deadline) ∧
    (w.topic.cores k).deadlineMissCount = rises ((tp.taken k).map Prod.snd)

theorem PubPc.ahead_zero {pc : PubPc T} (h : pc.delivering = false) :
    pc.countedAhead = 0 ∧ pc.bytesAhead = 0 ∧ pc.refusedAhead = 0 ∧ pc.drawnAhead = 0 := by
  cases pc <;> first | exact ⟨rfl, rfl, rfl, rfl⟩ | cases h

theorem PubPc.drawnAhead_le (pc : PubPc T) : pc.drawnAhead ≤ 1 := by
  cases pc with
  | ret st =>
      cases st with
      | ok => exact Nat.le_refl 1
      | wouldBlock => exact Nat.zero_le 1
  | _ => first | exact Nat.le_refl 1 | exact Nat.zero_le 1

/-- Some publisher is the only one that can hold an ordinal. -/
theorem PubInv.lone {w : World T} (h : PubInv w) :
    ∃ p, ∀ q, q ≠ p → (w.pubs q).pc.drawnAhead = 0 := by
  by_cases hd : ∃ p, (w.pubs p).pc.drawnAhead ≠ 0
  · obtain ⟨p, hp⟩ := hd
    refine ⟨p, fun q hq => ?_⟩
    by_contra h0
    exact hq (h.serialized (PubPc.delivering_of_drawn h0) (PubPc.delivering_of_drawn hp))
  · exact ⟨0, fun q _ => by_contra fun h0 => hd ⟨q, h0⟩⟩

/-- Any publishers and subscribers, any interleaving. -/
theorem counters_exact {w : World T} {tp : Tape T}
    (hr : (taped T size).Reached anyStep (w, tp)) : CountersExact size w tp := by
  obtain ⟨hpubs, hsubs⟩ := books_reached hr
  have hone : PubInv w := pubInv_reached (Machine.reached_any hr)
  obtain ⟨p, hp⟩ := hone.lone
  have hacc := hpubs.accepted p hp
  refine ⟨fun q hq => ?_, fun hq => ?_, ?_, fun k hk => ?_⟩
  · obtain ⟨h1, h2, h3, -⟩ := PubPc.ahead_zero hq
    have hc := hpubs.published q
    have hb := hpubs.bytes q
    have hf := hpubs.refused q
    rw [h1] at hc
    rw [h2] at hb
    rw [h3] at hf
    exact ⟨hc, hb, hf⟩
  · rw [(PubPc.ahead_zero (hq p)).2.2.2] at hacc
    exact hacc
  · have := (w.pubs p).pc.drawnAhead_le
    omega
  · have hmade : (w.subs k).pc.made = true := by rw [hk]; rfl
    have hd := (hsubs k).deadline hmade
    obtain ⟨htakes, hret, seen, hseen, hedge⟩ := (hsubs k).books hmade
    rw [hk] at hret hseen
    simp only [SubPc.take, TakePc.unreturned, TakePc.unlatched, List.append_nil] at hret hseen
    have hcount := congrArg EdgeCounter.count hedge
    rw [EdgeCounter.after_count, ← hseen, hret] at hcount
    refine ⟨?_, ?_, hcount.symm⟩
    · rw [htakes, ← hret, List.length_map]
    · rw [← hret, hd]

/-- The same access again and again. -/
def goAt (a : Act Nat) (n : Nat) : List (Act Nat) := List.replicate n a

/-- A latest-only subscriber with a deadline of ten takes one value three times, late from
the second take on, and a second value twice: five takes, two misses. -/
theorem counters_exact_outages : ∃ (w : World Nat) (tp : Tape Nat),
    (taped Nat 8).Reached anyStep (w, tp) ∧ CountersExact 8 w tp ∧
      (tp.taken 0).map Prod.snd = [false, true, true, false, true] ∧
      (w.topic.cores 0).deadlineMissCount = 2 ∧ (w.pubs 0).publishCount = 2 := by
  let w₀ : World Nat := { subs := fun _ => { qos := { deadline := some 10 } }, pubs := fun _ => {} }
  have hrun : ((taped Nat 8).exec
      (.pub 0 .advertise :: .sub 0 .subscribe :: goAt (.sub 0 (.go 0)) 6 ++
        .pub 0 (.publish { value := 7 }) :: goAt (.pub 0 (.go 0)) 74 ++
        .sub 0 .takeLatest :: goAt (.sub 0 (.go 5)) 7 ++
        .sub 0 .takeLatest :: goAt (.sub 0 (.go 100)) 5 ++
        .sub 0 .takeLatest :: goAt (.sub 0 (.go 200)) 5 ++
        .pub 0 (.publish { value := 8 }) :: goAt (.pub 0 (.go 300)) 73 ++
        .sub 0 .takeLatest :: goAt (.sub 0 (.go 301)) 7 ++
        .sub 0 .takeLatest :: goAt (.sub 0 (.go 400)) 5) (w₀, {})).map
        (fun q => ((q.2.taken 0).map Prod.snd, (q.1.topic.cores 0).deadlineMissCount,
          (q.1.pubs 0).publishCount)) =
      some ([false, true, true, false, true], 2, 2) := by
    decide +kernel
  obtain ⟨⟨w, tp⟩, hw, hf⟩ := Option.map_eq_some_iff.mp hrun
  simp only [Prod.mk.injEq] at hf
  have hr : (taped Nat 8).Reached anyStep (w, tp) :=
    Machine.reached_of_exec (.start ⟨⟨rfl, fun _ => rfl, fun _ => ⟨rfl, rfl, rfl, rfl⟩⟩, rfl⟩) hw
  exact ⟨w, tp, hr, counters_exact hr, hf⟩

end Xmmsg.InProc
