import Xmmsg.Mail.Box
import Xmmsg.Shm.Counters

/-!
# Ring subscribers across publisher generations

A ring outlives its publisher. A publisher may die between any two accesses of its
fan-out, its successor goes on with the next ordinal, and the ring still holds what the
dead one pushed; a subscriber may die with a record popped and not handed back, and its
slot be claimed by another, which empties the ring first. None of that reorders or
repeats anything. At most one live endpoint is inside `Publish`, the record it carries is
the last one accepted, and it visits every slot once; so whatever it pushes is newer than
all the ring ever held.

A ring here is a queue whose push and pop are single accesses. Its code promises that to
one producer and one consumer, with nobody emptying it meanwhile, and to nobody else; so
the runs are those under `RegionDiscipline`, and that they keep to these terms is part of
the result (`OneEachEnd`).
-/

namespace Xmmsg.Shm

open Xmmsg.Sys Xmmsg.Mail

variable {T : Type} {size : Nat}

/-! ## The record of a run -/

/-- The publishes accepted, in order, and by slot what was popped from its ring and by
whom. -/
structure Popped (T : Type) where
  accepted : List (MailRecord T) := []
  taken : Nat → List (Nat × MailRecord T) := fun _ => []

/-- The record whose ordinal is drawn. -/
def World.draws (w : World T) : Act T → Option (MailRecord T)
  | .pub p .go =>
      match (w.pubs p).pc with
      | .draw m => some (m.record (w.seg.acceptedOrdinal + 1))
      | _ => none
  | _ => none

/-- The slot, the endpoint and the record of a pop that finds one. -/
def World.pops (w : World T) : Act T → Option (Nat × Nat × MailRecord T)
  | .sub e (.go _) =>
      match (w.subs e).pc with
      | .wired i .pop => (w.seg.ring i).tryPop.map fun x => (i, e, x.1)
      | _ => none
  | _ => none

def notePop (w : World T) (a : Act T) (_ : World T) (l : Popped T) : Popped T where
  accepted := l.accepted ++ (w.draws a).toList
  taken := match w.pops a with
    | some (i, e, r) => extend l.taken i [(e, r)]
    | none => l.taken

def popping (T : Type) (size : Nat) : Machine (World T × Popped T) (Act T) :=
  (machine T size).withHistory {} notePop

/-- What was popped from a slot's ring, by anybody. -/
def Popped.out (l : Popped T) (i : Nat) : List (MailRecord T) := (l.taken i).map (·.2)

/-! ## What a publisher carries -/

/-- The record in flight. -/
def PubPc.record? : PubPc T → Option (MailRecord T)
  | .masterBegin r | .masterEnd r | .loadState r _ | .loadKind r _ | .loadBase r _ | .stamp r _
  | .cellBegin r _ | .cellEnd r _ | .push r _ | .drop r _ => some r
  | _ => none

/-- The slot the fan-out is at. -/
def PubPc.at? : PubPc T → Nat
  | .loadState _ i | .loadKind _ i | .loadBase _ i | .stamp _ i | .cellBegin _ i | .cellEnd _ i
  | .push _ i | .drop _ i => i
  | _ => 0

/-- What one access of a publisher does to the rings. -/
inductive RingMove (h : Segment T) (pc : PubPc T) : Segment T → PubPc T → Prop
  | quiet {h' : Segment T} {pc' : PubPc T} : h'.ring = h.ring →
      h'.acceptedOrdinal = h.acceptedOrdinal →
      (∀ r, pc'.record? = some r → pc.record? = some r ∧ pc.at? ≤ pc'.at?) →
      (∀ m, pc ≠ .draw m) → RingMove h pc h' pc'
  | draw {h' : Segment T} {pc' : PubPc T} (m : Message T) : pc = .draw m → h'.ring = h.ring →
      h'.acceptedOrdinal = h.acceptedOrdinal + 1 →
      pc' = .masterBegin (m.record (h.acceptedOrdinal + 1)) → RingMove h pc h' pc'
  | push {h' : Segment T} {pc' : PubPc T} (r : MailRecord T) (i : Nat)
      (q : Fifo (MailRecord T)) : pc = .push r i → (h.ring i).tryPush r = some q →
      h'.ring = Function.update h.ring i q → h'.acceptedOrdinal = h.acceptedOrdinal →
      pc' = .loadState r (i + 1) → RingMove h pc h' pc'

theorem pubStep_ring {alive : Nat → Bool} {h h' : Segment T} {ep ep' : PubEp T} {a : PubAct T}
    (hs : pubStep size alive h ep a = some (h', ep')) :
    RingMove h ep.pc h' ep'.pc ∧ ((∃ m, ep.pc = .draw m) → a = .go) := by
  cases a with
  | publish m | destroy =>
      simp only [pubStep] at hs
      cases hpc : ep.pc <;> simp only [hpc] at hs <;> cases hs
      all_goals
        refine ⟨.quiet rfl rfl (fun r h0 => ?_) (fun m h0 => ?_), fun h0 => ?_⟩
        · cases h0
        · cases h0
        · obtain ⟨m, h0⟩ := h0
          cases h0
  | go =>
      refine ⟨?_, fun _ => rfl⟩
      simp only [pubStep] at hs
      cases hpc : ep.pc <;> simp only [hpc] at hs
      case draw m =>
        cases hs
        exact .draw m rfl rfl rfl rfl
      case push r i =>
        split at hs
        · next q hq =>
            cases hs
            exact .push r i q rfl hq rfl rfl rfl
        · cases hs
          refine .quiet rfl rfl (fun r h0 => ⟨h0, Nat.le_refl _⟩) (fun m h0 => ?_)
          cases h0
      all_goals
        repeat' split at hs
        all_goals cases hs
        all_goals
          refine .quiet rfl rfl (fun r h0 => ?_) (fun m h0 => ?_)
          · first | cases h0; done | exact ⟨h0, by simp only [PubPc.at?, PubEp.at']; omega⟩
          · cases h0

theorem record_owning {pc : PubPc T} {r : MailRecord T} (h : pc.record? = some r) :
    pc.owning = true := by
  cases pc <;> first | rfl | cases h

/-! ## What a subscriber does -/

/-- The record a take has in hand. -/
def TakePc.record? : TakePc T → Option (MailRecord T)
  | .count r | .miss r _ | .base r _ | .charge r _ _ | .store r _ | .ret (some (r, _)) => some r
  | _ => none

/-- What one access of a subscriber does to the rings: it pops, or empties the ring of a
slot it claims, or leaves them alone. -/
inductive PopMove (h : Segment T) (ep : SubEp T) (b : SubAct) : Segment T → SubEp T → Prop
  | pop {h' : Segment T} {ep' : SubEp T} (i : Nat) (now : Int) (r : MailRecord T)
      (q : Fifo (MailRecord T)) : b = .go now → ep.pc = .wired i .pop →
      (h.ring i).tryPop = some (r, q) → h'.ring = Function.update h.ring i q →
      ep'.pc = .wired i (.count r) → ep'.history = ep.history → PopMove h ep b h' ep'
  | other {h' : Segment T} {ep' : SubEp T} :
      (h'.ring = h.ring ∨ ∃ i d, h'.ring = Function.update h.ring i (.empty d)) →
      (∀ now i, b = .go now → ep.pc = .wired i .pop → (h.ring i).tryPop = none) →
      ep'.history = ep.history →
      (∀ i t r, ep.history.isLatest = false → ep'.pc = .wired i t → t.record? = some r →
        ∃ t', ep.pc = .wired i t' ∧ (t'.record? = some r ∨ t' = .load)) →
      (∀ i, ep.history.isLatest = false → ep'.pc ≠ .wired i .load) →
      PopMove h ep b h' ep'

theorem takeStep_pop {h h' : Segment T} {ep ep' : SubEp T} {i : Nat} {now : Int} {t : TakePc T}
    (hpc : ep.pc = .wired i t) (hs : takeStep h ep i now t = some (h', ep')) :
    PopMove h ep (.go now) h' ep' := by
  cases t with
  | pop =>
      simp only [takeStep] at hs
      split at hs
      · next r q hq =>
          cases hs
          exact .pop i now r q rfl hpc hq rfl rfl rfl
      · next hq =>
          cases hs
          refine .other (.inl rfl) (fun now' j _ h0 => ?_) rfl (fun j t r _ h0 h1 => ?_)
            (fun j _ h0 => ?_)
          · rw [hpc] at h0
            cases h0
            exact hq
          · cases h0
            cases h1
          · cases h0
  | idle => cases hs
  | load =>
      simp only [takeStep] at hs
      repeat' split at hs
      all_goals cases hs
      all_goals
        refine .other (.inl rfl) (fun now' j _ h0 => ?_) rfl (fun j t' r hl h0 h1 => ?_)
          (fun j _ h0 => ?_)
        · rw [hpc] at h0
          cases h0
        · cases h0
          exact ⟨.load, hpc, .inr rfl⟩
        · cases h0
  | _ =>
      simp only [takeStep] at hs
      repeat' split at hs
      all_goals cases hs
      all_goals
        refine .other (.inl rfl) (fun now' j _ h0 => ?_) rfl (fun j t' r' hl h0 h1 => ?_)
          (fun j _ h0 => ?_)
        · rw [hpc] at h0
          cases h0
        · cases h0
          first | cases h1; done | exact ⟨_, hpc, .inl h1⟩
        · cases h0

/-- An access that ends outside the takes. -/
theorem PopMove.away {h h' : Segment T} {ep ep' : SubEp T} {b : SubAct}
    (hring : h'.ring = h.ring ∨ ∃ i d, h'.ring = Function.update h.ring i (.empty d))
    (hpop : ∀ i, ep.pc ≠ .wired i .pop) (hhist : ep'.history = ep.history)
    (haway : ∀ i t, ep'.pc ≠ .wired i t) : PopMove h ep b h' ep' :=
  .other hring (fun _ i _ h0 => absurd h0 (hpop i)) hhist
    (fun i t _ _ h0 _ => absurd h0 (haway i t)) (fun i _ => haway i .load)

theorem subStep_pop {alive : Nat → Bool} {h h' : Segment T} {ep ep' : SubEp T} {b : SubAct}
    (hs : subStep alive h ep b = some (h', ep')) : PopMove h ep b h' ep' := by
  cases b with
  | go now =>
      cases hpc : ep.pc with
      | wired i t =>
          simp only [subStep, hpc] at hs
          exact takeStep_pop hpc hs
      | initRing i =>
          simp only [subStep, hpc] at hs
          cases hs
          refine .away (.inr ⟨i, _, rfl⟩) (fun j h0 => ?_) rfl (fun j t h0 => ?_)
          · rw [hpc] at h0
            cases h0
          · cases h0
      | storeActive i =>
          simp only [subStep, hpc] at hs
          cases hs
          refine .other (.inl rfl) (fun now' j _ h0 => ?_) rfl (fun j t' r' hl h0 h1 => ?_)
            (fun j _ h0 => ?_)
          · rw [hpc] at h0
            cases h0
          · cases h0
            cases h1
          · cases h0
      | storeMiss i =>
          simp only [subStep, hpc] at hs
          cases hs
          refine .away (.inl rfl) (fun j h0 => ?_) rfl (fun j t h0 => ?_)
          · rw [hpc] at h0
            cases h0
          · rw [SubEp.at'_pc] at h0
            split at h0 <;> cases h0
      | _ =>
          simp only [subStep, hpc] at hs
          repeat' split at hs
          all_goals cases hs
          all_goals
            refine .away (.inl rfl) (fun j h0 => ?_) rfl (fun j t h0 => ?_)
            · rw [hpc] at h0
              cases h0
            · cases h0
  | takeLatest =>
      simp only [subStep] at hs
      split at hs
      · next i hpc =>
          split at hs
          · next hlat =>
              cases hs
              refine .other (.inl rfl) (fun now' j h0 _ => ?_) rfl (fun j t' r' hl h0 h1 => ?_)
                (fun j hl h0 => ?_)
              · cases h0
              · rw [hl] at hlat
                cases hlat
              · rw [hl] at hlat
                cases hlat
          · cases hs
      · cases hs
  | tryTake =>
      simp only [subStep] at hs
      split at hs
      · split at hs
        · cases hs
        · cases hs
          refine .other (.inl rfl) (fun now' j h0 _ => ?_) rfl (fun j t' r' hl h0 h1 => ?_)
            (fun j hl h0 => ?_)
          · cases h0
          · cases h0
            cases h1
          · cases h0
      · cases hs
  | destroy =>
      simp only [subStep] at hs
      split at hs
      · next i hpc =>
          cases hs
          refine .away (.inl rfl) (fun j h0 => ?_) rfl (fun j t h0 => ?_)
          · rw [hpc] at h0
            cases h0
          · cases h0
      · next hpc =>
          cases hs
          refine .away (.inl rfl) (fun j h0 => ?_) rfl (fun j t h0 => ?_)
          · rw [hpc] at h0
            cases h0
          · cases h0
      · cases hs

/-! ## The invariant -/

/-- Older to newer. -/
def Before (x y : MailRecord T) : Prop := x.ordinal < y.ordinal

structure RingInv (w : World T) (l : Popped T) : Prop where
  ordinals : l.accepted.map (·.ordinal) = List.range' 1 w.seg.acceptedOrdinal
  genuine : ∀ i, ∀ r ∈ l.out i ++ (w.seg.ring i).items, r ∈ l.accepted
  rising : ∀ i, (w.seg.ring i).Rising Before (l.out i)
  flight : ∀ p r, w.livePub p → (w.pubs p).pc.record? = some r →
    r ∈ l.accepted ∧ r.ordinal = w.seg.acceptedOrdinal
  -- what is in flight has not come to the slots ahead of it
  ahead : ∀ p r i, w.livePub p → (w.pubs p).pc.record? = some r → (w.pubs p).pc.at? ≤ i →
    ∀ x ∈ l.out i ++ (w.seg.ring i).items, Before x r
  -- a ring subscriber hands back what it popped last
  mailbox : ∀ e i, (w.subs e).history.isLatest = false → (w.subs e).pc ≠ .wired i .load
  hand : ∀ e i t r, (w.subs e).history.isLatest = false → (w.subs e).pc = .wired i t →
    t.record? = some r → ((l.taken i).filter (·.1 == e)).getLast? = some (e, r)

theorem RingInv.bound {w : World T} {l : Popped T} (h : RingInv w l) {r : MailRecord T}
    (hr : r ∈ l.accepted) : r.ordinal ≤ w.seg.acceptedOrdinal := by
  have hmem : r.ordinal ∈ l.accepted.map (·.ordinal) := List.mem_map.mpr ⟨r, hr, rfl⟩
  rw [h.ordinals, List.mem_range'_1] at hmem
  omega

theorem ringInv_fresh {w : World T} (hw : w.Fresh) : RingInv w {} := by
  obtain ⟨hseg, -, hsubs, hpubs⟩ := hw
  have hring : ∀ i, (w.seg.ring i).items = [] := by
    intro i
    rw [hseg]
    exact Fifo.empty_items 0
  refine ⟨?_, fun i r hr => ?_, fun i => ?_, fun p r _ h0 => ?_, fun p r i _ h0 => ?_,
    fun e i _ h0 => ?_, fun e i t r _ h0 => ?_⟩
  · rw [hseg]
    exact List.map_nil
  · rw [hring i] at hr
    cases hr
  · rw [Fifo.Rising, hring i]
    exact .nil
  · rw [(hpubs p).2.1] at h0
    cases h0
  · rw [(hpubs p).2.1] at h0
    cases h0
  · rw [(hsubs e).2.1] at h0
    cases h0
  · rw [(hsubs e).2.1] at h0
    cases h0

/-! ## Steps -/

theorem draws_none {w : World T} {p : Nat} {b : PubAct T}
    (h : ∀ m, (w.pubs p).pc ≠ .draw m) : w.draws (.pub p b) = none := by
  cases b with
  | go =>
      cases hpc : (w.pubs p).pc with
      | draw m => exact absurd hpc (h m)
      | _ => simp only [World.draws, hpc]
  | _ => rfl

theorem ringInv_pub {w : World T} {l : Popped T} (h : RingInv w l) (ho : OwnerInv w) {p : Nat}
    {b : PubAct T} {h' : Segment T} {ep' : PubEp T} (hl : w.livePub p)
    (hs : pubStep size w.alive w.seg (w.pubs p) b = some (h', ep')) :
    RingInv (w.putPub p h' ep') (notePop w (.pub p b) (w.putPub p h' ep') l) := by
  have hlive : ∀ q, q ≠ p → (w.putPub p h' ep').livePub q → w.livePub q := by
    intro q hq hlq
    simpa only [World.livePub, World.putPub_ne _ _ _ _ hq, World.putPub_alive] using hlq
  -- whoever else is live carries nothing while this one owns the slot
  have halone : ∀ q r, q ≠ p → (w.putPub p h' ep').livePub q → (w.pubs p).pc.owning = true →
      ((w.putPub p h' ep').pubs q).pc.record? = some r → False := by
    intro q r hq hlq hown hr
    rw [World.putPub_ne _ _ _ _ hq] at hr
    have := ho.alone hl hown (hlive q hq hlq) hq
    rw [record_owning hr] at this
    cases this
  obtain ⟨hmove, hgo⟩ := pubStep_ring hs
  cases hmove with
  | quiet hring hacc hrec hdraw =>
      have hnote : notePop w (.pub p b) (w.putPub p h' ep') l = l := by
        simp only [notePop, draws_none hdraw, Option.toList_none, List.append_nil, World.pops]
      rw [hnote]
      have hback : ∀ q r, (w.putPub p h' ep').livePub q →
          ((w.putPub p h' ep').pubs q).pc.record? = some r → w.livePub q ∧
            (w.pubs q).pc.record? = some r ∧
            (w.pubs q).pc.at? ≤ ((w.putPub p h' ep').pubs q).pc.at? := by
        intro q r hlq hr
        by_cases hq : q = p
        · subst hq
          rw [World.putPub_self] at hr ⊢
          exact ⟨hl, hrec r hr⟩
        · rw [World.putPub_ne _ _ _ _ hq] at hr ⊢
          exact ⟨hlive q hq hlq, hr, Nat.le_refl _⟩
      refine ⟨?_, fun i r hr => ?_, fun i => ?_, fun q r hlq hr => ?_, fun q r i hlq hr hi => ?_,
        h.mailbox, h.hand⟩
      · rw [World.putPub_seg, hacc]
        exact h.ordinals
      · rw [World.putPub_seg, hring] at hr
        exact h.genuine i r hr
      · rw [World.putPub_seg, hring]
        exact h.rising i
      · obtain ⟨h1, h2, -⟩ := hback q r hlq hr
        rw [World.putPub_seg, hacc]
        exact h.flight q r h1 h2
      · obtain ⟨h1, h2, h3⟩ := hback q r hlq hr
        rw [World.putPub_seg, hring]
        exact h.ahead q r i h1 h2 (Nat.le_trans h3 hi)
  | draw m hpc hring hacc hpc' =>
      obtain rfl := hgo ⟨m, hpc⟩
      have hown : (w.pubs p).pc.owning = true := by
        rw [hpc]
        rfl
      let r := m.record (w.seg.acceptedOrdinal + 1)
      have hnote : (notePop w (.pub p .go) (w.putPub p h' ep') l).accepted = l.accepted ++ [r] := by
        simp only [notePop, World.draws, hpc, Option.toList_some]
        rfl
      have hcarried : ∀ q r', (w.putPub p h' ep').livePub q →
          ((w.putPub p h' ep').pubs q).pc.record? = some r' → r' = r := by
        intro q r' hlq hr
        by_cases hq : q = p
        · subst hq
          rw [World.putPub_self, hpc'] at hr
          cases hr
          rfl
        · exact (halone q r' hq hlq hown hr).elim
      refine ⟨?_, fun i x hx => ?_, fun i => ?_, fun q r' hlq hr => ?_,
        fun q r' i hlq hr _ x hx => ?_, h.mailbox, h.hand⟩
      · rw [hnote, List.map_append, h.ordinals, World.putPub_seg, hacc, List.range'_concat]
        simp only [r, List.map_cons, List.map_nil, Message.record_ordinal, Nat.one_mul,
          Nat.add_comm]
      · rw [World.putPub_seg, hring] at hx
        rw [hnote]
        exact List.mem_append_left _ (h.genuine i x hx)
      · rw [World.putPub_seg, hring]
        exact h.rising i
      · rw [hcarried q r' hlq hr, hnote, World.putPub_seg, hacc]
        exact ⟨List.mem_append_right _ (List.mem_singleton.mpr rfl), Message.record_ordinal _ _⟩
      · rw [World.putPub_seg, hring] at hx
        have hle := h.bound (h.genuine i x hx)
        rw [Before, hcarried q r' hlq hr, Message.record_ordinal]
        omega
  | push r i f hpc hpush hring hacc hpc' =>
      have hown : (w.pubs p).pc.owning = true := by
        rw [hpc]
        rfl
      have hrec : (w.pubs p).pc.record? = some r := by
        rw [hpc]
        rfl
      have hnote : notePop w (.pub p b) (w.putPub p h' ep') l = l := by
        have hdraw : ∀ m, (w.pubs p).pc ≠ .draw m := by
          intro m h0
          rw [hpc] at h0
          cases h0
        simp only [notePop, draws_none hdraw, Option.toList_none, List.append_nil, World.pops]
      rw [hnote]
      have hold : ∀ x ∈ l.out i ++ (w.seg.ring i).items, Before x r := by
        refine h.ahead p r i hl hrec ?_
        rw [hpc]
        exact Nat.le_refl i
      have hat : ∀ j, j ≠ i → h'.ring j = w.seg.ring j := by
        intro j hj
        rw [hring, Function.update_of_ne hj]
      have hself : h'.ring i = f := by rw [hring, Function.update_self]
      refine ⟨?_, fun j x hx => ?_, fun j => ?_, fun q r' hlq hr => ?_,
        fun q r' j hlq hr hj x hx => ?_, h.mailbox, h.hand⟩
      · rw [World.putPub_seg, hacc]
        exact h.ordinals
      · rw [World.putPub_seg] at hx
        by_cases hj : j = i
        · subst hj
          rw [hself] at hx
          rcases (Fifo.mem_push hpush).mp hx with h0 | rfl
          · exact h.genuine j x h0
          · exact (h.flight p x hl hrec).1
        · rw [hat j hj] at hx
          exact h.genuine j x hx
      · rw [World.putPub_seg]
        by_cases hj : j = i
        · subst hj
          rw [hself]
          exact (h.rising j).push hpush hold
        · rw [hat j hj]
          exact h.rising j
      · by_cases hq : q = p
        · subst hq
          rw [World.putPub_self, hpc'] at hr
          cases hr
          rw [World.putPub_seg, hacc]
          exact h.flight q r hl hrec
        · exact (halone q r' hq hlq hown hr).elim
      · by_cases hq : q = p
        · subst hq
          rw [World.putPub_self, hpc'] at hr hj
          cases hr
          have hji : i + 1 ≤ j := hj
          rw [World.putPub_seg, hat j (by omega)] at hx
          refine h.ahead q r j hl hrec ?_ x hx
          rw [hpc]
          exact Nat.le_of_succ_le hji
        · exact (halone q r' hq hlq hown hr).elim

theorem ringInv_sub {w : World T} {l : Popped T} (h : RingInv w l) {e : Nat} {b : SubAct}
    {h' : Segment T} {ep' : SubEp T}
    (hs : subStep w.alive w.seg (w.subs e) b = some (h', ep')) :
    RingInv (w.putSub e h' ep') (notePop w (.sub e b) (w.putSub e h' ep') l) := by
  have hacc : h'.acceptedOrdinal = w.seg.acceptedOrdinal := (subStep_header hs).2.1
  have hkeep : (notePop w (.sub e b) (w.putSub e h' ep') l).accepted = l.accepted :=
    List.append_nil _
  cases subStep_pop hs with
  | pop i now r q hb hpc hpop hring hpc' hhist =>
      subst hb
      have hnote : (notePop w (.sub e (.go now)) (w.putSub e h' ep') l).taken =
          extend l.taken i [(e, r)] := by
        simp only [notePop, World.pops, hpc, hpop, Option.map_some]
      generalize notePop w (.sub e (.go now)) (w.putSub e h' ep') l = l' at hkeep hnote ⊢
      have hout : l'.out i = l.out i ++ [r] := by
        simp only [Popped.out, hnote, extend_self, List.map_append, List.map_cons, List.map_nil]
      have hout' : ∀ j, j ≠ i → l'.out j = l.out j := by
        intro j hj
        simp only [Popped.out, hnote, extend_ne _ _ hj]
      have hself : h'.ring i = q := by rw [hring, Function.update_self]
      have hat : ∀ j, j ≠ i → h'.ring j = w.seg.ring j := by
        intro j hj
        rw [hring, Function.update_of_ne hj]
      have hmem : ∀ j x, x ∈ l'.out j ++ (h'.ring j).items ↔
          x ∈ l.out j ++ (w.seg.ring j).items := by
        intro j x
        by_cases hj : j = i
        · subst hj
          rw [hout, hself]
          exact Fifo.mem_pop hpop
        · rw [hout' j hj, hat j hj]
      refine ⟨?_, fun j x hx => ?_, fun j => ?_, fun p r' hlp hr => ?_,
        fun p r' j hlp hr hj x hx => ?_, fun x j hl h0 => ?_, fun x j t r' hl h0 h1 => ?_⟩
      · rw [hkeep, World.putSub_seg, hacc]
        exact h.ordinals
      · rw [hkeep]
        exact h.genuine j x ((hmem j x).mp hx)
      · rw [World.putSub_seg]
        by_cases hj : j = i
        · subst hj
          rw [hout, hself]
          exact (h.rising j).pop hpop
        · rw [hout' j hj, hat j hj]
          exact h.rising j
      · rw [hkeep, World.putSub_seg, hacc]
        exact h.flight p r' hlp hr
      · exact h.ahead p r' j hlp hr hj x ((hmem j x).mp hx)
      · by_cases hx : x = e
        · subst hx
          rw [World.putSub_self, hpc'] at h0
          cases h0
        · rw [World.putSub_ne _ _ _ _ hx] at hl h0
          exact h.mailbox x j hl h0
      · by_cases hx : x = e
        · subst hx
          rw [World.putSub_self, hpc'] at h0
          cases h0
          cases h1
          rw [hnote, extend_self, List.filter_append]
          simp
        · rw [World.putSub_ne _ _ _ _ hx] at hl h0
          have hsame : (l'.taken j).filter (·.1 == x) = (l.taken j).filter (·.1 == x) := by
            by_cases hj : j = i
            · subst hj
              have hne : (e == x) = false := by simpa using fun h0 => hx h0.symm
              rw [hnote, extend_self, List.filter_append]
              simp [hne]
            · rw [hnote, extend_ne _ _ hj]
          rw [hsame]
          exact h.hand x j t r' hl h0 h1
  | other hring hpop hhist hrec hload =>
      have hnone : w.pops (.sub e b) = none := by
        cases b with
        | go now =>
            simp only [World.pops]
            split
            · next i hpc => rw [hpop now i rfl hpc, Option.map_none]
            · rfl
        | _ => rfl
      have hnote : (notePop w (.sub e b) (w.putSub e h' ep') l).taken = l.taken := by
        simp only [notePop, hnone]
      generalize notePop w (.sub e b) (w.putSub e h' ep') l = l' at hkeep hnote ⊢
      have hout : ∀ j, l'.out j = l.out j := fun j => by simp only [Popped.out, hnote]
      have hcases : ∀ j, h'.ring j = w.seg.ring j ∨ ∃ d, h'.ring j = .empty d := by
        intro j
        rcases hring with h0 | ⟨i, d, h0⟩
        · exact .inl (by rw [h0])
        · by_cases hj : j = i
          · subst hj
            exact .inr ⟨d, by rw [h0, Function.update_self]⟩
          · exact .inl (by rw [h0, Function.update_of_ne hj])
      have hmem : ∀ j x, x ∈ l'.out j ++ (h'.ring j).items →
          x ∈ l.out j ++ (w.seg.ring j).items := by
        intro j x hx
        rw [hout] at hx
        rcases hcases j with h0 | ⟨d, h0⟩
        · rwa [h0] at hx
        · rw [h0, Fifo.empty_items, List.append_nil] at hx
          exact List.mem_append_left _ hx
      refine ⟨?_, fun j x hx => ?_, fun j => ?_, fun p r' hlp hr => ?_,
        fun p r' j hlp hr hj x hx => ?_, fun x j hl h0 => ?_, fun x j t r' hl h0 h1 => ?_⟩
      · rw [hkeep, World.putSub_seg, hacc]
        exact h.ordinals
      · rw [hkeep]
        exact h.genuine j x (hmem j x hx)
      · rw [World.putSub_seg, hout]
        rcases hcases j with h0 | ⟨d, h0⟩
        · rw [h0]
          exact h.rising j
        · rw [h0]
          exact (h.rising j).clear d
      · rw [hkeep, World.putSub_seg, hacc]
        exact h.flight p r' hlp hr
      · exact h.ahead p r' j hlp hr hj x (hmem j x hx)
      · by_cases hx : x = e
        · subst hx
          rw [World.putSub_self] at hl h0
          exact hload j (hhist ▸ hl) h0
        · rw [World.putSub_ne _ _ _ _ hx] at hl h0
          exact h.mailbox x j hl h0
      · rw [hnote]
        by_cases hx : x = e
        · subst hx
          rw [World.putSub_self] at hl h0
          obtain ⟨t', hpc, hr⟩ := hrec j t r' (hhist ▸ hl) h0 h1
          rcases hr with hr | rfl
          · exact h.hand x j t' r' (hhist ▸ hl) hpc hr
          · exact absurd hpc (h.mailbox x j (hhist ▸ hl))
        · rw [World.putSub_ne _ _ _ _ hx] at hl h0
          exact h.hand x j t r' hl h0 h1

theorem ringInv_reached {ok : World T → Act T → Prop} {w : World T} {l : Popped T}
    (hr : (popping T size).Reached (fun q a => ok q.1 a) (w, l)) : RingInv w l := by
  refine hr.invariant (P := fun x => RingInv x.1 x.2) ?_ ?_
  · rintro ⟨w, l⟩ ⟨hw, rfl⟩
    exact ringInv_fresh hw
  · rintro ⟨w, l⟩ a ⟨w', l'⟩ hr h - hs
    have ho := ownerInv_reached (Machine.reached_fst hr)
    obtain ⟨hs, hnote⟩ := Machine.withHistory_step hs
    show RingInv w' l'
    rw [show l' = notePop w a w' l from hnote]
    rcases step_cases hs with ⟨pid, rfl, rfl⟩ | ⟨e, b, h', ep', rfl, -, hsub, rfl⟩ |
      ⟨p, b, h', ep', rfl, hal, hpub, rfl⟩
    · have hdie : notePop w (.die pid) (w.kill pid) l = l := by
        simp only [notePop, World.draws, World.pops, Option.toList_none, List.append_nil]
      rw [hdie]
      exact ⟨h.ordinals, h.genuine, h.rising,
        fun p r hl hr => h.flight p r (World.alive_of_kill w pid hl) hr,
        fun p r i hl hr => h.ahead p r i (World.alive_of_kill w pid hl) hr, h.mailbox, h.hand⟩
    · exact ringInv_sub h hsub
    · exact ringInv_pub h ho hal hpub

/-! ## The two ends of a ring -/

/-- What a ring asks of those who use it: one producer and one consumer at a time, and
neither while it is being emptied for a new owner. -/
structure OneEachEnd (w : World T) : Prop where
  producer : ∀ p q i, w.livePub p → w.livePub q → (w.pubs p).pc.writing = some i →
    (w.pubs q).pc.writing = some i → p = q
  consumer : ∀ e e' i, w.liveSub e → w.liveSub e' → (w.subs e).pc.wiredAt = some i →
    (w.subs e').pc.wiredAt = some i → e = e'
  emptied : ∀ e i, w.liveSub e → (w.subs e).pc.claiming = some i →
    (∀ p, w.livePub p → (w.pubs p).pc.writing ≠ some i) ∧
      ∀ e', w.liveSub e' → (w.subs e').pc.Holds i → e' = e

theorem writing_owning {pc : PubPc T} {i : Nat} (h : pc.writing = some i) :
    pc.owning = true := by
  cases pc <;> first | rfl | cases h

theorem one_each_end {w : World T} (hw : (machine T size).Reached RegionDiscipline w) :
    OneEachEnd w := by
  obtain ⟨hheld, hone⟩ := region_reached hw
  have hown := ownerInv_reached hw
  refine ⟨fun p q i hp hq hwp hwq => ?_, fun e e' i hl hl' he he' => ?_, fun e i hl hc => ?_⟩
  · exact hown.unique p q hp hq (writing_owning hwp) (writing_owning hwq)
  · exact hheld.unique e e' i hl hl' (.inr he) (.inr he')
  · exact ⟨fun p hp => hone e p i hl hp hc, fun e' hl' he' =>
      hheld.unique e' e i hl' hl he' (.inl hc)⟩

/-! ## What ring subscribers are handed -/

structure QueueOrder (w : World T) (l : Popped T) : Prop where
  /-- The accepted publishes are numbered without a gap, whoever made them. -/
  numbered : l.accepted.map (·.ordinal) = List.range' 1 w.seg.acceptedOrdinal
  /-- What was taken from a slot, by whoever held it, and then what is queued there, is
  strictly newer and newer. -/
  newer : ∀ i, (l.out i ++ (w.seg.ring i).items).Pairwise Before
  /-- And each of it is a record that was published, whole. -/
  published : ∀ i, ∀ r ∈ l.out i ++ (w.seg.ring i).items, r ∈ l.accepted
  /-- The sample a ring subscriber is handed is the one it took last. -/
  handed : ∀ e i r stale, (w.subs e).history.isLatest = false →
    (w.subs e).pc = .wired i (.ret (some (r, stale))) →
    ((l.taken i).filter (·.1 == e)).getLast? = some (e, r)

/-- Ring subscribers see publishes in order, each at most once and none invented, in
every run that claims no slot from a live owner or under a publisher's hand: through any
number of publisher generations killed between any two accesses, and slots changing
hands. The rings are used as their code asks. -/
theorem queue_order {w : World T} {l : Popped T}
    (hr : (popping T size).Reached (fun q a => RegionDiscipline q.1 a) (w, l)) :
    OneEachEnd w ∧ QueueOrder w l := by
  have h := ringInv_reached hr
  exact ⟨one_each_end (Machine.reached_fst hr), h.ordinals, h.rising, h.genuine,
    fun e i r stale hl hpc => h.hand e i _ r hl hpc rfl⟩

/-- A publisher dies in its fan-out, right after its push; its successor publishes and the
subscriber takes both, then dies in its turn. Another claims the slot and takes what comes
next. -/
def succession : List (Act Nat) :=
  subGo 0 12 ++ pubGo 0 22 ++ .pub 0 (.publish { value := 7 }) :: pubGo 0 6 ++ .die 101 ::
    pubGo 1 24 ++ .pub 1 (.publish { value := 8 }) :: pubGo 1 25 ++
    .sub 0 .tryTake :: subGo 0 4 ++ .sub 0 .tryTake :: subGo 0 4 ++ .die 1 ::
    subGo 1 39 ++ .pub 1 (.publish { value := 9 }) :: pubGo 1 25 ++ .sub 1 .tryTake :: subGo 1 4

theorem queue_order_succession : ∃ (w : World Nat) (l : Popped Nat),
    (l.out 0).map (fun r => (r.ordinal, r.payload)) = [(1, 7), (2, 8), (3, 9)] ∧
      OneEachEnd w ∧ QueueOrder w l := by
  let w₀ : World Nat := { lonely Nat with subs := fun e => { pid := e + 1, history := .queue 4 } }
  have hrun : ((popping Nat 8).execOk (fun q a => regionCheck 2 2 q.1 a) succession (w₀, {})).map
      (fun x => (x.2.out 0).map (fun r => (r.ordinal, r.payload))) =
        some [(1, 7), (2, 8), (3, 9)] := by
    decide +kernel
  obtain ⟨⟨w, l⟩, hw, hf⟩ := Option.map_eq_some_iff.mp hrun
  have hr : (popping Nat 8).Reached (fun q a => RegionDiscipline q.1 a) (w, l) :=
    Machine.reached_of_execOk (J := fun q => Few 2 2 q.1)
      (fun q a => regionCheck_sound q.1 a)
      (fun q a q' hJ h hs => regionCheck_keeps hJ h (Machine.withHistory_step hs).1)
      ⟨fun _ _ => rfl, fun _ _ => rfl⟩
      (.start ⟨⟨rfl, fun _ => rfl, fun e => ⟨Nat.succ_ne_zero e, rfl, rfl⟩,
        fun e => ⟨Nat.succ_ne_zero (e + 100), rfl, rfl⟩⟩, rfl⟩) hw
  exact ⟨w, l, hf, queue_order hr⟩

end Xmmsg.Shm
