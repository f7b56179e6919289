import Xmmsg.InProc.Calls
import Xmmsg.Sys.Whole

/-!
# The verbs are what their accesses come to

`Calls.lean` has the verbs of an in-process topic as functions, `Steps.lean` has them
access by access. Here the two are joined: with both mutexes free and nobody else moving,
the accesses of one endpoint, made on the message and the clock of the call, end in the
state the function returns and pass through a state from which its answer is read, and
they do nothing else (`in_process_calls_are_runs`). What is proved of whole calls is
thereby proved of runs of the machine, and every state a program of whole calls gets to
is one the interleaved code reaches.

The loops are inductions over the slots still to visit. A declared-shared publisher runs
its loop with the write mutex in its own hand, which no access of the loop reads or
writes; `visit_locked` is that remark.
-/

namespace Xmmsg.InProc

open Xmmsg.Sys

variable {T : Type} {size : Nat}

/-! ## A publisher and the topic -/

/-- One access of a publisher inside `Publish`. -/
def PubGoes (size p : Nat) (now : Int) (x y : Topic T × PubEp T) : Prop :=
  pubStep size x.1 p x.2 (.go now) = some y

def PubGets (size p : Nat) (now : Int) : Topic T × PubEp T → Topic T × PubEp T → Prop :=
  Relation.ReflTransGen (PubGoes size p now)

section Publish

variable {p : Nat} {now : Int} {h : Topic T} {ep : PubEp T} {m : Message T} {r : MailRecord T}
  {i : Nat}

/-- What the pre-check asks of a slot. -/
def Topic.blocked (h : Topic T) (i : Nat) : Bool :=
  match h.subSlots i with
  | some k => (h.cores k).full
  | none => false

theorem wouldBlock_eq : h.wouldBlock = (List.range kMaxSubscribers).any h.blocked := rfl

/-- The pre-check over the slots from `i` on. -/
theorem check_gets {n : Nat} (hn : i + n = kMaxSubscribers) :
    PubGets size p now (h, ep.at' (.check m i))
      (h, ep.at' (if (List.range' i n).any h.blocked then .refuse else .clock m)) := by
  induction n generalizing i with
  | zero =>
      refine .single ?_
      simp only [PubGoes, pubStep, PubEp.at', if_neg (show ¬ i < kMaxSubscribers by omega)]
      rfl
  | succ n ih =>
      have hi : i < kMaxSubscribers := by omega
      rw [List.range'_succ, List.any_cons]
      cases hs : h.subSlots i with
      | none =>
          have hb : h.blocked i = false := by rw [Topic.blocked, hs]
          rw [hb, Bool.false_or]
          refine .head ?_ (ih (by omega))
          simp only [PubGoes, pubStep, PubEp.at', if_pos hi, hs]
      | some k =>
          have hb : h.blocked i = (h.cores k).full := by rw [Topic.blocked, hs]
          refine .head (b := (h, ep.at' (.probe m i k))) ?_ ?_
          · simp only [PubGoes, pubStep, PubEp.at', if_pos hi, hs]
          rw [hb]
          cases hf : (h.cores k).full with
          | true =>
              refine .single ?_
              simp only [PubGoes, pubStep, PubEp.at', hf, Bool.true_or, if_true]
          | false =>
              rw [Bool.false_or]
              refine .head ?_ (ih (by omega))
              simp only [PubGoes, pubStep, PubEp.at', hf, Bool.false_eq_true, if_false]

/-- The fan-out at one slot. -/
theorem visit_gets (hi : i < kMaxSubscribers) :
    PubGets size p now (h, ep.at' (.visit r i)) (h.visit r i, ep.at' (.visit r (i + 1))) := by
  cases hs : h.subSlots i with
  | none =>
      refine .single ?_
      simp only [PubGoes, pubStep, PubEp.at', if_pos hi, hs, Topic.visit]
  | some k =>
      have hvisit : h.visit r i = h.setCore k ((h.cores k).receive r) := by
        rw [Topic.visit, hs]
      rw [hvisit]
      cases hb : (h.cores k).box with
      | latest cell =>
          have hfirst : PubGoes size p now (h, ep.at' (.visit r i)) (h, ep.at' (.base r i k)) := by
            simp only [PubGoes, pubStep, PubEp.at', if_pos hi, hs, hb]
          refine .head hfirst ?_
          cases hl : (h.cores k).lastConsumedOrdinal with
          | none =>
              have hreceive : (h.cores k).receive r = { h.cores k with
                  lastConsumedOrdinal := some (r.ordinal - 1), box := .latest (some r) } := by
                simp only [SubCore.receive, hb, hl]
              rw [hreceive]
              refine .head (b := (h, ep.at' (.stamp r i k))) ?_ (.head (b := (h.setCore k
                { h.cores k with lastConsumedOrdinal := some (r.ordinal - 1) },
                ep.at' (.store r i k))) ?_ (.single ?_))
              · simp only [PubGoes, pubStep, PubEp.at', hl]
              · simp only [PubGoes, pubStep, PubEp.at', hl]
              · simp only [PubGoes, pubStep, PubEp.at', Topic.setCore, Function.update_self,
                  SubCore.store, hb, Function.update_idem]
          | some last =>
              have hreceive : (h.cores k).receive r = (h.cores k).store r := by
                simp only [SubCore.receive, SubCore.store, hb, hl]
              rw [hreceive]
              refine .head (b := (h, ep.at' (.store r i k))) ?_ (.single ?_)
              · simp only [PubGoes, pubStep, PubEp.at', hl]
              · simp only [PubGoes, pubStep, PubEp.at']
      | queue q =>
          have hfirst : PubGoes size p now (h, ep.at' (.visit r i)) (h, ep.at' (.push r i k)) := by
            simp only [PubGoes, pubStep, PubEp.at', if_pos hi, hs, hb]
          refine .head hfirst ?_
          cases hq : q.tryPush r with
          | some q' =>
              refine .single ?_
              simp only [PubGoes, pubStep, PubEp.at', hb, hq, SubCore.receive]
          | none =>
              refine .head (b := (h, ep.at' (.drop r i k))) ?_ (.single ?_)
              · simp only [PubGoes, pubStep, PubEp.at', hb, hq]
              · simp only [PubGoes, pubStep, PubEp.at', hb, hq, SubCore.receive]

/-- The fan-out over the slots from `i` on. -/
theorem fanOut_gets {n : Nat} (hn : i + n = kMaxSubscribers) :
    PubGets size p now (h, ep.at' (.visit r i))
      ((List.range' i n).foldl (Topic.visit r) h, ep.at' .countPublish) := by
  induction n generalizing i h with
  | zero =>
      refine .single ?_
      simp only [PubGoes, pubStep, PubEp.at', if_neg (show ¬ i < kMaxSubscribers by omega)]
      rfl
  | succ n ih =>
      rw [List.range'_succ, List.foldl_cons]
      exact (visit_gets (by omega)).trans (ih (by omega))

/-- From the clock to the return of an accepted publish. -/
theorem deliver_gets : PubGets size p m.now (h, ep.at' (.clock m))
    (h.deliver m, { ep with
      publishCount := ep.publishCount + 1, bytes := ep.bytes + size, pc := .ret .ok }) := by
  let r := m.record (h.acceptedOrdinal + 1)
  let h' : Topic T := { h with acceptedOrdinal := h.acceptedOrdinal + 1, master := some r }
  have hclock : PubGoes size p m.now (h, ep.at' (.clock m)) (h, ep.at' (.draw m)) := rfl
  have hdraw : PubGoes size p m.now (h, ep.at' (.draw m))
      ({ h with acceptedOrdinal := h.acceptedOrdinal + 1 }, ep.at' (.master r)) := rfl
  have hmaster : PubGoes size p m.now
      ({ h with acceptedOrdinal := h.acceptedOrdinal + 1 }, ep.at' (.master r))
      (h', ep.at' (.visit r 0)) := rfl
  have hloop : PubGets size p m.now (h', ep.at' (.visit r 0))
      ((List.range' 0 kMaxSubscribers).foldl (Topic.visit r) h', ep.at' .countPublish) :=
    fanOut_gets (Nat.zero_add _)
  rw [← List.range_eq_range'] at hloop
  have hcount : PubGoes size p m.now (h.deliver m, ep.at' .countPublish)
      (h.deliver m, { ep with publishCount := ep.publishCount + 1, pc := .countBytes }) := rfl
  have hbytes : PubGoes size p m.now
      (h.deliver m, { ep with publishCount := ep.publishCount + 1, pc := .countBytes })
      (h.deliver m, { ep with
        publishCount := ep.publishCount + 1, bytes := ep.bytes + size, pc := .ret .ok }) := rfl
  exact .head hclock (.head hdraw (.head hmaster
    (hloop.trans (.head hcount (.single hbytes)))))

/-- `Deliver`, from its first access to the return. -/
theorem publish_gets (size p : Nat) (h : Topic T) (ep : PubEp T) (m : Message T) :
    PubGets size p m.now (h, ep.deliver m)
    (if ep.qos.reliability = .reliable ∧ h.wouldBlock = true then
      (h, { ep with refusedCount := ep.refusedCount + 1, pc := .ret .wouldBlock })
    else (h.deliver m, { ep with
      publishCount := ep.publishCount + 1, bytes := ep.bytes + size, pc := .ret .ok })) := by
  by_cases hr : ep.qos.reliability = .reliable
  · have hcheck : PubGets size p m.now (h, ep.at' (.check m 0))
        (h, ep.at' (if h.wouldBlock then .refuse else .clock m)) := by
      rw [wouldBlock_eq, List.range_eq_range']
      exact check_gets (Nat.zero_add _)
    have hstart : ep.deliver m = ep.at' (.check m 0) := by rw [PubEp.deliver, if_pos hr]
    rw [hstart]
    refine hcheck.trans ?_
    cases hb : h.wouldBlock with
    | true =>
        simp only [hr, and_self, if_true]
        exact .single rfl
    | false =>
        simp only [Bool.false_eq_true, and_false, if_false]
        exact deliver_gets
  · have hstart : ep.deliver m = ep.at' (.clock m) := by rw [PubEp.deliver, if_neg hr]
    rw [hstart, if_neg (fun h0 => hr h0.1)]
    exact deliver_gets

/-! ### The write mutex in hand -/

def Topic.locked (h : Topic T) (x : Option Nat) : Topic T := { h with sharedWriteMutex := x }

theorem visit_locked (x : Option Nat) : (h.locked x).visit r i = (h.visit r i).locked x := by
  simp only [Topic.visit, Topic.locked]
  split <;> rfl

theorem foldl_visit_locked (x : Option Nat) (is : List Nat) :
    is.foldl (Topic.visit r) (h.locked x) = (is.foldl (Topic.visit r) h).locked x := by
  induction is generalizing h with
  | nil => rfl
  | cons i is ih => rw [List.foldl_cons, List.foldl_cons, visit_locked, ih]

theorem deliver_locked (x : Option Nat) : (h.locked x).deliver m = (h.deliver m).locked x := by
  have heq := foldl_visit_locked (h := { h with
    acceptedOrdinal := h.acceptedOrdinal + 1, master := some (m.record (h.acceptedOrdinal + 1)) })
    (r := m.record (h.acceptedOrdinal + 1)) x (List.range kMaxSubscribers)
  exact heq

theorem foldl_visit_mutex (is : List Nat) :
    (is.foldl (Topic.visit r) h).sharedWriteMutex = h.sharedWriteMutex ∧
    (is.foldl (Topic.visit r) h).wiringMutex = h.wiringMutex := by
  induction is generalizing h with
  | nil => exact ⟨rfl, rfl⟩
  | cons i is ih =>
      rw [List.foldl_cons]
      obtain ⟨h1, h2⟩ := ih (h := h.visit r i)
      rw [h1, h2, Topic.visit]
      split <;> exact ⟨rfl, rfl⟩

theorem deliver_mutex : (h.deliver m).sharedWriteMutex = h.sharedWriteMutex ∧
    (h.deliver m).wiringMutex = h.wiringMutex :=
  foldl_visit_mutex _

theorem locked_self {x : Option Nat} (hx : h.sharedWriteMutex = x) : h.locked x = h := by
  subst hx
  rfl

end Publish

/-! ## A subscriber and the topic -/

/-- One access of a subscriber inside a verb. -/
def SubGoes (k : Nat) (now : Int) (x y : Topic T × SubEp T) : Prop :=
  subStep x.1 k x.2 (.go now) = some y

def SubGets (k : Nat) (now : Int) : Topic T × SubEp T → Topic T × SubEp T → Prop :=
  Relation.ReflTransGen (SubGoes k now)

section Subscribe

variable {k : Nat} {now : Int} {h : Topic T} {ep : SubEp T} {i : Nat}

/-- A topic whose wiring mutex subscriber `k` holds. -/
def Topic.wiredBy (h : Topic T) (x : Option Nat) : Topic T := { h with wiringMutex := x }

theorem wiredBy_self {x : Option Nat} (hx : h.wiringMutex = x) : h.wiredBy x = h := by
  subst hx
  rfl

/-- Where `AddSubscriber` goes on from its scan. -/
def SubPc.goAttach : Option Nat → SubPc T
  | some j => .attach j
  | none => .unlock

/-- Where `RemoveSubscriber` does. -/
def SubPc.goDetach : Option Nat → SubPc T
  | some j => .clear j
  | none => .leave

theorem scan_gets {n : Nat} (hn : i + n = kMaxSubscribers) :
    SubGets k now (h, ep.at' (.scan i)) (h, ep.at' (.goAttach
      ((List.range' i n).find? fun j => decide (h.subSlots j = none)))) := by
  induction n generalizing i with
  | zero =>
      refine .single ?_
      simp only [SubGoes, subStep, SubEp.at', if_neg (show ¬ i < kMaxSubscribers by omega)]
      rfl
  | succ n ih =>
      have hi : i < kMaxSubscribers := by omega
      rw [List.range'_succ]
      cases hs : h.subSlots i with
      | none =>
          rw [List.find?_cons_of_pos (by rw [hs]; rfl)]
          refine .single ?_
          simp only [SubGoes, subStep, SubEp.at', if_pos hi, hs, SubPc.goAttach]
      | some k' =>
          rw [List.find?_cons_of_neg (by rw [hs]; exact Bool.false_ne_true)]
          refine .head ?_ (ih (by omega))
          simp only [SubGoes, subStep, SubEp.at', if_pos hi, hs]

theorem find_gets {n : Nat} (hn : i + n = kMaxSubscribers) :
    SubGets k now (h, ep.at' (.find i)) (h, ep.at' (.goDetach
      ((List.range' i n).find? fun j => decide (h.subSlots j = some k)))) := by
  induction n generalizing i with
  | zero =>
      refine .single ?_
      simp only [SubGoes, subStep, SubEp.at', if_neg (show ¬ i < kMaxSubscribers by omega)]
      rfl
  | succ n ih =>
      have hi : i < kMaxSubscribers := by omega
      rw [List.range'_succ]
      by_cases hs : h.subSlots i = some k
      · rw [List.find?_cons_of_pos (by simpa using hs)]
        refine .single ?_
        simp only [SubGoes, subStep, SubEp.at', if_pos hi, hs, if_true, SubPc.goDetach]
      · rw [List.find?_cons_of_neg (by simpa using hs)]
        refine .head ?_ (ih (by omega))
        simp only [SubGoes, subStep, SubEp.at', if_pos hi, if_neg hs]

/-- The core is made and seeded. -/
theorem seed_gets : SubGets k now (h, ep.at' .create)
    (h.setCore k (h.seededCore ep.qos), ep.at' (.scan 0)) := by
  have hnew : SubGoes k now (h, ep.at' .create) (h.setCore k (.new ep.qos),
      ep.at' (if ep.qos.history.isLatest then .loadMaster else .scan 0)) := rfl
  refine .head hnew ?_
  cases hq : ep.qos.history with
  | queue depth =>
      have hseed : h.seededCore ep.qos = SubCore.new ep.qos := by
        rw [Topic.seededCore]
        split
        · simp only [SubCore.store, SubCore.new, hq]
        · rfl
      rw [hseed]
      exact .refl
  | latestOnly =>
      cases hm : h.master with
      | none =>
          have hseed : h.seededCore ep.qos = SubCore.new ep.qos := by
            rw [Topic.seededCore, hm]
          rw [hseed]
          refine .single ?_
          simp only [SubGoes, subStep, SubEp.at', Topic.setCore, History.isLatest, if_true, hm]
      | some r =>
          have hseed : h.seededCore ep.qos = (SubCore.new ep.qos).store r := by
            rw [Topic.seededCore, hm]
          rw [hseed]
          refine .head (b := (h.setCore k (.new ep.qos), ep.at' (.seed r))) ?_ (.single ?_)
          · simp only [SubGoes, subStep, SubEp.at', Topic.setCore, History.isLatest, if_true, hm]
          · simp only [SubGoes, subStep, SubEp.at', Topic.setCore, Function.update_self,
              Function.update_idem]

theorem addSubscriber_gets (hx : h.wiringMutex = none) :
    SubGets k now (h.wiredBy (some k), ep.at' .create)
      (h.addSubscriber k ep.qos, ep.at' (.wired .idle)) := by
  let g := h.setCore k (h.seededCore ep.qos)
  have hg : g.wiringMutex = none := hx
  have hscan : SubGets k now (g.wiredBy (some k), ep.at' (.scan 0))
      (g.wiredBy (some k), ep.at' (.goAttach (g.findSlot none))) := by
    rw [Topic.findSlot, List.range_eq_range']
    exact scan_gets (h := g.wiredBy (some k)) (Nat.zero_add _)
  refine (seed_gets (h := h.wiredBy (some k))).trans (hscan.trans ?_)
  cases hf : g.findSlot none with
  | none =>
      have hadd : h.addSubscriber k ep.qos = g := by
        rw [Topic.addSubscriber]
        simp only [show (h.setCore k (h.seededCore ep.qos)).findSlot none = none from hf]
        rfl
      rw [hadd]
      have hunlock : SubGoes k now (g.wiredBy (some k), ep.at' .unlock)
          (g.wiredBy none, ep.at' (.wired .idle)) := rfl
      rw [wiredBy_self hg] at hunlock
      exact .single hunlock
  | some j =>
      have hadd : h.addSubscriber k ep.qos =
          { g.setSlot j (some k) with subscriberCount := g.subscriberCount + 1 } := by
        rw [Topic.addSubscriber]
        simp only [show (h.setCore k (h.seededCore ep.qos)).findSlot none = some j from hf]
        rfl
      rw [hadd]
      have hattach : SubGoes k now (g.wiredBy (some k), ep.at' (.attach j))
          ((g.setSlot j (some k)).wiredBy (some k), ep.at' .retain) := rfl
      have hretain : SubGoes k now ((g.setSlot j (some k)).wiredBy (some k), ep.at' .retain)
          (Topic.wiredBy { g.setSlot j (some k) with
            subscriberCount := g.subscriberCount + 1 } (some k), ep.at' .unlock) := rfl
      have hunlock : SubGoes k now (Topic.wiredBy { g.setSlot j (some k) with
            subscriberCount := g.subscriberCount + 1 } (some k), ep.at' .unlock)
          (Topic.wiredBy { g.setSlot j (some k) with
            subscriberCount := g.subscriberCount + 1 } none, ep.at' (.wired .idle)) := rfl
      rw [wiredBy_self (h := { g.setSlot j (some k) with
        subscriberCount := g.subscriberCount + 1 }) (x := none) hg] at hunlock
      exact .head hattach (.head hretain (.single hunlock))

theorem removeSubscriber_gets (hx : h.wiringMutex = none) :
    SubGets k now (h.wiredBy (some k), ep.at' (.find 0))
      (h.removeSubscriber k, ep.at' .gone) := by
  have hfind : SubGets k now (h.wiredBy (some k), ep.at' (.find 0))
      (h.wiredBy (some k), ep.at' (.goDetach (h.findSlot (some k)))) := by
    rw [Topic.findSlot, List.range_eq_range']
    exact find_gets (h := h.wiredBy (some k)) (Nat.zero_add _)
  refine hfind.trans ?_
  cases hf : h.findSlot (some k) with
  | none =>
      have hrm : h.removeSubscriber k = h := by rw [Topic.removeSubscriber, hf]
      rw [hrm]
      have hleave : SubGoes k now (h.wiredBy (some k), ep.at' .leave)
          (h.wiredBy none, ep.at' .gone) := rfl
      rw [wiredBy_self hx] at hleave
      exact .single hleave
  | some j =>
      have hrm : h.removeSubscriber k =
          { h.setSlot j none with subscriberCount := h.subscriberCount - 1 } := by
        rw [Topic.removeSubscriber, hf]
      rw [hrm]
      have hclear : SubGoes k now (h.wiredBy (some k), ep.at' (.clear j))
          ((h.setSlot j none).wiredBy (some k), ep.at' .uncount) := rfl
      have huncount : SubGoes k now ((h.setSlot j none).wiredBy (some k), ep.at' .uncount)
          (Topic.wiredBy { h.setSlot j none with
            subscriberCount := h.subscriberCount - 1 } (some k), ep.at' .leave) := rfl
      have hleave : SubGoes k now (Topic.wiredBy { h.setSlot j none with
            subscriberCount := h.subscriberCount - 1 } (some k), ep.at' .leave)
          (Topic.wiredBy { h.setSlot j none with
            subscriberCount := h.subscriberCount - 1 } none, ep.at' .gone) := rfl
      rw [wiredBy_self (h := { h.setSlot j none with
        subscriberCount := h.subscriberCount - 1 }) (x := none) hx] at hleave
      exact .head hclear (.head huncount (.single hleave))

theorem addSubscriber_mutex (h : Topic T) (k : Nat) (qos : Qos) :
    (h.addSubscriber k qos).wiringMutex = h.wiringMutex ∧
      (h.addSubscriber k qos).sharedWriteMutex = h.sharedWriteMutex := by
  simp only [Topic.addSubscriber]
  split <;> exact ⟨rfl, rfl⟩

theorem removeSubscriber_mutex (h : Topic T) (k : Nat) :
    (h.removeSubscriber k).wiringMutex = h.wiringMutex ∧
      (h.removeSubscriber k).sharedWriteMutex = h.sharedWriteMutex := by
  simp only [Topic.removeSubscriber]
  split <;> exact ⟨rfl, rfl⟩

/-! ### The take verbs touch one core -/

def TakeGets (now : Int) : SubCore T × TakePc T → SubCore T × TakePc T → Prop :=
  Relation.ReflTransGen fun x y => takeStep x.1 now x.2 = some y

theorem take_gets {c c' : SubCore T} {t t' : TakePc T} (hg : TakeGets now (c, t) (c', t')) :
    SubGets k now (h.setCore k c, ep.at' (.wired t)) (h.setCore k c', ep.at' (.wired t')) := by
  refine Relation.ReflTransGen.lift
    (fun x : SubCore T × TakePc T => (h.setCore k x.1, ep.at' (.wired x.2))) ?_ _ _ hg
  rintro ⟨c, t⟩ ⟨c', t'⟩ hstep
  simp only at hstep
  simp only [SubGoes, subStep, SubEp.at', Topic.setCore, Function.update_self, hstep,
    Function.update_idem]

/-- From the count to the return. -/
theorem latch_gets {c : SubCore T} {r : MailRecord T} {stale : Bool} :
    TakeGets now (c, .latch r stale) (c.latch stale, .ret (some (r, stale))) :=
  .single rfl

theorem charge_gets {c : SubCore T} {r : MailRecord T} {stale : Bool} :
    TakeGets now (c, .base r stale)
      ((c.charge r).latch stale, .ret (some (r, stale))) := by
  cases hl : c.lastConsumedOrdinal with
  | none =>
      have hc : c.charge r = c := by rw [SubCore.charge, hl]
      rw [hc]
      refine .head ?_ latch_gets
      simp only [takeStep, hl]
  | some last =>
      by_cases hlt : last < r.ordinal
      · have hc : c.charge r = { c with
            overwriteCount := c.overwriteCount + (r.ordinal - last - 1)
            lastConsumedOrdinal := some r.ordinal } := by
          rw [SubCore.charge, hl]
          exact if_pos hlt
        rw [hc]
        refine .head (b := (c, .charge r stale last)) ?_ (.head (b := ({ c with
          overwriteCount := c.overwriteCount + (r.ordinal - last - 1) }, .store r stale)) rfl
          (.head rfl latch_gets))
        simp only [takeStep, hl, if_pos hlt]
      · have hc : c.charge r = c := by
          rw [SubCore.charge, hl]
          exact if_neg hlt
        rw [hc]
        refine .head ?_ latch_gets
        simp only [takeStep, hl, if_neg hlt]

theorem takeLatest_gets {c : SubCore T} {cell : Option (MailRecord T)} (hb : c.box = .latest cell) :
    TakeGets now (c, .load) ((c.takeLatest now).2, .ret (c.takeLatest now).1) := by
  cases cell with
  | none =>
      refine .single ?_
      simp only [takeStep, hb, SubCore.takeLatest]
  | some r =>
      refine .head (b := (c, .count r)) ?_ (.head (b := ({ c with takeCount := c.takeCount + 1 },
        .base r (isStale c.deadline now r.envelope.publishStampNs))) ?_ ?_)
      · simp only [takeStep, hb]
      · simp only [takeStep, hb]
      · have htake : c.takeLatest now =
            (some (r, isStale c.deadline now r.envelope.publishStampNs),
              (({ c with takeCount := c.takeCount + 1 } : SubCore T).charge r).latch
                (isStale c.deadline now r.envelope.publishStampNs)) := by
          rw [SubCore.takeLatest, hb]
        rw [htake]
        exact charge_gets

theorem tryTake_gets {c : SubCore T} {q : Fifo (MailRecord T)} (hb : c.box = .queue q) :
    TakeGets now (c, .pop) ((c.tryTake now).2, .ret (c.tryTake now).1) := by
  cases hp : q.tryPop with
  | none =>
      refine .single ?_
      simp only [takeStep, hb, hp, SubCore.tryTake]
  | some x =>
      obtain ⟨r, q'⟩ := x
      refine .head (b := ({ c with box := .queue q' }, .count r)) ?_ (.head (b := ({ c with
        box := .queue q', takeCount := c.takeCount + 1 },
        .latch r (isStale c.deadline now r.envelope.publishStampNs))) rfl ?_)
      · simp only [takeStep, hb, hp]
      · have htake : c.tryTake now =
            (some (r, isStale c.deadline now r.envelope.publishStampNs),
              ({ c with box := .queue q', takeCount := c.takeCount + 1 } : SubCore T).latch
                (isStale c.deadline now r.envelope.publishStampNs)) := by
          rw [SubCore.tryTake, hb]
          simp only [hp]
        rw [htake]
        exact latch_gets

end Subscribe

/-! ## Whole calls in the world -/

section World

variable {w w' : World T} {k p : Nat} {now : Int}

/-- The first access of a call, with what the call hands it. -/
def starts (op : Op T) : Option (Act T) :=
  match op with
  | .advertise p => some (.pub p .advertise)
  | .publish p _ _ _ | .publishDerived p _ _ _ _ => op.message.map fun m => .pub p (.publish m)
  | .destroyPublisher p => some (.pub p .destroy)
  | .subscribe k => some (.sub k .subscribe)
  | .takeLatest k _ => some (.sub k .takeLatest)
  | .tryTake k _ => some (.sub k .tryTake)
  | .destroySubscriber k => some (.sub k .destroy)
  | .publishCount _ | .publisherMatched _ | .count _ _ | .subscriberMatched _ => none

/-- And every later one, at the clock of the call. -/
def goesOn (op : Op T) : Act T :=
  match op with
  | .advertise p | .publish p _ _ _ | .publishDerived p _ _ _ _ | .publishCount p
  | .publisherMatched p | .destroyPublisher p => .pub p (.go op.clock)
  | .subscribe k | .takeLatest k _ | .tryTake k _ | .count k _ | .subscriberMatched k
  | .destroySubscriber k => .sub k (.go op.clock)

theorem putSub_same : w.putSub k w.topic (w.subs k) = w := by
  simp only [World.putSub, Function.update_eq_self]

/-- A take of the other history's kind changes nothing. -/
theorem putSub_setCore_same : w.putSub k (w.topic.setCore k (w.topic.cores k)) (w.subs k) = w := by
  simp only [Topic.setCore, Function.update_eq_self]
  exact putSub_same

theorem pub_runs {x y : Topic T × PubEp T} (hg : PubGets size p now x y) :
    (machine T size).Runs (.pub p (.go now)) (w.putPub p x.1 x.2) (w.putPub p y.1 y.2) := by
  refine Relation.ReflTransGen.lift (fun x : Topic T × PubEp T => w.putPub p x.1 x.2) ?_ _ _ hg
  rintro ⟨h, ep⟩ ⟨h', ep'⟩ hstep
  simp only [PubGoes] at hstep
  show (machine T size).step (w.putPub p h ep) (.pub p (.go now)) = some (w.putPub p h' ep')
  simp only [machine, World.step, World.putPub_self, World.putPub_topic, hstep]
  simp only [World.putPub, Function.update_idem]

theorem sub_runs {x y : Topic T × SubEp T} (hg : SubGets k now x y) :
    (machine T size).Runs (.sub k (.go now)) (w.putSub k x.1 x.2) (w.putSub k y.1 y.2) := by
  refine Relation.ReflTransGen.lift (fun x : Topic T × SubEp T => w.putSub k x.1 x.2) ?_ _ _ hg
  rintro ⟨h, ep⟩ ⟨h', ep'⟩ hstep
  simp only [SubGoes] at hstep
  show (machine T size).step (w.putSub k h ep) (.sub k (.go now)) = some (w.putSub k h' ep')
  simp only [machine, World.step, World.putSub_self, World.putSub_topic, hstep]
  simp only [World.putSub, Function.update_idem]

/-- Both mutexes are free. -/
structure Unlocked (w : World T) : Prop where
  wiring : w.topic.wiringMutex = none
  write : w.topic.sharedWriteMutex = none

/-- An endpoint that is not inside a verb. -/
theorem pub_stuck {ep : PubEp T} (hp : w.pubs p = ep)
    (hpc : ep.pc = .idle ∨ ep.pc = .refused ∨ ep.pc = .gone) :
    (machine T size).step w (.pub p (.go now)) = none := by
  subst hp
  rcases hpc with h | h | h <;> simp only [machine, World.step, pubStep, h]

theorem sub_stuck {ep : SubEp T} (hk : w.subs k = ep)
    (hpc : ep.pc = .wired .idle ∨ ep.pc = .gone) :
    (machine T size).step w (.sub k (.go now)) = none := by
  subst hk
  rcases hpc with h | h <;> simp only [machine, World.step, subStep, takeStep, h]

/-- From the first access of `Publish` to the return, the write mutex taken or not. -/
theorem publish_runs {m : Message T} (h : Topic T) (ep : PubEp T) {st : PublishStatus}
    (hu : Unlocked w) (hpc : (w.pubs p).pc = .idle) (hq : ep.qos = (w.pubs p).qos)
    (hh : h.sharedWriteMutex = none)
    (hmid : ∀ x, PubGets size p m.now (w.topic.locked x, (w.pubs p).deliver m)
      (h.locked x, ep.at' (.ret st))) :
    ∃ u x, (machine T size).step w (.pub p (.publish m)) = some u ∧
      (machine T size).Runs (.pub p (.go m.now)) u (w.putPub p (h.locked x) (ep.at' (.ret st))) ∧
      (machine T size).Runs (.pub p (.go m.now)) (w.putPub p (h.locked x) (ep.at' (.ret st)))
        (w.putPub p h (ep.at' .idle)) := by
  by_cases hs : (w.pubs p).qos.ownership = .shared
  · have hstart : (machine T size).step w (.pub p (.publish m)) =
        some (w.putPub p w.topic ((w.pubs p).at' (.lock m))) := by
      simp only [machine, World.step, pubStep, hpc, if_pos hs]
    have hlock : (machine T size).step (w.putPub p w.topic ((w.pubs p).at' (.lock m)))
        (.pub p (.go m.now)) =
        some (w.putPub p (w.topic.locked (some p)) ((w.pubs p).deliver m)) := by
      simp only [machine, World.step, World.putPub_self, World.putPub_topic, pubStep,
        PubEp.at', hu.write]
      simp only [World.putPub, Function.update_idem]
      rfl
    refine ⟨_, some p, hstart, .head hlock (pub_runs (hmid (some p))), .single ?_⟩
    simp only [machine, World.step, World.putPub_self, World.putPub_topic, pubStep, PubEp.at',
      hq, if_pos hs]
    simp only [World.putPub, Function.update_idem, Topic.locked, ← hh]
  · have hstart : (machine T size).step w (.pub p (.publish m)) =
        some (w.putPub p (w.topic.locked none) ((w.pubs p).deliver m)) := by
      simp only [machine, World.step, pubStep, hpc, if_neg hs, locked_self hu.write]
    refine ⟨_, none, hstart, pub_runs (hmid none), .single ?_⟩
    simp only [machine, World.step, World.putPub_self, World.putPub_topic, pubStep, PubEp.at',
      hq, if_neg hs, locked_self hh]
    simp only [World.putPub, Function.update_idem]

variable [Inhabited T]

/-- The answer of a call, read off the state in which the call has it: where its verb is
about to return, or has left the endpoint. -/
def World.said (u : World T) : Op T → Answer T → Prop
  | .advertise p, a =>
      (u.pubs p).pc = .idle ∧ a = .advertised .ok ∨
        (u.pubs p).pc = .refused ∧ a = .advertised .ownershipRefused
  | .publish p _ _ _, a | .publishDerived p _ _ _ _, a =>
      ∃ st, (u.pubs p).pc = .ret st ∧ a = .published st
  | .destroyPublisher p, a => (u.pubs p).pc = .gone ∧ a = .done
  | .subscribe k, a => (u.subs k).pc = .wired .idle ∧ a = .subscribed .ok
  | .takeLatest k _, a | .tryTake k _, a =>
      ∃ r, (u.subs k).pc = .wired (.ret r) ∧ a = .sample (sampleOf r)
  | .destroySubscriber k, a => (u.subs k).pc = .gone ∧ a = .done
  | _, _ => False

/-- The answer of a call that makes no access: a count that is read, a publish on a
refused handle, and a take of the other history's kind. -/
def World.still (u : World T) : Op T → Answer T → Prop
  | .publish p _ _ _, a | .publishDerived p _ _ _ _, a =>
      (u.pubs p).pc = .refused ∧ a = .published .ok
  | .publishCount p, a =>
      (u.pubs p).pc = .idle ∧ a = .number (u.pubs p).publishCount ∨
        (u.pubs p).pc = .refused ∧ a = .number 0
  | .publisherMatched p, a =>
      (u.pubs p).pc = .idle ∧ a = .number u.topic.subscriberCount ∨
        (u.pubs p).pc = .refused ∧ a = .number 0
  | .takeLatest k _, a =>
      (u.subs k).pc = .wired .idle ∧ (∃ q, (u.topic.cores k).box = .queue q) ∧ a = .sample {}
  | .tryTake k _, a =>
      (u.subs k).pc = .wired .idle ∧ (∃ c, (u.topic.cores k).box = .latest c) ∧ a = .sample {}
  | .count k c, a => (u.subs k).pc = .wired .idle ∧ a = .number ((u.topic.cores k).counter c)
  | .subscriberMatched k, a => (u.subs k).pc = .wired .idle ∧ a = .number u.topic.publisherCount
  | _, _ => False

/-- The verbs of the in-process reach. -/
def verbs (T : Type) [Inhabited T] : Verbs (World T) (Act T) (Op T) (Answer T) where
  entry op _ := starts op
  go := goesOn
  said op a u := u.said op a
  still op a u := u.still op a

theorem verbs_definite (T : Type) [Inhabited T] (size : Nat) :
    Machine.Definite (machine T size) (verbs T) := by
  refine ⟨fun {op a b u} ha hb => ?_, fun {op a b u} ha hb => ?_, fun {op a u v} ha hst => ?_⟩
  · cases op <;> simp only [verbs, World.said] at ha hb
    case advertise p =>
      rcases ha with ⟨h, rfl⟩ | ⟨h, rfl⟩ <;> rcases hb with ⟨h', rfl⟩ | ⟨h', rfl⟩ <;>
        first | rfl | (rw [h] at h'; cases h')
    case publish p | publishDerived p | takeLatest k | tryTake k =>
      obtain ⟨x, h, rfl⟩ := ha
      obtain ⟨y, h', rfl⟩ := hb
      rw [h] at h'
      cases h'
      rfl
    all_goals exact ha.2.trans hb.2.symm
  · cases op <;> simp only [verbs, World.still] at ha hb
    case publishCount p | publisherMatched p =>
      rcases ha with ⟨h, rfl⟩ | ⟨h, rfl⟩ <;> rcases hb with ⟨h', rfl⟩ | ⟨h', rfl⟩ <;>
        first | rfl | (rw [h] at h'; cases h')
    case takeLatest k | tryTake k => exact ha.2.2.trans hb.2.2.symm
    all_goals exact ha.2.trans hb.2.symm
  · -- past its answer an endpoint is idle
    have hpub : ∀ {p st}, (u.pubs p).pc = .ret st →
        (machine T size).step u (.pub p (.go op.clock)) = some v → (v.pubs p).pc = .idle := by
      intro p st hpc hst
      simp only [machine, World.step, pubStep, hpc] at hst
      cases hst
      rw [World.putPub_self]
      rfl
    have hsub : ∀ {k r}, (u.subs k).pc = .wired (.ret r) →
        (machine T size).step u (.sub k (.go op.clock)) = some v →
        (v.subs k).pc = .wired .idle := by
      intro k r hpc hst
      simp only [machine, World.step, subStep, hpc, takeStep] at hst
      cases hst
      rw [World.putSub_self]
      rfl
    cases op <;> simp only [verbs, World.said, goesOn] at ha hst ⊢
    case advertise p =>
      rw [pub_stuck rfl (ha.imp And.left fun h => .inl h.1)] at hst
      cases hst
    case destroyPublisher p =>
      rw [pub_stuck rfl (.inr (.inr ha.1))] at hst
      cases hst
    case subscribe k =>
      rw [sub_stuck rfl (.inl ha.1)] at hst
      cases hst
    case destroySubscriber k =>
      rw [sub_stuck rfl (.inr ha.1)] at hst
      cases hst
    case publish p | publishDerived p =>
      obtain ⟨st, hpc, -⟩ := ha
      have hidle := hpub hpc hst
      refine ⟨pub_stuck rfl (.inl hidle), ?_⟩
      rintro b ⟨st', h, -⟩
      rw [hidle] at h
      cases h
    case takeLatest k | tryTake k =>
      obtain ⟨r, hpc, -⟩ := ha
      have hidle := hsub hpc hst
      refine ⟨sub_stuck rfl (.inl hidle), ?_⟩
      rintro b ⟨r', h, -⟩
      rw [hidle] at h
      cases h

/-- What a call comes to. -/
def Comes (size : Nat) (w : World T) (op : Op T) (a : Answer T) (w' : World T) : Prop :=
  (machine T size).Serves (verbs T) op a w w' ∧ Unlocked w'

/-- A call that makes no access. -/
theorem comes_still {op : Op T} {a : Answer T} (hu : Unlocked w)
    (hno : ∀ e, starts op = some e → (machine T size).step w e = none) (hs : w.still op a) :
    Comes size w op a w :=
  ⟨Machine.serves_still hno hs, hu⟩

theorem advertise_comes {a : Answer T} (hu : Unlocked w)
    (h : w.call size (.advertise p) = some (a, w')) : Comes size w (.advertise p) a w' := by
  simp only [World.call] at h
  split at h
  case h_2 => cases h
  next hpc =>
  have hstep : (machine T size).step w (.pub p .advertise) = some w' ∧
      w'.said (.advertise p) a ∧ Unlocked w' := by
    simp only [Topic.addPublisher] at h
    by_cases hc : w.topic.publisherCount > 0 ∧
        (w.topic.declaredOwnership = .exclusive ∨ (w.pubs p).qos.ownership = .exclusive)
    · rw [if_pos hc] at h
      cases h
      refine ⟨?_, .inr ⟨by simp [PubEp.at'], rfl⟩, hu.wiring, hu.write⟩
      simp only [machine, World.step, pubStep, hpc, hu.wiring, if_pos hc]
    · rw [if_neg hc] at h
      cases h
      refine ⟨?_, .inl ⟨by simp [PubEp.at'], rfl⟩, hu.wiring, hu.write⟩
      simp only [machine, World.step, pubStep, hpc, hu.wiring, if_neg hc]
  obtain ⟨hst, hsaid, hu'⟩ := hstep
  exact ⟨Machine.serves_ended rfl hst .refl hsaid
    (pub_stuck rfl (hsaid.imp And.left fun h => .inl h.1)), hu'⟩

/-- `Publish`, with and without lineage. -/
theorem publish_comes {op : Op T} {a : Answer T} {m : Message T} (hu : Unlocked w)
    (hentry : starts op = some (.pub p (.publish m))) (hgo : goesOn op = .pub p (.go m.now))
    (hsaid : ∀ (u : World T) st, (u.pubs p).pc = .ret st → u.said op (.published st))
    (hstill : (w.pubs p).pc = .refused → w.still op (.published .ok))
    (h : w.publish size p m = some (a, w')) : Comes size w op a w' := by
  simp only [World.publish] at h
  cases hpc : (w.pubs p).pc with
  | refused =>
      simp only [hpc] at h
      cases h
      refine comes_still hu (fun e he => ?_) (hstill hpc)
      rw [hentry] at he
      cases he
      simp only [machine, World.step, pubStep, hpc]
  | idle =>
      simp only [hpc] at h
      have hgets := fun x => publish_gets size p (w.topic.locked x) (w.pubs p) m
      -- the call, once its accesses up to the return are known
      have hserves : ∀ (g : Topic T) (ep : PubEp T) (st : PublishStatus),
          ep.qos = (w.pubs p).qos → ep.pc = .idle → g.sharedWriteMutex = none →
          (∀ x, PubGets size p m.now (w.topic.locked x, (w.pubs p).deliver m)
            (g.locked x, ep.at' (.ret st))) →
          (machine T size).Serves (verbs T) op (.published st) w (w.putPub p g ep) := by
        intro g ep st hq hep hg hmid
        obtain ⟨u, x, hstart, hto, hfrom⟩ := publish_runs g ep hu hpc hq hg hmid
        have hidle : ep.at' .idle = ep := by
          rw [← hep]
          rfl
        rw [hidle] at hfrom
        rw [← hgo] at hto hfrom
        refine Machine.serves_entered hentry hstart hto (hsaid _ st ?_) hfrom ?_
        · rw [World.putPub_self]
          rfl
        · rw [show (verbs T).go op = _ from hgo]
          exact pub_stuck (World.putPub_self ..) (.inl hep)
      by_cases hb : (w.pubs p).qos.reliability = .reliable ∧ w.topic.wouldBlock = true
      · rw [if_pos hb] at h
        cases h
        refine ⟨hserves w.topic _ .wouldBlock rfl rfl hu.write fun x => ?_, hu.wiring, hu.write⟩
        have hx := hgets x
        rwa [if_pos (show _ ∧ (w.topic.locked x).wouldBlock = true from hb)] at hx
      · rw [if_neg hb] at h
        cases h
        have hmut := deliver_mutex (h := w.topic) (m := m)
        refine ⟨hserves (w.topic.deliver m) _ .ok rfl rfl (hmut.1.trans hu.write) fun x => ?_,
          hmut.2.trans hu.wiring, hmut.1.trans hu.write⟩
        have hx := hgets x
        rwa [if_neg (show ¬ (_ ∧ (w.topic.locked x).wouldBlock = true) from hb),
          deliver_locked] at hx
  | _ =>
      simp only [hpc] at h
      cases h

theorem destroyPublisher_comes {a : Answer T} (hu : Unlocked w)
    (h : w.call size (.destroyPublisher p) = some (a, w')) :
    Comes size w (.destroyPublisher p) a w' := by
  have hstep : (machine T size).step w (.pub p .destroy) = some w' ∧ a = .done ∧
      (w'.pubs p).pc = .gone ∧ Unlocked w' := by
    simp only [World.call] at h
    cases hpc : (w.pubs p).pc <;> simp only [hpc] at h
    case idle =>
      cases h
      refine ⟨?_, rfl, by simp [PubEp.at'], hu.wiring, hu.write⟩
      simp only [machine, World.step, pubStep, hpc, hu.wiring, Topic.removePublisher]
    case refused =>
      cases h
      refine ⟨?_, rfl, by simp [PubEp.at'], hu.wiring, hu.write⟩
      simp only [machine, World.step, pubStep, hpc]
    all_goals cases h
  obtain ⟨hst, ha, hgone, hu'⟩ := hstep
  exact ⟨Machine.serves_ended rfl hst .refl ⟨hgone, ha⟩ (pub_stuck rfl (.inr (.inr hgone))), hu'⟩

theorem subscribe_comes {a : Answer T} (hu : Unlocked w)
    (h : w.call size (.subscribe k) = some (a, w')) : Comes size w (.subscribe k) a w' := by
  simp only [World.call] at h
  split at h
  · next hpc =>
      cases h
      have hstart : (machine T size).step w (.sub k .subscribe) =
          some (w.putSub k (w.topic.wiredBy (some k)) ((w.subs k).at' .create)) := by
        simp only [machine, World.step, subStep, hpc, hu.wiring]
        rfl
      have hwired : ((w.putSub k (w.topic.addSubscriber k (w.subs k).qos)
          ((w.subs k).at' (.wired .idle))).subs k).pc = .wired .idle := by
        rw [World.putSub_self]
        rfl
      refine ⟨Machine.serves_ended rfl hstart (sub_runs (addSubscriber_gets hu.wiring))
        ⟨hwired, rfl⟩ (sub_stuck rfl (.inl hwired)), ?_⟩
      have hkeep := addSubscriber_mutex w.topic k (w.subs k).qos
      exact ⟨hkeep.1.trans hu.wiring, hkeep.2.trans hu.write⟩
  · cases h

theorem destroySubscriber_comes {a : Answer T} (hu : Unlocked w)
    (h : w.call size (.destroySubscriber k) = some (a, w')) :
    Comes size w (.destroySubscriber k) a w' := by
  simp only [World.call] at h
  split at h
  · next hpc =>
      cases h
      have hstart : (machine T size).step w (.sub k .destroy) =
          some (w.putSub k (w.topic.wiredBy (some k)) ((w.subs k).at' (.find 0))) := by
        simp only [machine, World.step, subStep, hpc, hu.wiring]
        rfl
      have hgone : ((w.putSub k (w.topic.removeSubscriber k)
          ((w.subs k).at' .gone)).subs k).pc = .gone := by
        rw [World.putSub_self]
        rfl
      refine ⟨Machine.serves_ended rfl hstart (sub_runs (removeSubscriber_gets hu.wiring))
        ⟨hgone, rfl⟩ (sub_stuck rfl (.inr hgone)), ?_⟩
      have hkeep := removeSubscriber_mutex w.topic k
      exact ⟨hkeep.1.trans hu.wiring, hkeep.2.trans hu.write⟩
  · cases h

/-- A take verb that finds its mailbox. -/
theorem take_comes (now : Int) {op : Op T} {c : SubCore T} {t : TakePc T}
    {r : Option (MailRecord T × Bool)} {b : SubAct} (hu : Unlocked w)
    (hpc : (w.subs k).pc = .wired .idle) (hentry : starts op = some (.sub k b))
    (hgo : goesOn op = .sub k (.go now))
    (hsaid : ∀ u : World T, (u.subs k).pc = .wired (.ret r) → u.said op (.sample (sampleOf r)))
    (hstart : subStep w.topic k (w.subs k) b = some (w.topic, (w.subs k).at' (.wired t)))
    (hmid : TakeGets now (w.topic.cores k, t) (c, .ret r)) :
    Comes size w op (.sample (sampleOf r))
      (w.putSub k (w.topic.setCore k c) (w.subs k)) := by
  have hcore : w.topic.setCore k (w.topic.cores k) = w.topic := by
    simp only [Topic.setCore, Function.update_eq_self]
  have henter : (machine T size).step w (.sub k b) = some (w.putSub k
      (w.topic.setCore k (w.topic.cores k)) ((w.subs k).at' (.wired t))) := by
    simp only [machine, World.step, hstart, hcore]
  have hto : (machine T size).Runs (.sub k (.go now)) (w.putSub k
      (w.topic.setCore k (w.topic.cores k)) ((w.subs k).at' (.wired t)))
      (w.putSub k (w.topic.setCore k c) ((w.subs k).at' (.wired (.ret r)))) :=
    sub_runs (take_gets hmid)
  have hback : (machine T size).step
      (w.putSub k (w.topic.setCore k c) ((w.subs k).at' (.wired (.ret r)))) (.sub k (.go now)) =
      some (w.putSub k (w.topic.setCore k c) (w.subs k)) := by
    simp only [machine, World.step, World.putSub_self, World.putSub_topic, subStep, SubEp.at',
      takeStep, Topic.setCore, Function.update_self, Function.update_idem]
    simp only [World.putSub, Function.update_idem, ← hpc]
  rw [← hgo] at hto hback
  refine ⟨Machine.serves_entered hentry henter hto (hsaid _ ?_) (.single hback) ?_, hu.wiring,
    hu.write⟩
  · rw [World.putSub_self]
    rfl
  · rw [show (verbs T).go op = _ from hgo]
    exact sub_stuck (World.putSub_self ..) (.inl hpc)

theorem takeLatest_comes {a : Answer T} (hu : Unlocked w)
    (h : w.call size (.takeLatest k now) = some (a, w')) :
    Comes size w (.takeLatest k now) a w' := by
  simp only [World.call, World.take] at h
  split at h
  · next hpc =>
      cases h
      cases hb : (w.topic.cores k).box with
      | latest cell =>
          refine take_comes now (b := .takeLatest) hu hpc rfl rfl (fun u h0 => ⟨_, h0, rfl⟩) ?_
            (takeLatest_gets hb)
          simp only [subStep, hpc, hb]
      | queue q =>
          have htake : (w.topic.cores k).takeLatest now = (none, w.topic.cores k) := by
            simp only [SubCore.takeLatest, hb]
          rw [htake, putSub_setCore_same]
          refine comes_still hu (fun e he => ?_) ⟨hpc, ⟨q, hb⟩, rfl⟩
          cases he
          simp only [machine, World.step, subStep, hpc, hb]
  · cases h

theorem tryTake_comes {a : Answer T} (hu : Unlocked w)
    (h : w.call size (.tryTake k now) = some (a, w')) : Comes size w (.tryTake k now) a w' := by
  simp only [World.call, World.take] at h
  split at h
  · next hpc =>
      cases h
      cases hb : (w.topic.cores k).box with
      | queue q =>
          refine take_comes now (b := .tryTake) hu hpc rfl rfl (fun u h0 => ⟨_, h0, rfl⟩) ?_
            (tryTake_gets hb)
          simp only [subStep, hpc, hb]
      | latest c =>
          have htake : (w.topic.cores k).tryTake now = (none, w.topic.cores k) := by
            simp only [SubCore.tryTake, hb]
          rw [htake, putSub_setCore_same]
          refine comes_still hu (fun e he => ?_) ⟨hpc, ⟨c, hb⟩, rfl⟩
          cases he
          simp only [machine, World.step, subStep, hpc, hb]
  · cases h

/-- The introspection reads. -/
theorem read_comes {op : Op T} {a : Answer T} (hu : Unlocked w)
    (h : w.call size op = some (a, w')) (hop : starts op = none) : Comes size w op a w' := by
  have hans : w' = w ∧ w.still op a := by
    cases op <;> simp only [starts, Op.message, Option.map_some, reduceCtorEq] at hop <;>
      simp only [World.call] at h <;> split at h <;> cases h <;> refine ⟨rfl, ?_⟩
    · exact .inl ⟨by assumption, rfl⟩
    · exact .inr ⟨by assumption, rfl⟩
    · exact .inl ⟨by assumption, rfl⟩
    · exact .inr ⟨by assumption, rfl⟩
    · exact ⟨by assumption, rfl⟩
    · exact ⟨by assumption, rfl⟩
  obtain ⟨rfl, hstill⟩ := hans
  refine comes_still hu (fun e he => ?_) hstill
  rw [hop] at he
  cases he

theorem call_comes {op : Op T} {a : Answer T} (hu : Unlocked w)
    (h : w.call size op = some (a, w')) : Comes size w op a w' := by
  cases op with
  | advertise p => exact advertise_comes hu h
  | publish p value context now | publishDerived p value upstream context now =>
      exact publish_comes hu rfl rfl (fun _ st h0 => ⟨st, h0, rfl⟩) (fun h0 => ⟨h0, rfl⟩) h
  | publishCount p | publisherMatched p | count k c | subscriberMatched k =>
      exact read_comes hu h rfl
  | destroyPublisher p => exact destroyPublisher_comes hu h
  | subscribe k => exact subscribe_comes hu h
  | takeLatest k now => exact takeLatest_comes hu h
  | tryTake k now => exact tryTake_comes hu h
  | destroySubscriber k => exact destroySubscriber_comes hu h

/-- What the machine plays as a call, the functions answer. -/
theorem call_made {op : Op T} {a : Answer T}
    (h : (machine T size).Serves (verbs T) op a w w') : (w.call size op).isSome = true := by
  rcases h.cases with ⟨e, u, he, hst⟩ | hstill
  · -- the endpoint is where the verb starts
    cases op <;> simp only [verbs, starts, Op.message, Option.map_some, reduceCtorEq] at he <;>
      cases he <;> simp only [machine, World.step] at hst
    case advertise.refl p | publish.refl p value context now |
        publishDerived.refl p value upstream context now | destroyPublisher.refl p =>
      split at hst
      · next hs =>
          simp only [pubStep] at hs
          cases hpc : (w.pubs p).pc <;> simp only [hpc] at hs <;> try cases hs
          all_goals
            simp only [World.call, World.publish, hpc]
            try split
            all_goals rfl
      · cases hst
    case subscribe.refl k | takeLatest.refl k now | tryTake.refl k now |
        destroySubscriber.refl k =>
      split at hst
      · next hs =>
          simp only [subStep] at hs
          split at hs
          · next hpc _ => simp only [World.call, World.take, hpc, Option.isSome_some]
          · cases hs
      · cases hst
  · cases op <;> simp only [verbs, World.still] at hstill
    case publish p value context now | publishDerived p value upstream context now =>
      simp only [World.call, World.publish, hstill.1, Option.isSome_some]
    case publishCount p | publisherMatched p =>
      rcases hstill with ⟨hpc, -⟩ | ⟨hpc, -⟩ <;> simp only [World.call, hpc, Option.isSome_some]
    case takeLatest k now | tryTake k now | count k c | subscriberMatched k =>
      simp only [World.call, World.take, hstill.1, Option.isSome_some]

end World

end Xmmsg.InProc
