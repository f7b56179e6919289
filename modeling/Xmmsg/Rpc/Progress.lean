import Mathlib.Data.Nat.Find
import Xmmsg.Rpc.Custody
import Xmmsg.Sys.Progress

/-!
# Calls return, and the next one is served

Neither side of an RPC topic is at the other's mercy. `TakeRequest` walks the eight slots
once and copies four fields; `Reply` makes at most seven accesses; both return whatever
the others do, and no other step sets them back. A `Call` waits in two places only,
for a slot and for the reply, and both waits end at the caller's own deadline: past it,
34 accesses bring the call back, whether or not anybody ever serves it. The deadline is
the discipline `Overdue` here: a wait whose predicate came out false is not tried again.
An access is one operation on a slot's state or on the correlation counter, or the reading
or writing of one field; that a notification does not block, and that a wait comes back, is
the `EventCount`'s affair.

Returning is not being served. A topic could come back from every call and still have
lost its slots one by one; the accounting of `Rpc/Custody.lean` excludes that, and with
it every topic at rest, after any history, serves the next call in slot 0
(`next_call_served`).
-/

namespace Xmmsg.Rpc

open Xmmsg.Sys

variable {Req Rsp : Type}

/-! ## What is left to do -/

/-- The accesses a call whose deadline has passed makes at most before it returns: the
scan that waits is made once, after the one that does not. -/
def CallPc.budget : CallPc Rsp → Nat
  | .entry => 34
  | .scan false i => 25 + (kMaxInFlight - i)
  | .scan true i => 16 + (kMaxInFlight - i)
  | .draw _ => 15
  | .fillCorrelation _ _ => 14
  | .fillContext _ _ => 13
  | .fillStamp _ _ => 12
  | .fillOrigin _ _ _ => 11
  | .fillHops _ _ => 10
  | .fillFlags _ _ => 9
  | .fillRequest _ _ => 8
  | .post _ _ => 7
  | .await _ _ => 6
  | .unheard _ _ => 5
  | .casPending _ _ => 4
  | .casTaken _ _ => 3
  | .readResponse _ _ _ => 2
  | .release _ _ _ => 1
  | .done _ _ => 0

def TakePc.budget : TakePc Req → Nat
  | .idle => 0
  | .scan i => 5 + (kMaxInFlight - i)
  | .copyRequest _ => 4
  | .copyContext _ _ => 3
  | .copyStamp _ _ _ => 2
  | .copyCorrelation _ _ _ _ => 1

def ReplyPc.budget : ReplyPc Rsp → Nat
  | .idle => 0
  | .load _ _ => 7
  | .compare _ _ => 6
  | .write _ _ => 5
  | .cas _ _ => 4
  | .reload _ _ => 3
  | .recompare _ _ => 2
  | .reclaim _ _ => 1
  | .done _ _ _ => 0

theorem CallPc.budget_le (pc : CallPc Rsp) : pc.budget ≤ 34 := by
  cases pc with
  | scan waiting i => cases waiting <;> simp only [budget, kMaxInFlight] <;> omega
  | _ => simp only [budget]; omega

theorem TakePc.budget_le (pc : TakePc Req) : pc.budget ≤ 13 := by
  cases pc <;> simp only [budget, kMaxInFlight] <;> omega

theorem ReplyPc.budget_le (pc : ReplyPc Rsp) : pc.budget ≤ 7 := by
  cases pc <;> simp only [budget] <;> omega

theorem CallPc.budget_eq_zero {pc : CallPc Rsp} : pc.budget = 0 ↔ ∃ t res, pc = .done t res := by
  cases pc with
  | scan waiting i => cases waiting <;> simp [budget]
  | _ => simp [budget]

theorem TakePc.budget_eq_zero {pc : TakePc Req} : pc.budget = 0 ↔ pc = .idle := by
  cases pc <;> simp [budget]

theorem ReplyPc.budget_eq_zero {pc : ReplyPc Rsp} :
    pc.budget = 0 ↔ pc = .idle ∨ ∃ t v st, pc = .done t v st := by
  cases pc <;> simp [budget]

/-! ## Own steps -/

/-- A wait whose predicate has just come out false. -/
def CallPc.waits : CallPc Rsp → Bool
  | .scan true i => decide (kMaxInFlight ≤ i)
  | .unheard _ _ => true
  | _ => false

/-- The deadline of call `c` has passed: where it would wait it gives up. -/
def Overdue (c : Nat) (w : World Req Rsp) : Act Req Rsp → Prop
  | .call c' (.go _) => c' = c → ∀ ep, w.calls c = some ep → ep.pc.waits = false
  | _ => True

theorem callStep_budget {rsp : Rsp} {h h' : RpcTopic Req Rsp} {ep ep' : CallEp Req Rsp}
    {a : CallAct} (hgo : ∀ now, a = .go now → ep.pc.waits = false)
    (hs : callStep rsp h ep a = some (h', ep')) : ep'.pc.budget < ep.pc.budget := by
  cases a with
  | expire =>
      simp only [callStep] at hs
      split at hs
      · next hpc =>
          split at hs
          · cases hs
          · cases hs
            simp only [hpc, CallEp.at', CallPc.budget]
            omega
      · next hpc =>
          cases hs
          simp only [hpc, CallEp.at', CallPc.budget]
          omega
      · cases hs
  | go now =>
      have hw := hgo now rfl
      simp only [callStep] at hs
      cases hpc : ep.pc with
      | scan waiting i =>
          simp only [hpc] at hs hw
          have hk : kMaxInFlight = 8 := rfl
          cases waiting with
          | false =>
              repeat' split at hs
              all_goals
                cases hs
                simp only [CallEp.at', CallPc.budget]
                omega
          | true =>
              have hi : i < kMaxInFlight := by
                simp only [CallPc.waits, decide_eq_false_iff_not] at hw
                omega
              rw [if_pos hi] at hs
              split at hs
              all_goals
                cases hs
                simp only [CallEp.at', CallPc.budget]
                omega
      | unheard i t =>
          rw [hpc] at hw
          cases hw
      | entry =>
          simp only [hpc] at hs
          split at hs
          all_goals
            cases hs
            simp only [CallEp.at', CallPc.budget, kMaxInFlight]
            omega
      | done t res =>
          simp only [hpc] at hs
          cases hs
      | _ =>
          simp only [hpc] at hs
          (try split at hs)
          all_goals
            cases hs
            simp only [CallEp.at', CallPc.budget]
            omega

theorem takeStep_budget {h : RpcTopic Req Rsp} {pc : TakePc Req} (hpc : pc.budget ≠ 0) :
    (takeStep h pc).2.1.budget < pc.budget := by
  cases pc with
  | idle => exact absurd rfl hpc
  | scan i =>
      simp only [takeStep]
      repeat' split
      all_goals
        simp only [TakePc.budget]
        omega
  | _ =>
      simp only [takeStep, TakePc.budget]
      omega

theorem replyStep_budget {h h' : RpcTopic Req Rsp} {pc pc' : ReplyPc Rsp}
    (hs : replyStep h pc = some (h', pc')) : pc'.budget < pc.budget := by
  cases pc <;> simp only [replyStep] at hs
  case idle | done => cases hs
  all_goals
    (try split at hs)
    all_goals
      cases hs
      simp only [ReplyPc.budget]
      omega

/-- The next access of a call that has not returned is always possible. -/
theorem callStep_enabled (rsp : Rsp) (h : RpcTopic Req Rsp) {ep : CallEp Req Rsp}
    (hpc : ep.pc.budget ≠ 0) (now : Int) : (callStep rsp h ep (.go now)).isSome = true := by
  simp only [callStep]
  cases hp : ep.pc with
  | done t res =>
      rw [hp] at hpc
      exact absurd rfl hpc
  | _ =>
      simp only
      repeat' split
      all_goals rfl

/-- So is giving up, where a wait came out false. -/
theorem callStep_expires (rsp : Rsp) (h : RpcTopic Req Rsp) {ep : CallEp Req Rsp}
    (hw : ep.pc.waits = true) : (callStep rsp h ep .expire).isSome = true := by
  simp only [callStep]
  cases hp : ep.pc with
  | scan waiting i =>
      rw [hp] at hw
      cases waiting with
      | false => cases hw
      | true =>
          have hi : ¬ i < kMaxInFlight := by
            simp only [CallPc.waits, decide_eq_true_eq] at hw
            omega
          simp only [if_neg hi]
          rfl
  | unheard i t => rfl
  | _ =>
      rw [hp] at hw
      cases hw

theorem replyStep_enabled (h : RpcTopic Req Rsp) {pc : ReplyPc Rsp} (hpc : pc.budget ≠ 0) :
    (replyStep h pc).isSome = true := by
  cases pc <;> simp only [replyStep]
  case idle | done => exact absurd rfl hpc
  all_goals
    (try split)
    all_goals rfl

/-! ## The three verbs in the topic -/

/-- One execution of a verb. -/
inductive Party where
  | call (c : Nat)
  | take (k : Nat)
  | reply (r : Nat)
  deriving DecidableEq, Repr

/-- The accesses that are its own. -/
def Party.goes : Party → Act Req Rsp → Bool
  | .call c, .call c' _ => c' == c
  | .take k, .take k' => k' == k
  | .reply r, .reply r' => r' == r
  | _, _ => false

/-- A call's waits end with its deadline; the server's verbs have none. -/
def Party.Prompt : Party → World Req Rsp → Act Req Rsp → Prop
  | .call c => Overdue c
  | _ => anyStep

def World.budget (w : World Req Rsp) : Party → Nat
  | .call c => ((w.calls c).map (·.pc.budget)).getD 0
  | .take k => (w.takes k).budget
  | .reply r => (w.replies r).budget

/-- The verb has returned, or was not called. -/
def World.Returned (w : World Req Rsp) : Party → Prop
  | .call c => ∀ ep, w.calls c = some ep → ∃ t res, ep.pc = .done t res
  | .take k => w.takes k = .idle
  | .reply r => w.replies r = .idle ∨ ∃ t v st, w.replies r = .done t v st

theorem returned_iff (w : World Req Rsp) (x : Party) : w.Returned x ↔ w.budget x = 0 := by
  cases x with
  | call c =>
      simp only [World.Returned, World.budget]
      cases w.calls c with
      | none => simp
      | some ep => simp [CallPc.budget_eq_zero]
  | take k => exact TakePc.budget_eq_zero.symm
  | reply r => exact ReplyPc.budget_eq_zero.symm

/-- The most accesses one execution makes. -/
def Party.bound : Party → Nat
  | .call _ => 34
  | .take _ => 13
  | .reply _ => 7

theorem budget_le (w : World Req Rsp) (x : Party) : w.budget x ≤ x.bound := by
  cases x with
  | call c =>
      simp only [World.budget]
      cases w.calls c with
      | none => exact Nat.zero_le _
      | some ep => exact ep.pc.budget_le
  | take k => exact TakePc.budget_le _
  | reply r => exact ReplyPc.budget_le _

variable {req : Req} {rsp : Rsp}

theorem step_own {w w' : World Req Rsp} {x : Party} {a : Act Req Rsp} (hx : w.budget x ≠ 0)
    (ha : x.goes a = true) (hok : x.Prompt w a) (hs : w.step rsp a = some w') :
    w'.budget x < w.budget x := by
  cases x with
  | call c =>
      cases a with
      | call c' b =>
          obtain rfl : c' = c := by simpa [Party.goes] using ha
          simp only [World.step] at hs
          split at hs
          · cases hs
          · next ep hep =>
              split at hs
              · cases hs
              · next h' ep' hst =>
                  cases hs
                  simp only [World.budget, Function.update_self, hep, Option.map_some,
                    Option.getD_some]
                  refine callStep_budget (fun now hb => ?_) hst
                  subst hb
                  exact hok rfl ep hep
      | _ => cases ha
  | take k =>
      cases a with
      | take k' =>
          obtain rfl : k' = k := by simpa [Party.goes] using ha
          simp only [World.step] at hs
          cases hs
          simp only [World.budget, Function.update_self]
          exact takeStep_budget hx
      | _ => cases ha
  | reply r =>
      cases a with
      | reply r' =>
          obtain rfl : r' = r := by simpa [Party.goes] using ha
          simp only [World.step] at hs
          split at hs
          · cases hs
          · next hst =>
              cases hs
              simp only [World.budget, Function.update_self]
              exact replyStep_budget hst
      | _ => cases ha

/-- The others leave a verb where it is. -/
theorem step_other {w w' : World Req Rsp} {x : Party} {a : Act Req Rsp} (hx : w.budget x ≠ 0)
    (ha : x.goes a = false) (hs : w.step rsp a = some w') : w'.budget x = w.budget x := by
  cases a with
  | addServer | removeServer =>
      simp only [World.step] at hs
      split at hs <;> cases hs
      cases x <;> rfl
  | newCall c request context =>
      simp only [World.step] at hs
      split at hs
      · next hc =>
          cases hs
          cases x with
          | call c' =>
              have hne : c' ≠ c := by
                rintro rfl
                simp [World.budget, hc] at hx
              simp only [World.budget, Function.update_of_ne hne]
          | _ => rfl
      · cases hs
  | call c b =>
      simp only [World.step] at hs
      split at hs
      · cases hs
      · split at hs
        · cases hs
        · cases hs
          cases x with
          | call c' =>
              have hne : c' ≠ c := by
                rintro rfl
                simp [Party.goes] at ha
              simp only [World.budget, Function.update_of_ne hne]
          | _ => rfl
  | take k =>
      simp only [World.step] at hs
      cases hs
      cases x with
      | take k' =>
          have hne : k' ≠ k := by
            rintro rfl
            simp [Party.goes] at ha
          simp only [World.budget, Function.update_of_ne hne]
      | _ => rfl
  | newReply r t v =>
      simp only [World.step] at hs
      split at hs
      · next hr =>
          have hne : ∀ r', x = .reply r' → r' ≠ r := by
            rintro r' rfl rfl
            simp [World.budget, hr, ReplyPc.budget] at hx
          split at hs
          · cases hs
            cases x with
            | reply r' => simp only [World.budget, Function.update_of_ne (hne r' rfl)]
            | _ => rfl
          · split at hs
            · cases hs
              cases x with
              | reply r' => simp only [World.budget, Function.update_of_ne (hne r' rfl)]
              | _ => rfl
            · cases hs
      · cases hs
  | reply r =>
      simp only [World.step] at hs
      split at hs
      · cases hs
      · cases hs
        cases x with
        | reply r' =>
            have hne : r' ≠ r := by
              rintro rfl
              simp [Party.goes] at ha
            simp only [World.budget, Function.update_of_ne hne]
        | _ => rfl

theorem party_paced (x : Party) : (machine req rsp).Paced x.Prompt x.goes
    (fun w => w.budget x ≠ 0) (fun w => w.budget x) where
  left := fun h => Nat.pos_of_ne_zero h
  mine := fun hx ha hok hs => step_own hx ha hok hs
  theirs := fun hx ha _ hs => Nat.le_of_eq (step_other hx ha hs)

/-- The next access of a verb: a wait that came out false gives up, every other access
is made. -/
def World.next (w : World Req Rsp) (now : Int) : Party → Act Req Rsp
  | .call c =>
      if ((w.calls c).map (·.pc.waits)).getD false then .call c .expire else .call c (.go now)
  | .take k => .take k
  | .reply r => .reply r

theorem next_prompt (w : World Req Rsp) (now : Int) (x : Party) :
    x.goes (w.next now x) = true ∧ x.Prompt w (w.next now x) := by
  cases x with
  | call c =>
      simp only [World.next]
      split
      · exact ⟨beq_self_eq_true c, trivial⟩
      · next hw =>
          refine ⟨beq_self_eq_true c, fun _ ep hep => ?_⟩
          rw [hep] at hw
          simpa using hw
  | take k => exact ⟨beq_self_eq_true k, trivial⟩
  | reply r => exact ⟨beq_self_eq_true r, trivial⟩

theorem next_enabled {w : World Req Rsp} {x : Party} (hx : w.budget x ≠ 0) (now : Int) :
    (w.step rsp (w.next now x)).isSome = true := by
  cases x with
  | call c =>
      cases hep : w.calls c with
      | none => simp [World.budget, hep] at hx
      | some ep =>
          simp only [World.budget, hep, Option.map_some, Option.getD_some] at hx
          simp only [World.next, hep, Option.map_some, Option.getD_some]
          split
          · next hw =>
              obtain ⟨⟨h', ep'⟩, hs⟩ :=
                Option.isSome_iff_exists.mp (callStep_expires rsp w.topic hw)
              simp [World.step, hep, hs]
          · obtain ⟨⟨h', ep'⟩, hs⟩ :=
              Option.isSome_iff_exists.mp (callStep_enabled rsp w.topic hx now)
            simp [World.step, hep, hs]
  | take k => rfl
  | reply r =>
      obtain ⟨⟨h', pc⟩, hs⟩ := Option.isSome_iff_exists.mp (replyStep_enabled w.topic hx)
      simp [World.next, World.step, hs]

/-- From any state and under any schedule a verb's next access is possible, and a bounded
number of them ends it: 13 a `TakeRequest`, 7 a `Reply`, and 34 a `Call` whose deadline
has passed. So it ends even if everybody else has stopped for good. -/
theorem verbs_return (x : Party) (w : World Req Rsp) :
    (¬ w.Returned x → ∀ now, (w.step rsp (w.next now x)).isSome = true ∧
      x.goes (w.next now x) = true ∧ x.Prompt w (w.next now x)) ∧
    (machine req rsp).Within x.Prompt x.goes x.bound w (·.Returned x) ∧
    ∃ as w', (machine req rsp).Run x.Prompt w as w' ∧ as.length ≤ x.bound ∧
      (∀ a ∈ as, x.goes a = true) ∧ w'.Returned x := by
  have hpaced : (machine req rsp).Paced x.Prompt x.goes (fun w => w.budget x ≠ 0)
      (fun w => w.budget x) := party_paced x
  refine ⟨fun hx now => ⟨next_enabled ?_ now, next_prompt w now x⟩, fun as w' hrun hn => ?_, ?_⟩
  · rwa [returned_iff] at hx
  · obtain ⟨pre, u, hpre, hu, hrest⟩ := hpaced.rests (budget_le w x) as w' hrun hn
    exact ⟨pre, u, hpre, hu, (returned_iff u x).mpr (not_not.mp hrest)⟩
  · have hgo : ∀ u : World Req Rsp, u.budget x ≠ 0 → ∃ a u', x.goes a = true ∧
        x.Prompt u a ∧ (machine req rsp).step u a = some u' := by
      intro u hu
      obtain ⟨u', hu'⟩ := Option.isSome_iff_exists.mp (next_enabled hu 0)
      exact ⟨u.next 0 x, u', (next_prompt u 0 x).1, (next_prompt u 0 x).2, hu'⟩
    obtain ⟨as, w', hrun, hlen, hown, hrest⟩ := hpaced.alone hgo (budget_le w x)
    exact ⟨as, w', hrun, hlen, hown, (returned_iff w' x).mpr (not_not.mp hrest)⟩

/-! ## The next call is served -/

/-- A slot to claim, and no request before ours. -/
structure Ready (w : World Req Rsp) : Prop where
  slot : ∃ i < kMaxInFlight, (w.topic.slots i).state = .free
  none_pending : ∀ i < kMaxInFlight, (w.topic.slots i).state ≠ .pending

/-- Every call has returned, every server thread is between two takes, and every request
handed out has been replied to. -/
structure Quiet (w : World Req Rsp) : Prop where
  calls : ∀ c, w.Returned (.call c)
  takes : ∀ k, w.Returned (.take k)
  replied : ∀ q ∈ w.requests, ∃ r v st, w.replies r = .done q.correlation v st

/-- A call up to the wait for its reply; the first `i` slots are in use. -/
def entering (c i : Nat) (request : Req) (context : Nat) (now : Int) : List (Act Req Rsp) :=
  .newCall c request context :: .call c (.go now) ::
    List.replicate i (.call c (.go now)) ++ List.replicate 10 (.call c (.go now))

/-- A `TakeRequest` that finds slot `i` pending and none before it. -/
def taking (k i : Nat) : List (Act Req Rsp) :=
  .take k :: List.replicate i (.take k) ++ List.replicate 5 (.take k)

/-- A `Reply` and what is left of the call. -/
def answering (c r t : Nat) (v : Rsp) (now : Int) : List (Act Req Rsp) :=
  .newReply r t v :: List.replicate 4 (.reply r) ++ List.replicate 3 (.call c (.go now))

/-- One call served, with nobody else moving: it claims slot `i` and posts, thread `k`
takes the request, `Reply` number `r` answers it, the call comes back. -/
def serving (c k r i t : Nat) (request : Req) (context : Nat) (v : Rsp) (now : Int) :
    List (Act Req Rsp) :=
  entering c i request context now ++ taking k i ++ answering c r t v now

theorem scan_run {w : World Req Rsp} {c : Nat} {q : Req} {ctx : Nat} (now : Int) :
    ∀ {i : Nat}, w.calls c = some ⟨q, ctx, .scan false 0⟩ → i < kMaxInFlight →
      (∀ j < i, (w.topic.slots j).state ≠ .free) →
      (machine req rsp).Run OneReplyEach w (List.replicate i (.call c (.go now)))
        { w with calls := Function.update w.calls c (some ⟨q, ctx, .scan false i⟩) } := by
  intro i hc
  induction i with
  | zero =>
      intro _ _
      rw [← hc, Function.update_eq_self]
      exact .nil _
  | succ i ih =>
      intro hi hbusy
      rw [List.replicate_succ']
      refine (ih (by omega) fun j hj => hbusy j (by omega)).append (.cons trivial ?_ (.nil _))
      have hst := hbusy i (by omega)
      have hlt : i < kMaxInFlight := by omega
      cases hs : (w.topic.slots i).state with
      | free => exact absurd hs hst
      | _ => simp [machine, World.step, callStep, CallEp.at', hlt, hs]

theorem take_run {w : World Req Rsp} {k : Nat} :
    ∀ {i : Nat}, w.takes k = .scan 0 → i < kMaxInFlight →
      (∀ j < i, (w.topic.slots j).state ≠ .pending) →
      (machine req rsp).Run OneReplyEach w (List.replicate i (.take k))
        { w with takes := Function.update w.takes k (.scan i) } := by
  intro i hk
  induction i with
  | zero =>
      intro _ _
      rw [← hk, Function.update_eq_self]
      exact .nil _
  | succ i ih =>
      intro hi hno
      rw [List.replicate_succ']
      refine (ih (by omega) fun j hj => hno j (by omega)).append (.cons trivial ?_ (.nil _))
      have hst := hno i (by omega)
      have hlt : i < kMaxInFlight := by omega
      cases hs : (w.topic.slots i).state with
      | pending => exact absurd hs hst
      | _ => simp [machine, World.step, takeStep, hlt, hs]

/-- The slot of a call that has posted. -/
def CallSlot.filled (s : CallSlot Req Rsp) (request : Req) (context : Nat) (now : Int) (t : Nat) :
    CallSlot Req Rsp :=
  { s with
    state := .pending
    correlation := t
    envelope := { s.envelope with
      context := context
      publishStampNs := now
      originStampNs := now
      hopCount := 0
      flags := 0 }
    request := request }

def RpcTopic.posted (h : RpcTopic Req Rsp) (i : Nat) (request : Req) (context : Nat) (now : Int) :
    RpcTopic Req Rsp :=
  { h with
    slots := Function.update h.slots i
      ((h.slots i).filled request context now (token h.nextCorrelation i))
    nextCorrelation := h.nextCorrelation + 1 }

/-- The first free slot is claimed, filled and posted. -/
theorem post_run {w : World Req Rsp} {c i : Nat} (request : Req) (context : Nat) (now : Int)
    (hc : w.calls c = none) (hserver : w.topic.publisherCount ≠ 0) (hi : i < kMaxInFlight)
    (hfree : (w.topic.slots i).state = .free)
    (hbusy : ∀ j < i, (w.topic.slots j).state ≠ .free) :
    (machine req rsp).Run OneReplyEach w (entering c i request context now)
      { w with
        topic := w.topic.posted i request context now
        calls := Function.update w.calls c
          (some ⟨request, context, .await i (token w.topic.nextCorrelation i)⟩) } := by
  let w₁ : World Req Rsp :=
    { w with calls := Function.update w.calls c (some ⟨request, context, .scan false 0⟩) }
  have hentry : (machine req rsp).exec [.newCall c request context, .call c (.go now)] w =
      some w₁ := by
    simp [Machine.exec, machine, World.step, hc, callStep, hserver, CallEp.at', w₁]
  have h₁ : (machine req rsp).Run OneReplyEach w
      [.newCall c request context, .call c (.go now)] w₁ := by
    refine Machine.run_of_exec (fun a ha _ => ?_) hentry
    simp only [List.mem_cons, List.not_mem_nil, or_false] at ha
    rcases ha with rfl | rfl <;> trivial
  have hcall : w₁.calls c = some ⟨request, context, .scan false 0⟩ := Function.update_self ..
  refine (h₁.append (scan_run now hcall hi hbusy)).append ?_
  refine Machine.run_of_exec (fun a ha _ => ?_) ?_
  · rw [List.eq_of_mem_replicate ha]
    trivial
  · simp [List.replicate, Machine.exec, machine, World.step, callStep, hi, hfree, w₁, CallEp.at',
      RpcTopic.setState, RpcTopic.setSlot, RpcTopic.posted, CallSlot.filled]

/-- The pending slot the thread comes to first is taken and its fields are copied. -/
theorem request_run {w : World Req Rsp} {k i : Nat} (hk : w.takes k = .idle)
    (hi : i < kMaxInFlight) (hpend : (w.topic.slots i).state = .pending)
    (hno : ∀ j < i, (w.topic.slots j).state ≠ .pending) :
    (machine req rsp).Run OneReplyEach w (taking k i)
      { w with
        topic := w.topic.setState i .taken
        takes := Function.update w.takes k .idle
        requests := w.requests ++ [⟨(w.topic.slots i).request, (w.topic.slots i).envelope.context,
          (w.topic.slots i).envelope.publishStampNs, (w.topic.slots i).correlation⟩] } := by
  let w₁ : World Req Rsp := { w with takes := Function.update w.takes k (.scan 0) }
  have h₁ : (machine req rsp).Run OneReplyEach w [.take k] w₁ := by
    refine .cons trivial ?_ (.nil _)
    simp [machine, World.step, takeStep, hk, w₁]
  have hscan : w₁.takes k = .scan 0 := Function.update_self ..
  refine (h₁.append (take_run hscan hi hno)).append ?_
  refine Machine.run_of_exec (fun a ha _ => ?_) ?_
  · rw [List.eq_of_mem_replicate ha]
    trivial
  · simp [List.replicate, Machine.exec, machine, World.step, takeStep, hi, hpend, w₁,
      RpcTopic.setState, RpcTopic.setSlot]

/-- The reply finds its slot, and the call its reply. -/
theorem answer_run {w : World Req Rsp} {c r i t : Nat} {ep : CallEp Req Rsp} (v : Rsp) (now : Int)
    (hr : w.replies r = .idle) (ht : t ≠ 0) (hidx : tokenIndex t = i)
    (hreq : ∃ q ∈ w.requests, q.correlation = t)
    (hnew : ∀ r, (w.replies r).view.token? ≠ some t)
    (hst : (w.topic.slots i).state = .taken) (htok : (w.topic.slots i).correlation = t)
    (hc : w.calls c = some ep) (hpc : ep.pc = .await i t) :
    (machine req rsp).Run OneReplyEach w (answering c r t v now)
      { w with
        topic := w.topic.setSlot i { w.topic.slots i with state := .free, response := v }
        calls := Function.update w.calls c
          (some (ep.at' (.done (some t) { status := .ok, value := v })))
        replies := Function.update w.replies r (.done t v .ok) } := by
  let w₁ : World Req Rsp := { w with replies := Function.update w.replies r (.load t v) }
  have hany : (w.requests.any fun q => q.correlation == t) = true := by
    obtain ⟨q, hq, hqt⟩ := hreq
    exact List.any_eq_true.mpr ⟨q, hq, beq_iff_eq.mpr hqt⟩
  have hstart : (machine req rsp).step w (.newReply r t v) = some w₁ := by
    simp [machine, World.step, hr, ht, hany, w₁]
  refine .cons hnew hstart ?_
  refine Machine.run_of_exec (fun a ha _ => ?_) ?_
  · rcases List.mem_append.mp ha with h0 | h0 <;> rw [List.eq_of_mem_replicate h0] <;> trivial
  · simp [List.replicate, Machine.exec, machine, World.step, replyStep, callStep, hidx, hst, htok,
      hc, hpc, CallEp.at', w₁, RpcTopic.setState, RpcTopic.setSlot]

section Reached

variable {w : World Req Rsp}

/-- Nobody is left who could answer for a slot in use. -/
theorem Quiet.free (hq : Quiet w) (hw : (machine req rsp).Reached OneReplyEach w)
    (hn : w.topic.nextCorrelation < 2 ^ 60) (i : Nat) : (w.topic.slots i).state = .free := by
  have hinv := inv_reached hw hn
  obtain ⟨hh, hr⟩ := custody_reached hw hn
  have hcall : (w.topic.slots i).state.busy = true → False := by
    intro hb
    obtain ⟨c, hc⟩ := hinv.owned i hb
    simp only [World.proto] at hc
    cases hep : w.calls c with
    | none => rw [hep] at hc; cases hc
    | some ep =>
        obtain ⟨t, res, hpc⟩ := hq.calls c ep hep
        rw [hep, callView, hpc] at hc
        cases t with
        | none => cases hc
        | some t => simp only [CallPc.view] at hc; split at hc <;> cases hc
  have hserver : (w.topic.slots i).state.held = true → False := by
    intro hst
    rcases hh.held i hst with ⟨k, hk⟩ | hmem
    · rw [show w.proto.copying k = (w.takes k).view from rfl,
        show w.takes k = .idle from hq.takes k] at hk
      cases hk
    · obtain ⟨q, hqm, hqt⟩ := List.mem_map.mp hmem
      obtain ⟨r, v, st, h0⟩ := hq.replied q hqm
      have hidx : tokenIndex (w.topic.slots i).correlation = i :=
        hinv.index i (posted_of_held hst)
      have hlive : w.proto.Live q.correlation := by
        rw [hqt, live_topic, show (w.proto.slot i).tok = (w.topic.slots i).correlation from rfl,
          hidx]
        exact ⟨rfl, hst⟩
      exact (live_iff_unreplied hinv hn hh hr (List.mem_map.mpr ⟨q, hqm, rfl⟩)).mp hlive r v st h0
  cases hst : (w.topic.slots i).state with
  | free => rfl
  | claimed | pending | replied | taken => exact (hcall (by rw [hst]; rfl)).elim
  | abandoned => exact (hserver (by rw [hst]; rfl)).elim

/-- The token a draw is about to give is nobody's. -/
theorem token_unused (hw : (machine req rsp).Reached OneReplyEach w)
    (hn : w.topic.nextCorrelation < 2 ^ 60 - 1) {i : Nat} (hi : i < kMaxInFlight) (r : Nat) :
    (w.replies r).view.token? ≠ some (token w.topic.nextCorrelation i) := by
  intro h0
  have hinv := inv_reached hw (by omega)
  obtain ⟨c, hc, -⟩ := hinv.handed _ (hinv.replying r _ h0)
  obtain ⟨n, j, hlt, hj, heq⟩ := hinv.drawn c _ hc
  have hlt' : n < w.topic.nextCorrelation := hlt
  have := token_inj hn hi (by omega) hj heq
  omega

end Reached

/-- What a served call leaves behind, by slot `i` under token `t`. -/
structure Served (w w' : World Req Rsp) (c r i t : Nat) (request : Req) (context : Nat) (v : Rsp)
    (now : Int) : Prop where
  result : w'.calls c = some ⟨request, context, .done (some t) { status := .ok, value := v }⟩
  handed : w'.requests = w.requests ++ [⟨request, context, now, t⟩]
  accepted : w'.replies r = .done t v .ok
  calls : ∀ c', c' ≠ c → w'.calls c' = w.calls c'
  takes : w'.takes = w.takes
  replies : ∀ r', r' ≠ r → w'.replies r' = w.replies r'
  slots : ∀ j, j ≠ i → w'.topic.slots j = w.topic.slots j
  again : Ready w'

/-- A topic with slot `i` the first one free and nothing pending serves a call, wherever
everybody else has stopped. -/
theorem served_run {w : World Req Rsp} (hw : (machine req rsp).Reached OneReplyEach w)
    (hlt : w.topic.nextCorrelation < 2 ^ 60 - 1) (hserver : w.topic.publisherCount ≠ 0)
    {c k r i : Nat} (hc : w.calls c = none) (hk : w.takes k = .idle) (hr : w.replies r = .idle)
    (hi : i < kMaxInFlight) (hfree : (w.topic.slots i).state = .free)
    (hleast : ∀ j < i, (w.topic.slots j).state ≠ .free)
    (hno : ∀ j < kMaxInFlight, (w.topic.slots j).state ≠ .pending)
    (request : Req) (context : Nat) (v : Rsp) (now : Int) :
    ∃ t w', (machine req rsp).Run OneReplyEach w (serving c k r i t request context v now) w' ∧
      Served w w' c r i t request context v now := by
  let t := token w.topic.nextCorrelation i
  have hpos : t ≠ 0 := by
    rw [show t = token w.topic.nextCorrelation i from rfl, token_eq_add hlt hi]
    omega
  -- the call posts
  let w₁ : World Req Rsp :=
    { w with
      topic := w.topic.posted i request context now
      calls := Function.update w.calls c (some ⟨request, context, .await i t⟩) }
  have hother : ∀ j, j ≠ i → w₁.topic.slots j = w.topic.slots j :=
    fun j hj => Function.update_of_ne hj _ _
  have hfilled : w₁.topic.slots i = (w.topic.slots i).filled request context now t :=
    Function.update_self ..
  have h₁ : (machine req rsp).Run OneReplyEach w (entering c i request context now) w₁ :=
    post_run request context now hc hserver hi hfree hleast
  -- the server takes the request
  let w₂ : World Req Rsp :=
    { w₁ with
      topic := w₁.topic.setState i .taken
      takes := Function.update w₁.takes k .idle
      requests := w₁.requests ++ [⟨(w₁.topic.slots i).request,
        (w₁.topic.slots i).envelope.context, (w₁.topic.slots i).envelope.publishStampNs,
        (w₁.topic.slots i).correlation⟩] }
  have h₂ : (machine req rsp).Run OneReplyEach w₁ (taking k i) w₂ := by
    refine request_run hk hi (by rw [hfilled]; rfl) fun j hj => ?_
    rw [hother j (by omega)]
    exact hno j (by omega)
  have hreqs : w₂.requests = w.requests ++ [⟨request, context, now, t⟩] := by
    simp only [w₂, hfilled]
    rfl
  have htaken : w₂.topic.slots i = { w₁.topic.slots i with state := .taken } :=
    Function.update_self ..
  have hcall : w₂.calls c = some ⟨request, context, .await i t⟩ := Function.update_self ..
  have hreq : ∃ q ∈ w₂.requests, q.correlation = t :=
    ⟨_, by rw [hreqs]; exact List.mem_append_right _ (List.mem_singleton.mpr rfl), rfl⟩
  -- and answers it
  let w₃ : World Req Rsp :=
    { w₂ with
      topic := w₂.topic.setSlot i { w₂.topic.slots i with state := .free, response := v }
      calls := Function.update w₂.calls c
        (some ⟨request, context, .done (some t) { status := .ok, value := v }⟩)
      replies := Function.update w₂.replies r (.done t v .ok) }
  have h₃ : (machine req rsp).Run OneReplyEach w₂ (answering c r t v now) w₃ :=
    answer_run (w := w₂) v now hr hpos (tokenIndex_token hlt hi) hreq (token_unused hw hlt hi)
      (by rw [htaken]) (by rw [htaken, hfilled]; rfl) hcall rfl
  have hslots : ∀ j, j ≠ i → w₃.topic.slots j = w.topic.slots j := by
    intro j hj
    simp only [w₃, w₂, RpcTopic.setState, RpcTopic.setSlot, Function.update_of_ne hj]
    exact hother j hj
  have hfreed : (w₃.topic.slots i).state = .free := by
    simp only [w₃, RpcTopic.setSlot, Function.update_self]
  refine ⟨t, w₃, (h₁.append h₂).append h₃, Function.update_self .., hreqs,
    Function.update_self .., fun c' hc' => ?_, ?_, fun r' hr' => ?_, hslots,
    ⟨i, hi, hfreed⟩, fun j hjk h0 => ?_⟩
  · simp only [w₃, w₂, w₁, Function.update_of_ne hc']
  · simp only [w₃, w₂, w₁, ← hk, Function.update_eq_self]
  · simp only [w₃, w₂, w₁, Function.update_of_ne hr']
  · by_cases hj : j = i
    · subst hj
      rw [hfreed] at h0
      cases h0
    · rw [hslots j hj] at h0
      exact hno j hjk h0

/-- After any history that left tokens to draw, a quiet topic is ready, and a ready topic
serves the next call, wherever everybody else has stopped: the server is handed the
request with its context and stamp, its reply is accepted, the call returns it, and the
topic is ready again. -/
theorem next_call_served {w : World Req Rsp} (hw : (machine req rsp).Reached OneReplyEach w)
    (calls : Finset Nat) (hcalls : ∀ c, w.calls c ≠ none → c ∈ calls)
    (hn : calls.card < 2 ^ 60 - 1) :
    (Quiet w → Ready w) ∧
    (Ready w → w.topic.publisherCount ≠ 0 → ∀ c k r, w.calls c = none → w.takes k = .idle →
      w.replies r = .idle → ∀ request context v now, ∃ i t w',
        (machine req rsp).Run OneReplyEach w (serving c k r i t request context v now) w' ∧
        Served w w' c r i t request context v now) := by
  have hlt : w.topic.nextCorrelation < 2 ^ 60 - 1 := by
    have := draws_le_calls hw hcalls
    omega
  constructor
  · intro hq
    have hfree := hq.free hw (by omega)
    refine ⟨⟨0, by decide, hfree 0⟩, fun i _ h0 => ?_⟩
    rw [hfree i] at h0
    cases h0
  · intro hready hserver c k r hc hk hr request context v now
    -- the slot claimed is the first free one
    have hex : ∃ i, i < kMaxInFlight ∧ (w.topic.slots i).state = .free := hready.slot
    obtain ⟨i, ⟨hi, hfree⟩, hleast⟩ : ∃ i, (i < kMaxInFlight ∧
        (w.topic.slots i).state = .free) ∧ ∀ j < i, (w.topic.slots j).state ≠ .free := by
      classical
      refine ⟨Nat.find hex, Nat.find_spec hex, fun j hj h0 => Nat.find_min hex hj ⟨?_, h0⟩⟩
      exact Nat.lt_trans hj (Nat.find_spec hex).1
    exact ⟨i, served_run hw hlt hserver hc hk hr hi hfree hleast hready.none_pending request
      context v now⟩

/-- A call given up, its request still with the server; the next call goes by slot 1. -/
theorem next_call_served_abandoned : ∃ w : World Nat Nat, (w.topic.slots 0).state = .abandoned ∧
    ∃ i t w', (machine 0 0).Run OneReplyEach w (serving 1 0 2 i t 8 0 9 0) w' ∧
      Served w w' 1 2 i t 8 0 9 0 := by
  have hrun : ((machine 0 0).execOk replyCheck givenUp quietTopic).map
      (fun w => ((w.topic.slots 0).state, (w.topic.slots 1).state,
        decide (∀ i < kMaxInFlight, (w.topic.slots i).state ≠ .pending),
        w.topic.publisherCount, (w.takes 0).budget, (w.calls 1).isNone)) =
      some (.abandoned, .free, true, 1, 0, true) := by rfl
  obtain ⟨w, hw, hf⟩ := Option.map_eq_some_iff.mp hrun
  simp only [Prod.mk.injEq, decide_eq_true_eq] at hf
  obtain ⟨hab, hfree, hno, hserver, htake, hcall⟩ := hf
  have hr := reached_of_replyCheck hw
  have hreply : w.replies 2 = .idle := by
    by_contra hne
    exact absurd (hr.2.replies 2 hne) (by decide)
  have hserved := (next_call_served hr.1 (Finset.range 2)
    (fun c hc => Finset.mem_range.mpr (hr.2.calls c hc)) (by decide)).2
  exact ⟨w, hab, hserved ⟨⟨1, by decide, hfree⟩, hno⟩ (by omega) 1 0 2
    (Option.isNone_iff_eq_none.mp hcall)
    (TakePc.budget_eq_zero.mp htake) hreply 8 0 9 0⟩

end Xmmsg.Rpc
