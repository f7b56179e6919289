import Mathlib.Algebra.Group.Int.Defs
import Xmmsg.Rpc.Steps

/-!
# Waits and their deadlines

Two verbs wait for at most a duration: `Domain::WaitUntilMatched` in `domain.cpp`, a
poll, and `RpcTopic::Call` in `in_process.hpp`, two waits on one deadline. Both compute
the deadline once, as the clock's reading plus the duration, and both are 64-bit
nanosecond counts with a sign. Nothing checks the sum; here it wraps, as on the machine.
A caller who means forever and passes the largest duration gets a deadline in the far
past. The poll computes the difference from it, which overflows back; a call compares
the clock with it and is over before it began.

`Fits64` is the range. Inside it the arithmetic is that of the integers, and neither
verb gives up before the clock has reached start plus duration (`waits_never_early`).
For the poll the condition is exact: it is about the readings the poll takes.

`EventCount::WaitUntil` belongs to the base library. Of its clock the code relies on
one thing, that a wait that has given up has seen the deadline pass; it is a parameter
here.
-/

namespace Xmmsg

open Xmmsg.Sys

/-! ## Nanosecond counts -/

def Fits64 (x : Int) : Prop := -2 ^ 63 ≤ x ∧ x < 2 ^ 63

instance (x : Int) : Decidable (Fits64 x) := inferInstanceAs (Decidable (_ ∧ _))

theorem toInt_add_iff (a b : Int64) : (a + b).toInt = a.toInt + b.toInt ↔
    Fits64 (a.toInt + b.toInt) := by
  constructor
  · intro h
    exact h ▸ ⟨(a + b).le_toInt, (a + b).toInt_lt⟩
  · rintro ⟨hlo, hhi⟩
    rw [Int64.toInt_add, Int.bmod_eq_of_le] <;> omega

theorem toInt_sub_iff (a b : Int64) : (a - b).toInt = a.toInt - b.toInt ↔
    Fits64 (a.toInt - b.toInt) := by
  constructor
  · intro h
    exact h ▸ ⟨(a - b).le_toInt, (a - b).toInt_lt⟩
  · rintro ⟨hlo, hhi⟩
    rw [Int64.toInt_sub, Int.bmod_eq_of_le] <;> omega

/-! ## The readiness barrier -/

inductive WaitStatus where
  | matched
  | deadlineExpired
  deriving DecidableEq, Repr

/-- What a call of `WaitUntilMatched` meets: the listed endpoints, null pointers among
them, what `MatchedCount` says of each at every poll, and the clock, reading zero first
and one more after every poll that found somebody unmatched. -/
structure Barrier (ε : Type) where
  endpoints : List (Option ε)
  matchedCount : Nat → ε → Nat
  clock : Nat → Int64
  deadline : Int64

namespace Barrier

variable {ε : Type} (b : Barrier ε)

/-- `all_matched`, at poll `n`. -/
def allMatched (n : Nat) : Bool :=
  b.endpoints.all fun
    | none => true
    | some e => b.matchedCount n e != 0

def deadlineAt : Int64 := b.clock 0 + b.deadline

/-- `remaining`, after poll `n`. -/
def remaining (n : Nat) : Int64 := b.deadlineAt - b.clock (n + 1)

/-- The loop from poll `n` on, with the poll it ends at. -/
def poll : Nat → Nat → Option (WaitStatus × Nat)
  | 0, _ => none
  | fuel + 1, n =>
      if b.allMatched n then some (.matched, n)
      else if b.remaining n ≤ 0 then some (.deadlineExpired, n)
      else poll fuel (n + 1)

/-- `Domain::WaitUntilMatched`. -/
def waitUntilMatched (available : Bool) (fuel : Nat) : Option (WaitStatus × Nat) :=
  if available then b.poll fuel 0
  else some (if b.endpoints.length = 0 then .matched else .deadlineExpired, 0)

/-- The loop computes the time remaining after poll `n`. -/
def Subtracts (n : Nat) : Prop :=
  (∀ m ≤ n, b.allMatched m = false) ∧ ∀ m < n, ¬ b.remaining m ≤ 0

/-- Start plus duration, as integers. -/
def due : Int := (b.clock 0).toInt + b.deadline.toInt

/-- The barrier does not give up early, and no arithmetic in it overflows. -/
structure Patient : Prop where
  notEarly : ∀ fuel n, b.waitUntilMatched true fuel = some (.deadlineExpired, n) →
    b.due ≤ (b.clock (n + 1)).toInt ∧ ∃ e, some e ∈ b.endpoints ∧ b.matchedCount n e = 0
  sum : b.deadlineAt.toInt = b.due
  difference : ∀ n, b.Subtracts n →
    (b.remaining n).toInt = b.deadlineAt.toInt - (b.clock (n + 1)).toInt

/-- The deadline is representable, and so is the time remaining at every reading taken:
all but the last are before the deadline, and the last is not too far behind it. -/
structure InRange : Prop where
  due : Fits64 b.due
  reading : ∀ n, (∀ m ≤ n, b.allMatched m = false) →
    (∀ m < n, (b.clock (m + 1)).toInt < b.due) → (b.clock (n + 1)).toInt ≤ b.due + 2 ^ 63

variable {b}

theorem exists_unmatched {n : Nat} (h : b.allMatched n = false) :
    ∃ e, some e ∈ b.endpoints ∧ b.matchedCount n e = 0 := by
  rw [allMatched, List.all_eq_false] at h
  obtain ⟨x, hx, hcount⟩ := h
  cases x with
  | none => exact absurd rfl hcount
  | some e =>
      refine ⟨e, hx, ?_⟩
      simpa using hcount

/-- What a poll that has expired went through. -/
theorem poll_expired {fuel n k : Nat} (h : b.poll fuel k = some (.deadlineExpired, n)) :
    k ≤ n ∧ (∀ m, k ≤ m → m ≤ n → b.allMatched m = false) ∧
      (∀ m, k ≤ m → m < n → ¬ b.remaining m ≤ 0) ∧ b.remaining n ≤ 0 := by
  induction fuel generalizing k with
  | zero => cases h
  | succ fuel ih =>
      rw [poll] at h
      split at h
      · cases h
      · next hmatch =>
          have hk : b.allMatched k = false := Bool.eq_false_iff.mpr hmatch
          split at h
          · next hrem =>
              cases h
              refine ⟨Nat.le_refl _, fun m h1 h2 => ?_, fun m h1 h2 => ?_, hrem⟩
              · exact Nat.le_antisymm h2 h1 ▸ hk
              · omega
          · next hrem =>
              obtain ⟨hle, hall, hpos, hend⟩ := ih h
              refine ⟨by omega, fun m h1 h2 => ?_, fun m h1 h2 => ?_, hend⟩
              · rcases Nat.eq_or_lt_of_le h1 with rfl | h1
                · exact hk
                · exact hall m h1 h2
              · rcases Nat.eq_or_lt_of_le h1 with rfl | h1
                · exact hrem
                · exact hpos m h1 h2

variable (hclock : ∀ n, b.clock n ≤ b.clock (n + 1))
include hclock

theorem clock_start_le (n : Nat) : (b.clock 0).toInt ≤ (b.clock n).toInt := by
  induction n with
  | zero => exact Int.le_refl _
  | succ n ih => exact Int.le_trans ih (Int64.le_iff_toInt_le.mp (hclock n))

/-- At a reading that is not too far behind the deadline the difference is exact. -/
theorem remaining_eq (hsum : b.deadlineAt.toInt = b.due) {n : Nat}
    (hn : (b.clock (n + 1)).toInt ≤ b.due + 2 ^ 63) :
    (b.remaining n).toInt = b.due - (b.clock (n + 1)).toInt := by
  have hstart := clock_start_le hclock (n + 1)
  have hlt := b.deadline.toInt_lt
  have hfits : Fits64 (b.deadlineAt.toInt - (b.clock (n + 1)).toInt) := by
    rw [hsum, due]
    rw [due] at hn
    exact ⟨by omega, by omega⟩
  rw [remaining, (toInt_sub_iff _ _).mpr hfits, hsum]

/-- The two ways to say which readings are taken agree. -/
theorem early_of_subtracts (hsum : b.deadlineAt.toInt = b.due) (h : b.InRange) {n : Nat}
    (hs : b.Subtracts n) : ∀ m < n, (b.clock (m + 1)).toInt < b.due := by
  intro m
  induction m using Nat.strongRecOn with
  | ind m ih =>
      intro hm
      have hread := h.reading m (fun j hj => hs.1 j (by omega)) fun j hj => ih j hj (by omega)
      have hrem := hs.2 m hm
      rw [Int64.le_iff_toInt_le, remaining_eq hclock hsum hread] at hrem
      have hzero : (0 : Int64).toInt = 0 := rfl
      omega

theorem subtracts_of_early (hsum : b.deadlineAt.toInt = b.due) {n : Nat}
    (hall : ∀ m ≤ n, b.allMatched m = false)
    (hearly : ∀ m < n, (b.clock (m + 1)).toInt < b.due) : b.Subtracts n := by
  refine ⟨hall, fun m hm hrem => ?_⟩
  have hlt := hearly m hm
  rw [Int64.le_iff_toInt_le, remaining_eq hclock hsum (by omega)] at hrem
  have hzero : (0 : Int64).toInt = 0 := rfl
  omega

theorem patient_iff : b.Patient ↔ b.InRange := by
  have hsum : b.deadlineAt.toInt = b.due ↔ Fits64 b.due := toInt_add_iff _ _
  constructor
  · intro h
    refine ⟨hsum.mp h.sum, fun n hall hearly => ?_⟩
    have hdiff := h.difference n (subtracts_of_early hclock h.sum hall hearly)
    have hlo := (b.remaining n).le_toInt
    rw [hdiff, h.sum] at hlo
    omega
  · intro h
    have hs := hsum.mpr h.due
    have hread : ∀ n, b.Subtracts n → (b.clock (n + 1)).toInt ≤ b.due + 2 ^ 63 :=
      fun n hn => h.reading n hn.1 (early_of_subtracts hclock hs h hn)
    refine ⟨fun fuel n hw => ?_, hs, fun n hn => ?_⟩
    · obtain ⟨-, hall, hpos, hend⟩ := poll_expired (b := b) (k := 0) hw
      have hn : b.Subtracts n := ⟨fun m => hall m (Nat.zero_le m), fun m => hpos m (Nat.zero_le m)⟩
      rw [Int64.le_iff_toInt_le, remaining_eq hclock hs (hread n hn)] at hend
      have hzero : (0 : Int64).toInt = 0 := rfl
      exact ⟨by omega, exists_unmatched (hn.1 n (Nat.le_refl n))⟩
    · rw [remaining_eq hclock hs (hread n hn), hs]

end Barrier

/-! ## Calls -/

namespace Rpc

/-- One RPC topic and the clock: its last reading, and the reading each call has taken
at its start. -/
structure Timed (Req Rsp : Type) where
  world : World Req Rsp
  now : Int64
  start : Nat → Option Int64 := fun _ => none

inductive TimedAct (Req Rsp : Type) where
  | tick (reading : Int64)
  | act (a : Act Req Rsp)

/-- Call `c` is about to find a server, and to read the clock. -/
def World.enters {Req Rsp : Type} (w : World Req Rsp) (c : Nat) : Bool :=
  match w.calls c with
  | some ⟨_, _, .entry⟩ => w.topic.publisherCount != 0
  | _ => false

section Timed

variable {Req Rsp : Type} (req : Req) (rsp : Rsp)

-- the duration each call is made with, and when `WaitUntil` may give up, given its
-- deadline and the clock
variable (deadline : Nat → Int64) (gaveUp : Int64 → Int64 → Bool)

namespace Timed

variable (q : Timed Req Rsp)

/-- A wait gives up by its own deadline, and whoever reads the clock gets its
reading. -/
def permits : Act Req Rsp → Bool
  | .call c .expire =>
      match q.start c with
      | some s => gaveUp (s + deadline c) q.now
      | none => false
  | .call _ (.go now) => now == q.now.toInt
  | _ => true

/-- `deadline_at` is fixed by the reading at the start. -/
def noteStart : Act Req Rsp → Nat → Option Int64
  | .call c (.go _) =>
      if q.world.enters c then Function.update q.start c (some q.now) else q.start
  | _ => q.start

def step : TimedAct Req Rsp → Option (Timed Req Rsp)
  | .tick reading => if q.now ≤ reading then some { q with now := reading } else none
  | .act a =>
      if q.permits deadline gaveUp a then
        match q.world.step rsp a with
        | some w => some { q with world := w, start := q.noteStart a }
        | none => none
      else none

/-- No call has come back expired before the clock reached start plus duration, and no
deadline has overflowed. -/
def Patient : Prop :=
  (∀ c ep t r, q.world.calls c = some ep → ep.pc = .done t r → r.status = .deadlineExpired →
    ∃ s, q.start c = some s ∧ s.toInt + (deadline c).toInt ≤ q.now.toInt) ∧
  ∀ c s, q.start c = some s → (s + deadline c).toInt = s.toInt + (deadline c).toInt

end Timed

def timed : Machine (Timed Req Rsp) (TimedAct Req Rsp) where
  start q := q.world.Fresh req rsp ∧ q.start = fun _ => none
  step q := q.step rsp deadline gaveUp

/-- A call that reads the clock has a representable deadline. -/
def CallInRange (q : Timed Req Rsp) : TimedAct Req Rsp → Prop
  | .act (.call c (.go _)) => q.world.enters c = true →
      Fits64 (q.now.toInt + (deadline c).toInt)
  | _ => True

end Timed

/-! ### What is past the deadline -/

/-- The wait has given up. -/
def CallPc.overdue {Rsp : Type} : CallPc Rsp → Bool
  | .casPending _ _ | .casTaken _ _ => true
  | .done _ r => r.status == .deadlineExpired
  | _ => false

variable {Req Rsp : Type} {req : Req} {rsp : Rsp} {deadline : Nat → Int64}
  {gaveUp : Int64 → Int64 → Bool}

/-- Only `expire` makes a call overdue. -/
theorem overdue_of_go {h h' : RpcTopic Req Rsp} {ep ep' : CallEp Req Rsp} {now : Int}
    (hs : callStep rsp h ep (.go now) = some (h', ep')) (hlate : ep'.pc.overdue = true) :
    ep.pc.overdue = true := by
  cases hpc : ep.pc with
  | casPending i t => rfl
  | casTaken i t => rfl
  | entry =>
      simp only [callStep, hpc] at hs
      split at hs <;> cases hs <;> cases hlate
  | scan waiting i =>
      simp only [callStep, hpc] at hs
      split at hs
      · split at hs <;> cases hs <;> cases hlate
      · cases hs
        cases hlate
  | await i t =>
      simp only [callStep, hpc] at hs
      split at hs <;> cases hs <;> cases hlate
  | done t r =>
      simp only [callStep, hpc] at hs
      cases hs
  | _ =>
      simp only [callStep, hpc] at hs
      cases hs
      cases hlate

/-- What an action of the topic leaves of a call: itself, a call just made, or the
caller after one access. -/
theorem calls_of_step {w w' : World Req Rsp} {a : Act Req Rsp} (hs : w.step rsp a = some w')
    {c : Nat} {ep' : CallEp Req Rsp} (hc : w'.calls c = some ep') :
    w.calls c = some ep' ∨ ep'.pc = .entry ∨
      ∃ act ep h', a = .call c act ∧ w.calls c = some ep ∧
        callStep rsp w.topic ep act = some (h', ep') := by
  cases a with
  | newCall d request context =>
      simp only [World.step] at hs
      split at hs
      · cases hs
        by_cases hcd : c = d
        · subst hcd
          simp only [Function.update_self] at hc
          cases hc
          exact .inr (.inl rfl)
        · simp only [Function.update_of_ne hcd] at hc
          exact .inl hc
      · cases hs
  | call d act =>
      simp only [World.step] at hs
      split at hs
      · cases hs
      · next ep hep =>
          split at hs
          · cases hs
          · next h' ep₁ hcall =>
              cases hs
              by_cases hcd : c = d
              · subst hcd
                simp only [Function.update_self] at hc
                cases hc
                exact .inr (.inr ⟨act, ep, h', rfl, hep, hcall⟩)
              · simp only [Function.update_of_ne hcd] at hc
                exact .inl hc
  | addServer =>
      simp only [World.step] at hs
      split at hs <;> cases hs
      exact .inl hc
  | removeServer =>
      simp only [World.step] at hs
      split at hs <;> cases hs
      exact .inl hc
  | take k =>
      cases hs
      exact .inl hc
  | newReply r correlation response =>
      simp only [World.step] at hs
      repeat' split at hs
      all_goals first | (cases hs; done) | (cases hs; exact .inl hc)
  | reply r =>
      simp only [World.step] at hs
      split at hs <;> cases hs
      exact .inl hc

/-- An overdue call has read the clock, and its deadline has passed. -/
structure OnTime (deadline : Nat → Int64) (q : Timed Req Rsp) : Prop where
  overdue : ∀ c ep, q.world.calls c = some ep → ep.pc.overdue = true →
    ∃ s, q.start c = some s ∧ s + deadline c ≤ q.now
  fits : ∀ c s, q.start c = some s → Fits64 (s.toInt + (deadline c).toInt)

/-- A call past its start does not read the clock for its deadline again. -/
theorem noteStart_of_overdue {q : Timed Req Rsp} {a : Act Req Rsp} {c : Nat}
    {ep : CallEp Req Rsp} (hc : q.world.calls c = some ep) (hlate : ep.pc.overdue = true) :
    q.noteStart a c = q.start c := by
  simp only [Timed.noteStart]
  split
  · next d now =>
      split
      · next hent =>
          refine Function.update_of_ne ?_ _ _
          rintro rfl
          rw [World.enters, hc] at hent
          split at hent
          · next heq =>
              cases heq
              cases hlate
          · cases hent
      · rfl
  · rfl

theorem OnTime.act (hwait : ∀ d t, gaveUp d t = true → d ≤ t) {q : Timed Req Rsp}
    {a : Act Req Rsp} {w : World Req Rsp} (h : OnTime deadline q)
    (hok : CallInRange deadline q (.act a)) (hperm : q.permits deadline gaveUp a = true)
    (hs : q.world.step rsp a = some w) :
    OnTime deadline { q with world := w, start := q.noteStart a } := by
  have hkept : ∀ c ep, q.world.calls c = some ep → ep.pc.overdue = true →
      ∃ s, q.noteStart a c = some s ∧ s + deadline c ≤ q.now := by
    intro c ep hc hlate
    rw [noteStart_of_overdue hc hlate]
    exact h.overdue c ep hc hlate
  refine ⟨fun c ep' hc hlate => ?_, fun c s hc => ?_⟩
  · rcases calls_of_step hs hc with hold | hnew | ⟨act, ep, h', rfl, hep, hcall⟩
    · exact hkept c ep' hold hlate
    · rw [hnew] at hlate
      cases hlate
    · cases act with
      | go now => exact hkept c ep hep (overdue_of_go hcall hlate)
      | expire =>
          simp only [Timed.permits] at hperm
          split at hperm
          · next s hstart => exact ⟨s, hstart, hwait _ _ hperm⟩
          · cases hperm
  · simp only [Timed.noteStart] at hc
    split at hc
    · next d now =>
        split at hc
        · next hent =>
            by_cases hcd : c = d
            · subst hcd
              rw [Function.update_self] at hc
              cases hc
              exact hok hent
            · rw [Function.update_of_ne hcd] at hc
              exact h.fits c s hc
        · exact h.fits c s hc
    · exact h.fits c s hc

theorem onTime_reached (hwait : ∀ d t, gaveUp d t = true → d ≤ t) {q : Timed Req Rsp}
    (hq : (timed req rsp deadline gaveUp).Reached (CallInRange deadline) q) :
    OnTime deadline q := by
  refine hq.invariant (P := OnTime deadline) ?_ ?_
  · rintro ⟨w, now, start⟩ ⟨hw, hstart⟩
    cases hw
    cases hstart
    exact ⟨fun c ep hc => (nomatch hc), fun c s hc => (nomatch hc)⟩
  · intro q a q' _ h hok hs
    cases a with
    | tick reading =>
        simp only [timed, Timed.step] at hs
        split at hs
        · next hle =>
            cases hs
            refine ⟨fun c ep hc hlate => ?_, h.fits⟩
            obtain ⟨s, hstart, hdue⟩ := h.overdue c ep hc hlate
            exact ⟨s, hstart, Int64.le_trans hdue hle⟩
        · cases hs
    | act a =>
        simp only [timed, Timed.step] at hs
        split at hs
        · next hperm =>
            split at hs
            · next w hw =>
                cases hs
                exact h.act hwait hok hperm hw
            · cases hs
        · cases hs

theorem OnTime.patient {q : Timed Req Rsp} (h : OnTime deadline q) : q.Patient deadline := by
  refine ⟨fun c ep t r hc hdone hst => ?_, fun c s hc => (toInt_add_iff _ _).mpr (h.fits c s hc)⟩
  obtain ⟨s, hstart, hdue⟩ := h.overdue c ep hc (by rw [hdone, CallPc.overdue, hst]; rfl)
  rw [Int64.le_iff_toInt_le, (toInt_add_iff _ _).mpr (h.fits c s hstart)] at hdue
  exact ⟨s, hstart, hdue⟩

end Rpc

/-! ## Both -/

/-- The barrier neither gives up early nor overflows exactly if its deadline and the
differences it computes are in range; and in no run in which the deadlines of the calls
are in range does a call give up early. -/
theorem waits_never_early {ε Req Rsp : Type} (b : Barrier ε)
    (hclock : ∀ n, b.clock n ≤ b.clock (n + 1)) (req : Req) (rsp : Rsp) (deadline : Nat → Int64)
    {gaveUp : Int64 → Int64 → Bool} (hwait : ∀ d t, gaveUp d t = true → d ≤ t) :
    (b.Patient ↔ b.InRange) ∧
      ∀ q, (Rpc.timed req rsp deadline gaveUp).Reached (Rpc.CallInRange deadline) q →
        q.Patient deadline :=
  ⟨Barrier.patient_iff hclock, fun _ hq => (Rpc.onTime_reached hwait hq).patient⟩

/-- One endpoint nobody matches; the clock jumps from 5 to 20. -/
def shortBarrier : Barrier Unit where
  endpoints := [some ()]
  matchedCount _ _ := 0
  clock n := if n = 0 then 5 else 20
  deadline := 10

namespace Rpc

/-- A topic with all slots free, at clock reading `now`. -/
def restingTopic (now : Int64) : Timed Nat Nat where
  world := { topic := { slots := fun _ => { request := 0, response := 0 } } }
  now := now

/-- A call that posts its request into slot 0, finds no reply, and after the clock has
come to `late` gives up. -/
def unheardRun (start late : Int64) : List (TimedAct Nat Nat) :=
  .act .addServer :: .act (.newCall 0 7 0) ::
    List.replicate 12 (TimedAct.act (.call 0 (.go start.toInt))) ++
    [TimedAct.tick late, TimedAct.act (.call 0 .expire),
      TimedAct.act (.call 0 (.go late.toInt))]

/-- How call 0 came back. -/
def statusOf (q : Timed Nat Nat) : Option CallStatus :=
  match q.world.calls 0 with
  | some ⟨_, _, .done _ r⟩ => some r.status
  | _ => none

theorem done_of_statusOf {q : Timed Nat Nat} {st : CallStatus} (h : statusOf q = some st) :
    ∃ ep t r, q.world.calls 0 = some ep ∧ ep.pc = .done t r ∧ r.status = st := by
  rw [statusOf] at h
  split at h
  · next request context t r hc => exact ⟨_, t, r, hc, rfl, Option.some.inj h⟩
  · cases h

instance (deadline : Nat → Int64) (q : Timed Nat Nat) (a : TimedAct Nat Nat) :
    Decidable (CallInRange deadline q a) :=
  match a with
  | .act (.call _ (.go _)) => inferInstanceAs (Decidable (_ → Fits64 _))
  | .act (.call _ .expire) | .tick _ | .act .addServer | .act .removeServer | .act (.newCall _ _ _)
  | .act (.take _) | .act (.newReply _ _ _) | .act (.reply _) => isTrue trivial

end Rpc

theorem waits_never_early_short :
    (shortBarrier.Patient ∧ shortBarrier.waitUntilMatched true 1 = some (.deadlineExpired, 0)) ∧
    ∃ q, (Rpc.timed 0 0 (fun _ => 10) fun d t => decide (d ≤ t)).Reached
        (Rpc.CallInRange fun _ => 10) q ∧
      Rpc.statusOf q = some .deadlineExpired ∧ q.Patient fun _ => 10 := by
  have hclock : ∀ n, shortBarrier.clock n ≤ shortBarrier.clock (n + 1) := by
    intro n
    cases n with
    | zero => decide
    | succ n => exact Int64.le_refl _
  have hrange : shortBarrier.InRange := by
    refine ⟨by decide, fun n _ _ => ?_⟩
    have hread : (shortBarrier.clock (n + 1)).toInt = 20 := rfl
    rw [hread]
    decide
  have hrun : ((Rpc.timed 0 0 (fun _ => 10) fun d t => decide (d ≤ t)).execOk
      (fun q a => decide (Rpc.CallInRange (fun _ => 10) q a)) (Rpc.unheardRun 5 20)
      (Rpc.restingTopic 5)).map Rpc.statusOf = some (some .deadlineExpired) := by
    decide +kernel
  obtain ⟨q, hq, hst⟩ := Option.map_eq_some_iff.mp hrun
  have hstart : (Rpc.timed 0 0 (fun _ => 10) fun d t => decide (d ≤ t)).start
      (Rpc.restingTopic 5) := ⟨rfl, rfl⟩
  have hreach : (Rpc.timed 0 0 (fun _ => 10) fun d t => decide (d ≤ t)).Reached
      (Rpc.CallInRange fun _ => 10) q :=
    Machine.reached_of_execOk (J := fun _ => True) (fun _ _ _ => of_decide_eq_true)
      (fun _ _ _ _ _ _ => trivial) trivial (.start hstart) hq
  have hwait : ∀ d t : Int64, decide (d ≤ t) = true → d ≤ t := fun _ _ => of_decide_eq_true
  have hwaits := waits_never_early shortBarrier hclock 0 0 (fun _ => 10) hwait
  exact ⟨⟨hwaits.1.mpr hrange, by decide⟩, q, hreach, hst, hwaits.2 q hreach⟩

/-- The largest duration, from clock reading one. -/
def foreverBarrier : Barrier Unit where
  endpoints := [some ()]
  matchedCount _ _ := 0
  clock _ := 1
  deadline := Int64.maxValue

/-- The sum overflows for the barrier, and a call made with the largest duration comes
back expired at once. -/
theorem waits_overflow :
    (¬ ∀ (ε : Type) (b : Barrier ε), (∀ n, b.clock n ≤ b.clock (n + 1)) → b.Patient) ∧
    ¬ ∀ (Req Rsp : Type) (req : Req) (rsp : Rsp) (deadline : Nat → Int64)
      (gaveUp : Int64 → Int64 → Bool), (∀ d t, gaveUp d t = true → d ≤ t) →
      ∀ q, (Rpc.timed req rsp deadline gaveUp).Reached anyStep q → q.Patient deadline := by
  refine ⟨fun h => ?_, fun h => ?_⟩
  · have hsum := (h Unit foreverBarrier fun _ => Int64.le_refl _).sum
    exact absurd hsum (by decide)
  · have hrun : ((Rpc.timed 0 0 (fun _ => Int64.maxValue) fun d t => decide (d ≤ t)).exec
        (Rpc.unheardRun 1 1) (Rpc.restingTopic 1)).map
        (fun q => (Rpc.statusOf q, q.now, q.start 0)) =
        some (some .deadlineExpired, 1, some 1) := by
      decide +kernel
    obtain ⟨q, hq, hst⟩ := Option.map_eq_some_iff.mp hrun
    have hstart : (Rpc.timed 0 0 (fun _ => Int64.maxValue) fun d t => decide (d ≤ t)).start
        (Rpc.restingTopic 1) := ⟨rfl, rfl⟩
    have hpatient := h Nat Nat 0 0 (fun _ => Int64.maxValue) (fun d t => decide (d ≤ t))
      (fun _ _ => of_decide_eq_true) q (Machine.reached_of_exec (.start hstart) hq)
    simp only [Prod.mk.injEq] at hst
    obtain ⟨ep, t, r, hep, hdone, hr⟩ := Rpc.done_of_statusOf hst.1
    obtain ⟨s, hs, hle⟩ := hpatient.1 0 ep t r hep hdone hr
    rw [hst.2.2] at hs
    cases hs
    rw [hst.2.1] at hle
    exact absurd hle (by decide)

end Xmmsg
