import Xmmsg.Shm.Delivery
import Xmmsg.Shm.Staying
import Xmmsg.Mail.Ledger

/-!
# Overwrite accounting across publisher crashes

The segment authors the ordinals so that they stay contiguous over publisher
restarts, and the header says this keeps the gap accounting exact. Contiguous
ordinals are not enough: a publisher killed after its draw leaves an ordinal that
reached this mailbox never, and the next generation's first delivery puts a gap
over it. With the baseline stamped the next take charges it as overwritten.

`CrashDiscipline` asks that no publisher is killed there, and that no take
settles on a seed whose publish is still on its way, as on the in-process reach.
The slot protocol is taken to be kept (`RegionDiscipline`), which it is by itself
while nobody gives a slot back.
-/

namespace Xmmsg.Shm

open Xmmsg.Sys Xmmsg.Mail

variable {T : Type} {size : Nat}

/-- The record a publisher has drawn an ordinal for and has still to store, or to
finish storing, into slot `i`. -/
def PubPc.owes (i : Nat) : PubPc T → Option (MailRecord T)
  | .masterBegin r | .masterEnd r => some r
  | .loadState r j | .loadKind r j | .loadBase r j | .stamp r j | .cellBegin r j
  | .cellEnd r j => if j ≤ i then some r else none
  | .push r j | .drop r j => if j < i then some r else none
  | _ => none

/-- What the steps of a run have to keep for the books of endpoint `e`. -/
def CrashDiscipline (e : Nat) (w : World T) : Act T → Prop
  -- a publisher that owes this mailbox a record dies only with the baseline unset
  | .die pid => ∀ p i, w.livePub p → (w.pubs p).pid = pid →
      (w.subs e).pc.wiredAt = some i → (w.pubs p).pc.owes i ≠ none →
      (w.seg.subSlots i).lastConsumedOrdinal = none
  -- a take that finds the baseline unset holds no record owed to this mailbox
  | .sub e' (.go _) => e' = e → ∀ i r stale, (w.subs e).pc = .wired i (.base r stale) →
      (w.seg.subSlots i).lastConsumedOrdinal = none →
      ∀ p r', w.livePub p → (w.pubs p).pc.owes i = some r' → r'.ordinal ≠ r.ordinal
  | _ => True

theorem sight_coming {i : Nat} {r r' : MailRecord T} {ahead : Nat → Bool}
    (h : sight (some i) r ahead = .coming r') : r = r' ∧ ahead i = true := by
  simp only [sight] at h
  split at h
  · next ha =>
      injection h with h
      exact ⟨h, ha⟩
  · cases h

theorem sight_not_here {st : Option Nat} {r r' : MailRecord T} {ahead : Nat → Bool} :
    sight st r ahead ≠ .here r' ∧ sight st r ahead ≠ .stamped r' := by
  cases st with
  | none => exact ⟨fun h0 => (by cases h0), fun h0 => (by cases h0)⟩
  | some i =>
      simp only [sight]
      split <;> exact ⟨fun h0 => (by cases h0), fun h0 => (by cases h0)⟩

/-- What a wired mailbox awaits from a fan-out, the publisher owes it. -/
theorem owes_of_flight {i : Nat} {r : MailRecord T} {pc : PubPc T}
    (h : flightOf (some i) pc = .coming r ∨ flightOf (some i) pc = .here r ∨
      flightOf (some i) pc = .stamped r) : pc.owes i = some r := by
  cases pc <;> simp only [flightOf] at h
  case masterBegin r' | masterEnd r' =>
    rcases h with h | h | h
    · rw [PubPc.owes, (sight_coming h).1]
    · exact absurd h sight_not_here.1
    · exact absurd h sight_not_here.2
  case loadState r' j | push r' j | drop r' j =>
    rcases h with h | h | h
    · obtain ⟨rfl, ha⟩ := sight_coming h
      rw [PubPc.owes, if_pos (of_decide_eq_true ha)]
    · exact absurd h sight_not_here.1
    · exact absurd h sight_not_here.2
  case loadKind r' j | loadBase r' j | stamp r' j | cellBegin r' j | cellEnd r' j =>
    by_cases hij : some i = some j
    · rw [if_pos hij] at h
      cases hij
      rcases h with h | h | h <;> cases h
      rw [PubPc.owes, if_pos (Nat.le_refl i)]
    · rw [if_neg hij] at h
      rcases h with h | h | h
      · obtain ⟨rfl, ha⟩ := sight_coming h
        rw [PubPc.owes, if_pos (Nat.le_of_lt (of_decide_eq_true ha))]
      · exact absurd h sight_not_here.1
      · exact absurd h sight_not_here.2
  all_goals rcases h with h | h | h <;> cases h

/-- What the mailbox of slot `i` awaits, the publisher in flight owes it. -/
theorem owes_of_awaited {i p : Nat} {w : World T} {m : Box T} {r : MailRecord T}
    (ha : m.awaited = some r) (hl : w.livePub p) (hp : w.flight (some i) p = m.flight) :
    (w.pubs p).pc.owes i = some r := by
  rw [flight_live hl] at hp
  refine owes_of_flight ?_
  rw [hp]
  simp only [Box.awaited] at ha
  split at ha
  · next x hx =>
      split at ha
      · cases ha
        exact .inl hx
      · cases ha
  · next x hx =>
      cases ha
      exact .inr (.inl hx)
  · next x hx =>
      cases ha
      exact .inr (.inr hx)
  · cases ha

/-- A mailbox awaits something only once its endpoint is wired. -/
theorem SimAt.wired_of_awaited {e : Nat} {w : World T} {tr : Trace T} {m : Box T}
    (h : SimAt e w tr m) {r : MailRecord T} (ha : m.awaited = some r) :
    (∃ i, (w.subs e).pc.wiredAt = some i) ∧
      ∃ p, w.livePub p ∧ w.flight (w.subs e).pc.wiredAt p = m.flight := by
  have hne : m.flight ≠ .quiet := by
    intro h0
    simp [Box.awaited, h0] at ha
  obtain ⟨p, hp⟩ := h.flights.2 hne
  have hne' : w.flight (w.subs e).pc.wiredAt p ≠ .quiet := by
    rw [hp]
    exact hne
  have hl := (airborne_of_flight hne').1
  refine ⟨?_, p, hl, hp⟩
  cases hw : (w.subs e).pc.wiredAt with
  | some i => exact ⟨i, rfl⟩
  | none =>
      -- unwired, every fan-out is coming and none is awaited
      exfalso
      have hj := h.joined
      rw [hw] at hj hp
      rw [flight_live hl] at hp
      have hcoming : ∃ x, m.flight = .coming x := by
        rw [← hp] at hne ⊢
        cases hpc : (w.pubs p).pc <;> rw [hpc] at hne <;>
          first | exact absurd rfl hne | exact ⟨_, rfl⟩
      obtain ⟨x, hx⟩ := hcoming
      simp [Box.awaited, hx, hj] at ha

/-! ## The result -/

/-- The books of endpoint `e`, wired at slot `i`. -/
structure ExactAccounting (w : World T) (tr : Trace T) (e i : Nat) : Prop where
  /-- Only what was stored in this mailbox is charged. -/
  stored : ∀ o ∈ tr.charged e, o ∈ tr.stored e
  /-- Nothing is both handed back and charged. -/
  unreturned : ∀ o ∈ tr.charged e, o ∉ tr.returned e
  /-- The counter counts the charges, each once. -/
  counted : (w.seg.subSlots i).overwriteCount = (tr.charged e).length ∧ (tr.charged e).Nodup
  /-- Nothing in flight and the newest record taken: the distinct ordinals handed
  back since the stamped baseline and the counter add up to the deliveries. -/
  quiescent : (∀ p, w.livePub p → (w.pubs p).pc.airborne = false) →
    (w.subs e).pc = .wired i .idle → w.seg.acceptedOrdinal ∈ tr.returned e →
    ∀ b0, tr.origin e = some b0 →
      (((tr.returned e).filter (b0 < ·)).dedup).length + (w.seg.subSlots i).overwriteCount =
        (tr.stored e).length

theorem crash_accounting {w : World T} {tr : Trace T} {e i : Nat}
    (hw : (traced T size).Reached (fun q a => RegionDiscipline q.1 a ∧ CrashDiscipline e q.1 a)
      (w, tr)) (hlive : w.liveSub e) (hlat : (w.subs e).history.isLatest = true)
    (hpc : (w.subs e).pc.wiredAt = some i) : ExactAccounting w tr e i := by
  have hcare : ∀ (w : World T) a w' tr m ev m',
      (traced T size).Reached (fun q a => RegionDiscipline q.1 a ∧ CrashDiscipline e q.1 a)
        (w, tr) → CrashDiscipline e w a → w.step size a = some w' → Followed w' e → SimAt e w tr m →
      m.Step ev m' → SimAt e w' (note w a w' tr) m' →
      (ev.benign = true ∨ Notable w e m a ev) → m.Careful ev := by
    intro w a w' tr m ev m' _ hok _ _ hsim _ _ hev
    rcases hev with hev | hev
    · exact Box.careful_of_benign hev
    · cases hev with
      | own hev =>
          rcases hev with hev | ⟨rfl, i, r, stale, hpc⟩ | ⟨late, i, rfl, -⟩
          · exact Box.careful_of_benign hev
          · -- the comparison: what the mailbox awaits, a publisher owes it
            intro x y hx hb hy
            have htak := hsim.taking
            rw [hpc, hx] at htak
            cases htak
            obtain ⟨-, p, hl, hp⟩ := hsim.wired_of_awaited hy
            have hbase := (hsim.region i (.inr (by rw [hpc]; rfl))).base
              (by rw [hpc]; simp [SubPc.progress])
            rw [hpc] at hp
            exact hok rfl i _ stale hpc (hbase.trans hb) p y hl (owes_of_awaited hy hl hp)
          · trivial
      | @crash p hl hp =>
          by_cases ha : m.awaited = none
          · exact .inl ha
          · obtain ⟨y, hy⟩ := Option.ne_none_iff_exists'.mp ha
            obtain ⟨⟨i, hi⟩, -⟩ := hsim.wired_of_awaited hy
            have hbase := (hsim.region i (.inr hi)).base
              (by rw [(SubPc.wiredAt_holds hi (.inr hi)).2]; omega)
            rw [hi] at hp
            refine .inr (hbase ▸ hok p i hl rfl hi ?_)
            rw [owes_of_awaited hy hl hp]
            exact Option.some_ne_none y
  have hleft : (w.subs e).pc.left = false := by
    cases hp : (w.subs e).pc <;> rw [hp] at hpc <;> first | rfl | cases hpc
  obtain ⟨m, hled, -, hsim⟩ := mailbox_reached Box.Ledger Box.Careful
    (fun m ev m' h he hs => Box.ledger_step h he hs) Box.ledger_start e hcare hw
    ⟨hlive, hlat, hleft⟩
  have hover := (hsim.region i (.inr hpc)).overwrites
    (by rw [(SubPc.wiredAt_holds hpc (.inr hpc)).2]; omega)
  constructor
  · exact fun o ho => hsim.stored ▸ hled.charged_stored (hsim.charged ▸ ho)
  · exact fun o ho => hsim.returned ▸ hled.charged_not_returned (hsim.charged ▸ ho)
  · rw [hover, ← hsim.charged]
    exact hled.overwrites_eq
  · intro hquiet hidle hnew b0 h0
    have htak : m.taking = .idle := by
      rw [← hsim.taking, hidle]
      rfl
    have haw : m.awaited = none := by
      by_contra ha
      obtain ⟨y, hy⟩ := Option.ne_none_iff_exists'.mp ha
      obtain ⟨⟨j, hj⟩, p, hl, hp⟩ := hsim.wired_of_awaited hy
      have howes := owes_of_awaited hy hl (hj ▸ hp)
      have := hquiet p hl
      cases hq : (w.pubs p).pc <;> rw [hq] at howes this <;>
        first | (cases this; done) | cases howes
    have := hled.conservation htak (by rw [hsim.joined, hpc]; rfl) haw
      (by rw [hsim.accepted, hsim.returned]; exact hnew) (hsim.origin.trans h0)
    rw [hover, ← hsim.stored, ← hsim.returned]
    exact this

/-! ## Runs -/

/-- A decidable part of the discipline for endpoint 0, in runs whose publishers
are the first `k`: die owing nothing, settle on no seed. -/
def owingCheck (k : Nat) (w : World T) : Act T → Bool
  | .die pid => (List.range k).all fun p => (w.pubs p).pid != pid ||
      match (w.subs 0).pc.wiredAt with
      | some i => ((w.pubs p).pc.owes i).isNone
      | none => true
  | .sub _ (.go _) =>
      match (w.subs 0).pc with
      | .wired i (.base _ _) => (w.seg.subSlots i).lastConsumedOrdinal.isSome
      | _ => true
  | _ => true

def crashCheck (k : Nat) (q : World T × Trace T) (a : Act T) : Bool :=
  stayCheck 1 k q.1 a && owingCheck k q.1 a

theorem crashCheck_sound {k : Nat} (q : World T × Trace T) (a : Act T) (hJ : Few 1 k q.1)
    (h : crashCheck k q a = true) : Staying q.1 a ∧ CrashDiscipline 0 q.1 a := by
  rw [crashCheck, Bool.and_eq_true] at h
  obtain ⟨h1, h2⟩ := h
  refine ⟨stayCheck_sound hJ h1, ?_⟩
  cases a with
  | die pid =>
      intro p i _ hpid hi howes
      exfalso
      by_cases hp : p < k
      · have := List.all_eq_true.mp h2 p (List.mem_range.mpr hp)
        simp [hpid, hi, howes] at this
      · rw [hJ.2 p (Nat.le_of_not_lt hp)] at howes
        exact howes rfl
  | pub p b => trivial
  | sub e b =>
      cases b with
      | go now =>
          intro _ i r stale hpc hb
          simp [owingCheck, hpc, hb] at h2
      | _ => trivial

theorem crashCheck_keeps {k : Nat} {q q' : World T × Trace T} {a : Act T} (hJ : Few 1 k q.1)
    (h : crashCheck k q a = true) (hs : (traced T size).step q a = some q') :
    Few 1 k q'.1 := by
  rw [crashCheck, Bool.and_eq_true] at h
  exact stayCheck_keeps hJ h.1 (Machine.withHistory_step hs).1

/-- Endpoint 0 lives, latest-only, wired at slot 0. -/
def wiredCheck (w : World T) : Bool :=
  w.alive (w.subs 0).pid && (w.subs 0).history.isLatest && (w.subs 0).pc.wiredAt == some 0

theorem wired_of_check {w : World T} (h : wiredCheck w = true) :
    w.liveSub 0 ∧ (w.subs 0).history.isLatest = true ∧ (w.subs 0).pc.wiredAt = some 0 := by
  simp only [wiredCheck, Bool.and_eq_true, beq_iff_eq] at h
  exact ⟨h.1.1, h.1.2, h.2⟩

/-- The publisher of ordinal 1 is killed when its fan-out has passed the mailbox;
the next generation publishes two more. One record is overwritten and charged. -/
theorem crash_accounting_restart : ∃ (w : World Nat) (tr : Trace Nat),
    (traced Nat 8).Reached (fun q a => RegionDiscipline q.1 a ∧ CrashDiscipline 0 q.1 a)
      (w, tr) ∧
      tr.stored 0 = [1, 2, 3] ∧ tr.returned 0 = [1, 3] ∧ tr.charged 0 = [2] ∧
      ExactAccounting w tr 0 0 := by
  have hrun : ((traced Nat 8).execOk (crashCheck 2)
      (pubGo 0 21 ++ subGo 0 13 ++ .pub 0 (.publish { value := 10 }) :: pubGo 0 9 ++
        .die 101 :: .sub 0 .takeLatest :: subGo 0 7 ++ pubGo 1 25 ++
        .pub 1 (.publish { value := 20 }) :: pubGo 1 27 ++
        .pub 1 (.publish { value := 30 }) :: pubGo 1 27 ++
        .sub 0 .takeLatest :: subGo 0 7) (lonely Nat, {})).map
        (fun q => (q.2.stored 0, q.2.returned 0, q.2.charged 0, wiredCheck q.1)) =
      some ([1, 2, 3], [1, 3], [2], true) := by decide
  obtain ⟨⟨w, tr⟩, hw, hf⟩ := Option.map_eq_some_iff.mp hrun
  simp only [Prod.mk.injEq] at hf
  have hstay : (traced Nat 8).Reached (fun q a => Staying q.1 a ∧ CrashDiscipline 0 q.1 a)
      (w, tr) :=
    Machine.reached_of_execOk (J := fun q => Few 1 2 q.1) crashCheck_sound
      (fun _ _ _ => crashCheck_keeps) (lonely_few 1 2) lonely_reached hw
  have hr := staying_region hstay
  obtain ⟨h1, h2, h3⟩ := wired_of_check hf.2.2.2
  exact ⟨w, tr, hr, hf.1, hf.2.1, hf.2.2.1, crash_accounting hr h1 h2 h3⟩

/-- Ordinal 1 is delivered and taken; the publisher draws ordinal 2 and is killed;
the next generation delivers ordinal 3 and it is taken. Ordinal 2 is charged and
was never stored. -/
theorem crash_accounting_phantom :
    ¬ ∀ (w : World Nat) (tr : Trace Nat), (traced Nat 8).Reached anyStep (w, tr) →
      ∀ e i, w.liveSub e → (w.subs e).history.isLatest = true →
        (w.subs e).pc.wiredAt = some i → ExactAccounting w tr e i := by
  intro hall
  have hrun : ((traced Nat 8).exec
      (pubGo 0 21 ++ subGo 0 13 ++ .pub 0 (.publish { value := 10 }) :: pubGo 0 28 ++
        .sub 0 .takeLatest :: subGo 0 7 ++ .pub 0 (.publish { value := 20 }) :: pubGo 0 1 ++
        .die 101 :: pubGo 1 25 ++ .pub 1 (.publish { value := 30 }) :: pubGo 1 27 ++
        .sub 0 .takeLatest :: subGo 0 7) (lonely Nat, {})).map
        (fun q => (q.2.stored 0, q.2.charged 0, wiredCheck q.1)) =
      some ([1, 3], [2], true) := by decide
  obtain ⟨⟨w, tr⟩, hw, hf⟩ := Option.map_eq_some_iff.mp hrun
  simp only [Prod.mk.injEq] at hf
  obtain ⟨h1, h2, h3⟩ := wired_of_check hf.2.2
  have hbooks := hall w tr (Machine.reached_of_exec lonely_reached hw) 0 0 h1 h2 h3
  have := hbooks.stored 2 (by rw [hf.2.1]; decide)
  rw [hf.1] at this
  exact absurd this (by decide)

end Xmmsg.Shm
