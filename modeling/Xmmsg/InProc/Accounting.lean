import Xmmsg.InProc.Delivery
import Xmmsg.Mail.Ledger

/-!
# Overwrite accounting on the in-process reach

The counter of a latest-only subscriber is exact as long as no take settles on
its seed while the publish that wrote the seed is still on its way to the
mailbox. The comments beside `TakeLatest` reason that an unset baseline means the
record in hand is pre-join history; that is true of every record except one, the
record of a publish that stored the master slot before the join read it and
reaches the new slot after. Handed back with the baseline unset, it is delivered
a moment later, the baseline is stamped below it, and the next gap charges it.
-/

namespace Xmmsg.InProc

open Xmmsg.Sys Xmmsg.Mail

variable {T : Type} {size : Nat}

/-- The publish at `pc` carries `r` and has still to store it into the mailbox of
subscriber `k`. -/
def Awaits (w : World T) (k : Nat) (r : MailRecord T) : PubPc T → Prop
  | .master r' => r' = r ∧ ∃ i, w.topic.subSlots i = some k
  | .visit r' j => r' = r ∧ ∃ i, w.topic.subSlots i = some k ∧ j ≤ i
  | .base r' j k' | .stamp r' j k' | .store r' j k' =>
      r' = r ∧ (k' = k ∨ ∃ i, w.topic.subSlots i = some k ∧ j < i)
  | .push r' j _ | .drop r' j _ => r' = r ∧ ∃ i, w.topic.subSlots i = some k ∧ j < i
  | _ => False

/-- A take of subscriber `k` whose baseline load finds it unset does not hold the record
of a publish that is still on its way to the mailbox. -/
def SeedDiscipline (k : Nat) (w : World T) : Act T → Prop
  | .sub x (.go _) => x = k → ∀ r stale, (w.subs k).pc = .wired (.base r stale) →
      (w.topic.cores k).lastConsumedOrdinal = none →
      ∀ p r', Awaits w k r' (w.pubs p).pc → r'.ordinal ≠ r.ordinal
  | _ => True

theorem awaits_of_sight {w : World T} {k : Nat} {st : Stage} (hst : StageOf w k st)
    {r r' : MailRecord T} {ahead : Nat → Bool} (hj : st.joined = true)
    (h : st.sight r ahead = .coming r') :
    r = r' ∧ ∃ i, w.topic.subSlots i = some k ∧ ahead i = true := by
  cases st with
  | «at» i =>
      simp only [Stage.sight] at h
      split at h
      · next ha =>
          injection h with h
          exact ⟨h, i, hst.1, ha⟩
      · cases h
  | _ => cases hj

theorem sight_not_here {st : Stage} {r r' : MailRecord T} {ahead : Nat → Bool} :
    st.sight r ahead ≠ .here r' ∧ st.sight r ahead ≠ .stamped r' := by
  cases st with
  | «at» i =>
      simp only [Stage.sight]
      split <;> exact ⟨fun h0 => (by cases h0), fun h0 => (by cases h0)⟩
  | _ => exact ⟨fun h0 => (by cases h0), fun h0 => (by cases h0)⟩

/-- What the mailbox awaits, some publisher is carrying. -/
theorem SimAt.awaits {k : Nat} {st : Stage} {w : World T} {tr : Trace T} {m : Box T}
    (h : SimAt k st w tr m) {r : MailRecord T} (ha : m.awaited = some r) :
    ∃ p, Awaits w k r (w.pubs p).pc := by
  have hne : m.flight ≠ .quiet := by
    intro h0
    simp [Box.awaited, h0] at ha
  obtain ⟨p, hp⟩ := h.flights.2 hne
  refine ⟨p, ?_⟩
  have hview : m.flight = .coming r ∧ st.joined = true ∨ m.flight = .here r ∨
      m.flight = .stamped r := by
    simp only [Box.awaited] at ha
    split at ha
    · next x hx =>
        split at ha
        · next hj =>
            cases ha
            exact .inl ⟨hx, h.joined ▸ hj⟩
        · cases ha
    · next x hx => cases ha; exact .inr (.inl hx)
    · next x hx => cases ha; exact .inr (.inr hx)
    · cases ha
  rw [← hp] at hview
  cases hpc : (w.pubs p).pc <;> rw [hpc] at hview <;> simp only [flightOf] at hview
  case master r' =>
    rcases hview with ⟨h0, hj⟩ | h0 | h0
    · obtain ⟨h1, i, h2, -⟩ := awaits_of_sight h.stage hj h0
      exact ⟨h1, i, h2⟩
    · exact absurd h0 sight_not_here.1
    · exact absurd h0 sight_not_here.2
  case visit r' j =>
    rcases hview with ⟨h0, hj⟩ | h0 | h0
    · obtain ⟨h1, i, h2, h3⟩ := awaits_of_sight h.stage hj h0
      exact ⟨h1, i, h2, of_decide_eq_true h3⟩
    · exact absurd h0 sight_not_here.1
    · exact absurd h0 sight_not_here.2
  case push r' j k' | drop r' j k' =>
    rcases hview with ⟨h0, hj⟩ | h0 | h0
    · obtain ⟨h1, i, h2, h3⟩ := awaits_of_sight h.stage hj h0
      exact ⟨h1, i, h2, of_decide_eq_true h3⟩
    · exact absurd h0 sight_not_here.1
    · exact absurd h0 sight_not_here.2
  case base r' j k' | stamp r' j k' | store r' j k' =>
    by_cases hk : k' = k
    · rw [if_pos hk] at hview
      rcases hview with ⟨h0, -⟩ | h0 | h0 <;> cases h0
      exact ⟨rfl, .inl hk⟩
    · rw [if_neg hk] at hview
      rcases hview with ⟨h0, hj⟩ | h0 | h0
      · obtain ⟨h1, i, h2, h3⟩ := awaits_of_sight h.stage hj h0
        exact ⟨h1, .inr ⟨i, h2, of_decide_eq_true h3⟩⟩
      · exact absurd h0 sight_not_here.1
      · exact absurd h0 sight_not_here.2
  all_goals rcases hview with ⟨h0, -⟩ | h0 | h0 <;> cases h0

/-! ## The result -/

/-- The books of subscriber `k`. -/
structure ExactAccounting (w : World T) (tr : Trace T) (k : Nat) : Prop where
  /-- Only what was stored in this mailbox is charged. -/
  stored : ∀ o ∈ tr.charged k, o ∈ tr.stored k
  /-- Nothing is both handed back and charged. -/
  unreturned : ∀ o ∈ tr.charged k, o ∉ tr.returned k
  /-- The counter counts the charges, each once. -/
  counted : (w.topic.cores k).overwriteCount = (tr.charged k).length ∧ (tr.charged k).Nodup
  /-- Nothing in flight and the newest record just taken: the counter is the
  number of stored ordinals no take handed back. -/
  quiescent : (∀ p, (w.pubs p).pc.airborne = false) → (w.subs k).pc = .wired .idle →
    (tr.returned k).getLast? = some w.topic.acceptedOrdinal →
    (w.topic.cores k).overwriteCount =
      ((tr.stored k).filter (· ∉ tr.returned k)).length

theorem overwrite_accounting {k : Nat} {w : World T} {tr : Trace T}
    (hw : (traced T size).Reached (fun q a => SeedDiscipline k q.1 a) (w, tr))
    (hk : (w.subs k).qos.history.isLatest = true) : ExactAccounting w tr k := by
  have hcare : ∀ (w : World T) a w' tr m st e m' st',
      (traced T size).Reached (fun q a => SeedDiscipline k q.1 a) (w, tr) →
      (w.subs k).qos.history.isLatest = true → SeedDiscipline k w a →
      w.step size a = some w' → SimAt k st w tr m → m.Step e m' →
      SimAt k st' w' (note w a w' tr) m' →
      (e.benign = true ∨ OwnEvent w k e ∧ ∃ now, a = .sub k (.go now)) → m.Careful e := by
    intro w a w' tr m st e m' st' _ _ hok _ hsim _ _ he
    rcases he with he | ⟨he, now, rfl⟩
    · exact Box.careful_of_benign he
    · rcases he with he | ⟨rfl, r, stale, hpc⟩ | ⟨late, i, rfl, -⟩
      · exact Box.careful_of_benign he
      · -- the comparison: what the mailbox awaits, a publisher carries
        intro x p hx hb hp
        have htak := hsim.taking
        rw [hpc, hx] at htak
        cases htak
        obtain ⟨q, hq⟩ := hsim.awaits hp
        exact hok rfl _ stale hpc (hsim.base.trans hb) q p hq
      · trivial
  obtain ⟨m, st, hled, -, hsim⟩ := mailbox_reached Box.Ledger Box.Careful
    (fun m e m' h he hs => Box.ledger_step h he hs) Box.ledger_start k hcare hw hk
  constructor
  · exact fun o ho => hsim.stored ▸ hled.charged_stored (hsim.charged ▸ ho)
  · exact fun o ho => hsim.returned ▸ hled.charged_not_returned (hsim.charged ▸ ho)
  · rw [hsim.overwrites, ← hsim.charged]
    exact hled.overwrites_eq
  · intro _ hpc hlast
    have hidle : m.taking = .idle := by
      rw [← hsim.taking, hpc]
      rfl
    rw [hsim.overwrites, ← hsim.stored, ← hsim.returned]
    refine hled.overwrites_exact hidle ?_
    rw [hsim.returned, hsim.accepted]
    exact List.mem_of_getLast? hlast

/-! ## Runs -/

/-- Everybody unwired: latest-only subscribers, one-writer publishers. -/
def quietTopic : World Nat where
  subs _ := {}
  pubs _ := {}

theorem quietTopic_fresh : quietTopic.Fresh :=
  ⟨rfl, fun _ => rfl, fun _ => ⟨rfl, rfl, rfl, rfl⟩⟩

theorem quietTopic_reached {ok : World Nat × Trace Nat → Act Nat → Prop} {size : Nat} :
    (traced Nat size).Reached ok (quietTopic, {}) :=
  .start ⟨quietTopic_fresh, rfl⟩

def subGo (k n : Nat) : List (Act Nat) := List.replicate n (.sub k (.go 0))

def pubGo (p n : Nat) : List (Act Nat) := List.replicate n (.pub p (.go 0))

/-- `Subscribe` when a value is there to seed from. -/
def joinSeeded (k : Nat) : List (Act Nat) := .sub k .subscribe :: subGo k 7

def takeSome (k n : Nat) : List (Act Nat) := .sub k .takeLatest :: subGo k n

/-- A publish up to the store into the master slot. -/
def publishMaster (p v : Nat) : List (Act Nat) := .pub p (.publish { value := v }) :: pubGo p 3

/-- A decidable part of the discipline: subscriber `k` never settles on a seed. -/
def seedCheck (k : Nat) (q : World Nat × Trace Nat) : Act Nat → Bool
  | .sub x (.go _) => x != k ||
      match (q.1.subs k).pc with
      | .wired (.base _ _) => (q.1.topic.cores k).lastConsumedOrdinal.isSome
      | _ => true
  | _ => true

theorem seedCheck_sound {k : Nat} (q : World Nat × Trace Nat) (a : Act Nat)
    (h : seedCheck k q a = true) : SeedDiscipline k q.1 a := by
  cases a with
  | pub p b => trivial
  | sub x b =>
      cases b with
      | go now =>
          rintro rfl r stale hpc hb
          simp [seedCheck, hpc, hb] at h
      | _ => trivial

/-- Two publishes into an attached mailbox, then a take: one record overwritten,
one charged. Another subscriber has settled on its seed meanwhile. -/
theorem overwrite_accounting_two : ∃ (w : World Nat) (tr : Trace Nat),
    (traced Nat 8).Reached (fun q a => SeedDiscipline 0 q.1 a) (w, tr) ∧
      tr.stored 0 = [1, 2] ∧ tr.returned 0 = [2] ∧
      (w.topic.cores 0).overwriteCount = 1 ∧ ExactAccounting w tr 0 ∧
      tr.returned 1 = [1, 2] ∧ tr.charged 1 = [1] := by
  have hrun : ((traced Nat 8).execOk (seedCheck 0)
      (.pub 0 .advertise :: .sub 0 .subscribe :: subGo 0 6 ++
        publishMaster 0 10 ++ .sub 1 .subscribe :: subGo 1 8 ++ takeSome 1 5 ++ pubGo 0 74 ++
        publishMaster 0 20 ++ pubGo 0 72 ++ takeSome 0 7 ++ takeSome 1 7) (quietTopic, {})).map
        (fun q => ((q.2.stored 0, q.2.returned 0, (q.1.topic.cores 0).overwriteCount),
          (q.1.subs 0).qos.history.isLatest, q.2.returned 1, q.2.charged 1)) =
      some (([1, 2], [2], 1), true, [1, 2], [1]) := by decide +kernel
  obtain ⟨⟨w, tr⟩, hw, hf⟩ := Option.map_eq_some_iff.mp hrun
  simp only [Prod.mk.injEq] at hf
  have hr := Machine.reached_of_execOk (M := traced Nat 8) (J := fun _ => True)
    (fun q a _ => seedCheck_sound q a) (fun _ _ _ _ _ _ => trivial) trivial
    quietTopic_reached hw
  obtain ⟨⟨hstored, hret, hcount⟩, hlat, hret₁, hcharged₁⟩ := hf
  exact ⟨w, tr, hr, hstored, hret, hcount, overwrite_accounting hr hlat, hret₁, hcharged₁⟩

/-- The publish of ordinal 1 stores the master slot; a subscriber joins, is seeded
from it and takes it; the publish reaches the new mailbox; ordinal 2 is published
and taken. Both ordinals were handed back, and one is charged. -/
theorem overwrite_accounting_seed_charged :
    ¬ ∀ (w : World Nat) (tr : Trace Nat), (traced Nat 8).Reached anyStep (w, tr) →
      ∀ k, (w.subs k).qos.history.isLatest = true → ExactAccounting w tr k := by
  intro hall
  have hrun : ((traced Nat 8).exec
      (.pub 0 .advertise :: publishMaster 0 10 ++ joinSeeded 0 ++ takeSome 0 5 ++
        pubGo 0 71 ++ publishMaster 0 20 ++ pubGo 0 70 ++ takeSome 0 7)
      (quietTopic, {})).map
        (fun q => (q.2.charged 0, q.2.returned 0, (q.1.subs 0).qos.history.isLatest)) =
      some ([1], [1, 2], true) := by decide
  obtain ⟨⟨w, tr⟩, hw, hf⟩ := Option.map_eq_some_iff.mp hrun
  simp only [Prod.mk.injEq] at hf
  have hbooks := hall w tr (Machine.reached_of_exec quietTopic_reached hw) 0 hf.2.2
  have := hbooks.unreturned 1 (by rw [hf.1]; decide)
  rw [hf.2.1] at this
  exact absurd this (by decide)

end Xmmsg.InProc
