import Xmmsg.InProc.Calls

/-!
# Subscribers do not disturb each other

Two runs of one program: as it is, and with every call of every subscriber but `S`
deleted. The fan-out tables differ, `S` may hold another slot in the second, and the
cores of the others are not even made there. What both runs share is everything
`S` can see of the topic, and that is closed under every call: a publish writes the
same record into `S`'s mailbox in both, since a best-effort publish asks no mailbox
for permission and the loop visits each wired subscriber once.
-/

namespace Xmmsg.InProc

open Xmmsg.Sys

variable {T : Type} {S : Nat}

/-- Not a call on a subscriber other than `S`. -/
def keeps (S : Nat) (c : Op T) : Bool :=
  match c.subscriber with
  | some k => decide (k = S)
  | none => true

/-- What `S` observes: all answers to the calls left, but for a publisher's count of
the subscribers. -/
def sees (S : Nat) : Op T → Bool
  | .publisherMatched _ => false
  | c => keeps S c

/-- The two worlds agree on what `S` can tell. -/
structure Undisturbed (S : Nat) (live : List Nat) (w v : World T) : Prop where
  tabled : Tabled live w.topic
  tabled' : Tabled (live.filter fun k => decide (k = S)) v.topic
  wired : ∀ k, k ∈ live ↔ (w.subs k).pc = .wired .idle
  self : v.subs S = w.subs S
  core : v.topic.cores S = w.topic.cores S
  pubs : v.pubs = w.pubs
  master : v.topic.master = w.topic.master
  ordinal : v.topic.acceptedOrdinal = w.topic.acceptedOrdinal
  publishers : v.topic.publisherCount = w.topic.publisherCount
  ownership : v.topic.declaredOwnership = w.topic.declaredOwnership
  bestEffort : ∀ p, (w.pubs p).qos.reliability = .bestEffort

theorem undisturbed_fresh {w : World T} (hw : w.Fresh)
    (hbest : ∀ p, (w.pubs p).qos.reliability = .bestEffort) : Undisturbed S [] w w := by
  obtain ⟨htopic, hsubs, -⟩ := hw
  have ht : Tabled [] w.topic := by
    rw [htopic]
    exact tabled_empty
  refine ⟨ht, ht, fun k => ?_, rfl, rfl, rfl, rfl, rfl, rfl, rfl, hbest⟩
  rw [hsubs k]
  exact ⟨fun h => (nomatch h), fun h => (nomatch h)⟩

theorem mem_filter_self {live : List Nat} :
    S ∈ (live.filter fun k => decide (k = S)) ↔ S ∈ live := by
  simp

section Calls

variable {size : Nat} {live : List Nat} {w w' v : World T}

theorem Undisturbed.putPub {p : Nat} {h h' : Topic T} {ep : PubEp T}
    (hu : Undisturbed S live w v) (hp : ep.qos = (w.pubs p).qos)
    (ht : Tabled live h) (ht' : Tabled (live.filter fun k => decide (k = S)) h')
    (hcore : h'.cores S = h.cores S) (hm : h'.master = h.master)
    (ho : h'.acceptedOrdinal = h.acceptedOrdinal) (hc : h'.publisherCount = h.publisherCount)
    (hd : h'.declaredOwnership = h.declaredOwnership) :
    Undisturbed S live (w.putPub p h ep) (v.putPub p h' ep) := by
  refine ⟨ht, ht', hu.wired, hu.self, hcore, ?_, hm, ho, hc, hd, fun q => ?_⟩
  · simp only [World.putPub, hu.pubs]
  · by_cases hq : q = p
    · subst hq
      rw [World.putPub_self, hp]
      exact hu.bestEffort q
    · rw [World.putPub_ne _ _ _ _ hq]
      exact hu.bestEffort q

/-- `S` moves in both worlds. -/
theorem Undisturbed.putSelf {live' : List Nat} {h h' : Topic T} {ep : SubEp T}
    (hu : Undisturbed S live w v) (ht : Tabled live' h)
    (ht' : Tabled (live'.filter fun k => decide (k = S)) h')
    (hlive : ∀ k, k ≠ S → (k ∈ live' ↔ k ∈ live)) (hself : S ∈ live' ↔ ep.pc = .wired .idle)
    (hcore : h'.cores S = h.cores S) (hm : h.master = w.topic.master)
    (hm' : h'.master = v.topic.master) (ho : h.acceptedOrdinal = w.topic.acceptedOrdinal)
    (ho' : h'.acceptedOrdinal = v.topic.acceptedOrdinal)
    (hc : h.publisherCount = w.topic.publisherCount)
    (hc' : h'.publisherCount = v.topic.publisherCount)
    (hd : h.declaredOwnership = w.topic.declaredOwnership)
    (hd' : h'.declaredOwnership = v.topic.declaredOwnership) :
    Undisturbed S live' (w.putSub S h ep) (v.putSub S h' ep) := by
  refine ⟨ht, ht', fun k => ?_, by simp, hcore, hu.pubs, ?_, ?_, ?_, ?_, hu.bestEffort⟩
  · by_cases hk : k = S
    · subst hk
      rw [World.putSub_self]
      exact hself
    · rw [World.putSub_ne _ _ _ _ hk, hlive k hk]
      exact hu.wired k
  · exact hm'.trans (hu.master.trans hm.symm)
  · exact ho'.trans (hu.ordinal.trans ho.symm)
  · exact hc'.trans (hu.publishers.trans hc.symm)
  · exact hd'.trans (hu.ownership.trans hd.symm)

/-- A call of somebody else moves the first world only. -/
theorem Undisturbed.putOther {live' : List Nat} {h : Topic T} {k : Nat} {ep : SubEp T}
    (hu : Undisturbed S live w v) (hk : k ≠ S) (ht : Tabled live' h)
    (hlive : ∀ j, j ≠ k → (j ∈ live' ↔ j ∈ live)) (hself : k ∈ live' ↔ ep.pc = .wired .idle)
    (hsame : (live'.filter fun k => decide (k = S)) = live.filter fun k => decide (k = S))
    (hcore : h.cores S = w.topic.cores S) (hm : h.master = w.topic.master)
    (ho : h.acceptedOrdinal = w.topic.acceptedOrdinal)
    (hc : h.publisherCount = w.topic.publisherCount)
    (hd : h.declaredOwnership = w.topic.declaredOwnership) :
    Undisturbed S live' (w.putSub k h ep) v := by
  refine ⟨ht, ?_, fun j => ?_, ?_, ?_, hu.pubs, ?_, ?_, ?_, ?_, hu.bestEffort⟩
  · rw [hsame]
    exact hu.tabled'
  · by_cases hj : j = k
    · subst hj
      rw [World.putSub_self]
      exact hself
    · rw [World.putSub_ne _ _ _ _ hj, hlive j hj]
      exact hu.wired j
  · rw [World.putSub_ne _ _ _ _ hk.symm]
    exact hu.self
  · exact hu.core.trans hcore.symm
  · exact hu.master.trans hm.symm
  · exact hu.ordinal.trans ho.symm
  · exact hu.publishers.trans hc.symm
  · exact hu.ownership.trans hd.symm

variable [Inhabited T] {a : Answer T}

/-- A publish gives both worlds the same record. -/
theorem undisturbed_publish {p : Nat} {m : Message T} (hu : Undisturbed S live w v)
    (hs : w.publish size p m = some (a, w')) :
    ∃ v', v.publish size p m = some (a, v') ∧ Undisturbed S live w' v' := by
  have hbest : ¬ ((w.pubs p).qos.reliability = .reliable ∧ w.topic.wouldBlock = true) := by
    rw [hu.bestEffort p]
    exact fun h0 => (nomatch h0.1)
  have hbest' : ¬ ((w.pubs p).qos.reliability = .reliable ∧ v.topic.wouldBlock = true) := by
    rw [hu.bestEffort p]
    exact fun h0 => (nomatch h0.1)
  simp only [World.publish, hu.pubs] at hs ⊢
  split at hs
  · rw [if_neg hbest] at hs
    cases hs
    rw [if_neg hbest']
    refine ⟨_, rfl, hu.putPub rfl ?_ ?_ ?_ ?_ ?_ ?_ ?_⟩
    all_goals
      first
        | rw [deliver_eq hu.tabled, deliver_eq hu.tabled']
        | rw [deliver_eq hu.tabled]
        | rw [deliver_eq hu.tabled']
    · exact hu.tabled.congr rfl rfl
    · exact hu.tabled'.congr rfl rfl
    · simp [hu.core, hu.ordinal]
    · simp [hu.ordinal]
    · simp [hu.ordinal]
    · exact hu.publishers
    · exact hu.ownership
  · cases hs
    exact ⟨v, rfl, hu⟩
  · cases hs

theorem undisturbed_take {verb : SubCore T → Option (MailRecord T × Bool) × SubCore T}
    (hu : Undisturbed S live w v) (hs : w.take S verb = some (a, w')) :
    ∃ v', v.take S verb = some (a, v') ∧ Undisturbed S live w' v' := by
  simp only [World.take, hu.self, hu.core] at hs ⊢
  split at hs
  · next hpc =>
      cases hs
      refine ⟨_, rfl, hu.putSelf (hu.tabled.congr rfl rfl) (hu.tabled'.congr rfl rfl)
        (fun _ _ => Iff.rfl) ?_ ?_ rfl rfl rfl rfl rfl rfl rfl rfl⟩
      · rw [hpc]
        exact iff_of_true ((hu.wired S).mpr hpc) rfl
      · simp [Topic.setCore]
  · cases hs

/-- The wiring of `S` itself: both worlds have room. -/
theorem undisturbed_subscribe (hu : Undisturbed S live w v)
    (hfits : (S :: live).length ≤ kMaxSubscribers)
    (hs : w.call size (.subscribe S) = some (a, w')) :
    ∃ v', v.call size (.subscribe S) = some (a, v') ∧ Undisturbed S (S :: live) w' v' := by
  simp only [World.call, hu.self] at hs ⊢
  split at hs
  · next hpc =>
      cases hs
      have hnew : S ∉ live := by
        intro hmem
        rw [(hu.wired S).mp hmem] at hpc
        cases hpc
      have hnew' : S ∉ live.filter fun k => decide (k = S) := by
        rw [mem_filter_self]
        exact hnew
      have hroom' : (live.filter fun k => decide (k = S)).length < kMaxSubscribers :=
        Nat.lt_of_le_of_lt (List.length_filter_le _ _) hfits
      obtain ⟨ht, i, hi⟩ := addSubscriber_spec hu.tabled hnew hfits (w.subs S).qos
      obtain ⟨ht', j, hj⟩ := addSubscriber_spec hu.tabled' hnew' hroom' (w.subs S).qos
      refine ⟨_, rfl, hu.putSelf ht ?_ (fun k hk => by simp [hk]) (by simp [SubEp.at']) ?_ ?_ ?_
        ?_ ?_ ?_ ?_ ?_ ?_⟩
      · rw [List.filter_cons_of_pos (by simp)]
        exact ht'
      all_goals first | rw [hi, hj] | rw [hi] | rw [hj]
      simp [Topic.seededCore, hu.master]
  · cases hs

theorem undisturbed_destroy (hu : Undisturbed S live w v)
    (hs : w.call size (.destroySubscriber S) = some (a, w')) :
    ∃ v', v.call size (.destroySubscriber S) = some (a, v') ∧
      Undisturbed S (live.erase S) w' v' := by
  simp only [World.call, hu.self] at hs ⊢
  split at hs
  · next hpc =>
      cases hs
      have hmem : S ∈ live := (hu.wired S).mpr hpc
      obtain ⟨ht, i, hi⟩ := removeSubscriber_spec hu.tabled hmem
      obtain ⟨ht', j, hj⟩ := removeSubscriber_spec hu.tabled' (mem_filter_self.mpr hmem)
      refine ⟨_, rfl, hu.putSelf ht ?_ (fun k hk => List.mem_erase_of_ne hk) ?_ ?_ ?_
        ?_ ?_ ?_ ?_ ?_ ?_ ?_⟩
      · rw [hu.tabled'.nodup.erase_eq_filter] at ht'
        rw [hu.tabled.nodup.erase_eq_filter, List.filter_comm]
        exact ht'
      · simp [SubEp.at', hu.tabled.nodup.mem_erase_iff]
      all_goals first | rw [hi, hj] | rw [hi] | rw [hj]
      exact hu.core
  · cases hs

/-- A call that is left in place is answered alike, but for the count of the
subscribers, and keeps the worlds alike. -/
theorem undisturbed_kept {c : Op T} (hu : Undisturbed S live w v)
    (hfits : (c.note live).length ≤ kMaxSubscribers) (hk : keeps S c = true)
    (hs : w.call size c = some (a, w')) :
    ∃ b v', v.call size c = some (b, v') ∧ (sees S c = true → b = a) ∧
      Undisturbed S (c.note live) w' v' := by
  cases c with
  | advertise p =>
      simp only [World.call, hu.pubs, Topic.addPublisher, hu.publishers, hu.ownership] at hs ⊢
      split at hs
      · split at hs
        · next hadd =>
            split at hadd <;> cases hadd
            cases hs
            next hcond =>
              rw [if_neg hcond]
              exact ⟨_, _, rfl, fun _ => rfl, hu.putPub rfl (hu.tabled.congr rfl rfl)
                (hu.tabled'.congr rfl rfl) hu.core hu.master hu.ordinal rfl rfl⟩
        · next hadd =>
            split at hadd
            · next hcond =>
                cases hadd
                cases hs
                rw [if_pos hcond]
                exact ⟨_, _, rfl, fun _ => rfl, hu.putPub rfl hu.tabled hu.tabled' hu.core
                  hu.master hu.ordinal hu.publishers hu.ownership⟩
            · cases hadd
              contradiction
      · cases hs
  | publish p value context now =>
      obtain ⟨v', hv, hu'⟩ := undisturbed_publish hu hs
      exact ⟨a, v', hv, fun _ => rfl, hu'⟩
  | publishDerived p value upstream context now =>
      obtain ⟨v', hv, hu'⟩ := undisturbed_publish hu hs
      exact ⟨a, v', hv, fun _ => rfl, hu'⟩
  | publishCount p =>
      simp only [World.call, hu.pubs] at hs ⊢
      split at hs <;> cases hs <;> exact ⟨_, v, rfl, fun _ => rfl, hu⟩
  | publisherMatched p =>
      simp only [World.call, hu.pubs] at hs ⊢
      split at hs <;> cases hs <;> exact ⟨_, v, rfl, fun h0 => (nomatch h0), hu⟩
  | destroyPublisher p =>
      simp only [World.call, hu.pubs] at hs ⊢
      split at hs <;> cases hs
      · refine ⟨_, _, rfl, fun _ => rfl, hu.putPub rfl (hu.tabled.congr rfl rfl)
          (hu.tabled'.congr rfl rfl) hu.core hu.master hu.ordinal ?_ hu.ownership⟩
        show v.topic.publisherCount - 1 = w.topic.publisherCount - 1
        rw [hu.publishers]
      · exact ⟨_, _, rfl, fun _ => rfl, hu.putPub rfl hu.tabled hu.tabled' hu.core
          hu.master hu.ordinal hu.publishers hu.ownership⟩
  | subscribe k =>
      obtain rfl : k = S := of_decide_eq_true hk
      obtain ⟨v', hv, hu'⟩ := undisturbed_subscribe hu hfits hs
      exact ⟨a, v', hv, fun _ => rfl, hu'⟩
  | takeLatest k now | tryTake k now =>
      obtain rfl : k = S := of_decide_eq_true hk
      rw [World.call] at hs ⊢
      obtain ⟨v', hv, hu'⟩ := undisturbed_take hu hs
      exact ⟨a, v', hv, fun _ => rfl, hu'⟩
  | count k c =>
      obtain rfl : k = S := of_decide_eq_true hk
      simp only [World.call, hu.self, hu.core] at hs ⊢
      split at hs <;> cases hs
      exact ⟨_, v, rfl, fun _ => rfl, hu⟩
  | subscriberMatched k =>
      obtain rfl : k = S := of_decide_eq_true hk
      simp only [World.call, hu.self, hu.publishers] at hs ⊢
      split at hs <;> cases hs
      exact ⟨_, v, rfl, fun _ => rfl, hu⟩
  | destroySubscriber k =>
      obtain rfl : k = S := of_decide_eq_true hk
      obtain ⟨v', hv, hu'⟩ := undisturbed_destroy hu hs
      exact ⟨a, v', hv, fun _ => rfl, hu'⟩

theorem undisturbed_take_other {k : Nat}
    {verb : SubCore T → Option (MailRecord T × Bool) × SubCore T} (hu : Undisturbed S live w v)
    (hne : k ≠ S) (hs : w.take k verb = some (a, w')) : Undisturbed S live w' v := by
  simp only [World.take] at hs
  split at hs
  · next hpc =>
      cases hs
      refine hu.putOther hne (hu.tabled.congr rfl rfl) (fun _ _ => Iff.rfl) ?_ rfl ?_ rfl rfl
        rfl rfl
      · rw [hpc]
        exact iff_of_true ((hu.wired k).mpr hpc) rfl
      · simp [Topic.setCore, hne.symm]
  · cases hs

/-- A call that is deleted leaves no trace. -/
theorem undisturbed_purged {c : Op T} (hu : Undisturbed S live w v)
    (hfits : (c.note live).length ≤ kMaxSubscribers) (hk : keeps S c = false)
    (hs : w.call size c = some (a, w')) :
    sees S c = false ∧ Undisturbed S (c.note live) w' v := by
  cases c with
  | advertise | publish | publishDerived | publishCount | publisherMatched | destroyPublisher =>
      cases hk
  | subscribe k =>
      have hne : k ≠ S := of_decide_eq_false hk
      refine ⟨hk, ?_⟩
      simp only [World.call] at hs
      split at hs
      · next hpc =>
          cases hs
          have hnew : k ∉ live := by
            intro hmem
            rw [(hu.wired k).mp hmem] at hpc
            cases hpc
          obtain ⟨ht, i, hi⟩ := addSubscriber_spec hu.tabled hnew hfits (w.subs k).qos
          refine hu.putOther hne ht (fun j hj => by simp [Op.note, hj])
            (by simp [SubEp.at', Op.note]) ?_ ?_ ?_ ?_ ?_ ?_
          · rw [Op.note, List.filter_cons_of_neg (by simpa using hne)]
          all_goals rw [hi]
          simp [hne.symm]
      · cases hs
  | takeLatest k now | tryTake k now =>
      rw [World.call] at hs
      exact ⟨hk, undisturbed_take_other hu (of_decide_eq_false hk) hs⟩
  | count k c =>
      simp only [World.call] at hs
      split at hs <;> cases hs
      exact ⟨hk, hu⟩
  | subscriberMatched k =>
      simp only [World.call] at hs
      split at hs <;> cases hs
      exact ⟨hk, hu⟩
  | destroySubscriber k =>
      have hne : k ≠ S := of_decide_eq_false hk
      refine ⟨hk, ?_⟩
      simp only [World.call] at hs
      split at hs
      · next hpc =>
          cases hs
          obtain ⟨ht, i, hi⟩ := removeSubscriber_spec hu.tabled ((hu.wired k).mpr hpc)
          refine hu.putOther hne ht (fun j hj => List.mem_erase_of_ne hj) ?_ ?_ ?_ ?_ ?_ ?_ ?_
          · simp [SubEp.at', Op.note, hu.tabled.nodup.mem_erase_iff]
          · rw [Op.note, hu.tabled.nodup.erase_eq_filter, List.filter_filter]
            refine List.filter_congr fun j _ => ?_
            by_cases hj : j = S <;> simp [hj, hne.symm]
          all_goals rw [hi]
      · cases hs

end Calls

/-- Deleting every call of every other subscriber changes nothing `S` observes: the
answers to all publishes, to the takes of `S` and to its counter reads. -/
theorem subscribers_undisturbed [Inhabited T] {size : Nat} {w w' : World T} {calls : List (Op T)}
    {trace : List (Op T × Answer T)} (hw : w.Fresh)
    (hbest : ∀ p, (w.pubs p).qos.reliability = .bestEffort)
    (hfits : Within Op.note (fun live => live.length ≤ kMaxSubscribers) [] calls)
    (hrun : script (World.call size) calls w = some (trace, w')) (S : Nat) :
    ∃ trace' v', script (World.call size) (calls.filter (keeps S)) w = some (trace', v') ∧
      (trace'.filter fun x => sees S x.1) = (trace.filter fun x => sees S x.1) ∧
      ∀ c, (v'.topic.cores S).counter c = (w'.topic.cores S).counter c := by
  obtain ⟨trace', v', hv, htrace, hu⟩ := script_purge (keeps S) (sees S)
    (R := Undisturbed S) (fun g s t c a s' hfit hu hk hs => undisturbed_kept hu hfit hk hs)
    (fun g s t c a s' hfit hu hk hs => undisturbed_purged hu hfit hk hs) hfits
    (undisturbed_fresh hw hbest) hrun
  exact ⟨trace', v', hv, htrace, fun c => by rw [hu.core]⟩

/-- Subscriber 0 keeps the latest value, subscriber 1 a queue of one. -/
def twoMailboxes : World Nat where
  subs k := if k = 1 then { qos := { history := .queue 1 } } else {}
  pubs _ := {}

/-- Subscriber 1 joins first, lets its queue overflow, and leaves. -/
def twoMailboxCalls : List (Op Nat) :=
  [.subscribe 1, .advertise 0, .subscribe 0, .publish 0 7 0 1, .publish 0 8 0 2, .tryTake 1 3,
    .destroySubscriber 1, .takeLatest 0 4, .count 0 .overwrite]

theorem subscribers_undisturbed_two :
    ∃ trace trace' w' v', script (World.call 8) twoMailboxCalls twoMailboxes = some (trace, w') ∧
      script (World.call 8) (twoMailboxCalls.filter (keeps 0)) twoMailboxes = some (trace', v') ∧
      (trace'.filter fun x => sees 0 x.1) = (trace.filter fun x => sees 0 x.1) ∧
      ∀ c, (v'.topic.cores 0).counter c = (w'.topic.cores 0).counter c := by
  have hsome : (script (World.call 8) twoMailboxCalls twoMailboxes).isSome = true := by
    decide +kernel
  obtain ⟨⟨trace, w'⟩, hrun⟩ := Option.isSome_iff_exists.mp hsome
  have hfresh : twoMailboxes.Fresh := by
    refine ⟨rfl, fun k => ?_, fun p => ⟨rfl, rfl, rfl, rfl⟩⟩
    by_cases hk : k = 1 <;> simp [twoMailboxes, hk]
  have hfits : Within Op.note (fun live => live.length ≤ kMaxSubscribers) [] twoMailboxCalls := by
    simp [Within, twoMailboxCalls, Op.note, kMaxSubscribers]
  obtain ⟨trace', v', hv, htrace, hcount⟩ :=
    subscribers_undisturbed hfresh (fun _ => rfl) hfits hrun 0
  exact ⟨trace, trace', w', v', hrun, hv, htrace, hcount⟩

end Xmmsg.InProc
