import Xmmsg.InProc.Calls

/-!
# The order in which a topic is wired

A topic comes into being with its first wiring call, and the fan-out table is filled
in arrival order. `WiredTo` says everything about a topic after some wiring calls but
which slot is whose, and says it in terms of who is wired, not when; so two orders of
the same calls end in worlds that differ in the table only (`twins_of_perm`).

`Twins` are such worlds. Publishing goes through the table slot by slot, but what it
does to each subscriber does not depend on the slot (`deliver_eq`), and nothing else
reads the table. Twins answer alike and stay twins (`twins_call`).
-/

namespace Xmmsg

/-- The call is made on a publisher of `ps` or a subscriber of `ss`, and neither wires
nor destroys it. -/
def Op.On {T : Type} (ps ss : List Nat) : Op T → Prop
  | .publish p _ _ _ | .publishDerived p _ _ _ _ | .publishCount p | .publisherMatched p => p ∈ ps
  | .takeLatest k _ | .tryTake k _ | .count k _ | .subscriberMatched k => k ∈ ss
  | .advertise _ | .subscribe _ | .destroyPublisher _ | .destroySubscriber _ => False

instance {T : Type} (ps ss : List Nat) (c : Op T) : Decidable (c.On ps ss) :=
  match c with
  | .publish p _ _ _ | .publishDerived p _ _ _ _ | .publishCount p | .publisherMatched p =>
      inferInstanceAs (Decidable (p ∈ ps))
  | .takeLatest k _ | .tryTake k _ | .count k _ | .subscriberMatched k =>
      inferInstanceAs (Decidable (k ∈ ss))
  | .advertise _ | .subscribe _ | .destroyPublisher _ | .destroySubscriber _ =>
      inferInstanceAs (Decidable False)

/-- Whom a list of calls advertises and subscribes. -/
def publishersOf {T : Type} (calls : List (Op T)) : List Nat :=
  calls.filterMap fun
    | .advertise p => some p
    | _ => none

def subscribersOf {T : Type} (calls : List (Op T)) : List Nat :=
  calls.filterMap fun
    | .subscribe k => some k
    | _ => none

/-- What a wiring call that succeeds is answered. -/
def Op.wiredAnswer {T : Type} [Inhabited T] : Op T → Answer T
  | .advertise _ => .advertised .ok
  | .subscribe _ => .subscribed .ok
  | _ => .done

end Xmmsg

namespace Xmmsg.InProc

open Xmmsg.Sys

variable {T : Type}

/-! ## A topic after its wiring -/

/-- Publishers `ps` and subscribers `ss` have been wired to the new topic of `w₀`, and
nothing else has happened. -/
structure WiredTo (w₀ : World T) (ps ss : List Nat) (w : World T) : Prop where
  subs : ∀ k, w.subs k = if k ∈ ss then (w₀.subs k).at' (.wired .idle) else w₀.subs k
  pubs : ∀ p, w.pubs p = if p ∈ ps then (w₀.pubs p).at' .idle else w₀.pubs p
  cores : ∀ k, w.topic.cores k = if k ∈ ss then .new (w₀.subs k).qos else .new {}
  master : w.topic.master = none
  acceptedOrdinal : w.topic.acceptedOrdinal = 0
  publisherCount : w.topic.publisherCount = ps.length
  owners : ∀ p ∈ ps, w.topic.declaredOwnership = (w₀.pubs p).qos.ownership
  unowned : ps = [] → w.topic.declaredOwnership = .exclusive
  mutexes : w.topic.wiringMutex = none ∧ w.topic.sharedWriteMutex = none
  tabled : Tabled ss w.topic

/-- One publisher, or nothing but sharing ones. -/
def Compatible (w₀ : World T) (ps : List Nat) : Prop :=
  ps.length ≤ 1 ∨ ∀ p ∈ ps, (w₀.pubs p).qos.ownership = .shared

theorem Compatible.of_perm {w₀ : World T} {ps qs : List Nat} (h : Compatible w₀ ps)
    (hp : ps.Perm qs) : Compatible w₀ qs :=
  h.imp (fun h => hp.length_eq ▸ h) fun h p hq => h p (hp.mem_iff.mpr hq)

theorem Compatible.of_append {w₀ : World T} {ps qs : List Nat} (h : Compatible w₀ (ps ++ qs)) :
    Compatible w₀ qs := by
  refine h.imp (fun h => ?_) fun h p hp => h p (List.mem_append_right _ hp)
  rw [List.length_append] at h
  omega

theorem wiredTo_fresh {w₀ : World T} (h : w₀.Fresh) : WiredTo w₀ [] [] w₀ := by
  obtain ⟨ht, -, -⟩ := h
  refine ⟨fun _ => rfl, fun _ => rfl, fun _ => ?_, ?_, ?_, ?_, fun p hp => (nomatch hp),
    fun _ => ?_, ?_, ?_⟩ <;> rw [ht]
  · rfl
  · rfl
  · exact ⟨rfl, rfl⟩
  · exact tabled_empty

section Wiring

variable [Inhabited T] {size : Nat}

theorem WiredTo.subscribe {w₀ w : World T} {ps ss : List Nat} {k : Nat} (hf : w₀.Fresh)
    (h : WiredTo w₀ ps ss w) (hk : k ∉ ss) (hroom : ss.length < kMaxSubscribers) :
    ∃ w', w.call size (.subscribe k) = some (.subscribed .ok, w') ∧
      WiredTo w₀ ps (k :: ss) w' := by
  have hep : w.subs k = w₀.subs k := by rw [h.subs, if_neg hk]
  have hpc : (w.subs k).pc = .unwired := by rw [hep, hf.2.1 k]
  obtain ⟨htab, i, heq⟩ := addSubscriber_spec h.tabled hk hroom (w.subs k).qos
  have hseed : w.topic.seededCore (w.subs k).qos = .new (w.subs k).qos := by
    rw [Topic.seededCore, h.master]
  refine ⟨_, by rw [World.call, hpc], ?_⟩
  refine ⟨fun j => ?_, h.pubs, fun j => ?_, ?_, ?_, ?_, ?_, ?_, ?_, htab⟩
  · by_cases hj : j = k
    · subst hj
      rw [World.putSub_self, if_pos List.mem_cons_self, hep]
    · rw [World.putSub_ne _ _ _ _ hj, h.subs]
      simp only [List.mem_cons, hj, false_or]
  · rw [World.putSub_topic, heq, hseed]
    by_cases hj : j = k
    · subst hj
      simp only [Function.update_self, List.mem_cons_self, if_true, hep]
    · simp only [Function.update_of_ne hj, List.mem_cons, hj, false_or, h.cores]
  all_goals rw [World.putSub_topic, heq]
  · exact h.master
  · exact h.acceptedOrdinal
  · exact h.publisherCount
  · exact h.owners
  · exact h.unowned
  · exact h.mutexes

theorem WiredTo.advertise {w₀ w : World T} {ps ss : List Nat} {p : Nat} (hf : w₀.Fresh)
    (h : WiredTo w₀ ps ss w) (hp : p ∉ ps) (hc : Compatible w₀ (p :: ps)) :
    ∃ w', w.call size (.advertise p) = some (.advertised .ok, w') ∧
      WiredTo w₀ (p :: ps) ss w' := by
  have hep : w.pubs p = w₀.pubs p := by rw [h.pubs, if_neg hp]
  have hpc : (w.pubs p).pc = .unadvertised := by rw [hep, (hf.2.2 p).1]
  have hnot : ¬ (w.topic.publisherCount > 0 ∧
      (w.topic.declaredOwnership = .exclusive ∨ (w.pubs p).qos.ownership = .exclusive)) := by
    rintro ⟨hpos, hown⟩
    rw [h.publisherCount] at hpos
    rcases hc with hone | hall
    · rw [List.length_cons] at hone
      omega
    · obtain ⟨x, hx⟩ := List.exists_mem_of_length_pos hpos
      rw [h.owners x hx, hall x (List.mem_cons_of_mem _ hx), hep,
        hall p List.mem_cons_self] at hown
      rcases hown with h0 | h0 <;> cases h0
  have hadd : w.topic.addPublisher (w.pubs p).qos = (.ok, { w.topic with
      declaredOwnership := (w.pubs p).qos.ownership
      publisherCount := w.topic.publisherCount + 1 }) := by
    rw [Topic.addPublisher, if_neg hnot]
  refine ⟨_, by rw [World.call, hpc, hadd], ?_⟩
  refine ⟨h.subs, fun j => ?_, h.cores, h.master, h.acceptedOrdinal, ?_, fun x hx => ?_,
    fun h0 => (nomatch h0), h.mutexes, h.tabled.congr rfl rfl⟩
  · by_cases hj : j = p
    · subst hj
      rw [World.putPub_self, if_pos List.mem_cons_self, hep]
    · rw [World.putPub_ne _ _ _ _ hj, h.pubs]
      simp only [List.mem_cons, hj, false_or]
  · rw [World.putPub_topic, List.length_cons, ← h.publisherCount]
  · rw [World.putPub_topic]
    rcases List.mem_cons.mp hx with rfl | hx'
    · rw [hep]
    · rcases hc with hone | hall
      · rw [List.length_cons] at hone
        have := List.length_pos_of_mem hx'
        omega
      · rw [hep, hall p List.mem_cons_self, hall x hx]

/-- Compatible wiring calls on handles not wired before, in any order: all succeed. -/
theorem wiredTo_run (size : Nat) {w₀ : World T} (hf : w₀.Fresh) :
    ∀ {calls : List (Op T)} {w : World T} {ps ss : List Nat}, WiredTo w₀ ps ss w →
    (∀ c ∈ calls, (∃ p, c = .advertise p) ∨ ∃ k, c = .subscribe k) →
    (publishersOf calls ++ ps).Nodup → (subscribersOf calls ++ ss).Nodup →
    Compatible w₀ (publishersOf calls ++ ps) →
    (subscribersOf calls ++ ss).length ≤ kMaxSubscribers →
    ∃ w' ps' ss', script (World.call size) calls w =
        some (calls.map fun c => (c, c.wiredAnswer), w') ∧ WiredTo w₀ ps' ss' w' ∧
      ps'.Perm (publishersOf calls ++ ps) ∧ ss'.Perm (subscribersOf calls ++ ss) := by
  intro calls
  induction calls with
  | nil =>
      intro w ps ss h _ _ _ _ _
      exact ⟨w, ps, ss, rfl, h, .refl _, .refl _⟩
  | cons c calls ih =>
      intro w ps ss h hwire hps hss hcomp hroom
      have hrest : ∀ d ∈ calls, (∃ p, d = .advertise p) ∨ ∃ k, d = .subscribe k :=
        fun d hd => hwire d (List.mem_cons_of_mem _ hd)
      rcases hwire c List.mem_cons_self with ⟨p, rfl⟩ | ⟨k, rfl⟩
      · have hmove : (publishersOf calls ++ p :: ps).Perm
            (publishersOf (.advertise p :: calls) ++ ps) := List.perm_middle
        have hps' := hmove.nodup_iff.mpr hps
        have hcomp' := hcomp.of_perm hmove.symm
        obtain ⟨w₁, hcall, h₁⟩ := h.advertise (T := T) hf
          (List.nodup_cons.mp (List.nodup_append.mp hps').2.1).1 hcomp'.of_append
        obtain ⟨w', ps', ss', hrun, hw', hp, hs⟩ := ih h₁ hrest hps' hss hcomp' hroom
        refine ⟨w', ps', ss', ?_, hw', hp.trans hmove, hs⟩
        rw [script, hcall]
        simp only [hrun]
        rfl
      · have hmove : (subscribersOf calls ++ k :: ss).Perm
            (subscribersOf (.subscribe k :: calls) ++ ss) := List.perm_middle
        have hss' := hmove.nodup_iff.mpr hss
        have hroom' := hmove.length_eq ▸ hroom
        have hlt : ss.length < kMaxSubscribers := by
          rw [List.length_append, List.length_cons] at hroom'
          omega
        obtain ⟨w₁, hcall, h₁⟩ := h.subscribe (T := T) hf
          (List.nodup_cons.mp (List.nodup_append.mp hss').2.1).1 hlt
        obtain ⟨w', ps', ss', hrun, hw', hp, hs⟩ := ih h₁ hrest hps hss' hcomp hroom'
        refine ⟨w', ps', ss', ?_, hw', hp, hs.trans hmove⟩
        rw [script, hcall]
        simp only [hrun]
        rfl

end Wiring

/-! ## Twins -/

/-- Two worlds that differ only in which slot of the table is whose. -/
structure Twins (w w' : World T) : Prop where
  subs : w'.subs = w.subs
  pubs : w'.pubs = w.pubs
  topic : w'.topic = { w.topic with subSlots := w'.topic.subSlots }
  live : ∃ live live', Tabled live w.topic ∧ Tabled live' w'.topic ∧ ∀ k, k ∈ live ↔ k ∈ live'

theorem twins_of_perm {w₀ w w' : World T} {ps ps' ss ss' : List Nat} (h : WiredTo w₀ ps ss w)
    (h' : WiredTo w₀ ps' ss' w') (hp : ps'.Perm ps) (hs : ss'.Perm ss) : Twins w w' := by
  have hcores : w'.topic.cores = w.topic.cores := by
    funext k
    rw [h.cores, h'.cores]
    simp only [hs.mem_iff]
  have howner : w'.topic.declaredOwnership = w.topic.declaredOwnership := by
    cases ps with
    | nil => rw [h.unowned rfl, h'.unowned hp.eq_nil]
    | cons p ps =>
        rw [h.owners p List.mem_cons_self, h'.owners p (hp.mem_iff.mpr List.mem_cons_self)]
  refine ⟨funext fun k => ?_, funext fun p => ?_, ?_, ss, ss', h.tabled, h'.tabled,
    fun k => hs.mem_iff.symm⟩
  · rw [h.subs, h'.subs]
    simp only [hs.mem_iff]
  · rw [h.pubs, h'.pubs]
    simp only [hp.mem_iff]
  · have hcount : w'.topic.subscriberCount = w.topic.subscriberCount := by
      rw [h.tabled.subscriberCount, h'.tabled.subscriberCount, hs.length_eq]
    have hpubs : w'.topic.publisherCount = w.topic.publisherCount := by
      rw [h.publisherCount, h'.publisherCount, hp.length_eq]
    rw [Topic.mk.injEq]
    exact ⟨rfl, hcores, h'.master.trans h.master.symm,
      h'.acceptedOrdinal.trans h.acceptedOrdinal.symm, hpubs, hcount, howner,
      h'.mutexes.1.trans h.mutexes.1.symm, h'.mutexes.2.trans h.mutexes.2.symm⟩

/-- The reliable pre-check asks whether a wired subscriber is full. -/
theorem wouldBlock_iff {live : List Nat} {h : Topic T} (ht : Tabled live h) :
    h.wouldBlock = true ↔ ∃ k ∈ live, (h.cores k).full = true := by
  rw [Topic.wouldBlock, List.any_eq_true]
  constructor
  · rintro ⟨i, hi, hfull⟩
    split at hfull
    · next k hk => exact ⟨k, (ht.mem k).mpr ⟨i, List.mem_range.mp hi, hk⟩, hfull⟩
    · cases hfull
  · rintro ⟨k, hk, hfull⟩
    obtain ⟨i, hi, hik⟩ := (ht.mem k).mp hk
    refine ⟨i, List.mem_range.mpr hi, ?_⟩
    rw [hik]
    exact hfull

namespace Twins

variable {w w' : World T} (h : Twins w w')
include h

theorem cores : w'.topic.cores = w.topic.cores := by rw [h.topic]

theorem wouldBlock : w'.topic.wouldBlock = w.topic.wouldBlock := by
  obtain ⟨live, live', ht, ht', hmem⟩ := h.live
  rw [Bool.eq_iff_iff, wouldBlock_iff ht, wouldBlock_iff ht', h.cores]
  simp only [hmem]

theorem deliver (m : Message T) : ∃ live live', Tabled live (w.topic.deliver m) ∧
    Tabled live' (w'.topic.deliver m) ∧ (∀ k, k ∈ live ↔ k ∈ live') ∧
    w'.topic.deliver m =
      { w.topic.deliver m with subSlots := (w'.topic.deliver m).subSlots } := by
  obtain ⟨live, live', ht, ht', hmem⟩ := h.live
  refine ⟨live, live', ?_, ?_, hmem, ?_⟩
  · rw [deliver_eq ht]
    exact ht.congr rfl rfl
  · rw [deliver_eq ht']
    exact ht'.congr rfl rfl
  · rw [deliver_eq ht, deliver_eq ht']
    simp only [h.cores, ← hmem]
    rw [h.topic]

end Twins

/-- These handles are wired, and no call is under way on them. -/
structure AtRest (ps ss : List Nat) (w : World T) : Prop where
  pubs : ∀ p ∈ ps, (w.pubs p).pc = .idle
  subs : ∀ k ∈ ss, (w.subs k).pc = .wired .idle

theorem WiredTo.atRest {w₀ w : World T} {ps ss : List Nat} (h : WiredTo w₀ ps ss w) :
    AtRest ps ss w := by
  refine ⟨fun p hp => ?_, fun k hk => ?_⟩
  · rw [h.pubs, if_pos hp]
    rfl
  · rw [h.subs, if_pos hk]
    rfl

theorem AtRest.putPub {ps ss : List Nat} {w : World T} (h : AtRest ps ss w) {p : Nat}
    {g : Topic T} {ep : PubEp T} (hp : ep.pc = (w.pubs p).pc) :
    AtRest ps ss (w.putPub p g ep) := by
  refine ⟨fun q hq => ?_, h.subs⟩
  by_cases hqp : q = p
  · subst hqp
    rw [World.putPub_self, hp]
    exact h.pubs q hq
  · rw [World.putPub_ne _ _ _ _ hqp]
    exact h.pubs q hq

section Calls

variable [Inhabited T] {size : Nat} {ps ss : List Nat} {w w' : World T}

/-- Both answer the same, remain twins, and are at rest again. -/
def Together (ps ss : List Nat) (x y : Option (Answer T × World T)) : Prop :=
  ∃ a u u', x = some (a, u) ∧ y = some (a, u') ∧ Twins u u' ∧ AtRest ps ss u

theorem twins_publish (h : Twins w w') (hr : AtRest ps ss w) {p : Nat} (hp : p ∈ ps)
    (m : Message T) : Together ps ss (w.publish size p m) (w'.publish size p m) := by
  have hpc := hr.pubs p hp
  simp only [World.publish, h.pubs, hpc, h.wouldBlock]
  split
  · exact ⟨_, _, _, rfl, rfl,
      ⟨h.subs, by rw [World.putPub, World.putPub, h.pubs], h.topic, h.live⟩, hr.putPub hpc.symm⟩
  · obtain ⟨live, live', ht, ht', hmem, heq⟩ := h.deliver m
    exact ⟨_, _, _, rfl, rfl,
      ⟨h.subs, by rw [World.putPub, World.putPub, h.pubs], heq, live, live', ht, ht', hmem⟩,
      hr.putPub hpc.symm⟩

theorem twins_take (h : Twins w w') (hr : AtRest ps ss w) {k : Nat} (hk : k ∈ ss)
    (verb : SubCore T → Option (MailRecord T × Bool) × SubCore T) :
    Together ps ss (w.take k verb) (w'.take k verb) := by
  have hpc := hr.subs k hk
  obtain ⟨live, live', ht, ht', hmem⟩ := h.live
  simp only [World.take, h.subs, hpc, h.cores]
  refine ⟨_, _, _, rfl, rfl, ⟨?_, h.pubs, ?_, live, live', ht.congr rfl rfl, ht'.congr rfl rfl,
    hmem⟩, hr.pubs, fun j hj => ?_⟩
  · rw [World.putSub, World.putSub, h.subs]
  · rw [World.putSub_topic, World.putSub_topic, Topic.setCore, Topic.setCore, h.cores, h.topic]
  · by_cases hjk : j = k
    · subst hjk
      rw [World.putSub_self]
      exact hpc
    · rw [World.putSub_ne _ _ _ _ hjk]
      exact hr.subs j hj

theorem twins_call (size : Nat) (h : Twins w w') (hr : AtRest ps ss w) {c : Op T}
    (hc : c.On ps ss) : Together ps ss (w.call size c) (w'.call size c) := by
  cases c with
  | publish p value context now => exact twins_publish h hr hc _
  | publishDerived p value upstream context now => exact twins_publish h hr hc _
  | publishCount p =>
      simp only [World.call, h.pubs, hr.pubs p hc]
      exact ⟨_, _, _, rfl, rfl, h, hr⟩
  | publisherMatched p =>
      have hcount : w'.topic.subscriberCount = w.topic.subscriberCount := by rw [h.topic]
      simp only [World.call, h.pubs, hr.pubs p hc, hcount]
      exact ⟨_, _, _, rfl, rfl, h, hr⟩
  | takeLatest k now => exact twins_take h hr hc (·.takeLatest now)
  | tryTake k now => exact twins_take h hr hc (·.tryTake now)
  | count k n =>
      simp only [World.call, h.subs, hr.subs k hc, h.cores]
      exact ⟨_, _, _, rfl, rfl, h, hr⟩
  | subscriberMatched k =>
      have hcount : w'.topic.publisherCount = w.topic.publisherCount := by rw [h.topic]
      simp only [World.call, h.subs, hr.subs k hc, hcount]
      exact ⟨_, _, _, rfl, rfl, h, hr⟩
  | _ => exact hc.elim

/-- Whatever the handles are used for, twins cannot be told apart. -/
theorem twins_run (size : Nat) : ∀ {later : List (Op T)} {w w' : World T}, Twins w w' →
    AtRest ps ss w → (∀ c ∈ later, c.On ps ss) → ∃ bs u u',
      script (World.call size) later w = some (bs, u) ∧
      script (World.call size) later w' = some (bs, u') ∧ Twins u u' := by
  intro later
  induction later with
  | nil => exact fun h _ _ => ⟨[], _, _, rfl, rfl, h⟩
  | cons c later ih =>
      intro w w' h hr hon
      obtain ⟨a, u, u', hu, hu', ht, hr'⟩ := twins_call size h hr
        (hon c List.mem_cons_self)
      obtain ⟨bs, v, v', hv, hv', hend⟩ := ih ht hr' fun d hd => hon d (List.mem_cons_of_mem _ hd)
      refine ⟨(c, a) :: bs, v, v', ?_, ?_, hend⟩
      · simp only [script, hu, hv]
      · simp only [script, hu', hv']

end Calls

end Xmmsg.InProc
