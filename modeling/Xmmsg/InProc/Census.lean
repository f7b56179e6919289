import Mathlib.Data.List.Perm.Basic
import Xmmsg.InProc.Registry

/-!
# The registry is a census of the live endpoints

Every counter of the registry says how many impls of some sort are allocated, so
the invariant is stated over the list of allocated impls, in any order: `Census`.
A wiring verb either adds one impl and enters it into its entry, or adds one that
is outside the census; a destructor is the reverse. What the four verbs and the
four destructors have in common is said by `Adds` and `Leaves`, once for each.

That a destructor runs at most once for each impl is the other half: the handles
own the impls, each of them once, whatever is moved where.
-/

namespace Xmmsg.InProc

open Xmmsg.Sys

variable {τ : Type}

/-! ## The census -/

namespace EndpointImpl

def ok (x : EndpointImpl τ) : Bool := x.status == .ok

/-- A publisher or server wired to the topic. -/
def publishesOn (n : String) (x : EndpointImpl τ) : Bool :=
  x.ok && x.topic == some n && x.kind.isPublisher

/-- A subscriber or client wired to the topic. -/
def attendsOn (n : String) (x : EndpointImpl τ) : Bool :=
  x.ok && x.topic == some n && !x.kind.isPublisher

end EndpointImpl

def TopicBase.occupied (e : TopicBase τ) : Nat := e.subSlots.countP Option.isSome

/-- What `subscriber_count_` counts. -/
def TopicBase.attendance (e : TopicBase τ) (clients : Nat) : Nat :=
  match e.type with
  | .payload _ => e.occupied
  | .rpcTag _ _ => clients

/-- The registry agrees with the impls that are allocated. -/
structure Census (s : DomainState τ) (live : List (EndpointImpl τ)) : Prop where
  settled : ∀ x ∈ live, x.ok = true → x.registered = true ∧
    ∃ n e, x.topic = some n ∧ s.topics n = some e ∧ e.type = x.kind.typeId
  refused : ∀ x ∈ live, x.ok = false → x.registered = false
  publishers : ∀ n e, s.topics n = some e → e.publisherCount = live.countP (·.publishesOn n)
  attendance : ∀ n e, s.topics n = some e →
    e.subscriberCount = e.attendance (live.countP (·.attendsOn n))
  total : s.endpointCount = live.countP (·.ok)
  declared : ∀ n e t, s.topics n = some e → e.type = .payload t →
    ∀ x ∈ live, x.publishesOn n = true → x.qos.ownership = e.declaredOwnership
  alone : ∀ n e, s.topics n = some e →
    e.publisherCount ≤ 1 ∨ (∃ t, e.type = .payload t) ∧ e.declaredOwnership = .shared

/-- The entry before and after an accepted endpoint of this kind. -/
structure Enters (kind : EndpointKind τ) (qos : Qos) (e e' : TopicBase τ) : Prop where
  type : e'.type = e.type
  schemaHash : e'.schemaHash = e.schemaHash
  publishers : e'.publisherCount = e.publisherCount + if kind.isPublisher then 1 else 0
  attendance : ∀ c : Nat, e.subscriberCount = e.attendance c →
    e'.subscriberCount = e'.attendance (c + if kind.isPublisher then 0 else 1)
  declares : ∀ t, e.type = .payload t →
    e'.declaredOwnership = if kind.isPublisher then qos.ownership else e.declaredOwnership
  alone : kind.isPublisher = true → 0 < e.publisherCount →
    (∃ t, e.type = .payload t) ∧ e.declaredOwnership = .shared ∧ qos.ownership = .shared

/-- The entry before and after the endpoint leaves. -/
structure Leaves (kind : EndpointKind τ) (e e' : TopicBase τ) : Prop where
  type : e'.type = e.type
  publishers : e'.publisherCount = e.publisherCount - if kind.isPublisher then 1 else 0
  attendance : ∀ c : Nat, e.subscriberCount = e.attendance (c + if kind.isPublisher then 0 else 1) →
    e'.subscriberCount = e'.attendance c
  declares : e'.declaredOwnership = e.declaredOwnership

theorem fillSlot_countP {core : Nat} : ∀ {slots slots' : List (Option Nat)},
    fillSlot core slots = some slots' →
      slots'.countP Option.isSome = slots.countP Option.isSome + 1
  | [], _, h => by cases h
  | none :: slots, _, h => by
      cases h
      simp
  | some c :: slots, _, h => by
      obtain ⟨tail, ht, rfl⟩ := Option.map_eq_some_iff.mp h
      simp [fillSlot_countP ht]

theorem clearSlot_countP {core : Nat} : ∀ {slots slots' : List (Option Nat)},
    clearSlot core slots = some slots' →
      slots'.countP Option.isSome + 1 = slots.countP Option.isSome
  | [], _, h => by cases h
  | none :: slots, _, h => by
      obtain ⟨tail, ht, rfl⟩ := Option.map_eq_some_iff.mp h
      simp [clearSlot_countP ht]
  | some c :: slots, _, h => by
      rw [clearSlot] at h
      split at h
      · cases h
        simp
      · obtain ⟨tail, ht, rfl⟩ := Option.map_eq_some_iff.mp h
        simp [clearSlot_countP ht]

/-- What a verb's `Add…` does to an entry of its own type: it enters the endpoint, or
refuses it because somebody publishes there already. -/
def Adds (kind : EndpointKind τ) (qos : Qos)
    (add : TopicBase τ → AdvertiseStatus × TopicBase τ) : Prop :=
  ∀ e, e.type = kind.typeId →
    (∃ e', add e = (.ok, e') ∧ Enters kind qos e e') ∨
      (add e = (.ownershipRefused, e) ∧ 0 < e.publisherCount)

theorem addPublisher_adds (t : τ) (qos : Qos) :
    Adds (.publisher t) qos (·.addPublisher qos) := by
  intro e he
  simp only [TopicBase.addPublisher]
  split
  · next h => exact .inr ⟨rfl, h.1⟩
  · next h =>
      refine .inl ⟨_, rfl, rfl, rfl, by simp [EndpointKind.isPublisher], ?_, ?_, ?_⟩
      · intro c hc
        rw [EndpointKind.typeId] at he
        simp only [TopicBase.attendance, he] at hc ⊢
        exact hc
      · simp [EndpointKind.isPublisher]
      · intro _ hpos
        simp only [gt_iff_lt, hpos, true_and, not_or] at h
        refine ⟨⟨t, he⟩, ?_, ?_⟩
        · cases ho : e.declaredOwnership with
          | exclusive => exact absurd ho h.1
          | shared => rfl
        · cases ho : qos.ownership with
          | exclusive => exact absurd ho h.2
          | shared => rfl

theorem addSubscriber_adds (t : τ) (qos : Qos) (core : Nat) :
    Adds (.subscriber t) qos (·.addSubscriber core) := by
  intro e he
  rw [EndpointKind.typeId] at he
  left
  simp only [TopicBase.addSubscriber]
  split
  · next slots hs =>
      refine ⟨_, rfl, rfl, rfl, by simp [EndpointKind.isPublisher], ?_,
        by simp [EndpointKind.isPublisher], by simp [EndpointKind.isPublisher]⟩
      intro c hc
      simp only [TopicBase.attendance, he, TopicBase.occupied] at hc ⊢
      rw [hc, fillSlot_countP hs]
      push_cast
      rfl
  · refine ⟨_, rfl, rfl, rfl, by simp [EndpointKind.isPublisher], ?_,
      by simp [EndpointKind.isPublisher], by simp [EndpointKind.isPublisher]⟩
    intro c hc
    simp only [TopicBase.attendance, he] at hc ⊢
    exact hc

theorem addServer_adds (req rsp : τ) (qos : Qos) :
    Adds (.server req rsp) qos (·.addServer) := by
  intro e he
  rw [EndpointKind.typeId] at he
  simp only [TopicBase.addServer]
  split
  · next h => exact .inr ⟨rfl, h⟩
  · next h =>
      refine .inl ⟨_, rfl, rfl, rfl, by simp [EndpointKind.isPublisher], ?_, ?_, ?_⟩
      · intro c hc
        simp only [TopicBase.attendance, he] at hc ⊢
        simp [hc, EndpointKind.isPublisher]
      · intro t ht
        rw [he] at ht
        cases ht
      · intro _ hpos
        exact absurd hpos h

theorem addClient_adds (req rsp : τ) (qos : Qos) :
    Adds (.client req rsp) qos (·.addClient) := by
  intro e he
  rw [EndpointKind.typeId] at he
  refine .inl ⟨_, rfl, rfl, rfl, by simp [EndpointKind.isPublisher], ?_,
    by simp [EndpointKind.isPublisher], by simp [EndpointKind.isPublisher]⟩
  intro c hc
  simp only [TopicBase.attendance, he] at hc ⊢
  simp [hc, EndpointKind.isPublisher]

theorem remove_leaves (kind : EndpointKind τ) (core : Nat) {e : TopicBase τ}
    (he : e.type = kind.typeId) : Leaves kind e (kind.remove core e) := by
  cases kind with
  | publisher t =>
      rw [EndpointKind.typeId] at he
      refine ⟨rfl, by simp [EndpointKind.remove, TopicBase.removePublisher,
        EndpointKind.isPublisher], ?_, rfl⟩
      intro c hc
      simp only [EndpointKind.remove, TopicBase.removePublisher, TopicBase.attendance, he,
        TopicBase.occupied] at hc ⊢
      exact hc
  | subscriber t =>
      rw [EndpointKind.typeId] at he
      simp only [EndpointKind.remove, TopicBase.removeSubscriber]
      split
      · next slots hs =>
          refine ⟨rfl, by simp [EndpointKind.isPublisher], ?_, rfl⟩
          intro c hc
          simp only [TopicBase.attendance, he, TopicBase.occupied] at hc ⊢
          have := clearSlot_countP hs
          omega
      · refine ⟨rfl, by simp [EndpointKind.isPublisher], ?_, rfl⟩
        intro c hc
        simp only [TopicBase.attendance, he] at hc ⊢
        exact hc
  | server req rsp =>
      rw [EndpointKind.typeId] at he
      refine ⟨rfl, by simp [EndpointKind.remove, TopicBase.removeServer,
        EndpointKind.isPublisher], ?_, rfl⟩
      intro c hc
      simp only [EndpointKind.remove, TopicBase.removeServer, TopicBase.attendance, he,
        EndpointKind.isPublisher] at hc ⊢
      simpa using hc
  | client req rsp =>
      rw [EndpointKind.typeId] at he
      refine ⟨rfl, by simp [EndpointKind.remove, TopicBase.removeClient,
        EndpointKind.isPublisher], ?_, rfl⟩
      intro c hc
      simp only [EndpointKind.remove, TopicBase.removeClient, TopicBase.attendance, he,
        EndpointKind.isPublisher] at hc ⊢
      simp only [Bool.false_eq_true, if_false] at hc
      omega

/-! ## The census holds -/

variable {s s' : DomainState τ} {live live' : List (EndpointImpl τ)} {x : EndpointImpl τ}
  {n : String} {e e' : TopicBase τ}

theorem setTopic_topics (s : DomainState τ) (n m : String) (e : TopicBase τ) :
    (s.setTopic n e).topics m = if m = n then some e else s.topics m := by
  unfold DomainState.setTopic
  by_cases hm : m = n
  · subst hm
    simp
  · simp [hm]

theorem setTopic_self (h : s.topics n = some e) : s.setTopic n e = s := by
  unfold DomainState.setTopic
  rw [← h, Function.update_eq_self]

theorem Census.perm (hc : Census s live) (hp : live.Perm live') : Census s live' where
  settled x hx := hc.settled x (hp.mem_iff.mpr hx)
  refused x hx := hc.refused x (hp.mem_iff.mpr hx)
  publishers n e he := by rw [hc.publishers n e he, hp.countP_eq]
  attendance n e he := by rw [hc.attendance n e he, hp.countP_eq]
  total := by rw [hc.total, hp.countP_eq]
  declared n e t he ht x hx := hc.declared n e t he ht x (hp.mem_iff.mpr hx)
  alone := hc.alone

/-- A refused impl is outside the census. -/
theorem census_refused_iff (hok : x.ok = false) (hreg : x.registered = false) :
    Census s (x :: live) ↔ Census s live := by
  have hp : ∀ n, x.publishesOn n = false := fun n => by simp [EndpointImpl.publishesOn, hok]
  have ha : ∀ n, x.attendsOn n = false := fun n => by simp [EndpointImpl.attendsOn, hok]
  constructor
  · intro hc
    exact ⟨fun y hy => hc.settled y (List.mem_cons_of_mem _ hy),
      fun y hy => hc.refused y (List.mem_cons_of_mem _ hy),
      fun n e he => by simpa [hp] using hc.publishers n e he,
      fun n e he => by simpa [ha] using hc.attendance n e he,
      by simpa [hok] using hc.total,
      fun n e t he ht y hy => hc.declared n e t he ht y (List.mem_cons_of_mem _ hy),
      hc.alone⟩
  · intro hc
    refine ⟨fun y hy h => ?_, fun y hy h => ?_,
      fun n e he => by simpa [hp] using hc.publishers n e he,
      fun n e he => by simpa [ha] using hc.attendance n e he,
      by simpa [hok] using hc.total, fun n e t he ht y hy h => ?_, hc.alone⟩
    · rcases List.mem_cons.mp hy with rfl | hy
      · rw [hok] at h
        cases h
      · exact hc.settled y hy h
    · rcases List.mem_cons.mp hy with rfl | hy
      · exact hreg
      · exact hc.refused y hy h
    · rcases List.mem_cons.mp hy with rfl | hy
      · rw [hp] at h
        cases h
      · exact hc.declared n e t he ht y hy h

theorem publishesOn_eq (hok : x.ok = true) (htop : x.topic = some n) (m : String) :
    x.publishesOn m = (decide (m = n) && x.kind.isPublisher) := by
  by_cases hm : m = n
  · simp [EndpointImpl.publishesOn, hok, htop, hm]
  · simp [EndpointImpl.publishesOn, htop, hm, Ne.symm hm]

theorem attendsOn_eq (hok : x.ok = true) (htop : x.topic = some n) (m : String) :
    x.attendsOn m = (decide (m = n) && !x.kind.isPublisher) := by
  by_cases hm : m = n
  · simp [EndpointImpl.attendsOn, hok, htop, hm]
  · simp [EndpointImpl.attendsOn, htop, hm, Ne.symm hm]

/-- Nobody is wired to a topic that has no entry. -/
theorem Census.absent (hc : Census s live) (hn : s.topics n = none) {y : EndpointImpl τ}
    (hy : y ∈ live) : y.publishesOn n = false ∧ y.attendsOn n = false := by
  have hoff : y.ok = true → y.topic ≠ some n := by
    intro hok hty
    obtain ⟨-, m, e, hm, he, -⟩ := hc.settled y hy hok
    rw [hty] at hm
    cases hm
    rw [hn] at he
    cases he
  cases hok : y.ok with
  | false => simp [EndpointImpl.publishesOn, EndpointImpl.attendsOn, hok]
  | true => simp [EndpointImpl.publishesOn, EndpointImpl.attendsOn, hoff hok]

/-- An entry is created empty. -/
theorem Census.create (hc : Census s live) (hn : s.topics n = none) (hash : UInt64)
    (type : TypeId τ) : Census (s.setTopic n { schemaHash := hash, type := type }) live := by
  have hpub : live.countP (·.publishesOn n) = 0 :=
    List.countP_eq_zero.mpr fun y hy => by simp [(hc.absent hn hy).1]
  have hatt : live.countP (·.attendsOn n) = 0 :=
    List.countP_eq_zero.mpr fun y hy => by simp [(hc.absent hn hy).2]
  refine ⟨fun y hy hok => ?_, hc.refused, ?_, ?_, hc.total, ?_, ?_⟩
  · obtain ⟨hr, m, e, hm, he, ht⟩ := hc.settled y hy hok
    refine ⟨hr, m, e, hm, ?_, ht⟩
    rw [setTopic_topics, if_neg, he]
    rintro rfl
    rw [hn] at he
    cases he
  · intro m e he
    rw [setTopic_topics] at he
    split at he
    · next hm =>
        subst hm
        cases he
        simp [hpub]
    · exact hc.publishers m e he
  · intro m e he
    rw [setTopic_topics] at he
    split at he
    · next hm =>
        subst hm
        cases he
        cases type <;> simp [TopicBase.attendance, TopicBase.occupied, List.countP_replicate, hatt]
    · exact hc.attendance m e he
  · intro m e t he ht y hy hpy
    rw [setTopic_topics] at he
    split at he
    · next hm =>
        subst hm
        rw [(hc.absent hn hy).1] at hpy
        cases hpy
    · exact hc.declared m e t he ht y hy hpy
  · intro m e he
    rw [setTopic_topics] at he
    split at he
    · cases he
      exact .inl (by simp)
    · exact hc.alone m e he

/-- An accepted endpoint enters the entry and the census. -/
theorem Census.enter (hc : Census s live) (he : s.topics n = some e)
    (hty : e.type = x.kind.typeId) (hen : Enters x.kind x.qos e e') (hok : x.status = .ok)
    (hreg : x.registered = true) (htop : x.topic = some n) :
    Census { s.setTopic n e' with endpointCount := s.endpointCount + 1 } (x :: live) := by
  have hxok : x.ok = true := by simp [EndpointImpl.ok, hok]
  have hpx := publishesOn_eq hxok htop
  have hax := attendsOn_eq hxok htop
  refine ⟨fun y hy h => ?_, fun y hy h => ?_, fun m f hf => ?_, fun m f hf => ?_, ?_,
    fun m f t hf ht y hy h => ?_, fun m f hf => ?_⟩
  · rcases List.mem_cons.mp hy with rfl | hy
    · refine ⟨hreg, n, e', htop, ?_, hen.type.trans hty⟩
      rw [setTopic_topics, if_pos rfl]
    · obtain ⟨hr, m, f, hm, hf, ht⟩ := hc.settled y hy h
      by_cases hmn : m = n
      · subst hmn
        rw [he] at hf
        cases hf
        refine ⟨hr, m, e', hm, ?_, hen.type.trans ht⟩
        rw [setTopic_topics, if_pos rfl]
      · refine ⟨hr, m, f, hm, ?_, ht⟩
        rw [setTopic_topics, if_neg hmn, hf]
  · rcases List.mem_cons.mp hy with rfl | hy
    · rw [hxok] at h
      cases h
    · exact hc.refused y hy h
  · rw [setTopic_topics] at hf
    split at hf
    · next hm =>
        subst hm
        cases hf
        rw [hen.publishers, hc.publishers m e he, List.countP_cons, hpx]
        cases x.kind.isPublisher <;> simp
    · next hm =>
        rw [hc.publishers m f hf, List.countP_cons, hpx]
        simp [hm]
  · rw [setTopic_topics] at hf
    split at hf
    · next hm =>
        subst hm
        cases hf
        rw [hen.attendance _ (hc.attendance m e he), List.countP_cons, hax]
        cases x.kind.isPublisher <;> simp
    · next hm =>
        rw [hc.attendance m f hf, List.countP_cons, hax]
        simp [hm]
  · show s.endpointCount + 1 = _
    rw [hc.total, List.countP_cons, if_pos hxok]
    push_cast
    rfl
  · rw [setTopic_topics] at hf
    split at hf
    · next hm =>
        subst hm
        cases hf
        have ht' := hen.type ▸ ht
        rw [hen.declares t ht']
        rcases List.mem_cons.mp hy with rfl | hy
        · rw [hpx] at h
          simp only [decide_true, Bool.true_and] at h
          rw [if_pos h]
        · have hold := hc.declared m e t he ht' y hy h
          split
          · next hpub =>
              -- somebody publishes here already, so both declared shared
              have hpos : 0 < e.publisherCount := by
                rw [hc.publishers m e he]
                exact_mod_cast List.countP_pos_iff.mpr ⟨y, hy, h⟩
              obtain ⟨-, h1, h2⟩ := hen.alone hpub hpos
              rw [hold, h1, h2]
          · exact hold
    · next hm =>
        rcases List.mem_cons.mp hy with rfl | hy
        · rw [hpx] at h
          simp [hm] at h
        · exact hc.declared m f t hf ht y hy h
  · rw [setTopic_topics] at hf
    split at hf
    · next hm =>
        subst hm
        cases hf
        rw [hen.publishers, hen.type]
        cases hpub : x.kind.isPublisher with
        | false =>
            rcases hc.alone m e he with h1 | ⟨⟨t, ht⟩, hsh⟩
            · left
              simpa using h1
            · refine .inr ⟨⟨t, ht⟩, ?_⟩
              rw [hen.declares t ht, hpub]
              exact hsh
        | true =>
            by_cases hpos : 0 < e.publisherCount
            · obtain ⟨⟨t, ht⟩, -, h2⟩ := hen.alone hpub hpos
              refine .inr ⟨⟨t, ht⟩, ?_⟩
              rw [hen.declares t ht, hpub]
              exact h2
            · left
              simp only [if_true]
              omega
    · exact hc.alone m f hf

/-- A wired endpoint leaves the entry and the census. -/
theorem Census.leave (hc : Census s (x :: live)) (he : s.topics n = some e)
    (hlv : Leaves x.kind e e') (hok : x.ok = true) (htop : x.topic = some n) :
    Census { s.setTopic n e' with endpointCount := s.endpointCount - 1 } live := by
  have hpx := publishesOn_eq hok htop
  have hax := attendsOn_eq hok htop
  refine ⟨fun y hy h => ?_, fun y hy h => hc.refused y (List.mem_cons_of_mem _ hy) h,
    fun m f hf => ?_, fun m f hf => ?_, ?_, fun m f t hf ht y hy h => ?_, fun m f hf => ?_⟩
  · obtain ⟨hr, m, f, hm, hf, ht⟩ := hc.settled y (List.mem_cons_of_mem _ hy) h
    by_cases hmn : m = n
    · subst hmn
      rw [he] at hf
      cases hf
      refine ⟨hr, m, e', hm, ?_, hlv.type.trans ht⟩
      rw [setTopic_topics, if_pos rfl]
    · refine ⟨hr, m, f, hm, ?_, ht⟩
      rw [setTopic_topics, if_neg hmn, hf]
  · rw [setTopic_topics] at hf
    split at hf
    · next hm =>
        subst hm
        cases hf
        have := hc.publishers m e he
        rw [List.countP_cons, hpx] at this
        rw [hlv.publishers, this]
        cases x.kind.isPublisher <;> simp
    · next hm =>
        have := hc.publishers m f hf
        rw [List.countP_cons, hpx] at this
        simpa [hm] using this
  · rw [setTopic_topics] at hf
    split at hf
    · next hm =>
        subst hm
        cases hf
        have := hc.attendance m e he
        rw [List.countP_cons, hax] at this
        refine hlv.attendance _ (this.trans ?_)
        cases x.kind.isPublisher <;> simp
    · next hm =>
        have := hc.attendance m f hf
        rw [List.countP_cons, hax] at this
        simpa [hm] using this
  · show s.endpointCount - 1 = _
    rw [hc.total, List.countP_cons, if_pos hok]
    push_cast
    omega
  · rw [setTopic_topics] at hf
    split at hf
    · next hm =>
        subst hm
        cases hf
        rw [hlv.declares]
        exact hc.declared m e t he (hlv.type ▸ ht) y (List.mem_cons_of_mem _ hy) h
    · exact hc.declared m f t hf ht y (List.mem_cons_of_mem _ hy) h
  · rw [setTopic_topics] at hf
    split at hf
    · next hm =>
        subst hm
        cases hf
        rw [hlv.type, hlv.declares, hlv.publishers]
        rcases hc.alone m e he with h1 | h1
        · left
          split <;> omega
        · exact .inr h1
    · exact hc.alone m f hf

/-! ## Wiring and unregistering -/

/-- An operation never changes what a topic was created with. -/
def SameTopics (s s' : DomainState τ) : Prop :=
  ∀ n e, s.topics n = some e →
    ∃ e', s'.topics n = some e' ∧ e'.type = e.type ∧ e'.schemaHash = e.schemaHash

theorem SameTopics.refl (s : DomainState τ) : SameTopics s s := fun _ e he => ⟨e, he, rfl, rfl⟩

theorem SameTopics.trans {s'' : DomainState τ} (h : SameTopics s s') (h' : SameTopics s' s'') :
    SameTopics s s'' := by
  intro n e he
  obtain ⟨e1, h1, ht1, hh1⟩ := h n e he
  obtain ⟨e2, h2, ht2, hh2⟩ := h' n e1 h1
  exact ⟨e2, h2, ht2.trans ht1, hh2.trans hh1⟩

section Wire

variable [DecidableEq τ] {schemaHashOf : τ → UInt64} {impl : EndpointImpl τ}
  {add : TopicBase τ → AdvertiseStatus × TopicBase τ}

/-- A wiring verb accepts into an entry of its own type, created if need be, or it
refuses and leaves the registry as it was. -/
theorem wire_cases (hadd : Adds impl.kind impl.qos add) :
    (∃ e e', (s.topics n = some e ∨ s.topics n = none ∧
          e = { schemaHash := impl.kind.hash schemaHashOf, type := impl.kind.typeId }) ∧
        e.type = impl.kind.typeId ∧ e.schemaHash = impl.kind.hash schemaHashOf ∧
        Enters impl.kind impl.qos e e' ∧
        s.wire schemaHashOf n impl add =
          ({ s.setTopic n e' with endpointCount := s.endpointCount + 1 },
            { impl with status := .ok, registered := true, topic := some n })) ∨
      ∃ st, (st = .typeMismatch ∨ st = .ownershipRefused) ∧
        s.wire schemaHashOf n impl add = (s, { impl with status := st }) := by
  cases htop : s.topics n with
  | some e =>
      simp only [DomainState.wire, htop, Option.getD_some]
      split
      · right
        refine ⟨.typeMismatch, .inl rfl, ?_⟩
        rw [setTopic_self htop]
      · next hid =>
          obtain ⟨hh, ht⟩ := not_or.mp hid
          rcases hadd e (not_not.mp ht) with ⟨e', ha, hen⟩ | ⟨ha, -⟩
          · left
            refine ⟨e, e', .inl rfl, not_not.mp ht, not_not.mp hh, hen, ?_⟩
            rw [ha]
          · right
            refine ⟨.ownershipRefused, .inr rfl, ?_⟩
            rw [ha]
            simp only [setTopic_self htop]
  | none =>
      left
      rcases hadd { schemaHash := impl.kind.hash schemaHashOf, type := impl.kind.typeId } rfl with
        ⟨e', ha, hen⟩ | ⟨-, hpos⟩
      · refine ⟨_, e', .inr ⟨rfl, rfl⟩, rfl, rfl, hen, ?_⟩
        simp [DomainState.wire, htop, ha]
      · simp at hpos

theorem wire_census (hadd : Adds impl.kind impl.qos add) (hc : Census s live)
    (hst : impl.registered = false) :
    Census (s.wire schemaHashOf n impl add).1 ((s.wire schemaHashOf n impl add).2 :: live) := by
  rcases wire_cases (s := s) (n := n) hadd with ⟨e, e', hent, hty, -, hen, hw⟩ | ⟨st, hne, hw⟩
  · rw [hw]
    rcases hent with he | ⟨hno, rfl⟩
    · exact hc.enter he hty hen rfl rfl rfl
    · have hcr := hc.create hno (impl.kind.hash schemaHashOf) impl.kind.typeId
      let y : EndpointImpl τ := { impl with status := .ok, registered := true, topic := some n }
      have henter := hcr.enter (x := y) (by rw [setTopic_topics, if_pos rfl]) hty hen rfl rfl rfl
      simpa [DomainState.setTopic] using henter
  · rw [hw]
    have hoff : ({ impl with status := st } : EndpointImpl τ).ok = false := by
      rcases hne with rfl | rfl <;> rfl
    exact (census_refused_iff hoff hst).mpr hc

theorem wire_sameTopics (hadd : Adds impl.kind impl.qos add) :
    SameTopics s (s.wire schemaHashOf n impl add).1 := by
  rcases wire_cases (s := s) (n := n) hadd with ⟨e, e', hent, hty, -, hen, hw⟩ | ⟨st, hne, hw⟩
  · rw [hw]
    intro m f hf
    simp only [setTopic_topics]
    split
    · next hm =>
        subst hm
        rcases hent with he | ⟨hno, -⟩
        · rw [he] at hf
          cases hf
          exact ⟨e', rfl, hen.type, hen.schemaHash⟩
        · rw [hno] at hf
          cases hf
    · exact ⟨f, hf, rfl, rfl⟩
  · rw [hw]
    exact .refl s

end Wire

theorem unregister_census (hc : Census s (x :: live)) (core : Nat) :
    Census (s.unregister core x) live := by
  cases hok : x.ok with
  | false =>
      have hreg := hc.refused x (by simp) hok
      rw [DomainState.unregister, hreg]
      exact (census_refused_iff hok hreg).mp hc
  | true =>
      obtain ⟨hreg, n, e, htop, he, hty⟩ := hc.settled x (by simp) hok
      simp only [DomainState.unregister, hreg, htop, he]
      exact hc.leave he (remove_leaves x.kind core hty) hok htop

theorem remove_schemaHash (kind : EndpointKind τ) (core : Nat) (e : TopicBase τ) :
    (kind.remove core e).schemaHash = e.schemaHash ∧ (kind.remove core e).type = e.type := by
  cases kind with
  | subscriber t =>
      simp only [EndpointKind.remove, TopicBase.removeSubscriber]
      split <;> exact ⟨rfl, rfl⟩
  | _ => exact ⟨rfl, rfl⟩

theorem unregister_sameTopics (s : DomainState τ) (core : Nat) (x : EndpointImpl τ) :
    SameTopics s (s.unregister core x) := by
  unfold DomainState.unregister
  split
  · split
    · next n _ _ e he =>
        intro m f hf
        simp only [setTopic_topics]
        split
        · next hm =>
            subst hm
            rw [he] at hf
            cases hf
            obtain ⟨hh, ht⟩ := remove_schemaHash x.kind core e
            exact ⟨_, rfl, ht, hh⟩
        · exact ⟨f, hf, rfl, rfl⟩
    · exact .refl s
  · exact .refl s

/-! ## Handles and impls -/

/-- What holds of a program after any operations: the census, and that the handles
own the impls, each of them once and none left behind. -/
structure ProgramInv (w : Program τ) : Prop where
  census : Census w.state (w.heap.map Prod.snd)
  addrs : (w.heap.map Prod.fst).Nodup
  fresh : ∀ i ∈ w.heap.map Prod.fst, i < w.allocs
  held : ∀ v i, w.handles v = some (some i) → i ∈ w.heap.map Prod.fst
  kept : ∀ i ∈ w.heap.map Prod.fst, ∃ v, w.handles v = some (some i)
  sole : ∀ v u i, w.handles v = some (some i) → w.handles u = some (some i) → v = u

theorem lookup_perm {α : Type} {i : Nat} {x : α} : ∀ {l : List (Nat × α)},
    l.lookup i = some x → l.Perm ((i, x) :: l.eraseP (·.1 == i))
  | [], h => by cases h
  | (j, y) :: l, h => by
      rw [List.lookup_cons] at h
      split at h
      · next hij =>
          have hij := eq_of_beq hij
          subst hij
          cases h
          simp
      · next hij =>
          have hne : (j == i) = false := by
            rw [beq_eq_false_iff_ne] at hij ⊢
            exact Ne.symm hij
          rw [List.eraseP_cons_of_neg (by simp [hne])]
          exact ((lookup_perm h).cons (j, y)).trans (.swap _ _ _)

theorem lookup_of_mem {α : Type} {i : Nat} : ∀ {l : List (Nat × α)},
    i ∈ l.map Prod.fst → ∃ x, l.lookup i = some x
  | [], h => by cases h
  | (j, y) :: l, h => by
      rw [List.lookup_cons]
      split
      · exact ⟨y, rfl⟩
      · next hij =>
          rcases List.mem_cons.mp h with rfl | h
          · simp at hij
          · exact lookup_of_mem h

variable {w w' : Program τ}

/-- `delete impl_` of a handle that holds `p`. -/
structure Deleted (w w' : Program τ) (p : Option Nat) : Prop where
  census : Census w'.state (w'.heap.map Prod.snd)
  addrs : (w'.heap.map Prod.fst).Nodup
  rest : ∀ i, i ∈ w'.heap.map Prod.fst ↔ i ∈ w.heap.map Prod.fst ∧ p ≠ some i
  allocs : w'.allocs = w.allocs
  handles : w'.handles = w.handles
  topics : SameTopics w.state w'.state

theorem delete_deleted (hi : ProgramInv w) {v : Nat} {p : Option Nat}
    (hv : w.handles v = some p) : Deleted w (w.delete p) p := by
  cases p with
  | none => exact ⟨hi.census, hi.addrs, by simp [Program.delete], rfl, rfl, .refl _⟩
  | some i =>
      obtain ⟨x, hx⟩ := lookup_of_mem (hi.held v i hv)
      have hperm := lookup_perm hx
      have hfst : (w.heap.map Prod.fst).Perm
          (i :: (w.heap.eraseP (·.1 == i)).map Prod.fst) := by
        simpa using hperm.map Prod.fst
      have hsnd : (w.heap.map Prod.snd).Perm
          (x :: (w.heap.eraseP (·.1 == i)).map Prod.snd) := by
        simpa using hperm.map Prod.snd
      obtain ⟨hnot, hnd⟩ := List.nodup_cons.mp (hfst.nodup_iff.mp hi.addrs)
      simp only [Program.delete, hx]
      refine ⟨unregister_census (hi.census.perm hsnd) i, hnd, fun j => ?_, rfl, rfl,
        unregister_sameTopics _ _ _⟩
      constructor
      · intro hj
        refine ⟨hfst.mem_iff.mpr (List.mem_cons_of_mem _ hj), ?_⟩
        rintro h0
        cases h0
        exact hnot hj
      · rintro ⟨hj, hne⟩
        rcases List.mem_cons.mp (hfst.mem_iff.mp hj) with rfl | hj
        · exact absurd rfl hne
        · exact hj

theorem mint_inv (hi : ProgramInv w) {v : Nat} (hv : w.handles v = none)
    {r : DomainState τ × EndpointImpl τ} (hr : Census r.1 (r.2 :: w.heap.map Prod.snd)) :
    ProgramInv (w.mint v r) := by
  have hnot : w.allocs ∉ w.heap.map Prod.fst := fun h => Nat.lt_irrefl _ (hi.fresh _ h)
  refine ⟨hr, List.nodup_cons.mpr ⟨hnot, hi.addrs⟩, ?_, ?_, ?_, ?_⟩
  · intro i hmem
    rcases List.mem_cons.mp hmem with rfl | hmem
    · exact Nat.lt_succ_self _
    · exact Nat.lt_succ_of_lt (hi.fresh i hmem)
  · intro u i hu
    simp only [Program.mint, Function.update_apply] at hu
    split at hu
    · cases hu
      simp [Program.mint]
    · exact List.mem_cons_of_mem _ (hi.held u i hu)
  · intro i hmem
    rcases List.mem_cons.mp hmem with rfl | hmem
    · exact ⟨v, by simp [Program.mint]⟩
    · obtain ⟨u, hu⟩ := hi.kept i hmem
      refine ⟨u, ?_⟩
      simp only [Program.mint, Function.update_apply]
      rw [if_neg, hu]
      rintro rfl
      rw [hv] at hu
      cases hu
  · intro u u' i hu hu'
    simp only [Program.mint, Function.update_apply] at hu hu'
    split at hu <;> split at hu'
    · next h1 h2 => exact h1.trans h2.symm
    · cases hu
      exact absurd (hi.held u' _ hu') hnot
    · cases hu'
      exact absurd (hi.held u _ hu) hnot
    · exact hi.sole u u' i hu hu'

theorem moveConstruct_inv (hi : ProgramInv w) {v u : Nat} {p : Option Nat}
    (hv : w.handles v = none) (hu : w.handles u = some p) :
    ProgramInv ((w.point v (some p)).point u (some none)) := by
  have hne : v ≠ u := by
    rintro rfl
    rw [hv] at hu
    cases hu
  refine ⟨hi.census, hi.addrs, hi.fresh, ?_, ?_, ?_⟩
  · intro x i hx
    simp only [Program.point, Function.update_apply] at hx
    split at hx
    · cases hx
    · split at hx
      · cases hx
        exact hi.held u i hu
      · exact hi.held x i hx
  · intro i hmem
    obtain ⟨x, hx⟩ := hi.kept i hmem
    by_cases hxu : x = u
    · subst hxu
      rw [hu] at hx
      exact ⟨v, by simp [Program.point, hne, Option.some.inj hx]⟩
    · have hxv : x ≠ v := by
        rintro rfl
        rw [hv] at hx
        cases hx
      exact ⟨x, by simp [Program.point, hxu, hxv, hx]⟩
  · intro x y i hx hy
    simp only [Program.point, Function.update_apply] at hx hy
    have hback : ∀ z, z ≠ u → (if z = v then some p else w.handles z) = some (some i) →
        w.handles (if z = v then u else z) = some (some i) := by
      intro z _ hz
      split at hz
      · next h => rw [if_pos h, hu, hz]
      · next h => rw [if_neg h, hz]
    split at hx
    · cases hx
    · split at hy
      · cases hy
      · next hxu hyu =>
          have := hi.sole _ _ i (hback x hxu hx) (hback y hyu hy)
          split at this <;> split at this
          · next h1 h2 => exact h1.trans h2.symm
          · exact absurd this.symm hyu
          · exact absurd this hxu
          · exact this

theorem destroy_inv (hi : ProgramInv w) {v : Nat} {p : Option Nat}
    (hv : w.handles v = some p) : ProgramInv ((w.delete p).point v none) := by
  have hd := delete_deleted hi hv
  refine ⟨hd.census, hd.addrs, ?_, ?_, ?_, ?_⟩
  · intro i hmem
    show i < (w.delete p).allocs
    rw [hd.allocs]
    exact hi.fresh i ((hd.rest i).mp hmem).1
  · intro x i hx
    simp only [Program.point, Function.update_apply, hd.handles] at hx
    split at hx
    · cases hx
    · next hxv =>
        refine (hd.rest i).mpr ⟨hi.held x i hx, ?_⟩
        rintro rfl
        exact hxv (hi.sole x v i hx hv)
  · intro i hmem
    obtain ⟨hold, hne⟩ := (hd.rest i).mp hmem
    obtain ⟨x, hx⟩ := hi.kept i hold
    refine ⟨x, ?_⟩
    simp only [Program.point, Function.update_apply, hd.handles]
    rw [if_neg, hx]
    rintro rfl
    rw [hv] at hx
    cases hx
    exact hne rfl
  · intro x y i hx hy
    simp only [Program.point, Function.update_apply, hd.handles] at hx hy
    split at hx
    · cases hx
    · split at hy
      · cases hy
      · exact hi.sole x y i hx hy

/-- A move assignment is the destruction of the target followed by a move into it. -/
theorem moveAssign_eq (w : Program τ) (v u : Nat) (p q : Option Nat) :
    ((w.delete p).point v (some q)).point u (some none) =
      ((((w.delete p).point v none).point v (some q)).point u (some none)) := by
  simp [Program.point]

/-- The endpoints that are live and `kOk`. -/
def Program.wired (w : Program τ) : List (Nat × EndpointImpl τ) := w.heap.filter (·.2.ok)

theorem wired_countP (w : Program τ) (f : EndpointImpl τ → Bool)
    (hf : ∀ x, f x = true → x.ok = true) :
    (w.heap.map Prod.snd).countP f = w.wired.countP (fun y => f y.2) := by
  rw [Program.wired, List.countP_filter, List.countP_map]
  refine List.countP_congr fun y _ => ?_
  simp only [Function.comp, Bool.and_eq_true]
  exact ⟨fun h => ⟨h, hf _ h⟩, fun h => h.1⟩

theorem eraseP_refused {i : Nat} {x : EndpointImpl τ} (hx : x.ok = false) :
    ∀ {l : List (Nat × EndpointImpl τ)}, l.lookup i = some x →
      (l.eraseP (·.1 == i)).filter (·.2.ok) = l.filter (·.2.ok)
  | [], h => by cases h
  | (j, y) :: l, h => by
      rw [List.lookup_cons] at h
      split at h
      · next hij =>
          have hij := eq_of_beq hij
          subst hij
          cases h
          simp [hx]
      · next hij =>
          have hne : (j == i) = false := by
            rw [beq_eq_false_iff_ne] at hij ⊢
            exact Ne.symm hij
          rw [List.eraseP_cons_of_neg (by simp [hne])]
          simp only [List.filter_cons, eraseP_refused hx h]

/-- Deleting a refused impl unregisters nothing. -/
theorem delete_refused (hi : ProgramInv w) {i : Nat} {x : EndpointImpl τ}
    (hx : w.heap.lookup i = some x) (hok : x.ok = false) :
    (w.delete (some i)).state = w.state ∧ (w.delete (some i)).wired = w.wired := by
  have hmem : x ∈ w.heap.map Prod.snd :=
    (lookup_perm hx).map Prod.snd |>.mem_iff.mpr (by simp)
  have hreg := hi.census.refused x hmem hok
  simp only [Program.delete, hx, Program.wired]
  exact ⟨by rw [DomainState.unregister, hreg], eraseP_refused hok hx⟩

theorem publishesOn_ok {n : String} {x : EndpointImpl τ} (h : x.publishesOn n = true) :
    x.ok = true ∧ x.topic = some n ∧ x.kind.isPublisher = true := by
  simpa [EndpointImpl.publishesOn, and_assoc] using h

theorem attendsOn_ok {n : String} {x : EndpointImpl τ} (h : x.attendsOn n = true) :
    x.ok = true := by
  simp only [EndpointImpl.attendsOn, Bool.and_eq_true] at h
  exact h.1.1

section Steps

variable [DecidableEq τ] {schemaHashOf : τ → UInt64}

/-- A verb's result is what `wire` makes of it, or the unsupported handle of a
moved-from domain. -/
theorem result_cases {op : WireOp τ} {v : Nat} {r : DomainState τ × EndpointImpl τ}
    (h : op.result schemaHashOf w = some (v, r)) :
    (r.1 = w.state ∧ r.2.status = .unsupportedReach ∧ r.2.registered = false) ∨
      ∃ n impl add, Adds impl.kind impl.qos add ∧ impl.registered = false ∧
        r = w.state.wire schemaHashOf n impl add := by
  cases op with
  | advertise v live topic t qos =>
      cases live <;> cases h
      · exact .inl ⟨rfl, rfl, rfl⟩
      · exact .inr ⟨topic, { kind := .publisher t, qos := qos }, _, addPublisher_adds t qos, rfl,
          rfl⟩
  | subscribe v live topic t qos =>
      cases live <;> cases h
      · exact .inl ⟨rfl, rfl, rfl⟩
      · exact .inr ⟨topic, { kind := .subscriber t, qos := qos }, _,
          addSubscriber_adds t qos w.allocs, rfl, rfl⟩
  | serve v live topic req rsp =>
      cases live <;> cases h
      · exact .inl ⟨rfl, rfl, rfl⟩
      · exact .inr ⟨topic, { kind := .server req rsp }, _, addServer_adds req rsp {}, rfl, rfl⟩
  | client v live topic req rsp =>
      cases live <;> cases h
      · exact .inl ⟨rfl, rfl, rfl⟩
      · exact .inr ⟨topic, { kind := .client req rsp }, _, addClient_adds req rsp {}, rfl, rfl⟩
  | moveConstruct v u | moveAssign v u | destroy v => cases h

theorem result_census (hi : ProgramInv w) {op : WireOp τ} {v : Nat}
    {r : DomainState τ × EndpointImpl τ} (h : op.result schemaHashOf w = some (v, r)) :
    Census r.1 (r.2 :: w.heap.map Prod.snd) ∧ SameTopics w.state r.1 := by
  rcases result_cases h with ⟨hs, hst, hreg⟩ | ⟨n, impl, add, hadd, hreg, rfl⟩
  · have hoff : r.2.ok = false := by simp [EndpointImpl.ok, hst]
    rw [hs]
    exact ⟨(census_refused_iff hoff hreg).mpr hi.census, .refl _⟩
  · exact ⟨wire_census hadd hi.census hreg, wire_sameTopics hadd⟩

theorem programStep_inv {op : WireOp τ} (h : programStep schemaHashOf w op = some w')
    (hi : ProgramInv w) : ProgramInv w' ∧ SameTopics w.state w'.state := by
  unfold programStep at h
  split at h
  · next v r hres =>
      split at h
      · next hv =>
          cases h
          obtain ⟨hc, hsame⟩ := result_census hi hres
          exact ⟨mint_inv hi hv hc, hsame⟩
      · cases h
  · split at h
    · split at h
      · next hv hu =>
          cases h
          exact ⟨moveConstruct_inv hi hv hu, .refl _⟩
      · cases h
    · next v u =>
        split at h
        · next p q hv hu =>
            split at h
            · cases h
              exact ⟨hi, .refl _⟩
            · next hne =>
                cases h
                rw [moveAssign_eq]
                refine ⟨moveConstruct_inv (destroy_inv hi hv) (by simp [Program.point]) ?_,
                  (delete_deleted hi hv).topics⟩
                simp only [Program.point, Function.update_apply, (delete_deleted hi hv).handles]
                rw [if_neg (Ne.symm hne), hu]
        · cases h
    · split at h
      · next p hv =>
          cases h
          exact ⟨destroy_inv hi hv, (delete_deleted hi hv).topics⟩
      · cases h
    · cases h

theorem programInv_reached (h : (program schemaHashOf).Reached anyStep w) : ProgramInv w := by
  refine Machine.Reached.invariant (P := ProgramInv) ?_ ?_ h
  · rintro w rfl
    refine ⟨⟨?_, ?_, ?_, ?_, rfl, ?_, ?_⟩, List.nodup_nil, ?_, ?_, ?_, ?_⟩ <;> simp
  · intro w op w' _ hi _ hs
    exact (programStep_inv hs hi).1

theorem exec_sameTopics {ops : List (WireOp τ)} {w w' : Program τ} (hi : ProgramInv w)
    (h : (program schemaHashOf).exec ops w = some w') : SameTopics w.state w'.state := by
  induction ops generalizing w with
  | nil =>
      cases h
      exact .refl _
  | cons op ops ih =>
      rw [Machine.exec] at h
      split at h
      · cases h
      · next w1 h1 =>
          obtain ⟨hi1, hsame⟩ := programStep_inv h1 hi
          exact hsame.trans (ih hi1 h)

/-! ## What a program may rely on -/

/-- A refused call leaves the registry as it was. -/
theorem result_refused {op : WireOp τ} {v : Nat} {r : DomainState τ × EndpointImpl τ}
    (h : op.result schemaHashOf w = some (v, r)) (hst : r.2.status ≠ .ok) :
    r.1 = w.state ∧ r.2.ok = false := by
  refine ⟨?_, by simpa [EndpointImpl.ok] using hst⟩
  rcases result_cases h with ⟨hs, -⟩ | ⟨n, impl, add, hadd, -, rfl⟩
  · exact hs
  · rcases wire_cases (s := w.state) (n := n) hadd with ⟨e, e', -, -, -, -, hw⟩ | ⟨st, -, hw⟩
    · rw [hw] at hst
      exact absurd rfl hst
    · rw [hw]

/-- The registry of a program, at any point. -/
structure RegistryHolds (schemaHashOf : τ → UInt64) (w : Program τ) : Prop where
  typed : ∀ y ∈ w.wired, ∃ n e, y.2.topic = some n ∧ w.state.topics n = some e ∧
    e.type = y.2.kind.typeId
  asCreated : ∀ ops w', (program schemaHashOf).exec ops w = some w' →
    ∀ n e, w.state.topics n = some e → ∃ e', w'.state.topics n = some e' ∧ e'.type = e.type
  allShared : ∀ n, 1 < w.wired.countP (·.2.publishesOn n) →
    ∀ y ∈ w.wired, y.2.publishesOn n = true →
      y.2.qos.ownership = .shared ∧ ∃ t, y.2.kind = .publisher t
  oneServer : ∀ n e req rsp, w.state.topics n = some e → e.type = .rpcTag req rsp →
    w.wired.countP (·.2.publishesOn n) ≤ 1
  publisherCount : ∀ n e, w.state.topics n = some e →
    e.publisherCount = w.wired.countP (·.2.publishesOn n)
  occupiedSlots : ∀ n e t, w.state.topics n = some e → e.type = .payload t →
    e.subscriberCount = e.subSlots.countP Option.isSome
  clients : ∀ n e req rsp, w.state.topics n = some e → e.type = .rpcTag req rsp →
    e.subscriberCount = w.wired.countP (·.2.attendsOn n)
  endpointCount : w.state.endpointCount = w.wired.length
  refusedCall : ∀ op v r w', op.result schemaHashOf w = some (v, r) →
    r.2.status = .typeMismatch ∨ r.2.status = .ownershipRefused →
    programStep schemaHashOf w op = some w' → w'.state = w.state ∧ w'.wired = w.wired
  refusedDestroyed : ∀ v i x, w.handles v = some (some i) → w.heap.lookup i = some x →
    x.status = .typeMismatch ∨ x.status = .ownershipRefused →
    ∀ op w', (op = .destroy v ∨ ∃ u, u ≠ v ∧ op = .moveAssign v u) →
      programStep schemaHashOf w op = some w' → w'.state = w.state ∧ w'.wired = w.wired

theorem registry_census (h : (program schemaHashOf).Reached anyStep w) :
    RegistryHolds schemaHashOf w := by
  have hi := programInv_reached h
  have hc := hi.census
  have hpub : ∀ n e, w.state.topics n = some e →
      e.publisherCount = w.wired.countP (·.2.publishesOn n) := by
    intro n e he
    rw [hc.publishers n e he, wired_countP w _ fun x hx => (publishesOn_ok hx).1]
  have hmem : ∀ y ∈ w.wired, y.2 ∈ w.heap.map Prod.snd ∧ y.2.ok = true := by
    intro y hy
    obtain ⟨hy, hok⟩ := List.mem_filter.mp hy
    exact ⟨List.mem_map_of_mem hy, hok⟩
  refine ⟨?_, ?_, ?_, ?_, hpub, ?_, ?_, ?_, ?_, ?_⟩
  · intro y hy
    exact (hc.settled y.2 (hmem y hy).1 (hmem y hy).2).2
  · intro ops w' hex n e he
    obtain ⟨e', he', ht, -⟩ := exec_sameTopics hi hex n e he
    exact ⟨e', he', ht⟩
  · intro n hmany y hy hpy
    obtain ⟨-, m, e, hm, he, hty⟩ := hc.settled y.2 (hmem y hy).1 (hmem y hy).2
    obtain ⟨-, htop, hkind⟩ := publishesOn_ok hpy
    rw [hm] at htop
    cases htop
    have hcount := hpub n e he
    rcases hc.alone n e he with h1 | ⟨⟨t, ht⟩, hsh⟩
    · omega
    · refine ⟨(hc.declared n e t he ht y.2 (hmem y hy).1 hpy).trans hsh, ?_⟩
      rw [ht] at hty
      cases hk : y.2.kind with
      | publisher t => exact ⟨t, rfl⟩
      | subscriber t =>
          rw [hk] at hkind
          cases hkind
      | server req rsp | client req rsp =>
          rw [hk] at hty
          cases hty
  · intro n e req rsp he hty
    have hcount := hpub n e he
    rcases hc.alone n e he with h1 | ⟨⟨t, ht⟩, -⟩
    · omega
    · rw [hty] at ht
      cases ht
  · intro n e t he hty
    have := hc.attendance n e he
    rwa [TopicBase.attendance, hty] at this
  · intro n e req rsp he hty
    have := hc.attendance n e he
    rw [TopicBase.attendance, hty] at this
    rw [this, wired_countP w _ fun x hx => attendsOn_ok hx]
  · rw [hc.total, List.countP_map, List.countP_eq_length_filter]
    rfl
  · intro op v r w' hres hst hstep
    have hne : r.2.status ≠ .ok := by rcases hst with h0 | h0 <;> simp [h0]
    obtain ⟨hs, hoff⟩ := result_refused hres hne
    simp only [programStep, hres] at hstep
    split at hstep
    · cases hstep
      refine ⟨hs, ?_⟩
      simp [Program.wired, Program.mint, hoff]
    · cases hstep
  · intro v i x hv hx hst op w' hop hstep
    have hoff : x.ok = false := by rcases hst with h0 | h0 <;> simp [EndpointImpl.ok, h0]
    obtain ⟨hs, hw⟩ := delete_refused hi hx hoff
    rcases hop with rfl | ⟨u, hne, rfl⟩
    · simp only [programStep, WireOp.result, hv] at hstep
      cases hstep
      exact ⟨hs, hw⟩
    · simp only [programStep, WireOp.result, hv, if_neg (Ne.symm hne)] at hstep
      split at hstep
      · next h1 _ =>
          cases h1
          cases hstep
          exact ⟨hs, hw⟩
      · cases hstep

/-- Two shared publishers, a refused exclusive one that is moved and destroyed, a
subscriber, a server and a client of the wrong type. -/
theorem registry_census_mixed : ∃ w : Program Bool,
    (program fun t => if t then 7 else 9).Reached anyStep w ∧
      (w.state.endpointCount, w.wired.map (·.1), w.heap.map (·.2.status)) =
        (4, [4, 3, 1, 0], [.typeMismatch, .ok, .ok, .ok, .ok]) ∧
      RegistryHolds (fun t => if t then 7 else 9) w := by
  have hrun : ((program fun t => if t then 7 else 9).exec
      [.advertise 0 true "a" true { ownership := .shared },
        .advertise 1 true "a" true { ownership := .shared },
        .advertise 2 true "a" true {}, .moveConstruct 3 2, .subscribe 4 true "a" true {},
        .serve 5 true "b" true false, .moveAssign 3 2, .destroy 3,
        .client 6 true "a" true false] {}).map
        (fun w => (w.state.endpointCount, w.wired.map (·.1), w.heap.map (·.2.status))) =
      some (4, [4, 3, 1, 0], [.typeMismatch, .ok, .ok, .ok, .ok]) := by decide +kernel
  obtain ⟨w, hw, hf⟩ := Option.map_eq_some_iff.mp hrun
  have hr := Machine.reached_of_exec (.start rfl) hw
  exact ⟨w, hr, hf, registry_census hr⟩

end Steps

end Xmmsg.InProc
