import Mathlib.Data.List.Perm.Subperm
import Xmmsg.InProc.Calls
import Xmmsg.InProc.Carry

/-!
# What a wired subscriber is wired to

`Subscribe` says `kOk` as soon as it has a core. Whether the core has a place in the
fan-out table is decided inside `AddSubscriber`, which says nothing when the 64 slots
are taken, and `MatchedCount` of a subscriber counts publishers, not places. A
subscriber that came too late therefore looks like every other, with a publisher
matched, and nothing ever reaches it.

`connected_iff`: over the whole of a program, every subscriber is connected at every
point exactly when there are never more subscribers than slots.
-/

namespace Xmmsg.InProc

open Xmmsg.Sys

variable {T : Type}

/-! ## Matching -/

/-- An endpoint handle. -/
inductive Endpoint where
  | publisher (p : Nat)
  | subscriber (k : Nat)
  deriving DecidableEq, Repr

inductive WaitStatus where
  | matched
  | deadlineExpired
  deriving DecidableEq, Repr

/-- `EndpointImpl::MatchedCount`: the registry count of the other side. A refused
publisher has no topic. -/
def World.matchedCount (w : World T) : Endpoint → Nat
  | .publisher p =>
      match (w.pubs p).pc with
      | .refused => 0
      | _ => w.topic.subscriberCount
  | .subscriber _ => w.topic.publisherCount

/-- One look of `WaitUntilMatched`. -/
def World.allMatched (w : World T) (es : List Endpoint) : Bool :=
  es.all fun e => w.matchedCount e != 0

/-- `Domain::WaitUntilMatched`; `looks` are the worlds its polls find and the clock
readings after them. -/
def waitUntilMatched (es : List Endpoint) (deadlineAt : Int) :
    List (World T × Int) → Option WaitStatus
  | [] => none
  | (w, now) :: looks =>
      if w.allMatched es then some .matched
      else if deadlineAt - now ≤ 0 then some .deadlineExpired
      else waitUntilMatched es deadlineAt looks

theorem waitUntilMatched_matched {es : List Endpoint} {deadlineAt : Int}
    {looks : List (World T × Int)} (h : waitUntilMatched es deadlineAt looks = some .matched) :
    ∃ look ∈ looks, look.1.allMatched es = true := by
  induction looks with
  | nil => cases h
  | cons look looks ih =>
      obtain ⟨w, now⟩ := look
      rw [waitUntilMatched] at h
      split at h
      · next hall => exact ⟨(w, now), List.mem_cons_self, hall⟩
      · split at h
        · cases h
        · obtain ⟨look, hlook, hall⟩ := ih h
          exact ⟨look, List.mem_cons_of_mem _ hlook, hall⟩

/-! ## Reaching a subscriber -/

/-- Whoever publishes next, an accepted record is put in the mailbox of `k` or counted
there as dropped. -/
def World.Reaches [Inhabited T] (size : Nat) (w : World T) (k : Nat) : Prop :=
  ∀ p m w', (w.pubs p).pc = .idle → w.publish size p m = some (.published .ok, w') →
    (w'.topic.cores k).box.holds (m.record (w.topic.acceptedOrdinal + 1)) ∨
      (w'.topic.cores k).dropCount = (w.topic.cores k).dropCount + 1

theorem receive_holds (c : SubCore T) (r : MailRecord T) :
    (c.receive r).box.holds r ∨ (c.receive r).dropCount = c.dropCount + 1 := by
  cases hb : c.box with
  | latest x =>
      simp only [SubCore.receive, hb]
      exact .inl rfl
  | queue q =>
      cases hp : q.tryPush r with
      | none =>
          simp only [SubCore.receive, hb, hp]
          exact .inr trivial
      | some q' =>
          simp only [SubCore.receive, hb, hp]
          left
          show r ∈ q'.items
          rw [(Fifo.tryPush_some hp).1]
          exact List.mem_append_right _ (List.mem_singleton.mpr rfl)

/-- A place in the table, and what follows from it. -/
structure Connected [Inhabited T] (size : Nat) (w : World T) (k : Nat) : Prop where
  slot : ∃ i, i < kMaxSubscribers ∧ w.topic.subSlots i = some k
  reached : w.Reaches size k
  matched : 0 < w.matchedCount (.subscriber k) → w.Reaches size k

section

variable [Inhabited T] {size : Nat} {live : List Nat} {w : World T}

theorem reaches_of_tabled (ht : Tabled live w.topic) {k : Nat} (hk : k ∈ live) :
    w.Reaches size k := by
  intro p m w' hp hpub
  rw [World.publish, hp] at hpub
  simp only at hpub
  split at hpub
  · cases hpub
  · cases hpub
    rw [World.putPub_topic, deliver_eq ht]
    simp only [if_pos hk]
    exact receive_holds _ _

theorem connected_of_tabled (ht : Tabled live w.topic) {k : Nat} (hk : k ∈ live) :
    Connected size w k :=
  ⟨(ht.mem k).mp hk, reaches_of_tabled ht hk, fun _ => reaches_of_tabled ht hk⟩

end

/-! ## The subscribers between calls -/

theorem fanOut_slots (h : Topic T) (r : MailRecord T) :
    (h.fanOut r).subSlots = h.subSlots ∧ (h.fanOut r).subscriberCount = h.subscriberCount := by
  refine foldl_range_invariant
    (P := fun _ (g : Topic T) => g.subSlots = h.subSlots ∧ g.subscriberCount = h.subscriberCount)
    ⟨rfl, rfl⟩ kMaxSubscribers ?_
  rintro i g - hg
  rw [Topic.visit]
  split
  · exact hg
  · exact hg

/-- The subscribers named are those that exist, each once. -/
structure Wired (live : List Nat) (w : World T) : Prop where
  nodup : live.Nodup
  mem : ∀ k, k ∈ live ↔ (w.subs k).pc = .wired .idle

section Calls

variable [Inhabited T] {size : Nat} {live : List Nat} {w w' : World T} {i : Op T} {a : Answer T}

theorem publish_frame {p : Nat} {m : Message T} (h : w.publish size p m = some (a, w')) :
    w'.subs = w.subs ∧ w'.topic.subSlots = w.topic.subSlots ∧
      w'.topic.subscriberCount = w.topic.subscriberCount := by
  simp only [World.publish] at h
  split at h
  · split at h
    · cases h
      exact ⟨rfl, rfl, rfl⟩
    · cases h
      exact ⟨rfl, fanOut_slots _ _⟩
  · cases h
    exact ⟨rfl, rfl, rfl⟩
  · cases h

theorem take_frame {k : Nat} {verb : SubCore T → Option (MailRecord T × Bool) × SubCore T}
    (h : w.take k verb = some (a, w')) :
    w'.subs = w.subs ∧ w'.topic.subSlots = w.topic.subSlots ∧
      w'.topic.subscriberCount = w.topic.subscriberCount := by
  simp only [World.take] at h
  split at h
  · cases h
    exact ⟨Function.update_eq_self k w.subs, rfl, rfl⟩
  · cases h

/-- What a call does to the subscribers and their places. -/
theorem call_cases (h : w.call size i = some (a, w')) :
    (∃ k, i = .subscribe k ∧ (w.subs k).pc = .unwired ∧
      w' = w.putSub k (w.topic.addSubscriber k (w.subs k).qos) ((w.subs k).at' (.wired .idle))) ∨
    (∃ k, i = .destroySubscriber k ∧ (w.subs k).pc = .wired .idle ∧
      w' = w.putSub k (w.topic.removeSubscriber k) ((w.subs k).at' .gone)) ∨
    (∀ live, i.note live = live) ∧ w'.subs = w.subs ∧ w'.topic.subSlots = w.topic.subSlots ∧
      w'.topic.subscriberCount = w.topic.subscriberCount := by
  cases i with
  | subscribe k =>
      simp only [World.call] at h
      split at h
      · next hpc =>
        cases h
        exact .inl ⟨k, rfl, hpc, rfl⟩
      · cases h
  | destroySubscriber k =>
      simp only [World.call] at h
      split at h
      · next hpc =>
        cases h
        exact .inr (.inl ⟨k, rfl, hpc, rfl⟩)
      · cases h
  | advertise p =>
      right; right
      simp only [World.call, Topic.addPublisher] at h
      split at h
      · split at h
        · next hadd =>
          split at hadd <;> cases hadd
          cases h
          exact ⟨fun _ => rfl, rfl, rfl, rfl⟩
        · next hadd =>
          split at hadd <;> cases hadd
          all_goals
            cases h
            exact ⟨fun _ => rfl, rfl, rfl, rfl⟩
      · cases h
  | publish p value context now | publishDerived p value upstream context now =>
      right; right
      obtain ⟨hsubs, hslots⟩ := publish_frame h
      exact ⟨fun _ => rfl, hsubs, hslots⟩
  | takeLatest k now | tryTake k now =>
      right; right
      simp only [World.call] at h
      obtain ⟨hsubs, hslots⟩ := take_frame h
      exact ⟨fun _ => rfl, hsubs, hslots⟩
  | publishCount p | publisherMatched p | destroyPublisher p | count k c | subscriberMatched k =>
      right; right
      simp only [World.call] at h
      split at h
      all_goals cases h
      all_goals exact ⟨fun _ => rfl, rfl, rfl, rfl⟩

theorem call_wired (h : w.call size i = some (a, w')) (hw : Wired live w) :
    Wired (i.note live) w' := by
  rcases call_cases h with ⟨k, rfl, hpc, rfl⟩ | ⟨k, rfl, hpc, rfl⟩ | ⟨hnote, hsubs, -⟩
  · have hk : k ∉ live := by
      rw [hw.mem k, hpc]
      exact fun h0 => nomatch h0
    refine ⟨List.nodup_cons.mpr ⟨hk, hw.nodup⟩, fun j => ?_⟩
    rw [Op.note, List.mem_cons]
    by_cases hj : j = k
    · subst hj
      rw [World.putSub_self]
      exact ⟨fun _ => rfl, fun _ => .inl rfl⟩
    · rw [World.putSub_ne _ _ _ _ hj, ← hw.mem j]
      exact or_iff_right hj
  · refine ⟨hw.nodup.erase k, fun j => ?_⟩
    rw [Op.note, hw.nodup.mem_erase_iff]
    by_cases hj : j = k
    · subst hj
      rw [World.putSub_self]
      exact ⟨fun h0 => absurd rfl h0.1, fun h0 => nomatch h0⟩
    · rw [World.putSub_ne _ _ _ _ hj, ← hw.mem j]
      exact and_iff_right hj
  · rw [hnote live]
    refine ⟨hw.nodup, fun j => ?_⟩
    rw [hsubs]
    exact hw.mem j

/-- A join finds a slot as long as there are no more subscribers than slots. -/
theorem call_tabled (h : w.call size i = some (a, w')) (hw : Wired live w)
    (ht : Tabled live w.topic) (hfits : (i.note live).length ≤ kMaxSubscribers) :
    Tabled (i.note live) w'.topic := by
  rcases call_cases h with ⟨k, rfl, hpc, rfl⟩ | ⟨k, rfl, hpc, rfl⟩ | ⟨hnote, -, hslots, hcount⟩
  · have hk : k ∉ live := by
      rw [hw.mem k, hpc]
      exact fun h0 => nomatch h0
    exact (addSubscriber_spec ht hk hfits (w.subs k).qos).1
  · exact (removeSubscriber_spec ht ((hw.mem k).mpr hpc)).1
  · rw [hnote live]
    exact ht.congr hslots hcount

end Calls

section

variable {live : List Nat} {w : World T}

theorem wired_fresh (hw : w.Fresh) : Wired [] w := by
  refine ⟨List.nodup_nil, fun k => ?_⟩
  rw [hw.2.1 k]
  exact ⟨fun h => (nomatch h), fun h => (nomatch h)⟩

theorem tabled_fresh (hw : w.Fresh) : Tabled [] w.topic := by
  rw [hw.1]
  exact tabled_empty

/-- So many subscribers cannot all have a place. -/
theorem length_le_of_slots (hw : Wired live w)
    (hslot : ∀ k, (w.subs k).pc = .wired .idle →
      ∃ i, i < kMaxSubscribers ∧ w.topic.subSlots i = some k) :
    live.length ≤ kMaxSubscribers := by
  have hsub : live ⊆ (List.range kMaxSubscribers).filterMap w.topic.subSlots := by
    intro k hk
    obtain ⟨i, hi, hik⟩ := hslot k ((hw.mem k).mp hk)
    exact List.mem_filterMap.mpr ⟨i, List.mem_range.mpr hi, hik⟩
  calc live.length
      ≤ ((List.range kMaxSubscribers).filterMap w.topic.subSlots).length :=
        (hw.nodup.subperm hsub).length_le
    _ ≤ (List.range kMaxSubscribers).length := List.length_filterMap_le _ _
    _ = kMaxSubscribers := List.length_range

end

/-! ## Every program -/

section Programs

variable [Inhabited T] {size : Nat} {w w' : World T} {ops : List (Op T)}

/-- The world after some of the calls of a program. -/
def Point (size : Nat) (w : World T) (ops : List (Op T)) (w' : World T) : Prop :=
  ∃ js as, js <+: ops ∧ script (World.call size) js w = some (as, w')

/-- At every point of the program, subscriber `k` is connected while it exists, and a
wait for it that says matched has found it so. -/
structure Attached (size : Nat) (w : World T) (ops : List (Op T)) (k : Nat) : Prop where
  connected : ∀ w', Point size w ops w' → (w'.subs k).pc = .wired .idle → Connected size w' k
  waited : ∀ es deadlineAt (looks : List (World T × Int)),
    (∀ look ∈ looks, Point size w ops look.1 ∧ (look.1.subs k).pc = .wired .idle) →
    Endpoint.subscriber k ∈ es → waitUntilMatched es deadlineAt looks = some .matched →
    ∃ look ∈ looks, look.1.allMatched es = true ∧ look.1.Reaches size k

theorem script_wired (hw : w.Fresh) {js : List (Op T)} {as : List (Op T × Answer T)}
    (hs : script (World.call size) js w = some (as, w')) : Wired (js.foldl Op.note []) w' := by
  refine @script_keeps _ _ _ _ (World.call size) Op.note (fun _ => True) Wired ?_ _ _ _ _ _ ?_
    (wired_fresh hw) hs
  · intro live v i a v' _ hp hcall
    exact call_wired hcall hp
  · exact within_iff_upto.mpr fun _ _ => trivial

theorem script_tabled (hw : w.Fresh) {js : List (Op T)} {as : List (Op T × Answer T)}
    (hs : script (World.call size) js w = some (as, w'))
    (hfits : ∀ ks, ks <+: js → (ks.foldl Op.note []).length ≤ kMaxSubscribers) :
    Tabled (js.foldl Op.note []) w'.topic := by
  refine (@script_keeps _ _ _ _ (World.call size) Op.note
    (fun live => live.length ≤ kMaxSubscribers) (fun live v => Wired live v ∧ Tabled live v.topic)
    ?_ _ _ _ _ _ (within_iff_upto.mpr hfits) ⟨wired_fresh hw, tabled_fresh hw⟩ hs).2
  rintro live v i a v' hfit ⟨hp, ht⟩ hcall
  exact ⟨call_wired hcall hp, call_tabled hcall hp ht hfit⟩

/-- Every subscriber is connected throughout, exactly when there are never more of them
than slots. -/
theorem connected_iff (hw : w.Fresh) (hrun : (script (World.call size) ops w).isSome) :
    (∀ k, Attached size w ops k) ↔
      ∀ js, js <+: ops → (js.foldl Op.note []).length ≤ kMaxSubscribers := by
  constructor
  · intro hall js hjs
    obtain ⟨as, w', hs⟩ := script_upto hjs hrun
    exact length_le_of_slots (script_wired hw hs) fun k hk =>
      ((hall k).connected w' ⟨js, as, hjs, hs⟩ hk).slot
  · intro hfits k
    have hpoint : ∀ w', Point size w ops w' → (w'.subs k).pc = .wired .idle →
        Connected size w' k := by
      rintro w' ⟨js, as, hjs, hs⟩ hk
      have htab := script_tabled hw hs fun ks hks => hfits ks (hks.trans hjs)
      exact connected_of_tabled htab (((script_wired hw hs).mem k).mpr hk)
    refine ⟨hpoint, fun es deadlineAt looks hlooks _ hwait => ?_⟩
    obtain ⟨look, hlook, hall⟩ := waitUntilMatched_matched hwait
    obtain ⟨hp, hk⟩ := hlooks look hlook
    exact ⟨look, hlook, hall, (hpoint look.1 hp hk).reached⟩

/-- One of two subscribers leaves and a third one joins. -/
def rejoin : List (Op Nat) :=
  [.advertise 0, .subscribe 0, .subscribe 1, .destroySubscriber 0, .subscribe 2, .publish 0 7 0 0]

/-- The third gets the slot the first one left. -/
theorem connected_iff_rejoin : ∃ (w w' : World Nat) (as : List (Op Nat × Answer Nat)),
    w.Fresh ∧ script (World.call 8) rejoin w = some (as, w') ∧
      w'.topic.subSlots 0 = some 2 ∧ w'.topic.subSlots 1 = some 1 ∧ ∀ k, Attached 8 w rejoin k := by
  have hw : ({ subs := fun _ => {}, pubs := fun _ => {} } : World Nat).Fresh :=
    ⟨rfl, fun _ => rfl, fun _ => ⟨rfl, rfl, rfl, rfl⟩⟩
  have hrun : (script (World.call 8) rejoin { subs := fun _ => {}, pubs := fun _ => {} }).map
      (fun q => (q.2.topic.subSlots 0, q.2.topic.subSlots 1)) = some (some 2, some 1) := by
    decide
  obtain ⟨⟨as, w'⟩, hs, hf⟩ := Option.map_eq_some_iff.mp hrun
  simp only [Prod.mk.injEq] at hf
  refine ⟨_, w', as, hw, hs, hf.1, hf.2, (connected_iff hw (by rw [hs]; rfl)).mpr ?_⟩
  exact (@within_iff_upto _ _ Op.note (fun live => live.length ≤ kMaxSubscribers) _ _).mp
    ⟨by decide, by decide, by decide, by decide, by decide, by decide, Nat.le_add_left 2 62⟩

/-- One publisher, and one subscriber more than there are slots. -/
def crowd : List (Op Nat) := .advertise 0 :: (List.range 65).map .subscribe

/-- The last of them is told `kOk`, finds a publisher matched, and is not there: the value
published next is neither in its mailbox nor counted as dropped. -/
theorem connected_not_crowded : ∃ (w w' : World Nat) (as : List (Op Nat × Answer Nat)),
    w.Fresh ∧ script (World.call 8) crowd w = some (as, w') ∧
      as.getLast? = some (.subscribe 64, .subscribed .ok) ∧
      waitUntilMatched [.subscriber 64] 0 [(w', 0)] = some .matched ∧
      (script (World.call 8) [.subscriberMatched 64, .publish 0 7 0 0, .takeLatest 64 0,
        .count 64 .drop] w').map (fun q => q.1.map Prod.snd) =
        some [.number 1, .published .ok, .sample {}, .number 0] ∧
      ¬ Attached 8 w crowd 64 := by
  have hw : ({ subs := fun _ => {}, pubs := fun _ => {} } : World Nat).Fresh :=
    ⟨rfl, fun _ => rfl, fun _ => ⟨rfl, rfl, rfl, rfl⟩⟩
  have hrun : (script (World.call 8) crowd { subs := fun _ => {}, pubs := fun _ => {} }).map
      (fun q => decide (q.1.getLast? = some (.subscribe 64, .subscribed .ok) ∧
        waitUntilMatched [.subscriber 64] 0 [(q.2, 0)] = some .matched ∧
        (script (World.call 8) [.subscriberMatched 64, .publish 0 7 0 0, .takeLatest 64 0,
          .count 64 .drop] q.2).map (fun q => q.1.map Prod.snd) =
          some [.number 1, .published .ok, .sample {}, .number 0] ∧
        ∀ i, i < kMaxSubscribers → q.2.topic.subSlots i ≠ some 64)) = some true := by
    decide +kernel
  obtain ⟨⟨as, w'⟩, hs, hf⟩ := Option.map_eq_some_iff.mp hrun
  obtain ⟨hlast, hwait, hlater, hslots⟩ := of_decide_eq_true hf
  refine ⟨_, w', as, hw, hs, hlast, hwait, hlater, fun hatt => ?_⟩
  have hwired := ((script_wired hw hs).mem 64).mp (by decide)
  obtain ⟨i, hi, hslot⟩ := (hatt.connected w' ⟨crowd, as, List.prefix_refl _, hs⟩ hwired).slot
  exact hslots i hi hslot

end Programs

end Xmmsg.InProc
