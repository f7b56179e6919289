import Xmmsg.Reach.Domain
import Xmmsg.Shm.NameRule

/-!
# Topics that share a segment

A domain on the shm reach keeps a topic in the segment of its name, and a handle does
all its work there: an endpoint is wired in no other segment (`wired_here`). So a
publisher and a subscriber meet only if the names of their topics are equal, and
`topics_apart_iff` says when two topics have different names. The in-process registry
is keyed by the topic itself.

The condition is not what the wire contract asks of the code. There a topic outside the
grammar is refused; here `A` and `a` are one topic.
-/

namespace Xmmsg.Reach

open Xmmsg.Sys

variable {τ T : Type} [Inhabited T]

/-! ## A handle works in one segment -/

/-- A call changes no subscriber but the one it is made on. -/
theorem call_subs {size : Nat} {w w' : Shm.World T} {c : Op T} {a : Answer T}
    (h : w.call size c = some (a, w')) {k : Nat} (hk : c.subscriber ≠ some k) :
    w'.subs k = w.subs k := by
  have hother : ∀ {j : Nat} {seg : Shm.Segment T} {ep : Shm.SubEp T}, k ≠ j →
      (w.putSub j seg ep).subs k = w.subs k := fun hne => Function.update_of_ne hne _ _
  have htake : ∀ {j : Nat} {verb : Shm.Segment T → Shm.SubEp T → Nat →
      Option (MailRecord T × Bool) × Shm.Segment T × Shm.SubEp T}, k ≠ j →
      w.take j verb = some (a, w') → w'.subs k = w.subs k := by
    intro j verb hne h
    simp only [Shm.World.take] at h
    split at h <;> cases h
    · exact hother hne
    · rfl
  have hpublish : ∀ {p : Nat} {m : Message T}, w.publish size p m = some (a, w') →
      w'.subs k = w.subs k := by
    intro p m h
    simp only [Shm.World.publish] at h
    split at h <;> cases h <;> rfl
  cases c with
  | advertise p =>
      simp only [Shm.World.call] at h
      split at h
      · split at h <;> cases h <;> rfl
      · cases h
  | publish p value context now => exact hpublish h
  | publishDerived p value upstream context now => exact hpublish h
  | publishCount p | publisherMatched p | destroyPublisher p =>
      simp only [Shm.World.call] at h
      split at h <;> cases h <;> rfl
  | subscribe j =>
      have hne : k ≠ j := fun h0 => hk (congrArg some h0.symm)
      simp only [Shm.World.call] at h
      split at h
      · split at h <;> cases h <;> exact hother hne
      · cases h
  | takeLatest j now | tryTake j now =>
      rw [Shm.World.call] at h
      exact htake (fun h0 => hk (congrArg some h0.symm)) h
  | count j n =>
      simp only [Shm.World.call] at h
      split at h <;> cases h <;> rfl
  | subscriberMatched j =>
      simp only [Shm.World.call] at h
      split at h <;> cases h <;> rfl
  | destroySubscriber j =>
      have hne : k ≠ j := fun h0 => hk (congrArg some h0.symm)
      simp only [Shm.World.call] at h
      split at h <;> cases h
      · exact hother hne
      · exact hother hne

omit [Inhabited T] in
theorem handleOf_subscriber {c : Op T} {k : Nat} (h : c.subscriber = some k) :
    handleOf c = .sub k := by
  cases c <;> first | exact congrArg Handle.sub (Option.some.inj h) | cases h

section Domain

variable {P : Payloads τ} {d : Handle → Declaration τ} {key : List Char} {me : Nat}

/-- A segment knows only the subscribers of topics with its name. -/
def WiredHere (key : List Char) (d : Handle → Declaration τ)
    (s : Topics (Shm.World T) (List Char) (Shm.IdField → Nat)) : Prop :=
  ∀ n i w k, s.entry n = some (i, w) → (w.subs k).pc ≠ .unwired →
    Shm.shmSegmentName key (d (.sub k)).topic = n

omit [Inhabited T] in
theorem WiredHere.hold {s : Topics (Shm.World T) (List Char) (Shm.IdField → Nat)} {x : Handle}
    {h : Held} (hs : WiredHere key d s) : WiredHere key d (s.hold x h) := hs

omit [Inhabited T] in
/-- Writing back a segment whose new subscriber is the caller. -/
theorem WiredHere.put {s : Topics (Shm.World T) (List Char) (Shm.IdField → Nat)} {n : List Char}
    {y : (Shm.IdField → Nat) × Shm.World T} (hs : WiredHere key d s)
    (hy : ∀ k, (y.2.subs k).pc ≠ .unwired → Shm.shmSegmentName key (d (.sub k)).topic = n) :
    WiredHere key d (s.put n y) := by
  intro m i w k hm hk
  by_cases hmn : m = n
  · subst hmn
    simp only [Topics.put, Function.update_self] at hm
    cases hm
    exact hy k hk
  · simp only [Topics.put, Function.update_of_ne hmn] at hm
    exact hs m i w k hm hk

theorem wiredHere_run {s s' : Topics (Shm.World T) (List Char) (Shm.IdField → Nat)} {c : Op T}
    {a : Answer T} {y : (Shm.IdField → Nat) × Shm.World T} (hs : WiredHere key d s)
    (hy : ∀ k, (y.2.subs k).pc ≠ .unwired → Shm.shmSegmentName key (d (.sub k)).topic =
      Shm.shmSegmentName key (d (handleOf c)).topic)
    (h : (posixShm P d key me).run (d (handleOf c)) s y c = some (a, s')) :
    WiredHere key d s' := by
  simp only [Backend.run] at h
  split at h
  · next b w hcall =>
      cases h
      refine hs.put fun k hk => ?_
      by_cases hc : c.subscriber = some k
      · rw [handleOf_subscriber hc]
        rfl
      · rw [call_subs hcall hc] at hk
        exact hy k hk
  · cases h

theorem wiredHere_step {s s' : Topics (Shm.World T) (List Char) (Shm.IdField → Nat)} {c : Op T}
    {a : Answer T} (hs : WiredHere key d s)
    (h : (posixShm P d key me).step d s c = some (a, s')) : WiredHere key d s' := by
  -- what the call finds at its name: an old segment, or the kernel's zero pages
  have hfound : ∀ k, ((((s.entry (Shm.shmSegmentName key (d (handleOf c)).topic)).getD
      ((posixShm (T := T) P d key me).ident (d (handleOf c)),
        (posixShm P d key me).fresh)).2.subs k).pc ≠ .unwired →
      Shm.shmSegmentName key (d (.sub k)).topic =
        Shm.shmSegmentName key (d (handleOf c)).topic) := by
    intro k hk
    cases he : s.entry (Shm.shmSegmentName key (d (handleOf c)).topic) with
    | none =>
        rw [he] at hk
        exact absurd rfl hk
    | some y =>
        rw [he] at hk
        exact hs _ _ _ k he hk
  simp only [Backend.step] at h
  split at h
  · cases h
  · split at h
    · split at h <;> cases h <;> exact hs
    · cases h
  · split at h
    · split at h
      · cases h
        exact hs
      · simp only [Backend.wire] at h
        split at h
        · cases h
          exact (hs.put hfound).hold
        · exact wiredHere_run hs hfound h
    · split at h
      · next y he => exact wiredHere_run hs (fun k hk => hs _ _ _ k he hk) h
      · cases h

theorem wired_here {calls : List (Op T)} {as : List (Op T × Answer T)}
    {s : Topics (Shm.World T) (List Char) (Shm.IdField → Nat)}
    (h : script ((posixShm P d key me).step d) calls {} = some (as, s)) : WiredHere key d s := by
  refine script_invariant (fun _ _ _ _ => wiredHere_step) (fun n i w k hn => ?_) h
  cases hn

end Domain

/-! ## When topics meet -/

/-- Publisher `p` and subscriber `k` are wired to one segment. -/
def Matched (key : List Char) (d : Handle → Declaration τ)
    (s : Topics (Shm.World T) (List Char) (Shm.IdField → Nat)) (p k : Nat) : Prop :=
  ∃ i w, s.entry (Shm.shmSegmentName key (d (.pub p)).topic) = some (i, w) ∧
    (w.pubs p).pc = .idle ∧ ∃ j, (w.subs k).pc = .wired j .idle

/-- In no run of the domain is a publisher on `t` matched with a subscriber on `t'`. -/
def NeverMatched (key t t' : List Char) : Prop :=
  ∀ (τ T : Type) [Inhabited T] (P : Payloads τ) (d : Handle → Declaration τ) (me : Nat)
    (calls : List (Op T)) (as : List (Op T × Answer T))
    (s : Topics (Shm.World T) (List Char) (Shm.IdField → Nat)),
    script ((posixShm P d key me).step d) calls {} = some (as, s) →
    ∀ p k, (d (.pub p)).topic = t → (d (.sub k)).topic = t' → ¬ Matched key d s p k

/-- Some `Advertise` or `Subscribe` on `t` is answered `kOk`. -/
def Accepted (key t : List Char) : Prop :=
  ∃ (τ T : Type) (_ : Inhabited T) (P : Payloads τ) (d : Handle → Declaration τ) (me : Nat)
    (calls : List (Op T)) (as : List (Op T × Answer T))
    (s : Topics (Shm.World T) (List Char) (Shm.IdField → Nat)) (c : Op T),
    script ((posixShm P d key me).step d) calls {} = some (as, s) ∧ (d (handleOf c)).topic = t ∧
    ((c, .advertised .ok) ∈ as ∨ (c, .subscribed .ok) ∈ as)

theorem neverMatched_of_ne {key t t' : List Char}
    (h : Shm.shmSegmentName key t ≠ Shm.shmSegmentName key t') : NeverMatched key t t' := by
  intro τ T _ P d me calls as s hrun p k hp hk hmatch
  obtain ⟨i, w, hentry, -, j, hj⟩ := hmatch
  have hhere := wired_here hrun _ i w k hentry (by rw [hj]; exact fun h0 => (nomatch h0))
  rw [hp, hk] at hhere
  exact h hhere.symm

/-- Two topics of a domain, both with readable names, are kept apart exactly if they
differ in more than the case of letters and the bytes a name has as underscores. -/
theorem topics_apart_iff (euid : Nat) (name t t' : List Char)
    (hr : Shm.Readable (Shm.deriveIsolationKey euid name) t)
    (hr' : Shm.Readable (Shm.deriveIsolationKey euid name) t') :
    (Shm.shmSegmentName (Shm.deriveIsolationKey euid name) t ≠
        Shm.shmSegmentName (Shm.deriveIsolationKey euid name) t' ∧
      NeverMatched (Shm.deriveIsolationKey euid name) t t') ↔
    ¬ List.Forall₂ Shm.Alike t t' := by
  have hnames := Shm.shmSegmentName_eq_iff hr hr'
  constructor
  · exact fun h halike => h.1 (hnames.mpr halike)
  · intro h
    have hne := fun heq => h (hnames.mp heq)
    exact ⟨hne, neverMatched_of_ne hne⟩

theorem topics_apart_iff_two :
    Shm.shmSegmentName (Shm.deriveIsolationKey 0 ['d']) headTopic ≠
        Shm.shmSegmentName (Shm.deriveIsolationKey 0 ['d']) tailTopic ∧
      NeverMatched (Shm.deriveIsolationKey 0 ['d']) headTopic tailTopic := by
  have hshort : ∀ t : List Char, t.length = 4 →
      Shm.Readable (Shm.deriveIsolationKey 0 ['d']) t := by
    intro t ht
    rw [Shm.Readable, Shm.readableName_length, ht]
    decide
  exact (topics_apart_iff 0 ['d'] headTopic tailTopic (hshort _ rfl) (hshort _ rfl)).mpr
    (by decide)

/-- The publisher is on `A`, the subscriber on `a`. -/
def twoCases : Handle → Declaration Unit
  | .pub _ => ⟨['A'], (), {}⟩
  | .sub _ => ⟨['a'], (), {}⟩

/-- A run that wires both and asks the publisher. -/
def caseCalls : List (Op Nat) := [.advertise 0, .subscribe 0, .publisherMatched 0]

/-- Topics `A` and `a` are both accepted and have one segment. -/
theorem topics_not_apart :
    (¬ ∀ (euid : Nat) (name t t' : List Char), t ≠ t' →
      Accepted (Shm.deriveIsolationKey euid name) t →
      Accepted (Shm.deriveIsolationKey euid name) t' →
      Shm.Readable (Shm.deriveIsolationKey euid name) t →
      Shm.Readable (Shm.deriveIsolationKey euid name) t' →
      Shm.shmSegmentName (Shm.deriveIsolationKey euid name) t ≠
          Shm.shmSegmentName (Shm.deriveIsolationKey euid name) t' ∧
        NeverMatched (Shm.deriveIsolationKey euid name) t t') ∧
    (script ((posixShm (onePayload true) twoCases defaultKey 1).step twoCases) caseCalls
      {}).map Prod.fst = some [(.advertise 0, .advertised .ok), (.subscribe 0, .subscribed .ok),
        (.publisherMatched 0, .number 1)] := by
  have hrun : (script ((posixShm (onePayload true) twoCases defaultKey 1).step twoCases) caseCalls
      {}).map Prod.fst = some [(.advertise 0, .advertised .ok), (.subscribe 0, .subscribed .ok),
        (.publisherMatched 0, .number 1)] := by decide +kernel
  refine ⟨fun h => ?_, hrun⟩
  have hshort : ∀ t : List Char, t.length = 1 →
      Shm.Readable (Shm.deriveIsolationKey 0 ['d']) t := by
    intro t ht
    rw [Shm.Readable, Shm.readableName_length, ht]
    decide
  have hkey : Shm.deriveIsolationKey 0 ['d'] = defaultKey := by decide +kernel
  obtain ⟨⟨as, s⟩, hs, has⟩ := Option.map_eq_some_iff.mp hrun
  cases has
  have hA : Accepted defaultKey ['A'] :=
    ⟨Unit, Nat, _, _, twoCases, 1, caseCalls, _, s, .advertise 0, hs, rfl, .inl (by decide)⟩
  have ha : Accepted defaultKey ['a'] :=
    ⟨Unit, Nat, _, _, twoCases, 1, caseCalls, _, s, .subscribe 0, hs, rfl, .inr (by decide)⟩
  have hapart := h 0 ['d'] ['A'] ['a'] (by decide) (hkey ▸ hA) (hkey ▸ ha) (hshort _ rfl)
    (hshort _ rfl)
  exact hapart.1 ((Shm.shmSegmentName_eq_iff (hshort _ rfl) (hshort _ rfl)).mpr (by decide))

end Xmmsg.Reach
