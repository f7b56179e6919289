import Xmmsg.InProc.Order
import Xmmsg.Reach.Domain

/-!
# Wiring order in a domain

The result of `InProc/Order.lean`, at the level a program sees: wiring calls on a
domain that has not heard of the topic yet. The first of them, whichever it is, makes
the topic, with the identity of its payload type; the others find it. A domain used on
one topic is the topic (`hosts_step`), and so any two orders of compatible wiring calls
succeed and cannot be told apart afterwards (`wiring_order_independent`).
-/

namespace Xmmsg.Reach

open Xmmsg.Sys

variable {τ T : Type} [DecidableEq τ] [Inhabited T]

/-! ## A domain used on one topic -/

/-- The domain serves every handle and keeps `w` for topic `t`; before the first wiring
call it keeps nothing. -/
structure Hosts (P : Payloads τ) (d : Handle → Declaration τ) (t : List Char) (type : τ)
    (s : Topics (InProc.World T) (List Char) (UInt64 × τ)) (w : InProc.World T) : Prop where
  served : ∀ x, s.held x = .served
  entry : s.entry t = some ((P.schemaHashOf type, type), w) ∨
    s.entry t = none ∧ w = (inProcess P d).fresh

variable {P : Payloads τ} {d : Handle → Declaration τ} {t : List Char} {type : τ}

omit [DecidableEq τ] in
theorem idle_of_fresh {size : Nat} {w : InProc.World T} (hf : w.Fresh) {c : Op T}
    (hc : wires c = false) : w.call size c = none := by
  obtain ⟨-, hsubs, hpubs⟩ := hf
  cases c with
  | advertise p => cases hc
  | subscribe k => cases hc
  | publish p _ _ _ | publishDerived p _ _ _ _ =>
      simp only [InProc.World.call, InProc.World.publish, (hpubs p).1]
  | publishCount p | publisherMatched p | destroyPublisher p =>
      simp only [InProc.World.call, (hpubs p).1]
  | takeLatest k _ | tryTake k _ => simp only [InProc.World.call, InProc.World.take, hsubs k]
  | count k _ | subscriberMatched k | destroySubscriber k =>
      simp only [InProc.World.call, hsubs k]

theorem fresh_inProcess : ((inProcess P d : Backend τ T _ _ _).fresh).Fresh :=
  ⟨rfl, fun _ => rfl, fun _ => ⟨rfl, rfl, rfl, rfl⟩⟩

theorem Hosts.run {s : Topics (InProc.World T) (List Char) (UInt64 × τ)} {w : InProc.World T}
    {c : Op T} (h : Hosts P d t type s w) (ht : (d (handleOf c)).topic = t)
    (hty : (d (handleOf c)).type = type) :
    Agree (Hosts P d t type)
      ((inProcess P d).run (d (handleOf c)) s ((P.schemaHashOf type, type), w) c)
      (w.call (P.size type) c) := by
  have hcall : (inProcess P d).call (d (handleOf c)).type w c = w.call (P.size type) c := by
    rw [hty]
    rfl
  simp only [Backend.run, hcall]
  cases w.call (P.size type) c with
  | none => exact .refused
  | some r =>
      refine .answered ⟨h.served, .inl ?_⟩
      rw [ht]
      exact Function.update_self _ _ _

/-- Calls on the topic go to the topic. -/
theorem hosts_step {s : Topics (InProc.World T) (List Char) (UInt64 × τ)} {w : InProc.World T}
    {c : Op T} (h : Hosts P d t type s w) (ht : (d (handleOf c)).topic = t)
    (hty : (d (handleOf c)).type = type) :
    Agree (Hosts P d t type) ((inProcess P d).step d s c) (w.call (P.size type) c) := by
  have hkey : (inProcess P d : Backend τ T _ _ _).key (d (handleOf c)).topic = t := ht
  have hident : (inProcess P d : Backend τ T _ _ _).ident (d (handleOf c)) =
      (P.schemaHashOf type, type) := by
    rw [← hty]
    rfl
  have hgate : (inProcess P d : Backend τ T _ _ _).gate (P.schemaHashOf type, type)
      (P.schemaHashOf type, type) = none := by simp [inProcess, inProcessGate]
  have hrefuses : (inProcess P d : Backend τ T _ _ _).refuses (handleOf c) (d (handleOf c)) =
      false := rfl
  simp only [Backend.step, h.served, hrefuses, Bool.false_eq_true, if_false, Backend.wire, hkey,
    hident]
  rcases h.entry with he | ⟨he, rfl⟩
  · simp only [he, Option.getD_some, hgate, ite_self]
    exact h.run ht hty
  · simp only [he, Option.getD_none, hgate]
    split
    · exact h.run ht hty
    · next hw =>
        rw [idle_of_fresh fresh_inProcess (Bool.eq_false_iff.mpr hw)]
        exact .refused

/-! ## Any order -/

/-- Wiring calls on one topic, each handle wired once: at most 64 subscribers, and one
publisher or nothing but sharing ones. -/
structure CompatibleCalls (d : Handle → Declaration τ) (t : List Char) (type : τ)
    (calls : List (Op T)) : Prop where
  wires : ∀ c ∈ calls, wires c = true
  once : calls.Nodup
  topic : ∀ c ∈ calls, (d (handleOf c)).topic = t ∧ (d (handleOf c)).type = type
  room : (subscribersOf calls).length ≤ 64
  owners : (publishersOf calls).length ≤ 1 ∨
    ∀ p ∈ publishersOf calls, (d (.pub p)).qos.ownership = .shared

section Calls

omit [DecidableEq τ] [Inhabited T]

/-- Picking the calls of one kind out of a list, by their handle. -/
theorem mem_picked {f : Op T → Option Nat} {mk : Nat → Op T} (hf : ∀ c n, f c = some n ↔ c = mk n)
    {calls : List (Op T)} {n : Nat} : n ∈ calls.filterMap f ↔ mk n ∈ calls := by
  rw [List.mem_filterMap]
  constructor
  · rintro ⟨c, hc, hn⟩
    rwa [(hf c n).mp hn] at hc
  · exact fun h => ⟨_, h, (hf _ n).mpr rfl⟩

theorem nodup_picked {f : Op T → Option Nat} {mk : Nat → Op T}
    (hf : ∀ c n, f c = some n ↔ c = mk n) {calls : List (Op T)} (h : calls.Nodup) :
    (calls.filterMap f).Nodup := by
  refine h.filterMap fun a b n ha hb => ?_
  rw [(hf a n).mp ha, (hf b n).mp hb]

theorem advertises_iff (c : Op T) (n : Nat) :
    (match c with | .advertise p => some p | _ => none) = some n ↔ c = .advertise n := by
  cases c <;> simp

theorem subscribes_iff (c : Op T) (n : Nat) :
    (match c with | .subscribe k => some k | _ => none) = some n ↔ c = .subscribe n := by
  cases c <;> simp

variable {calls calls' : List (Op T)}

theorem CompatibleCalls.of_perm (h : CompatibleCalls d t type calls) (hp : calls'.Perm calls) :
    CompatibleCalls d t type calls' := by
  have hpubs : (publishersOf calls').Perm (publishersOf calls) := hp.filterMap _
  have hsubs : (subscribersOf calls').Perm (subscribersOf calls) := hp.filterMap _
  refine ⟨fun c hc => h.wires c (hp.mem_iff.mp hc), hp.nodup_iff.mpr h.once,
    fun c hc => h.topic c (hp.mem_iff.mp hc), hsubs.length_eq ▸ h.room, ?_⟩
  exact h.owners.imp (fun h => hpubs.length_eq ▸ h) fun h p hq => h p (hpubs.mem_iff.mp hq)

/-- Later calls on the handles are on the topic too. -/
theorem CompatibleCalls.topic_of_on (h : CompatibleCalls d t type calls) {c : Op T}
    (hc : c.On (publishersOf calls) (subscribersOf calls)) :
    (d (handleOf c)).topic = t ∧ (d (handleOf c)).type = type := by
  have hpub : ∀ {p}, p ∈ publishersOf calls →
      (d (.pub p)).topic = t ∧ (d (.pub p)).type = type :=
    fun hp => h.topic _ ((mem_picked advertises_iff).mp hp)
  have hsub : ∀ {k}, k ∈ subscribersOf calls →
      (d (.sub k)).topic = t ∧ (d (.sub k)).type = type :=
    fun hk => h.topic _ ((mem_picked subscribes_iff).mp hk)
  cases c with
  | publish p _ _ _ | publishDerived p _ _ _ _ | publishCount p | publisherMatched p =>
      exact hpub hc
  | takeLatest k _ | tryTake k _ | count k _ | subscriberMatched k => exact hsub hc
  | _ => exact hc.elim

end Calls

variable {calls calls' later : List (Op T)}

/-- The topic after one order. -/
theorem CompatibleCalls.wired (h : CompatibleCalls d t type calls) :
    ∃ w ps ss, script (InProc.World.call (P.size type)) calls (inProcess P d).fresh =
        some (calls.map fun c => (c, c.wiredAnswer), w) ∧
      InProc.WiredTo (inProcess P d).fresh ps ss w ∧ ps.Perm (publishersOf calls) ∧
      ss.Perm (subscribersOf calls) := by
  have hkind : ∀ c ∈ calls, (∃ p, c = .advertise p) ∨ ∃ k, c = .subscribe k := by
    intro c hc
    have hw := h.wires c hc
    cases c with
    | advertise p => exact .inl ⟨p, rfl⟩
    | subscribe k => exact .inr ⟨k, rfl⟩
    | _ => cases hw
  have hrun := InProc.wiredTo_run (T := T) (P.size type) fresh_inProcess
    (InProc.wiredTo_fresh (fresh_inProcess (P := P) (d := d))) hkind
    (by rw [List.append_nil]; exact nodup_picked advertises_iff h.once)
    (by rw [List.append_nil]; exact nodup_picked subscribes_iff h.once)
    (by rw [List.append_nil]; exact h.owners) (by rw [List.append_nil]; exact h.room)
  simp only [List.append_nil] at hrun
  exact hrun

/-- What a run of the topic is to the domain. -/
theorem hosts_script {cs : List (Op T)}
    (hon : ∀ c ∈ cs, (d (handleOf c)).topic = t ∧ (d (handleOf c)).type = type)
    {as : List (Op T × Answer T)} {w : InProc.World T}
    (h : script (InProc.World.call (P.size type)) cs (inProcess P d).fresh = some (as, w)) :
    ∃ u, script ((inProcess P d).step d) cs {} = some (as, u) ∧ Hosts P d t type u w := by
  have hstep : ∀ (_ : Prop) s v (c : Op T),
      ((d (handleOf c)).topic = t ∧ (d (handleOf c)).type = type) → Hosts P d t type s v →
      Agree (Hosts P d t type) ((inProcess P d).step d s c) (v.call (P.size type) c) :=
    fun _ _ _ _ hc hr => hosts_step hr hc.1 hc.2
  have hstart : Hosts P d t type {} (inProcess P d : Backend τ T _ _ _).fresh :=
    ⟨fun _ => rfl, .inr ⟨rfl, rfl⟩⟩
  have hsim := script_simulates (R := fun _ => Hosts P d t type) hstep (within_of_forall hon) hstart
  rw [h] at hsim
  generalize script ((inProcess P d).step d) cs {} = x at hsim
  cases hsim with
  | answered hu => exact ⟨_, rfl, hu⟩

/-- Two domains have the same handles on topic `t`, with the same counters and
mailboxes. -/
def SameHandles (P : Payloads τ) (d : Handle → Declaration τ) (t : List Char) (type : τ)
    (u u' : Topics (InProc.World T) (List Char) (UInt64 × τ)) : Prop :=
  ∃ w w', Hosts P d t type u w ∧ Hosts P d t type u' w' ∧ w'.pubs = w.pubs ∧ w'.subs = w.subs ∧
    w'.topic.cores = w.topic.cores

/-- Compatible wiring calls succeed in every order, and afterwards the same publishes,
takes and reads of counters and matches are answered the same. -/
theorem wiring_order_independent (P : Payloads τ) (d : Handle → Declaration τ) (t : List Char)
    (type : τ) (calls calls' later : List (Op T)) (hc : CompatibleCalls d t type calls)
    (hp : calls'.Perm calls)
    (hlater : ∀ c ∈ later, c.On (publishersOf calls) (subscribersOf calls)) :
    ∃ bs u u',
      script ((inProcess P d).step d) (calls ++ later) {} =
        some (calls.map (fun c => (c, c.wiredAnswer)) ++ bs, u) ∧
      script ((inProcess P d).step d) (calls' ++ later) {} =
        some (calls'.map (fun c => (c, c.wiredAnswer)) ++ bs, u') ∧
      SameHandles P d t type u u' := by
  have hc' := hc.of_perm hp
  have hpubs : (publishersOf calls').Perm (publishersOf calls) := hp.filterMap _
  have hsubs : (subscribersOf calls').Perm (subscribersOf calls) := hp.filterMap _
  obtain ⟨w, ps, ss, hrun, hw, hps, hss⟩ := hc.wired (P := P)
  obtain ⟨w', ps', ss', hrun', hw', hps', hss'⟩ := hc'.wired (P := P)
  have htwins := InProc.twins_of_perm hw hw' ((hps'.trans hpubs).trans hps.symm)
    ((hss'.trans hsubs).trans hss.symm)
  have hrest : InProc.AtRest (publishersOf calls) (subscribersOf calls) w :=
    ⟨fun p h => hw.atRest.pubs p (hps.mem_iff.mpr h),
      fun k h => hw.atRest.subs k (hss.mem_iff.mpr h)⟩
  obtain ⟨bs, v, v', hv, hv', hend⟩ := InProc.twins_run (P.size type) htwins hrest hlater
  have hon : ∀ {cs : List (Op T)}, CompatibleCalls d t type cs → ∀ c ∈ cs ++ later,
      (d (handleOf c)).topic = t ∧ (d (handleOf c)).type = type := by
    intro cs hcs c hmem
    rcases List.mem_append.mp hmem with h | h
    · exact hcs.topic c h
    · exact hc.topic_of_on (hlater c h)
  obtain ⟨u, hu, hhost⟩ := hosts_script (hon hc) (script_append hrun hv)
  obtain ⟨u', hu', hhost'⟩ := hosts_script (hon hc') (script_append hrun' hv')
  exact ⟨bs, u, u', hu, hu', v, v', hhost, hhost', hend.pubs, hend.subs, hend.cores⟩

/-- A queue, a publisher and a mailbox. -/
def trioCalls : List (Op Nat) := [.subscribe 2, .advertise 0, .subscribe 0]

def trioCallsTurned : List (Op Nat) := [.subscribe 0, .subscribe 2, .advertise 0]

def trioUses : List (Op Nat) :=
  [.publish 0 7 0 1, .publish 0 8 0 2, .takeLatest 0 3, .tryTake 2 4, .count 2 .drop,
    .publisherMatched 0, .subscriberMatched 2]

theorem wiring_order_independent_trio :
    ∃ bs u u',
      script ((inProcess (onePayload true) twoTopics).step twoTopics) (trioCalls ++ trioUses) {} =
        some (trioCalls.map (fun c => (c, c.wiredAnswer)) ++ bs, u) ∧
      script ((inProcess (onePayload true) twoTopics).step twoTopics)
          (trioCallsTurned ++ trioUses) {} =
        some (trioCallsTurned.map (fun c => (c, c.wiredAnswer)) ++ bs, u') ∧
      SameHandles (onePayload true) twoTopics headTopic () u u' := by
  have hc : CompatibleCalls twoTopics headTopic () trioCalls :=
    ⟨by decide, by decide, by decide, by decide, .inl (by decide)⟩
  exact wiring_order_independent (onePayload true) twoTopics headTopic () trioCalls
    trioCallsTurned trioUses hc (by decide) (by decide)

end Xmmsg.Reach
