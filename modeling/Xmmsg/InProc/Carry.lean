import Xmmsg.InProc.Shared

/-!
# Where a record can be

A record is built once, by the publish that draws its ordinal. After that it is
handed on whole: into the master slot, along the fan-out into mailboxes and rings,
from the master slot into the mailbox of a newcomer, and out with a take. `Holds`
lists all these places, and `step_holds` says that no step puts a record anywhere
that was not in one of them already, the draw apart.

So whatever is proved of every record when it is built is true of every record a
subscriber is ever given.
-/

namespace Xmmsg.InProc

open Xmmsg.Sys

variable {T : Type} {size : Nat}

def Mailbox.holds (r : MailRecord T) : Mailbox T → Prop
  | .latest cell => cell = some r
  | .queue q => r ∈ q.items

/-- The record a take has got. -/
def TakePc.carries : TakePc T → Option (MailRecord T)
  | .count r | .base r _ | .charge r _ _ | .store r _ | .latch r _ | .ret (some (r, _)) => some r
  | _ => none

def SubPc.carries : SubPc T → Option (MailRecord T)
  | .seed r => some r
  | .wired t => t.carries
  | _ => none

/-- The record is somewhere. -/
def World.Holds (w : World T) (r : MailRecord T) : Prop :=
  w.topic.master = some r ∨ (∃ k, (w.topic.cores k).box.holds r) ∨
    (∃ p, (w.pubs p).pc.record? = some r) ∨ ∃ k, (w.subs k).pc.carries = some r

theorem store_holds {c : SubCore T} {r s : MailRecord T} (h : (c.store s).box.holds r) :
    c.box.holds r ∨ s = r := by
  cases hb : c.box with
  | latest x =>
      simp only [SubCore.store, hb] at h
      exact .inr (Option.some.inj h)
  | queue q =>
      simp only [SubCore.store, hb] at h
      exact .inl h

/-! ## Publishers -/

theorem WriteMove.master_holds {h h' : Topic T} {pc pc' : PubPc T} {a : PubAct T}
    (hw : WriteMove h pc a h' pc') {r : MailRecord T} (hr : h'.master = some r) :
    h.master = some r ∨ pc.record? = some r := by
  cases hw with
  | master hpc =>
      rw [hpc]
      exact .inr hr
  | quiet _ _ _ _ hm =>
      rw [hm] at hr
      exact .inl hr
  | publish | clock | draw | store => exact .inl hr

theorem WriteMove.record_holds {h h' : Topic T} {pc pc' : PubPc T} {a : PubAct T}
    (hw : WriteMove h pc a h' pc') {r : MailRecord T} (hr : pc'.record? = some r) :
    pc.record? = some r ∨ ∃ now m, a = .go now ∧ pc = .draw m ∧
      r = m.record (h.acceptedOrdinal + 1) := by
  cases hw with
  | publish _ _ hnone =>
      rw [hnone] at hr
      cases hr
  | clock => cases hr
  | draw hpc => exact .inr ⟨_, _, rfl, hpc, (Option.some.inj hr).symm⟩
  | master hpc | store hpc =>
      rw [hpc]
      exact .inl hr
  | quiet _ _ _ _ _ _ _ _ _ _ hrec => exact .inl (hrec r hr)

theorem pubStep_box {h h' : Topic T} {p : Nat} {ep ep' : PubEp T} {a : PubAct T}
    (hs : pubStep size h p ep a = some (h', ep')) {k : Nat} {r : MailRecord T}
    (hr : (h'.cores k).box.holds r) : (h.cores k).box.holds r ∨ ep.pc.record? = some r := by
  rcases pubStep_core hs k with hc | ⟨s, i, -, -, hc⟩ | ⟨s, i, hpc, -, hc⟩ |
    ⟨s, i, q, q', hpc, -, hq, hpush, hc⟩ | ⟨s, i, -, -, hc⟩
  · rw [hc] at hr
    exact .inl hr
  · rw [hc] at hr
    exact .inl hr
  · rw [hc] at hr
    rcases store_holds hr with h0 | rfl
    · exact .inl h0
    · exact .inr (by rw [hpc]; rfl)
  · rw [hc] at hr
    have hmem : r ∈ q'.items := hr
    rw [(Fifo.tryPush_some hpush).1, List.mem_append, List.mem_singleton] at hmem
    rcases hmem with h0 | rfl
    · exact .inl (by rw [hq]; exact h0)
    · exact .inr (by rw [hpc]; rfl)
  · rw [hc] at hr
    exact .inl hr

/-! ## Subscribers -/

theorem takeStep_box {c c' : SubCore T} {now : Int} {t t' : TakePc T}
    (hs : takeStep c now t = some (c', t')) {r : MailRecord T} (hr : c'.box.holds r) :
    c.box.holds r := by
  cases t with
  | pop =>
      simp only [takeStep] at hs
      split at hs
      · next q hq =>
        split at hs
        · next s q' hp =>
          cases hs
          rw [hq]
          have hmem : r ∈ q'.items := hr
          show r ∈ q.items
          rw [(Fifo.tryPop_some hp).1]
          exact List.mem_cons_of_mem _ hmem
        · cases hs
          exact hr
      · cases hs
        exact hr
  | _ =>
      simp only [takeStep] at hs
      repeat' split at hs
      all_goals cases hs
      all_goals exact hr

theorem takeStep_carries {c c' : SubCore T} {now : Int} {t t' : TakePc T}
    (hs : takeStep c now t = some (c', t')) {r : MailRecord T} (hr : t'.carries = some r) :
    t.carries = some r ∨ c.box.holds r := by
  cases t with
  | load =>
      simp only [takeStep] at hs
      split at hs
      · next s hb =>
        cases hs
        right
        rw [hb]
        exact hr
      · cases hs
        cases hr
  | pop =>
      simp only [takeStep] at hs
      split at hs
      · next q hq =>
        split at hs
        · next s q' hp =>
          cases hs
          right
          rw [hq]
          show r ∈ q.items
          rw [(Fifo.tryPop_some hp).1, Option.some.inj hr]
          exact List.mem_cons_self
        · cases hs
          cases hr
      · cases hs
        cases hr
  | _ =>
      simp only [takeStep] at hs
      repeat' split at hs
      all_goals cases hs
      all_goals first | exact .inl hr | cases hr

theorem subStep_box {h h' : Topic T} {k : Nat} {ep ep' : SubEp T} {a : SubAct}
    (hs : subStep h k ep a = some (h', ep')) {i : Nat} {r : MailRecord T}
    (hr : (h'.cores i).box.holds r) : (h.cores i).box.holds r ∨ ep.pc.carries = some r := by
  by_cases hi : i = k
  · subst hi
    rcases subStep_core hs with ⟨-, hc⟩ | ⟨s, hpc, hc⟩ | ⟨t, t', now, -, -, -, ht⟩ | ⟨hc, -⟩
    · rw [hc] at hr
      simp only [SubCore.new] at hr
      split at hr
      · cases hr
      · exact absurd hr List.not_mem_nil
    · rw [hc] at hr
      rcases store_holds hr with h0 | rfl
      · exact .inl h0
      · exact .inr (by rw [hpc]; rfl)
    · exact .inl (takeStep_box ht hr)
    · rw [hc] at hr
      exact .inl hr
  · rw [(subStep_others hs).2.2 i hi] at hr
    exact .inl hr

theorem subStep_carries {h h' : Topic T} {k : Nat} {ep ep' : SubEp T} {a : SubAct}
    (hs : subStep h k ep a = some (h', ep')) {r : MailRecord T}
    (hr : ep'.pc.carries = some r) :
    ep.pc.carries = some r ∨ h.master = some r ∨ (h.cores k).box.holds r := by
  cases a with
  | go now =>
      cases hpc : ep.pc <;> simp only [subStep, hpc] at hs
      case loadMaster =>
        split at hs
        · next s hm =>
          cases hs
          exact .inr (.inl (hm.trans hr))
        · cases hs
          cases hr
      case wired t =>
        split at hs
        · next c t' ht =>
          cases hs
          rcases takeStep_carries ht hr with h0 | h0
          · exact .inl h0
          · exact .inr (.inr h0)
        · cases hs
      case create =>
        cases hs
        simp only [SubEp.at'] at hr
        split at hr <;> cases hr
      all_goals
        repeat' split at hs
        all_goals cases hs
        all_goals cases hr
  | _ =>
      simp only [subStep] at hs
      split at hs <;> cases hs
      all_goals cases hr

/-! ## A step of the topic -/

/-- A step puts no record anywhere that was not somewhere, unless it draws one. -/
theorem step_holds {w w' : World T} {a : Act T} (hs : w.step size a = some w')
    {r : MailRecord T} (hr : w'.Holds r) :
    w.Holds r ∨ ∃ p now m, a = .pub p (.go now) ∧ (w.pubs p).pc = .draw m ∧
      r = m.record (w.topic.acceptedOrdinal + 1) := by
  rcases step_cases hs with ⟨k, b, h', ep', -, hsub, rfl⟩ | ⟨p, b, h', ep', rfl, hpub, rfl⟩
  · left
    rcases hr with hr | ⟨i, hr⟩ | hr | ⟨i, hr⟩
    · rw [World.putSub_topic, (subStep_others hsub).1] at hr
      exact .inl hr
    · rcases subStep_box hsub hr with h0 | h0
      · exact .inr (.inl ⟨i, h0⟩)
      · exact .inr (.inr (.inr ⟨k, h0⟩))
    · exact .inr (.inr (.inl hr))
    · by_cases hi : i = k
      · subst hi
        rw [World.putSub_self] at hr
        rcases subStep_carries hsub hr with h0 | h0 | h0
        · exact .inr (.inr (.inr ⟨i, h0⟩))
        · exact .inl h0
        · exact .inr (.inl ⟨i, h0⟩)
      · rw [World.putSub_ne _ _ _ _ hi] at hr
        exact .inr (.inr (.inr ⟨i, hr⟩))
  · rcases hr with hr | ⟨i, hr⟩ | ⟨i, hr⟩ | hr
    · rcases (pubStep_writeMove hpub).master_holds hr with h0 | h0
      · exact .inl (.inl h0)
      · exact .inl (.inr (.inr (.inl ⟨p, h0⟩)))
    · rcases pubStep_box hpub hr with h0 | h0
      · exact .inl (.inr (.inl ⟨i, h0⟩))
      · exact .inl (.inr (.inr (.inl ⟨p, h0⟩)))
    · by_cases hi : i = p
      · subst hi
        rw [World.putPub_self] at hr
        rcases (pubStep_writeMove hpub).record_holds hr with h0 | ⟨now, m, rfl, hpc, hm⟩
        · exact .inl (.inr (.inr (.inl ⟨i, h0⟩)))
        · exact .inr ⟨i, now, m, rfl, hpc, hm⟩
      · rw [World.putPub_ne _ _ _ _ hi] at hr
        exact .inl (.inr (.inr (.inl ⟨i, hr⟩)))
    · exact .inl (.inr (.inr (.inr hr)))

end Xmmsg.InProc
