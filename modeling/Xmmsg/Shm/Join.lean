import Xmmsg.Shm.Delivery
import Xmmsg.Shm.Staying

/-!
# Joining a segment that is being published on

`ClaimSubscriberSlot` seeds the mailbox from the master cell and stores
`kShmSubActive` afterwards, the in-process sequence with the same gap in it: a
publish can load the slot's state before the store and the master cell after the
seed was read.

The discipline is the in-process one, asked of the subscriber's activating store, and no
process dies. Slots and regions are exclusive as `RegionDiscipline` has it, which
asks nothing of a run in which nobody leaves.
-/

namespace Xmmsg.Shm

open Xmmsg.Sys Xmmsg.Mail

variable {T : Type} {size : Nat}

/-- Drawn its ordinal, and still to look at slot `i`. -/
def PubPc.ahead (i : Nat) : PubPc T → Bool
  | .masterBegin _ | .masterEnd _ => true
  | .loadState _ j => decide (j ≤ i)
  | .loadKind _ j | .loadBase _ j | .stamp _ j | .cellBegin _ j | .cellEnd _ j | .push _ j
  | .drop _ j => decide (j < i)
  | _ => false

def JoinDiscipline (e : Nat) (w : World T) : Act T → Prop
  | .die _ => False
  | .sub x (.go _) => x = e →
      match (w.subs e).pc with
      | .storeActive i => (w.subs e).history.isLatest = true →
          w.seg.acceptedOrdinal = 0 ∨
            (∃ p, w.livePub p ∧ (w.pubs p).pc.ahead i = true) ∨
            w.seg.latest i = w.seg.master
      | _ => True
  | _ => True

/-! ## Nobody dies -/

def AllLive (w : World T) : Prop := (∀ e, w.liveSub e) ∧ ∀ p, w.livePub p

theorem allLive_reached {e : Nat} {w : World T}
    (hw : (machine T size).Reached (JoinDiscipline e) w) :
    AllLive w := by
  refine hw.invariant (P := AllLive) ?_ ?_
  · rintro w ⟨-, hdead, hsub, hpub⟩
    refine ⟨fun e => ?_, fun p => ?_⟩
    · simp [World.liveSub, World.alive, hdead, (hsub e).1]
    · simp [World.livePub, World.alive, hdead, (hpub p).1]
  · intro w a w' _ h hok hs
    rcases step_cases hs with ⟨pid, rfl, -⟩ | ⟨e, b, h', ep', rfl, -, hsub, rfl⟩ |
      ⟨p, b, h', ep', rfl, -, hpub, rfl⟩
    · exact hok.elim
    · refine ⟨fun x => ?_, h.2⟩
      rw [World.liveSub]
      by_cases hx : x = e
      · rw [hx, World.putSub_self, (subStep_slotMove hsub).2]
        exact h.1 e
      · rw [World.putSub_ne _ _ _ _ hx]
        exact h.1 x
    · refine ⟨h.1, fun x => ?_⟩
      rw [World.livePub]
      by_cases hx : x = p
      · rw [hx, World.putPub_self, pubStep_pid hpub]
        exact h.2 p
      · rw [World.putPub_ne _ _ _ _ hx]
        exact h.2 x

/-! ## The master cell -/

/-- Between the ordinal draw and the end of the master store. -/
def PubPc.mastering : PubPc T → Option (MailRecord T)
  | .masterBegin r | .masterEnd r => some r
  | _ => none

/-- The master cell holds the newest record, except while a publisher is about to
store it. -/
structure MasterInv (q : World T × Trace T) : Prop where
  carried : ∀ p r, (q.1.pubs p).pc.mastering = some r → q.2.log.getLast? = some r
  written : (∀ p, (q.1.pubs p).pc.mastering = none) → q.1.seg.master.value = q.2.log.getLast?

theorem note_sub_log {w w' : World T} {e : Nat} {a : SubAct} {tr : Trace T} :
    (note w (.sub e a) w' tr).log = tr.log := by
  cases a with
  | go now => simp only [note]; split <;> rfl
  | _ => rfl

/-- The accesses that matter to the master cell, and all the others. -/
theorem pubStep_master {w : World T} {p : Nat} {a : PubAct T} {h' : Segment T} {ep' : PubEp T}
    (w' : World T) (tr : Trace T)
    (hs : pubStep size w.alive w.seg (w.pubs p) a = some (h', ep')) :
    (∃ r, ep'.pc.mastering = some r ∧ (w.pubs p).pc.owning = true ∧
      (note w (.pub p a) w' tr).log = tr.log ++ [r]) ∨
    ((note w (.pub p a) w' tr).log = tr.log ∧
      (ep'.pc.mastering = none ∧ (∃ r, (w.pubs p).pc.mastering = some r ∧ h'.master = .full r) ∨
        ep'.pc.mastering = (w.pubs p).pc.mastering ∧
          (h'.master.value = w.seg.master.value ∨ ep'.pc.mastering ≠ none))) := by
  cases a with
  | publish m | destroy =>
      right
      cases hpc : (w.pubs p).pc <;> simp only [pubStep, hpc] at hs <;> cases hs
      all_goals exact ⟨rfl, .inr ⟨rfl, .inl rfl⟩⟩
  | go =>
      simp only [pubStep] at hs
      cases hpc : (w.pubs p).pc <;> simp only [hpc] at hs
      case draw m =>
        cases hs
        exact .inl ⟨_, rfl, rfl, by simp [note, hpc]⟩
      case masterBegin r =>
        cases hs
        exact .inr ⟨by simp [note, hpc], .inr ⟨rfl, .inr (Option.some_ne_none r)⟩⟩
      case masterEnd r =>
        cases hs
        exact .inr ⟨by simp [note, hpc], .inl ⟨rfl, r, rfl, rfl⟩⟩
      case repairMaster =>
        cases hs
        exact .inr ⟨by simp [note, hpc], .inr ⟨rfl, .inl (Cell.value_repair _)⟩⟩
      case casRelease =>
        cases hs
        refine .inr ⟨by simp [note, hpc], .inr ⟨rfl, .inl ?_⟩⟩
        split <;> rfl
      case stamp r i =>
        right
        refine ⟨by simp only [note, hpc]; split <;> rfl, ?_⟩
        split at hs <;> cases hs <;> exact .inr ⟨rfl, .inl rfl⟩
      all_goals
        right
        repeat' split at hs
        all_goals cases hs
        all_goals exact ⟨by simp [note, hpc], .inr ⟨rfl, .inl rfl⟩⟩

theorem masterInv_reached {e : Nat} {q : World T × Trace T}
    (hq : (traced T size).Reached (fun q a => JoinDiscipline e q.1 a) q) : MasterInv q := by
  refine hq.invariant (P := MasterInv) ?_ ?_
  · rintro ⟨w, tr⟩ ⟨hw, rfl⟩
    refine ⟨fun p r hp => ?_, fun _ => ?_⟩
    · rw [(hw.2.2.2 p).2.1] at hp
      cases hp
    · rw [hw.1]
      rfl
  · rintro ⟨w, tr⟩ a ⟨w', tr'⟩ hr h hok hstep
    have hr' := Machine.reached_fst hr
    have hown : OwnerInv w := ownerInv_reached hr'
    have hlive := (allLive_reached hr').2
    obtain ⟨hs, htr⟩ := Machine.withHistory_step hstep
    clear hstep
    simp only at hs htr
    subst htr
    rcases step_cases hs with ⟨pid, rfl, -⟩ | ⟨e, b, h', ep', rfl, -, hst, rfl⟩ |
      ⟨p, b, h', ep', rfl, hal, hst, rfl⟩
    · exact hok.elim
    · refine ⟨fun p r hp => ?_, fun hno => ?_⟩
      · simp only [note_sub_log]
        exact h.carried p r hp
      · simp only [note_sub_log, World.putSub_seg, (subStep_header hst).2.2]
        exact h.written hno
    -- while one publisher owns the segment, no other is at the master store
    have halone : ∀ q, (w.pubs p).pc.owning = true → q ≠ p →
        (w.pubs q).pc.mastering = none := by
      intro q ho hne
      by_contra hm
      refine hne (hown.unique q p (hlive q) hal ?_ ho)
      cases hpc : (w.pubs q).pc <;> rw [hpc] at hm <;> first | rfl | exact absurd rfl hm
    rcases pubStep_master (w.putPub p h' ep') tr hst with ⟨r, hpc, ho, hlog⟩ | ⟨hlog, hcase⟩
    · refine ⟨fun q x hx => ?_, fun hno => ?_⟩
      · simp only [hlog]
        by_cases e : q = p
        · subst e
          simp only [World.putPub_self] at hx
          rw [hpc] at hx
          cases hx
          simp
        · simp only [World.putPub_ne _ _ _ _ e] at hx
          rw [halone q ho e] at hx
          cases hx
      · have := hno p
        simp only [World.putPub_self, hpc] at this
        cases this
    · have hcarry : ∀ q x, ((w.putPub p h' ep').pubs q).pc.mastering = some x →
          tr.log.getLast? = some x := by
        intro q x hx
        by_cases e : q = p
        · subst e
          simp only [World.putPub_self] at hx
          rcases hcase with ⟨h0, -⟩ | ⟨h0, -⟩
          · rw [h0] at hx
            cases hx
          · exact h.carried q x (h0 ▸ hx)
        · simp only [World.putPub_ne _ _ _ _ e] at hx
          exact h.carried q x hx
      refine ⟨fun q x hx => ?_, fun hall => ?_⟩
      · simp only [hlog]
        exact hcarry q x hx
      · simp only [hlog, World.putPub_seg]
        have hself : ep'.pc.mastering = none := by simpa using hall p
        rcases hcase with ⟨-, r, hm, hw⟩ | ⟨h0, h1⟩
        · rw [hw, h.carried p r hm]
          rfl
        · rw [h1.resolve_right fun h2 => h2 hself]
          refine h.written fun q => ?_
          by_cases e : q = p
          · rw [e, ← h0]
            exact hself
          · have := hall q
            simpa only [World.putPub_ne _ _ _ _ e] using this

theorem join_reached {e : Nat} {q : World T × Trace T}
    (hq : (traced T size).Reached (fun q a => RegionDiscipline q.1 a ∧ JoinDiscipline e q.1 a) q) :
    MasterInv q ∧ AllLive q.1 := by
  have hj : (traced T size).Reached (fun q a => JoinDiscipline e q.1 a) q :=
    hq.weaken fun _ _ h => h.2
  exact ⟨masterInv_reached hj, allLive_reached (Machine.reached_fst hj)⟩

/-! ## Nothing newer is missed -/

theorem flightOf_ahead {i : Nat} {pc : PubPc T} (h : pc.ahead i = true) :
    ∃ r, flightOf (some i) pc = .coming r := by
  cases pc <;> simp only [PubPc.ahead] at h
  case masterBegin r | masterEnd r => exact ⟨r, rfl⟩
  case loadState r j | push r j | drop r j =>
    exact ⟨r, by simp only [flightOf, sight, h, if_true]⟩
  case loadKind r j | loadBase r j | stamp r j | cellBegin r j | cellEnd r j =>
    have hne : ¬ i = j := by
      have := of_decide_eq_true h
      omega
    exact ⟨r, by simp only [flightOf, Option.some.injEq, if_neg hne, sight, h, if_true]⟩
  all_goals cases h

/-- A disciplined activation is a prompt join. -/
theorem prompt_join {w w' : World T} {tr : Trace T} {e i : Nat} {now : Int} {m m' : Box T}
    {late : Bool} (hm : MasterInv (w, tr)) (hlive : AllLive w)
    (hlat : (w.subs e).history.isLatest = true)
    (hok : JoinDiscipline e w (.sub e (.go now))) (hpc : (w.subs e).pc = .storeActive i)
    (hs : w.step size (.sub e (.go now)) = some w') (hsim : SimAt e w tr m)
    (hst : m.Step (.join late) m')
    (hsim' : SimAt e w' (note w (.sub e (.go now)) w' tr) m') : m.Prompt (.join late) := by
  have hfl : Aloft (w.flight (some i)) m'.flight := by
    have h0 : w' = w.putSub e (w.seg.setSlot i { w.seg.subSlots i with state := .active })
        ((w.subs e).at' (.wired i .idle)) := by
      simp only [World.step, subStep, hpc] at hs
      split at hs
      · exact (Option.some.inj hs).symm
      · cases hs
    have := hsim'.flights
    rw [h0, World.putSub_self] at this
    exact this
  have hahead : ∀ p, (w.pubs p).pc.ahead i = true →
      late = false ∧ ∃ r, m.flight = .coming r := by
    intro p hp
    obtain ⟨r, hr⟩ := flightOf_ahead hp
    have hf : m'.flight = .coming r := by
      rw [← flight_live (hlive.2 p)] at hr
      rcases hfl.1 p with h0 | h0
      · exact absurd (h0.symm.trans hr) (fun h1 => by cases h1)
      · exact h0.symm.trans hr
    cases hst with
    | join => exact ⟨rfl, r, hf⟩
    | joinLate => cases hf
  simp only [JoinDiscipline, hpc, forall_const] at hok
  rcases hok hlat with h0 | ⟨p, -, hp⟩ | h0
  · exact .inl (hsim.accepted.trans h0)
  · exact .inr (.inl (hahead p hp))
  · by_cases hany : ∃ p, (w.pubs p).pc.mastering ≠ none
    · obtain ⟨p, hp⟩ := hany
      refine .inr (.inl (hahead p ?_))
      cases hq : (w.pubs p).pc <;> rw [hq] at hp <;> first | rfl | exact absurd rfl hp
    · have hw := hm.written fun p => by
        by_contra h1
        exact hany ⟨p, h1⟩
      have hcell := (hsim.region i (.inl (by rw [hpc]; rfl))).cell
        (by rw [hpc]; simp [SubPc.progress])
      exact .inr (.inr (by rw [← hcell, h0, hsim.newest]; exact hw))

/-- In a run whose joins keep the discipline, a wired subscriber has the newest
record, unless a publish is still in its fan-out. -/
theorem current_reached {w : World T} {tr : Trace T} {e i : Nat}
    (hw : (traced T size).Reached (fun q a => RegionDiscipline q.1 a ∧ JoinDiscipline e q.1 a)
      (w, tr))
    (hlat : (w.subs e).history.isLatest = true) (hpc : (w.subs e).pc.wiredAt = some i)
    (hquiet : ∀ p, (w.pubs p).pc.airborne = false) (hpos : 0 < w.seg.acceptedOrdinal) :
    ∃ r, w.seg.latest i = .full r ∧ r.ordinal = w.seg.acceptedOrdinal ∧
      tr.log.getLast? = some r := by
  have hprompt : ∀ (w : World T) a w' tr m ev m',
      (traced T size).Reached (fun q a => RegionDiscipline q.1 a ∧ JoinDiscipline e q.1 a) (w, tr) →
      JoinDiscipline e w a → w.step size a = some w' → Followed w' e → SimAt e w tr m →
      m.Step ev m' → SimAt e w' (note w a w' tr) m' →
      (ev.benign = true ∨ Notable w e m a ev) → m.Prompt ev := by
    intro w a w' tr m ev m' hr hok hs hfol hsim hmm hsim' hev
    rcases hev with hev | hev
    · exact Box.prompt_of_benign hev
    · cases hev with
      | own hev =>
          rcases hev with hev | ⟨rfl, -⟩ | ⟨late, i, rfl, hpc⟩
          · exact Box.prompt_of_benign hev
          · trivial
          · exact prompt_join (join_reached hr).1 (join_reached hr).2
              (hfol.before hs).latest hok hpc hs hsim hmm hsim'
      | crash => exact hok.elim
  have hleft : (w.subs e).pc.left = false := by
    cases hp : (w.subs e).pc <;> rw [hp] at hpc <;> first | rfl | cases hpc
  obtain ⟨m, ⟨⟨hcur, -⟩, hnamed⟩, -, hsim⟩ := mailbox_reached
    (fun m : Box T => (m.Current ∧ m.Flying) ∧ m.Named) Box.Prompt
    (fun m e m' h he hs => ⟨⟨Box.current_step h.1.1 h.1.2 he hs, Box.flying_step h.1.2 hs⟩,
      Box.named_step h.2 hs⟩)
    ⟨⟨fun h0 => (nomatch h0), fun r hr => (nomatch hr)⟩, fun _ => rfl,
      fun r hr => (nomatch hr)⟩ e hprompt hw
    ⟨(join_reached hw).2.1 e, hlat, hleft⟩
  have hgo : m.awaited = none := by
    have hf : m.flight = .quiet := by
      by_contra hne
      obtain ⟨p, hp⟩ := hsim.flights.2 hne
      have h0 : w.flight (w.subs e).pc.wiredAt p ≠ .quiet := by
        rw [hp]
        exact hne
      have := (airborne_of_flight h0).2
      rw [hquiet p] at this
      cases this
    simp [Box.awaited, hf]
  obtain ⟨r, hr, hcell⟩ := hcur.holds hnamed (by rw [hsim.joined, hpc]; rfl)
    (hsim.accepted ▸ hpos) hgo
  refine ⟨r, ?_, hr.2.trans hsim.accepted, by rw [← hsim.newest, hr.1]⟩
  have hval := (hsim.region i (.inr hpc)).cell
    (by rw [(SubPc.wiredAt_holds hpc (.inr hpc)).2]; omega)
  rw [hcell] at hval
  cases hl : w.seg.latest i <;> rw [hl] at hval <;> cases hval
  rfl

/-! ## The next take -/

/-- With nothing else moving, `TakeLatest` hands back what the mailbox holds. -/
theorem takeLatest_returns {w : World T} {e i : Nat} {r : MailRecord T} (now : Int)
    (hlive : w.liveSub e) (hlat : (w.subs e).history.isLatest = true)
    (hpc : (w.subs e).pc = .wired i .idle) (hcell : w.seg.latest i = .full r) :
    ∃ n w' stale, (machine T size).exec
        (.sub e .takeLatest :: List.replicate n (.sub e (.go now))) w = some w' ∧
      (w'.subs e).pc = .wired i (.ret (some (r, stale))) := by
  have hal : w.alive (w.subs e).pid = true := hlive
  cases hst : isStale (w.subs e).deadline now r.envelope.publishStampNs <;>
    cases hsl : (w.subs e).staleLatched <;>
    cases hb : (w.seg.subSlots i).lastConsumedOrdinal with
    | none =>
        refine ⟨4, ?_⟩
        simp [Machine.exec, machine, World.step, hal, hlat, subStep, takeStep, hpc, hcell, hst,
          hsl, hb, SubEp.at']
    | some last =>
        by_cases hlt : last < r.ordinal
        · refine ⟨6, ?_⟩
          simp [Machine.exec, machine, World.step, hal, hlat, subStep, takeStep, hpc, hcell, hst,
            hsl, hb, hlt, SubEp.at']
        · refine ⟨4, ?_⟩
          simp [Machine.exec, machine, World.step, hal, hlat, subStep, takeStep, hpc, hcell, hst,
            hsl, hb, hlt, SubEp.at']

end Xmmsg.Shm
