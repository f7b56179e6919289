import Xmmsg.Shm.Owner

/-!
# The publisher's counters across crashes

A publish moves three shared words, far apart: `accepted_ordinal` when it starts,
`pub_publish_count` and `pub_bytes` when it is through. A publisher killed in between
leaves the difference behind for good, and the next one starts over it.

Nothing has to be added up over the dead. One generation can leave one publish
unfinished at most, because it makes them one after the other, and before it makes the
first it has raised `pub_epoch`. So a live owner that owes nothing still has room for
one unfinished publish under `pub_epoch`; if it uses it and dies, the bound is met, and
whoever comes next raises the epoch first. `Balance` says what the room is at each stage
of a publish.

With the record of who drew which ordinal in which generation comes that the ordinals
are 1, 2, 3, and so on, whoever draws them.
-/

namespace Xmmsg.Shm

open Xmmsg.Sys

variable {T : Type} {size : Nat}

/-! ## What a publisher owes -/

inductive Stage where
  | before                                  -- no claim yet, or a refused one
  | claimed                                 -- the epoch still to raise
  | square
  | uncounted                               -- drawn, pub_publish_count to come
  | unbilled                                -- pub_bytes to come
  | after
  deriving DecidableEq, Repr

def PubPc.stage : PubPc T → Stage
  | .unwired | .casZero | .probeOwner _ | .casOwner _ | .refused => .before
  | .bumpEpoch => .claimed
  | .repairMaster | .repairState _ | .repairKind _ | .repairCell _ | .idle | .draw _
  | .casRelease => .square
  | .masterBegin _ | .masterEnd _ | .loadState _ _ | .loadKind _ _ | .loadBase _ _
  | .stamp _ _ | .cellBegin _ _ | .cellEnd _ _ | .push _ _ | .drop _ _ | .countLocal
  | .countShared => .uncounted
  | .bytesShared => .unbilled
  | .gone => .after

/-- The four words. -/
def Segment.tally (h : Segment T) : Nat × Nat × Nat × Nat :=
  (h.acceptedOrdinal, h.pubPublishCount, h.pubBytes, h.pubEpoch)

/-- What one access does to the words and to what its maker owes. -/
inductive CountMove (size : Nat) (h : Segment T) (pc : PubPc T) (h' : Segment T)
    (pc' : PubPc T) : Prop
  | quiet : h'.tally = h.tally → pc'.stage = pc.stage → pc ≠ .bumpEpoch → (∀ m, pc ≠ .draw m) →
      CountMove size h pc h' pc'
  | claim : h'.tally = h.tally → pc.stage = .before → pc' = .bumpEpoch →
      CountMove size h pc h' pc'
  | raise : pc = .bumpEpoch → h' = { h with pubEpoch := h.pubEpoch + 1 } → pc'.stage = .square →
      CountMove size h pc h' pc'
  | draw {m : Message T} : pc = .draw m →
      h' = { h with acceptedOrdinal := h.acceptedOrdinal + 1 } →
      pc' = .masterBegin (m.record (h.acceptedOrdinal + 1)) → CountMove size h pc h' pc'
  | count : pc = .countShared → h' = { h with pubPublishCount := h.pubPublishCount + 1 } →
      pc' = .bytesShared → CountMove size h pc h' pc'
  | bill : pc = .bytesShared → h' = { h with pubBytes := h.pubBytes + size } →
      pc' = .idle → CountMove size h pc h' pc'
  | leave : h'.tally = h.tally → pc = .casRelease ∨ pc = .refused → pc' = .gone →
      CountMove size h pc h' pc'

theorem pubStep_count {alive : Nat → Bool} {h h' : Segment T} {ep ep' : PubEp T}
    {a : PubAct T} (hs : pubStep size alive h ep a = some (h', ep')) :
    CountMove size h ep.pc h' ep'.pc := by
  cases a with
  | publish m =>
      cases hpc : ep.pc <;> simp only [pubStep, hpc] at hs <;> cases hs
      exact .quiet rfl rfl (fun h0 => by cases h0) (fun m h0 => by cases h0)
  | destroy =>
      cases hpc : ep.pc <;> simp only [pubStep, hpc] at hs <;> cases hs
      · exact .quiet rfl rfl (fun h0 => by cases h0) (fun m h0 => by cases h0)
      · exact .leave rfl (.inr rfl) rfl
  | go =>
      cases hpc : ep.pc <;> simp only [pubStep, hpc] at hs
      case casZero | casOwner =>
        split at hs <;> cases hs
        · exact .claim rfl rfl rfl
        · exact .quiet rfl rfl (fun h0 => by cases h0) (fun m h0 => by cases h0)
      case bumpEpoch =>
        cases hs
        exact .raise rfl rfl rfl
      case draw m =>
        cases hs
        exact .draw rfl rfl rfl
      case countShared =>
        cases hs
        exact .count rfl rfl rfl
      case bytesShared =>
        cases hs
        exact .bill rfl rfl rfl
      case casRelease =>
        cases hs
        refine .leave ?_ (.inl rfl) rfl
        split <;> rfl
      all_goals
        repeat' split at hs
        all_goals cases hs
        all_goals exact .quiet rfl rfl (fun h0 => by cases h0) (fun m h0 => by cases h0)

/-- A subscriber leaves the words alone. -/
theorem subStep_tally {alive : Nat → Bool} {h h' : Segment T} {ep ep' : SubEp T}
    {a : SubAct} (hs : subStep alive h ep a = some (h', ep')) : h'.tally = h.tally := by
  cases a with
  | go now =>
      cases hpc : ep.pc <;> simp only [subStep, hpc] at hs
      case wired i t =>
        cases t <;> simp only [takeStep] at hs
        all_goals
          repeat' split at hs
          all_goals cases hs
          all_goals rfl
      all_goals
        repeat' split at hs
        all_goals cases hs
        all_goals rfl
  | _ =>
      simp only [subStep] at hs
      repeat' split at hs
      all_goals cases hs
      all_goals rfl

/-! ## The brackets -/

/-- The room a live owner has at each stage. -/
def Balance (size : Nat) (h : Segment T) : Stage → Prop
  | .before | .claimed | .after => True
  | .square => h.acceptedOrdinal + 1 ≤ h.pubPublishCount + h.pubEpoch ∧
      h.pubPublishCount * size + size ≤ h.pubBytes + h.pubEpoch * size
  | .uncounted => h.pubPublishCount + 1 ≤ h.acceptedOrdinal ∧
      h.pubPublishCount * size + size ≤ h.pubBytes + h.pubEpoch * size
  | .unbilled => h.acceptedOrdinal + 1 ≤ h.pubPublishCount + h.pubEpoch ∧
      h.pubBytes + size ≤ h.pubPublishCount * size

structure Brackets (size : Nat) (h : Segment T) : Prop where
  counted : h.pubPublishCount ≤ h.acceptedOrdinal
  accepted : h.acceptedOrdinal ≤ h.pubPublishCount + h.pubEpoch
  billed : h.pubBytes ≤ h.pubPublishCount * size
  bytes : h.pubPublishCount * size ≤ h.pubBytes + h.pubEpoch * size

theorem Segment.tally_inj {h h' : Segment T} (ht : h'.tally = h.tally) :
    h'.acceptedOrdinal = h.acceptedOrdinal ∧ h'.pubPublishCount = h.pubPublishCount ∧
      h'.pubBytes = h.pubBytes ∧ h'.pubEpoch = h.pubEpoch := by
  simpa only [Segment.tally, Prod.mk.injEq] using ht

theorem Balance.congr {h h' : Segment T} (ht : h'.tally = h.tally) {st : Stage}
    (hb : Balance size h st) : Balance size h' st := by
  obtain ⟨h1, h2, h3, h4⟩ := Segment.tally_inj ht
  cases st <;> simp only [Balance, h1, h2, h3, h4] at hb ⊢ <;> exact hb

theorem Brackets.congr {h h' : Segment T} (ht : h'.tally = h.tally) (hb : Brackets size h) :
    Brackets size h' := by
  obtain ⟨h1, h2, h3, h4⟩ := Segment.tally_inj ht
  constructor
  · rw [h1, h2]
    exact hb.counted
  · rw [h1, h2, h4]
    exact hb.accepted
  · rw [h2, h3]
    exact hb.billed
  · rw [h2, h3, h4]
    exact hb.bytes

/-- One access keeps the brackets, and its maker within its room. -/
theorem CountMove.keeps {h h' : Segment T} {pc pc' : PubPc T} (hm : CountMove size h pc h' pc')
    (hb : Brackets size h) (hl : Balance size h pc.stage) :
    Brackets size h' ∧ Balance size h' pc'.stage := by
  obtain ⟨h1, h2, h3, h4⟩ := hb
  cases hm with
  | quiet ht hst =>
      rw [hst]
      exact ⟨Brackets.congr ht ⟨h1, h2, h3, h4⟩, hl.congr ht⟩
  | claim ht _ hpc =>
      subst hpc
      exact ⟨Brackets.congr ht ⟨h1, h2, h3, h4⟩, trivial⟩
  | leave ht _ hpc =>
      subst hpc
      exact ⟨Brackets.congr ht ⟨h1, h2, h3, h4⟩, trivial⟩
  | raise _ hh hst =>
      subst hh
      rw [hst]
      have hE : (h.pubEpoch + 1) * size = h.pubEpoch * size + size := Nat.succ_mul _ _
      refine ⟨⟨h1, ?_, h3, ?_⟩, ?_, ?_⟩
      · show h.acceptedOrdinal ≤ h.pubPublishCount + (h.pubEpoch + 1)
        omega
      · show h.pubPublishCount * size ≤ h.pubBytes + (h.pubEpoch + 1) * size
        omega
      · show h.acceptedOrdinal + 1 ≤ h.pubPublishCount + (h.pubEpoch + 1)
        omega
      · show h.pubPublishCount * size + size ≤ h.pubBytes + (h.pubEpoch + 1) * size
        omega
  | draw hpc hh hpc' =>
      subst hpc hh hpc'
      exact ⟨⟨Nat.le_succ_of_le h1, hl.1, h3, h4⟩, Nat.succ_le_succ h1, hl.2⟩
  | count hpc hh hpc' =>
      subst hpc hh hpc'
      have hC : (h.pubPublishCount + 1) * size = h.pubPublishCount * size + size := Nat.succ_mul _ _
      refine ⟨⟨hl.1, ?_, ?_, ?_⟩, ?_, ?_⟩
      · show h.acceptedOrdinal ≤ h.pubPublishCount + 1 + h.pubEpoch
        omega
      · show h.pubBytes ≤ (h.pubPublishCount + 1) * size
        omega
      · rw [show _ = (h.pubPublishCount + 1) * size from rfl, hC]
        exact hl.2
      · show h.acceptedOrdinal + 1 ≤ h.pubPublishCount + 1 + h.pubEpoch
        omega
      · show h.pubBytes + size ≤ (h.pubPublishCount + 1) * size
        omega
  | bill hpc hh hpc' =>
      subst hpc hh hpc'
      refine ⟨⟨h1, h2, hl.2, ?_⟩, hl.1, ?_⟩
      · show h.pubPublishCount * size ≤ h.pubBytes + size + h.pubEpoch * size
        omega
      · show h.pubPublishCount * size + size ≤ h.pubBytes + size + h.pubEpoch * size
        omega

/-- Only the owner changes the words. -/
theorem CountMove.owner {h h' : Segment T} {pc pc' : PubPc T} (hm : CountMove size h pc h' pc') :
    h'.tally = h.tally ∨ pc.owning = true := by
  cases hm with
  | quiet ht | claim ht | leave ht => exact .inl ht
  | raise hpc | draw hpc | count hpc | bill hpc =>
      subst hpc
      exact .inr rfl

structure TallyInv (size : Nat) (w : World T) : Prop where
  brackets : Brackets size w.seg
  room : ∀ p, w.livePub p → Balance size w.seg (w.pubs p).pc.stage

theorem not_owning_balance {pc : PubPc T} (h : pc.owning = false) (g : Segment T) :
    Balance size g pc.stage := by
  cases pc <;> trivial

theorem tallyInv_reached {ok : World T → Act T → Prop} {w : World T}
    (hw : (machine T size).Reached ok w) : TallyInv size w := by
  refine hw.invariant (P := TallyInv size) ?_ ?_
  · rintro w ⟨hseg, -, -, hpubs⟩
    refine ⟨?_, fun p _ => ?_⟩
    · rw [hseg]
      constructor <;> simp
    · rw [(hpubs p).2.1]
      trivial
  · intro w a w' hr h _ hs
    rcases step_cases hs with ⟨pid, rfl, rfl⟩ | ⟨e, b, h', ep', rfl, hal, hsub, rfl⟩ |
      ⟨p, b, h', ep', rfl, hal, hpub, rfl⟩
    · exact ⟨h.brackets, fun q hq => h.room q (World.alive_of_kill w pid hq)⟩
    · have ht := subStep_tally hsub
      exact ⟨h.brackets.congr ht, fun q hq => (h.room q hq).congr ht⟩
    · have hm := pubStep_count hpub
      obtain ⟨hb, hl⟩ := hm.keeps h.brackets (h.room p hal)
      refine ⟨hb, fun q hq => ?_⟩
      by_cases hqp : q = p
      · subst hqp
        rw [World.putPub_self]
        exact hl
      · rw [World.livePub, World.putPub_ne _ _ _ _ hqp, World.putPub_alive] at hq
        rw [World.putPub_ne _ _ _ _ hqp]
        rcases hm.owner with ht | hown
        · exact (h.room q hq).congr ht
        · cases hq' : (w.pubs q).pc.owning with
          | false => exact not_owning_balance hq' _
          | true => exact absurd ((ownerInv_reached hr).unique q p hq hal hq' hown) hqp

/-! ## Who drew what -/

/-- The records drawn so far, each with its publisher, and the epoch that publisher
raised to. -/
structure Ledger (T : Type) where
  log : List (Nat × MailRecord T) := []
  generation : Nat → Nat := fun _ => 0

def Ledger.note (w : World T) (a : Act T) (_ : World T) (l : Ledger T) : Ledger T :=
  match a with
  | .pub p .go =>
      match (w.pubs p).pc with
      | .bumpEpoch =>
          { l with generation := Function.update l.generation p (w.seg.pubEpoch + 1) }
      | .draw m => { l with log := l.log ++ [(p, m.record (w.seg.acceptedOrdinal + 1))] }
      | _ => l
  | _ => l

def ledgered (T : Type) (size : Nat) : Machine (World T × Ledger T) (Act T) :=
  (machine T size).withHistory {} Ledger.note

/-- The epoch has been raised for the claim held. -/
def Stage.raised : Stage → Bool
  | .square | .uncounted | .unbilled => true
  | _ => false

/-- It has not been raised for this endpoint. -/
def Stage.early : Stage → Bool
  | .before | .claimed => true
  | _ => false

structure LedgerInv (w : World T) (l : Ledger T) : Prop where
  ordinals : l.log.map (fun x => x.2.ordinal) = List.range' 1 w.seg.acceptedOrdinal
  -- a generation is counted once
  bounded : ∀ p, l.generation p ≤ w.seg.pubEpoch
  fresh : ∀ p, (w.pubs p).pc.stage.early = true → l.generation p = 0
  distinct : ∀ p q, l.generation p = l.generation q → l.generation p ≠ 0 → p = q
  -- and the current one is the last
  current : ∀ p, w.livePub p → (w.pubs p).pc.stage.raised = true →
    l.generation p = w.seg.pubEpoch ∧ l.generation p ≠ 0
  drawn : ∀ x ∈ l.log, l.generation x.1 ≠ 0
  ordered : l.log.Pairwise fun x y => l.generation x.1 ≤ l.generation y.1

theorem note_quiet {w w' : World T} {p : Nat} {b : PubAct T} {l : Ledger T}
    (hraise : (w.pubs p).pc ≠ .bumpEpoch) (hdraw : ∀ m, (w.pubs p).pc ≠ .draw m) :
    l.note w (.pub p b) w' = l := by
  cases b with
  | go =>
      cases hpc : (w.pubs p).pc with
      | bumpEpoch => exact absurd hpc hraise
      | draw m => exact absurd hpc (hdraw m)
      | _ => simp only [Ledger.note, hpc]
  | _ => rfl

/-- Nothing is noted, and nobody comes to have raised the epoch. -/
theorem LedgerInv.quiet {w w' : World T} {l : Ledger T} (h : LedgerInv w l)
    (hacc : w'.seg.acceptedOrdinal = w.seg.acceptedOrdinal)
    (hepoch : w'.seg.pubEpoch = w.seg.pubEpoch) (hlive : ∀ p, w'.livePub p → w.livePub p)
    (hearly : ∀ p, (w'.pubs p).pc.stage.early = true → (w.pubs p).pc.stage.early = true)
    (hraised : ∀ p, (w'.pubs p).pc.stage.raised = true → (w.pubs p).pc.stage.raised = true) :
    LedgerInv w' l where
  ordinals := hacc ▸ h.ordinals
  bounded p := hepoch ▸ h.bounded p
  fresh p hp := h.fresh p (hearly p hp)
  distinct := h.distinct
  current p hp hr := hepoch ▸ h.current p (hlive p hp) (hraised p hr)
  drawn := h.drawn
  ordered := h.ordered

/-- Other live endpoints have not raised the epoch while one owns the slot. -/
theorem OwnerInv.alone {w : World T} (h : OwnerInv w) {p q : Nat} (hp : w.livePub p)
    (hown : (w.pubs p).pc.owning = true) (hq : w.livePub q) (hne : q ≠ p) :
    (w.pubs q).pc.owning = false := by
  cases hq' : (w.pubs q).pc.owning with
  | false => rfl
  | true => exact absurd (h.unique q p hq hp hq' hown) hne

theorem owning_of_raised {pc : PubPc T} (h : pc.stage.raised = true) : pc.owning = true := by
  cases pc <;> first | rfl | cases h

/-- A new generation. -/
theorem LedgerInv.raise {w : World T} {l : Ledger T} (h : LedgerInv w l) (ho : OwnerInv w)
    {p : Nat} (hl : w.livePub p) (hpc : (w.pubs p).pc = .bumpEpoch) {ep' : PubEp T}
    (hst : ep'.pc.stage = .square) :
    LedgerInv (w.putPub p { w.seg with pubEpoch := w.seg.pubEpoch + 1 } ep')
      { l with generation := Function.update l.generation p (w.seg.pubEpoch + 1) } := by
  have hzero : l.generation p = 0 := h.fresh p (by rw [hpc]; rfl)
  have hmem : ∀ x ∈ l.log, x.1 ≠ p := fun x hx h0 => h.drawn x hx (h0 ▸ hzero)
  have hsame : ∀ q, q ≠ p → Function.update l.generation p (w.seg.pubEpoch + 1) q =
      l.generation q := fun q hq => Function.update_of_ne hq ..
  have hself : Function.update l.generation p (w.seg.pubEpoch + 1) p = w.seg.pubEpoch + 1 :=
    Function.update_self ..
  refine ⟨h.ordinals, fun q => ?_, fun q hq => ?_, fun q r hqr hne => ?_, fun q hq hr => ?_,
    fun x hx => ?_, ?_⟩
  · show Function.update l.generation p (w.seg.pubEpoch + 1) q ≤ w.seg.pubEpoch + 1
    by_cases hqp : q = p
    · exact Nat.le_of_eq (by rw [hqp, hself])
    · rw [hsame q hqp]
      exact Nat.le_succ_of_le (h.bounded q)
  · by_cases hqp : q = p
    · rw [hqp, World.putPub_self, hst] at hq
      cases hq
    · rw [World.putPub_ne _ _ _ _ hqp] at hq
      exact (hsame q hqp).trans (h.fresh q hq)
  · -- the new number is larger than any there was
    replace hqr : Function.update l.generation p (w.seg.pubEpoch + 1) q =
      Function.update l.generation p (w.seg.pubEpoch + 1) r := hqr
    by_cases hqp : q = p <;> by_cases hrp : r = p
    · rw [hqp, hrp]
    · rw [hqp, hself, hsame r hrp] at hqr
      have := h.bounded r
      omega
    · rw [hrp, hself, hsame q hqp] at hqr
      have := h.bounded q
      omega
    · rw [hsame q hqp, hsame r hrp] at hqr
      have hne' : l.generation q ≠ 0 := fun h0 => hne ((hsame q hqp).trans h0)
      exact h.distinct q r hqr hne'
  · by_cases hqp : q = p
    · subst hqp
      exact ⟨hself, fun h0 => Nat.succ_ne_zero _ (hself.symm.trans h0)⟩
    · rw [World.livePub, World.putPub_ne _ _ _ _ hqp, World.putPub_alive] at hq
      rw [World.putPub_ne _ _ _ _ hqp] at hr
      have := ho.alone hl (by rw [hpc]; rfl) hq hqp
      rw [owning_of_raised hr] at this
      cases this
  · show Function.update l.generation p (w.seg.pubEpoch + 1) x.1 ≠ 0
    rw [hsame x.1 (hmem x hx)]
    exact h.drawn x hx
  · refine h.ordered.imp_of_mem fun {x y} hx hy hxy => ?_
    show Function.update l.generation p (w.seg.pubEpoch + 1) x.1 ≤
      Function.update l.generation p (w.seg.pubEpoch + 1) y.1
    rw [hsame x.1 (hmem x hx), hsame y.1 (hmem y hy)]
    exact hxy

/-- A record drawn. -/
theorem LedgerInv.draw {w : World T} {l : Ledger T} (h : LedgerInv w l) {p : Nat}
    (hl : w.livePub p) {m : Message T} (hpc : (w.pubs p).pc = .draw m) {ep' : PubEp T}
    (hst : ep'.pc.stage = .uncounted) :
    LedgerInv (w.putPub p { w.seg with acceptedOrdinal := w.seg.acceptedOrdinal + 1 } ep')
      { l with log := l.log ++ [(p, m.record (w.seg.acceptedOrdinal + 1))] } := by
  obtain ⟨hcur, hne⟩ := h.current p hl (by rw [hpc]; rfl)
  refine ⟨?_, h.bounded, fun q hq => ?_, h.distinct, fun q hq hr => ?_, fun x hx => ?_, ?_⟩
  · show (l.log ++ _).map _ = List.range' 1 (w.seg.acceptedOrdinal + 1)
    rw [List.map_append, h.ordinals, List.range'_1_concat, Nat.add_comm 1]
    rfl
  · by_cases hqp : q = p
    · rw [hqp, World.putPub_self, hst] at hq
      cases hq
    · rw [World.putPub_ne _ _ _ _ hqp] at hq
      exact h.fresh q hq
  · by_cases hqp : q = p
    · rw [hqp]
      exact ⟨hcur, hne⟩
    · rw [World.livePub, World.putPub_ne _ _ _ _ hqp, World.putPub_alive] at hq
      rw [World.putPub_ne _ _ _ _ hqp] at hr
      exact h.current q hq hr
  · rcases List.mem_append.mp hx with hx | hx
    · exact h.drawn x hx
    · rw [List.mem_singleton.mp hx]
      exact hne
  · refine List.pairwise_append.mpr ⟨h.ordered, List.pairwise_singleton _ _, fun x _ y hy => ?_⟩
    rw [List.mem_singleton.mp hy, hcur]
    exact h.bounded x.1

theorem LedgerInv.pub {w : World T} {l : Ledger T} (h : LedgerInv w l) (ho : OwnerInv w)
    {p : Nat} {b : PubAct T} {h' : Segment T} {ep' : PubEp T} (hl : w.livePub p)
    (hs : pubStep size w.alive w.seg (w.pubs p) b = some (h', ep')) :
    LedgerInv (w.putPub p h' ep') (l.note w (.pub p b) (w.putPub p h' ep')) := by
  have hlive : ∀ q, (w.putPub p h' ep').livePub q → w.livePub q := by
    intro q hq
    by_cases hqp : q = p
    · rw [hqp]
      exact hl
    · rw [World.livePub, World.putPub_ne _ _ _ _ hqp, World.putPub_alive] at hq
      exact hq
  -- what is asked of the mover is asked of everybody
  have hall : ∀ f : Stage → Bool, (f ep'.pc.stage = true → f (w.pubs p).pc.stage = true) →
      ∀ q, f ((w.putPub p h' ep').pubs q).pc.stage = true → f (w.pubs q).pc.stage = true := by
    intro f hf q hq
    by_cases hqp : q = p
    · subst hqp
      rw [World.putPub_self] at hq
      exact hf hq
    · rw [World.putPub_ne _ _ _ _ hqp] at hq
      exact hq
  cases pubStep_count hs with
  | quiet ht hst hnb hnd =>
      obtain ⟨h1, -, -, h4⟩ := Segment.tally_inj ht
      rw [note_quiet hnb hnd]
      exact h.quiet h1 h4 hlive (hall _ fun h0 => hst ▸ h0) (hall _ fun h0 => hst ▸ h0)
  | claim ht hst hpc' =>
      obtain ⟨h1, -, -, h4⟩ := Segment.tally_inj ht
      have hraise : (w.pubs p).pc ≠ .bumpEpoch := by
        intro h0
        rw [h0] at hst
        cases hst
      have hdraw : ∀ m, (w.pubs p).pc ≠ .draw m := by
        intro m h0
        rw [h0] at hst
        cases hst
      rw [note_quiet hraise hdraw]
      refine h.quiet h1 h4 hlive (hall _ fun _ => by rw [hst]; rfl) (hall _ fun h0 => ?_)
      rw [hpc'] at h0
      cases h0
  | leave ht hpc hpc' =>
      obtain ⟨h1, -, -, h4⟩ := Segment.tally_inj ht
      have hraise : (w.pubs p).pc ≠ .bumpEpoch := by
        rcases hpc with hpc | hpc <;> simp [hpc]
      have hdraw : ∀ m, (w.pubs p).pc ≠ .draw m := by
        rcases hpc with hpc | hpc <;> simp [hpc]
      rw [note_quiet hraise hdraw]
      refine h.quiet h1 h4 hlive (hall _ fun h0 => ?_) (hall _ fun h0 => ?_) <;>
        rw [hpc'] at h0 <;> cases h0
  | raise hpc hh hst =>
      have hb : b = .go := by
        cases b <;> first | rfl | (simp only [pubStep, hpc] at hs; cases hs)
      subst hh hb
      simp only [Ledger.note, hpc]
      exact h.raise ho hl hpc hst
  | draw hpc hh hpc' =>
      have hb : b = .go := by
        cases b <;> first | rfl | (simp only [pubStep, hpc] at hs; cases hs)
      subst hh hb
      simp only [Ledger.note, hpc]
      exact h.draw hl hpc (by rw [hpc']; rfl)
  | count hpc hh hpc' | bill hpc hh hpc' =>
      rw [note_quiet (by simp [hpc]) (by simp [hpc])]
      subst hh
      refine h.quiet rfl rfl hlive (hall _ fun h0 => ?_) (hall _ fun _ => by rw [hpc]; rfl)
      rw [hpc'] at h0
      cases h0

theorem ledgerInv_reached {ok : World T → Act T → Prop} {w : World T} {l : Ledger T}
    (hr : (ledgered T size).Reached (fun q a => ok q.1 a) (w, l)) : LedgerInv w l := by
  refine hr.invariant (P := fun x => LedgerInv x.1 x.2) ?_ ?_
  · rintro ⟨w, l⟩ ⟨⟨hseg, -, -, hpubs⟩, rfl⟩
    refine ⟨?_, fun p => Nat.zero_le _, fun p _ => rfl, fun p q _ h0 => absurd rfl h0,
      fun p _ h0 => ?_, fun x hx => (nomatch hx), List.Pairwise.nil⟩
    · rw [hseg]
      rfl
    · rw [(hpubs p).2.1] at h0
      cases h0
  · rintro ⟨w, l⟩ a ⟨w', l'⟩ hr h - hs
    have ho := ownerInv_reached (Machine.reached_fst hr)
    obtain ⟨hs, hnote⟩ := Machine.withHistory_step hs
    show LedgerInv w' l'
    rw [show l' = l.note w a w' from hnote]
    rcases step_cases hs with ⟨pid, rfl, rfl⟩ | ⟨e, b, h', ep', rfl, hal, hsub, rfl⟩ |
      ⟨p, b, h', ep', rfl, hal, hpub, rfl⟩
    · exact LedgerInv.quiet h rfl rfl (fun q => World.alive_of_kill w pid) (fun _ h0 => h0)
        (fun _ h0 => h0)
    · obtain ⟨h1, -, -, h4⟩ := Segment.tally_inj (subStep_tally hsub)
      exact LedgerInv.quiet h h1 h4 (fun _ hq => hq) (fun _ h0 => h0) (fun _ h0 => h0)
    · exact LedgerInv.pub h ho hal hpub

/-! ## Runs without a death inside Publish -/

/-- No process dies with one of its publishers inside `Publish`. -/
def Unhurt (w : World T) (a : Act T) : Prop :=
  ∀ pid p, a = .die pid → (w.pubs p).pid = pid → w.livePub p → (w.pubs p).pc.publishing = false

/-- The difference is the publish in progress. -/
structure Evened (w : World T) : Prop where
  even : w.seg.acceptedOrdinal = w.seg.pubPublishCount ∨
    ∃ p, w.livePub p ∧ (w.pubs p).pc.stage = .uncounted
  odd : ∀ p, w.livePub p → (w.pubs p).pc.stage = .uncounted →
    w.seg.acceptedOrdinal = w.seg.pubPublishCount + 1

theorem uncounted_publishing {pc : PubPc T} (h : pc.stage = .uncounted) :
    pc.publishing = true := by
  cases pc <;> first | rfl | cases h

theorem owning_of_uncounted {pc : PubPc T} (h : pc.stage = .uncounted) : pc.owning = true :=
  owning_of_raised (by rw [h]; rfl)

/-- The words and the publishes in progress stay. -/
theorem Evened.congr {w w' : World T} (h : Evened w)
    (hacc : w'.seg.acceptedOrdinal = w.seg.acceptedOrdinal)
    (hcount : w'.seg.pubPublishCount = w.seg.pubPublishCount)
    (hset : ∀ q, (w'.livePub q ∧ (w'.pubs q).pc.stage = .uncounted) ↔
      (w.livePub q ∧ (w.pubs q).pc.stage = .uncounted)) : Evened w' := by
  refine ⟨?_, fun q hq hst => ?_⟩
  · rw [hacc, hcount]
    rcases h.even with h0 | ⟨q, hq⟩
    · exact .inl h0
    · exact .inr ⟨q, (hset q).mpr hq⟩
  · obtain ⟨hq', hst'⟩ := (hset q).mp ⟨hq, hst⟩
    rw [hacc, hcount]
    exact h.odd q hq' hst'

theorem Evened.pub {w : World T} (h : Evened w) (ho : OwnerInv w) {p : Nat} {b : PubAct T}
    {h' : Segment T} {ep' : PubEp T} (hl : w.livePub p)
    (hs : pubStep size w.alive w.seg (w.pubs p) b = some (h', ep')) :
    Evened (w.putPub p h' ep') := by
  have hpid := pubStep_pid hs
  have hlive : ∀ q, (w.putPub p h' ep').livePub q ↔ w.livePub q := by
    intro q
    by_cases hqp : q = p
    · subst hqp
      rw [World.livePub, World.livePub, World.putPub_self, World.putPub_alive, hpid]
    · rw [World.livePub, World.livePub, World.putPub_ne _ _ _ _ hqp, World.putPub_alive]
  -- the mover neither starts nor ends being uncounted
  have hset : (ep'.pc.stage = .uncounted ↔ (w.pubs p).pc.stage = .uncounted) →
      ∀ q, ((w.putPub p h' ep').livePub q ∧ ((w.putPub p h' ep').pubs q).pc.stage = .uncounted) ↔
        (w.livePub q ∧ (w.pubs q).pc.stage = .uncounted) := by
    intro hst q
    rw [hlive q]
    by_cases hqp : q = p
    · subst hqp
      rw [World.putPub_self, hst]
    · rw [World.putPub_ne _ _ _ _ hqp]
  -- while the mover owns the slot, nobody else is
  have halone : (w.pubs p).pc.owning = true → ∀ q, w.livePub q →
      (w.pubs q).pc.stage = .uncounted → q = p := by
    intro hown q hq hst
    exact ho.unique q p hq hl (owning_of_uncounted hst) hown
  cases pubStep_count hs with
  | quiet ht hst =>
      obtain ⟨h1, h2, -, -⟩ := Segment.tally_inj ht
      exact h.congr h1 h2 (hset (by rw [hst]))
  | claim ht hst hpc' =>
      obtain ⟨h1, h2, -, -⟩ := Segment.tally_inj ht
      exact h.congr h1 h2 (hset (by rw [hst, hpc']; simp [PubPc.stage]))
  | leave ht hpc hpc' =>
      obtain ⟨h1, h2, -, -⟩ := Segment.tally_inj ht
      refine h.congr h1 h2 (hset ?_)
      rcases hpc with hpc | hpc <;> rw [hpc, hpc'] <;> simp [PubPc.stage]
  | raise hpc hh hst =>
      subst hh
      exact h.congr rfl rfl (hset (by rw [hpc, hst]; simp [PubPc.stage]))
  | bill hpc hh hpc' =>
      subst hh
      exact h.congr rfl rfl (hset (by rw [hpc, hpc']; simp [PubPc.stage]))
  | draw hpc hh hpc' =>
      subst hh
      have heven : w.seg.acceptedOrdinal = w.seg.pubPublishCount := by
        rcases h.even with h0 | ⟨q, hq, hst⟩
        · exact h0
        · rw [halone (by rw [hpc]; rfl) q hq hst, hpc] at hst
          cases hst
      refine ⟨.inr ⟨p, (hlive p).mpr hl, ?_⟩, fun q _ _ => congrArg (· + 1) heven⟩
      rw [World.putPub_self, hpc']
      rfl
  | count hpc hh hpc' =>
      subst hh
      have hodd := h.odd p hl (by rw [hpc]; rfl)
      refine ⟨.inl hodd, fun q hq hst => ?_⟩
      by_cases hqp : q = p
      · subst hqp
        rw [World.putPub_self, hpc'] at hst
        cases hst
      · rw [World.putPub_ne _ _ _ _ hqp] at hst
        exact absurd (halone (by rw [hpc]; rfl) q ((hlive q).mp hq) hst) hqp

theorem evened_reached {ok : World T → Act T → Prop} (hok : ∀ w a, ok w a → Unhurt w a)
    {w : World T} (hw : (machine T size).Reached ok w) : Evened w := by
  refine hw.invariant (P := Evened) ?_ ?_
  · rintro w ⟨hseg, -, -, hpubs⟩
    refine ⟨.inl (by rw [hseg]), fun p _ h0 => ?_⟩
    rw [(hpubs p).2.1] at h0
    cases h0
  · intro w a w' hr h hstep hs
    rcases step_cases hs with ⟨pid, rfl, rfl⟩ | ⟨e, b, h', ep', rfl, hal, hsub, rfl⟩ |
      ⟨p, b, h', ep', rfl, hal, hpub, rfl⟩
    · refine h.congr rfl rfl fun q => ⟨fun hq => ⟨World.alive_of_kill w pid hq.1, hq.2⟩, ?_⟩
      rintro ⟨hq, hst⟩
      refine ⟨?_, hst⟩
      have hne : (w.pubs q).pid ≠ pid := by
        intro h0
        have := hok _ _ hstep pid q rfl h0 hq
        rw [uncounted_publishing hst] at this
        cases this
      simpa [World.livePub, World.alive, World.kill, hne] using hq
    · obtain ⟨h1, h2, -, -⟩ := Segment.tally_inj (subStep_tally hsub)
      exact h.congr h1 h2 fun _ => Iff.rfl
    · exact h.pub (ownerInv_reached hr) hal hpub

/-! ## The counters -/

structure Counters (size : Nat) (w : World T) (l : Ledger T) : Prop where
  brackets : Brackets size w.seg
  -- the ordinals handed out are 1, 2, 3, ..., in the order of the draws
  ordinals : l.log.map (fun x => x.2.ordinal) = List.range' 1 w.seg.acceptedOrdinal
  increasing : l.log.Pairwise fun x y => x.2.ordinal < y.2.ordinal
  generations : ∀ x ∈ l.log, ∀ y ∈ l.log, l.generation x.1 = l.generation y.1 → x.1 = y.1
  across : ∀ x ∈ l.log, ∀ y ∈ l.log, l.generation x.1 < l.generation y.1 →
    x.2.ordinal < y.2.ordinal

theorem LedgerInv.increasing {w : World T} {l : Ledger T} (h : LedgerInv w l) :
    l.log.Pairwise fun x y => x.2.ordinal < y.2.ordinal := by
  have := List.pairwise_lt_range' (s := 1) (n := w.seg.acceptedOrdinal)
  rw [← h.ordinals] at this
  exact List.pairwise_map.mp this

/-- In every run, with deaths wherever they fall, the counters bracket each other; and
without a death inside `Publish` they agree whenever no publish is in progress. -/
theorem counters_bracket {ok : World T → Act T → Prop} {w : World T} {l : Ledger T}
    (hr : (ledgered T size).Reached (fun q a => ok q.1 a) (w, l)) :
    Counters size w l ∧ ((∀ v a, ok v a → Unhurt v a) →
      (∀ p, w.livePub p → (w.pubs p).pc.publishing = false) →
      w.seg.acceptedOrdinal = w.seg.pubPublishCount) := by
  have hw := Machine.reached_fst hr
  have hl := ledgerInv_reached hr
  refine ⟨⟨(tallyInv_reached hw).brackets, hl.ordinals, hl.increasing, fun x hx y _ hxy => ?_, ?_⟩,
    fun hok hidle => ?_⟩
  · exact hl.distinct x.1 y.1 hxy (hl.drawn x hx)
  · have hboth := hl.increasing.and hl.ordered
    exact List.Pairwise.forall_of_forall_of_flip (fun x _ h0 => absurd h0 (Nat.lt_irrefl _))
      (hboth.imp fun h0 _ => h0.1) (hboth.imp fun h0 h1 => absurd h0.2 (Nat.not_le.mpr h1))
  · rcases (evened_reached hok hw).even with h0 | ⟨p, hp, hst⟩
    · exact h0
    · have := hidle p hp
      rw [uncounted_publishing hst] at this
      cases this

/-- A publisher killed inside its second publish, and its successor inside its first. -/
theorem counters_bracket_killed : ∃ (w : World Nat) (l : Ledger Nat),
    (ledgered Nat 8).Reached anyStep (w, l) ∧
      w.seg.tally = (3, 1, 8, 2) ∧ l.log.map (fun x => (l.generation x.1, x.2.ordinal)) =
        [(1, 1), (1, 2), (2, 3)] ∧ Counters 8 w l := by
  have hrun : ((ledgered Nat 8).exec
      (List.replicate 21 (Act.pub 0 .go) ++ Act.pub 0 (.publish { value := 7 }) ::
        List.replicate 23 (Act.pub 0 .go) ++ Act.pub 0 (.publish { value := 8 }) ::
        List.replicate 2 (Act.pub 0 .go) ++ Act.die 1 :: List.replicate 23 (Act.pub 1 .go) ++
        Act.pub 1 (.publish { value := 9 }) :: List.replicate 1 (Act.pub 1 .go))
      ({ subs := fun e => { pid := e + 1 }, pubs := fun e => { pid := e + 1 } }, {})).map
        (fun q => (q.1.seg.tally, q.2.log.map fun x => (q.2.generation x.1, x.2.ordinal))) =
      some ((3, 1, 8, 2), [(1, 1), (1, 2), (2, 3)]) := by decide +kernel
  obtain ⟨⟨w, l⟩, hw, hf⟩ := Option.map_eq_some_iff.mp hrun
  simp only [Prod.mk.injEq] at hf
  have hstart : (ledgered Nat 8).Reached anyStep
      ({ subs := fun e => { pid := e + 1 }, pubs := fun e => { pid := e + 1 } }, {}) :=
    .start ⟨⟨rfl, fun _ => rfl, fun e => ⟨Nat.succ_ne_zero e, rfl, rfl⟩,
      fun e => ⟨Nat.succ_ne_zero e, rfl, rfl⟩⟩, rfl⟩
  have hr := Machine.reached_of_exec hstart hw
  refine ⟨w, l, hr, hf.1, hf.2, ?_⟩
  exact (@counters_bracket Nat 8 anyStep w l (hr.weaken fun _ _ h => h)).1

end Xmmsg.Shm
