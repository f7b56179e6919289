import Xmmsg.InProc.Queue

/-!
# Shared ownership: the last writer wins

Declared-shared publishers publish under the topic's write mutex; an exclusive one
publishes alone, and wiring never lets the two coexist. So at most one publisher is
inside `Deliver` at any moment, and the clock reading and the ordinal of a publish
are taken without another publish in between: the order of the ordinals is the
order of the stamps.

Takes bypass the mutex. What they see is a cell that only ever moves to a record
newer than all accepted before it, so what one subscriber is handed never goes back.

`Chronicle` records the publishes as the callers made them: the message passed to
`Publish` and the reading of the clock inside that call. That a record met anywhere
is one of these, value and envelope, is part of the invariant.
-/

namespace Xmmsg.InProc

open Xmmsg.Sys Xmmsg.Mail

variable {T : Type} {size : Nat}

/-! ## The record of a run -/

/-- One accepted publish: who called with what, the clock reading inside the call,
and the ordinal drawn. -/
structure Write (T : Type) where
  writer : Nat
  message : Message T
  reading : Int
  ordinal : Nat

/-- The record of that publish: the caller's value, and the envelope made of its
message and its reading. -/
def Write.record (x : Write T) : MailRecord T :=
  ({ x.message with now := x.reading }).record x.ordinal

@[simp] theorem Write.record_ordinal (x : Write T) : x.record.ordinal = x.ordinal := rfl

@[simp] theorem Write.record_stamp (x : Write T) :
    x.record.envelope.publishStampNs = x.reading := rfl

structure Chronicle (T : Type) where
  call : Nat → Option (Message T) := fun _ => none  -- the last message passed to `Publish`
  reading : Nat → Int := fun _ => 0                 -- the last clock reading inside it
  clock : Option Int := none                        -- the last reading of any publish
  writes : List (Write T) := []                     -- accepted publishes, in accepted order
  taken : Nat → List (MailRecord T) := fun _ => []  -- by subscriber

def noteShared (w : World T) (a : Act T) (_ : World T) (ch : Chronicle T) : Chronicle T :=
  match a with
  | .pub p (.publish m) => { ch with call := Function.update ch.call p (some m) }
  | .pub p (.go now) =>
      match (w.pubs p).pc with
      | .clock _ => { ch with reading := Function.update ch.reading p now, clock := some now }
      | .draw _ =>
          match ch.call p with
          | some m =>
              { ch with
                writes := ch.writes ++
                  [{ writer := p, message := m, reading := ch.reading p,
                     ordinal := w.topic.acceptedOrdinal + 1 }] }
          | none => ch
      | _ => ch
  | .sub k (.go _) =>
      match (w.subs k).pc with
      | .wired (.ret (some (r, _))) => { ch with taken := extend ch.taken k [r] }
      | _ => ch
  | _ => ch

def chronicled (T : Type) (size : Nat) : Machine (World T × Chronicle T) (Act T) :=
  (machine T size).withHistory {} noteShared

/-- The clock never goes back, as far as publishes read it. -/
def ClockForward (w : World T) (ch : Chronicle T) : Act T → Prop
  | .pub p (.go now) =>
      match (w.pubs p).pc with
      | .clock _ => ∀ t, ch.clock = some t → t ≤ now
      | _ => True
  | _ => True

/-- The subscribers in `S` attach before anything is accepted. -/
def AttachedFirst (S : Nat → Prop) (w : World T) : Act T → Prop
  | .sub k (.go _) =>
      match (w.subs k).pc with
      | .attach _ => S k → w.topic.acceptedOrdinal = 0
      | _ => True
  | _ => True

/-! ## Views -/

/-- The cell of a latest-only core. -/
def SubCore.cell (c : SubCore T) : Option (MailRecord T) :=
  match c.box with
  | .latest x => x
  | .queue _ => none

/-- Called, and the clock not read yet. -/
def PubPc.message? : PubPc T → Option (Message T)
  | .lock m | .check m _ | .probe m _ _ | .clock m => some m
  | _ => none

theorem SubCore.store_cell {c : SubCore T} (r : MailRecord T) :
    (c.store r).cell = some r ∨ (c.store r).cell = c.cell := by
  cases hb : c.box <;> simp [SubCore.store, SubCore.cell, hb]

/-- What a publisher's access does to the records. -/
inductive WriteMove (h : Topic T) (pc : PubPc T) : PubAct T → Topic T → PubPc T → Prop
  | publish {m : Message T} {pc' : PubPc T} : pc = .idle → pc'.message? = some m →
      pc'.record? = none → (∀ m, pc' ≠ .draw m) → WriteMove h pc (.publish m) h pc'
  | clock {m : Message T} {now : Int} : pc = .clock m →
      WriteMove h pc (.go now) h (.draw { m with now := now })
  | draw {m : Message T} {now : Int} : pc = .draw m →
      WriteMove h pc (.go now) { h with acceptedOrdinal := h.acceptedOrdinal + 1 }
        (.master (m.record (h.acceptedOrdinal + 1)))
  | master {r : MailRecord T} {now : Int} : pc = .master r →
      WriteMove h pc (.go now) { h with master := some r } (.visit r 0)
  | store {r : MailRecord T} {i k : Nat} {now : Int} : pc = .store r i k →
      WriteMove h pc (.go now) (h.setCore k ((h.cores k).store r)) (.visit r (i + 1))
  | quiet {a : PubAct T} {h' : Topic T} {pc' : PubPc T} : (∀ m, a ≠ .publish m) →
      (∀ m, pc ≠ .clock m) → (∀ m, pc ≠ .draw m) → (∀ r, pc ≠ .master r) →
      h'.master = h.master → h'.acceptedOrdinal = h.acceptedOrdinal →
      (∀ k, (h'.cores k).cell = (h.cores k).cell) →
      (∀ m, pc'.message? = some m → pc.message? = some m) → (∀ m, pc' ≠ .draw m) →
      (∀ r, pc' ≠ .master r) → (∀ r, pc'.record? = some r → pc.record? = some r) →
      WriteMove h pc a h' pc'

theorem deliver_message (ep : PubEp T) (m : Message T) :
    (ep.deliver m).pc.message? = some m ∧ (ep.deliver m).pc.record? = none ∧
      (∀ m', (ep.deliver m).pc ≠ .draw m') ∧ ∀ r, (ep.deliver m).pc ≠ .master r := by
  simp only [PubEp.deliver, PubEp.at'_pc]
  split <;> simp [PubPc.message?, PubPc.record?]

theorem setCore_cell (h : Topic T) (k k' : Nat) (c : SubCore T)
    (hc : c.cell = (h.cores k).cell) : ((h.setCore k c).cores k').cell = (h.cores k').cell := by
  by_cases hk : k' = k
  · rw [hk, setCore_self, hc]
  · rw [setCore_ne h c hk]

theorem pubStep_writeMove {h h' : Topic T} {p : Nat} {ep ep' : PubEp T} {a : PubAct T}
    (hs : pubStep size h p ep a = some (h', ep')) : WriteMove h ep.pc a h' ep'.pc := by
  cases a with
  | publish m =>
      cases hpc : ep.pc <;> simp only [pubStep, hpc] at hs <;> try cases hs
      split at hs
      · cases hs
        exact .publish rfl rfl rfl (by simp)
      · cases hs
        obtain ⟨h1, h2, h3, -⟩ := deliver_message ep m
        exact .publish rfl h1 h2 h3
  | advertise | destroy =>
      cases hpc : ep.pc <;> simp only [pubStep, hpc] at hs
      all_goals
        repeat' split at hs
        all_goals cases hs
        all_goals
          exact .quiet (by simp) (by simp) (by simp) (by simp) rfl rfl (fun _ => rfl)
            (fun m h0 => by cases h0) (by simp) (by simp) (fun r h0 => by cases h0)
  | go now =>
      cases hpc : ep.pc <;> simp only [pubStep, hpc] at hs
      case clock m => cases hs; exact .clock rfl
      case draw m => cases hs; exact .draw rfl
      case master r => cases hs; exact .master rfl
      case store r i k => cases hs; exact .store rfl
      case lock m =>
        split at hs
        · cases hs
          obtain ⟨h1, h2, h3, h4⟩ := deliver_message ep m
          exact .quiet (by simp) (by simp) (by simp) (by simp) rfl rfl (fun _ => rfl)
            (fun m' h0 => h1.symm.trans h0) h3 h4 (fun r h0 => by rw [h2] at h0; cases h0)
        · cases hs
      case stamp r i k =>
        split at hs
        · cases hs
          exact .quiet (by simp) (by simp) (by simp) (by simp) rfl rfl
            (fun k' => setCore_cell h k k' _ rfl) (fun m h0 => by cases h0) (by simp) (by simp)
            (fun r h0 => h0)
        · cases hs
          exact .quiet (by simp) (by simp) (by simp) (by simp) rfl rfl (fun _ => rfl)
            (fun m h0 => by cases h0) (by simp) (by simp) (fun r h0 => h0)
      case push r i k =>
        split at hs
        · next q hq =>
          split at hs
          · cases hs
            exact .quiet (by simp) (by simp) (by simp) (by simp) rfl rfl
              (fun k' => setCore_cell h k k' _ (by simp [SubCore.cell, hq]))
              (fun m h0 => by cases h0) (by simp) (by simp) (fun r h0 => h0)
          · cases hs
            exact .quiet (by simp) (by simp) (by simp) (by simp) rfl rfl (fun _ => rfl)
              (fun m h0 => by cases h0) (by simp) (by simp) (fun r h0 => h0)
        · cases hs
          exact .quiet (by simp) (by simp) (by simp) (by simp) rfl rfl (fun _ => rfl)
            (fun m h0 => by cases h0) (by simp) (by simp) (fun r h0 => h0)
      case drop r i k =>
        cases hs
        exact .quiet (by simp) (by simp) (by simp) (by simp) rfl rfl
          (fun k' => setCore_cell h k k' _ rfl) (fun m h0 => by cases h0) (by simp) (by simp)
          (fun r h0 => h0)
      case ret st =>
        cases hs
        split <;>
          exact .quiet (by simp) (by simp) (by simp) (by simp) rfl rfl (fun _ => rfl)
            (fun m h0 => by cases h0) (by simp) (by simp) (fun r h0 => by cases h0)
      all_goals
        repeat' split at hs
        all_goals cases hs
        all_goals
          exact .quiet (by simp) (by simp) (by simp) (by simp) rfl rfl (fun _ => rfl)
            (fun m h0 => by first | exact h0 | cases h0) (by simp) (by simp)
            (fun r h0 => by first | exact h0 | cases h0)

/-- What a latest-only subscriber's access does to its cell and to what it has in
hand: it loads, hands back, is still on its way in, or does neither. -/
theorem subStep_reader {h h' : Topic T} {k : Nat} {ep ep' : SubEp T} {a : SubAct}
    (hs : subStep h k ep a = some (h', ep'))
    (hlat : ep.pc.made = true → ∃ x, (h.cores k).box = .latest x) :
    (∃ r, ep.pc = .wired .load ∧ ep'.pc = .wired (.count r) ∧ (h.cores k).cell = some r ∧
        (h'.cores k).cell = some r) ∨
      (∃ r stale now, a = .go now ∧ ep.pc = .wired (.ret (some (r, stale))) ∧
        ep'.pc = .wired .idle ∧ (h'.cores k).cell = (h.cores k).cell) ∨
      (ep.pc.early = true ∧ ep'.pc.early = true ∧ (∀ r, ep'.pc = .seed r → h.master = some r) ∧
        ((h'.cores k).cell = (h.cores k).cell ∨ (h'.cores k).cell = none ∨
          ∃ r, ep.pc = .seed r ∧ (h'.cores k).cell = some r)) ∨
      ((h'.cores k).cell = (h.cores k).cell ∧ ep'.pc.inHand = ep.pc.inHand ∧
        ep'.pc.early = false ∧ ∀ r stale, ep.pc ≠ .wired (.ret (some (r, stale)))) := by
  cases a with
  | subscribe | destroy | takeLatest | tryTake =>
      simp only [subStep] at hs
      split at hs
      · next hpc _ =>
        cases hs
        first
          | exact .inr (.inr (.inl ⟨by rw [hpc]; rfl, rfl, by simp, .inl rfl⟩))
          | exact .inr (.inr (.inr ⟨rfl, by rw [hpc]; rfl, rfl, by rw [hpc]; simp⟩))
      · cases hs
  | go now =>
      cases hpc : ep.pc <;> simp only [subStep, hpc] at hs
      case unwired => cases hs
      case gone => cases hs
      case create =>
        cases hs
        refine .inr (.inr (.inl ⟨rfl, ?_, ?_, .inr (.inl ?_)⟩))
        · simp only [SubEp.at'_pc]
          split <;> rfl
        · simp only [SubEp.at'_pc]
          split <;> simp
        · simp only [setCore_self, SubCore.cell, SubCore.new]
          cases ep.qos.history <;> rfl
      case loadMaster =>
        split at hs
        · next r hm =>
          cases hs
          exact .inr (.inr (.inl ⟨rfl, rfl, fun r' h0 => by cases h0; exact hm, .inl rfl⟩))
        · cases hs
          exact .inr (.inr (.inl ⟨rfl, rfl, by simp, .inl rfl⟩))
      case seed r =>
        cases hs
        refine .inr (.inr (.inl ⟨rfl, rfl, by simp, ?_⟩))
        rw [setCore_self]
        rcases SubCore.store_cell (c := h.cores k) r with h0 | h0
        · exact .inr (.inr ⟨r, rfl, h0⟩)
        · exact .inl h0
      case scan i =>
        repeat' split at hs
        all_goals cases hs
        · exact .inr (.inr (.inl ⟨rfl, rfl, by simp, .inl rfl⟩))
        · exact .inr (.inr (.inl ⟨rfl, rfl, by simp, .inl rfl⟩))
        · exact .inr (.inr (.inr ⟨rfl, rfl, rfl, by simp⟩))
      case wired t =>
        split at hs
        · next c t' ht =>
          cases hs
          rw [hpc] at hlat
          obtain ⟨x, hx⟩ := hlat rfl
          simp only [setCore_self, SubEp.at'_pc]
          cases t with
          | idle => cases ht
          | load =>
              simp only [takeStep, hx] at ht
              cases x with
              | some r =>
                  cases ht
                  exact .inl ⟨r, rfl, rfl, by simp [SubCore.cell, hx], by simp [SubCore.cell, hx]⟩
              | none =>
                  cases ht
                  exact .inr (.inr (.inr ⟨rfl, rfl, rfl, by simp⟩))
          | pop =>
              simp only [takeStep, hx] at ht
              cases ht
              exact .inr (.inr (.inr ⟨rfl, rfl, rfl, by simp⟩))
          | count r =>
              simp only [takeStep, hx] at ht
              cases ht
              exact .inr (.inr (.inr ⟨by simp [SubCore.cell, hx], rfl, rfl, by simp⟩))
          | base r stale =>
              simp only [takeStep] at ht
              repeat' split at ht
              all_goals cases ht
              all_goals exact .inr (.inr (.inr ⟨rfl, rfl, rfl, by simp⟩))
          | charge r stale last | store r stale | latch r stale =>
              cases ht
              exact .inr (.inr (.inr ⟨rfl, rfl, rfl, by simp⟩))
          | ret x =>
              cases ht
              cases x with
              | none => exact .inr (.inr (.inr ⟨rfl, rfl, rfl, by simp⟩))
              | some rs => exact .inr (.inl ⟨rs.1, rs.2, now, rfl, rfl, rfl, rfl⟩)
        · cases hs
      all_goals
        repeat' split at hs
        all_goals cases hs
        all_goals exact .inr (.inr (.inr ⟨rfl, rfl, rfl, by simp⟩))

/-! ## The writes -/

/-- What publisher `p`, standing at `pc`, knows: its own call, the reading it made,
and that the record it carries is the newest. -/
structure Knows (ch : Chronicle T) (p : Nat) (pc : PubPc T) : Prop where
  called : ∀ m, pc.message? = some m → ch.call p = some m
  drawn : ∀ m, pc = .draw m → ∃ m0, ch.call p = some m0 ∧
    m = { m0 with now := ch.reading p } ∧ ch.clock = some (ch.reading p)
  newest : ∀ r, pc.record? = some r → ch.writes.getLast?.map Write.record = some r

/-- The publishes accepted so far. -/
structure WriteInv (w : World T) (ch : Chronicle T) : Prop where
  ordinals : ch.writes.map Write.ordinal = List.range' 1 w.topic.acceptedOrdinal
  stamps : ch.writes.Pairwise fun x y => x.reading ≤ y.reading
  clock : ∀ x ∈ ch.writes, ∃ t, ch.clock = some t ∧ x.reading ≤ t
  knows : ∀ p, Knows ch p (w.pubs p).pc
  master : (∀ p r, (w.pubs p).pc ≠ .master r) →
    w.topic.master = ch.writes.getLast?.map Write.record
  held : ∀ r, w.topic.master = some r → r ∈ ch.writes.map Write.record

variable {w w' : World T} {ch ch' : Chronicle T} {p k : Nat}

theorem WriteInv.le_accepted (hi : WriteInv w ch) {r : MailRecord T}
    (hr : r ∈ ch.writes.map Write.record) : r.ordinal ≤ w.topic.acceptedOrdinal := by
  obtain ⟨x, hx, rfl⟩ := List.mem_map.mp hr
  have : x.ordinal ∈ List.range' 1 w.topic.acceptedOrdinal := by
    rw [← hi.ordinals]
    exact List.mem_map_of_mem hx
  rw [List.mem_range'_1] at this
  rw [Write.record_ordinal]
  omega

theorem getLast?_ordinal {writes : List (Write T)} {n : Nat} {x : Write T}
    (ho : writes.map Write.ordinal = List.range' 1 n) (hx : writes.getLast? = some x) :
    x.ordinal = n := by
  have h1 : (writes.map Write.ordinal).getLast? = some x.ordinal := by
    rw [List.getLast?_map, hx]
    rfl
  rw [ho] at h1
  cases n with
  | zero => simp at h1
  | succ n =>
      rw [List.range'_1_concat, List.getLast?_append] at h1
      simp at h1
      omega

theorem WriteInv.newest_mem (hi : WriteInv w ch) {r : MailRecord T}
    (hr : (w.pubs p).pc.record? = some r) :
    r ∈ ch.writes.map Write.record ∧ r.ordinal = w.topic.acceptedOrdinal := by
  obtain ⟨x, hx, rfl⟩ := Option.map_eq_some_iff.mp ((hi.knows p).newest r hr)
  exact ⟨List.mem_map_of_mem (List.mem_of_getLast? hx), getLast?_ordinal hi.ordinals hx⟩

theorem PubPc.delivering_of_record {pc : PubPc T} {r : MailRecord T}
    (h : pc.record? = some r) : pc.delivering = true := by
  cases pc <;> first | rfl | cases h

theorem knows_put {h' : Topic T} {ep' : PubEp T} (hother : ∀ q, q ≠ p → Knows ch q (w.pubs q).pc)
    (hself : Knows ch p ep'.pc) (q : Nat) : Knows ch q ((w.putPub p h' ep').pubs q).pc := by
  by_cases hq : q = p
  · rw [hq, World.putPub_self]
    exact hself
  · rw [World.putPub_ne _ _ _ _ hq]
    exact hother q hq

theorem no_master_put {h' : Topic T} {ep' : PubEp T} (hp : ∀ r, (w.pubs p).pc ≠ .master r)
    (h : ∀ q r, ((w.putPub p h' ep').pubs q).pc ≠ .master r) (q : Nat) (r : MailRecord T) :
    (w.pubs q).pc ≠ .master r := by
  by_cases hq : q = p
  · rw [hq]
    exact hp r
  · have := h q r
    rwa [World.putPub_ne _ _ _ _ hq] at this

/-- A publisher's step keeps the writes in order. -/
theorem writeInv_pub {a : PubAct T} {h' : Topic T} {ep' : PubEp T} (hi : WriteInv w ch)
    (hser : PubInv w) (hfwd : ClockForward w ch (.pub p a))
    (hs : pubStep size w.topic p (w.pubs p) a = some (h', ep')) (w' : World T) :
    WriteInv (w.putPub p h' ep') (noteShared w (.pub p a) w' ch) := by
  -- while one publisher is inside `Deliver`, no other is
  have halone : (w.pubs p).pc.delivering = true → ∀ q, q ≠ p →
      (w.pubs q).pc.delivering = false := by
    intro hd q hne
    cases hq : (w.pubs q).pc.delivering with
    | false => rfl
    | true => exact absurd (hser.serialized hq hd) hne
  have hmove := pubStep_writeMove hs
  generalize hpc' : ep'.pc = pc' at hmove
  generalize hpc : (w.pubs p).pc = pc at hmove
  have hold := hi.knows p
  rw [hpc] at hold
  cases hmove with
  | publish hidle hm hr hd =>
      rename_i m
      have hnote : noteShared w (.pub p (.publish m)) w' ch =
          { ch with call := Function.update ch.call p (some m) } := rfl
      rw [hnote]
      refine ⟨hi.ordinals, hi.stamps, hi.clock, knows_put (fun q hq => ?_) ?_, fun hno => ?_,
        hi.held⟩
      · have hk := hi.knows q
        exact ⟨fun m' h0 => by simpa [hq] using hk.called m' h0,
          fun m' h0 => by simpa [hq] using hk.drawn m' h0, hk.newest⟩
      · rw [hpc']
        exact ⟨fun m' h0 => by simpa [hm] using h0, fun m' h0 => absurd h0 (hd m'),
          fun r h0 => by rw [hr] at h0; cases h0⟩
      · refine hi.master (no_master_put (fun r => ?_) hno)
        rw [hpc, hidle]
        simp
  | clock hat =>
      rename_i m now
      subst hat
      simp only [ClockForward, hpc] at hfwd
      have hothers := halone (by rw [hpc]; rfl)
      have hnote : noteShared w (.pub p (.go now)) w' ch =
          { ch with reading := Function.update ch.reading p now, clock := some now } := by
        simp only [noteShared, hpc]
      rw [hnote]
      refine ⟨hi.ordinals, hi.stamps, fun x hx => ?_, knows_put (fun q hq => ?_) ?_, fun hno => ?_,
        hi.held⟩
      · obtain ⟨t, ht, hle⟩ := hi.clock x hx
        exact ⟨now, rfl, hle.trans (hfwd t ht)⟩
      · have hk := hi.knows q
        refine ⟨hk.called, fun m' h0 => ?_, hk.newest⟩
        have := hothers q hq
        rw [h0] at this
        cases this
      · rw [hpc']
        refine ⟨by simp [PubPc.message?], fun m' h0 => ?_, by simp [PubPc.record?]⟩
        cases h0
        exact ⟨m, hold.called m rfl, by simp, by simp⟩
      · refine hi.master (no_master_put (fun r => ?_) hno)
        rw [hpc]
        simp
  | draw hat =>
      rename_i m now
      subst hat
      have hothers := halone (by rw [hpc]; rfl)
      obtain ⟨m0, hcall, hm, hclock⟩ := hold.drawn m rfl
      let x : Write T :=
        { writer := p, message := m0, reading := ch.reading p,
          ordinal := w.topic.acceptedOrdinal + 1 }
      have hxr : x.record = m.record (w.topic.acceptedOrdinal + 1) := by rw [hm]; rfl
      have hnote : noteShared w (.pub p (.go now)) w' ch =
          { ch with writes := ch.writes ++ [x] } := by
        simp only [noteShared, hpc, hcall]
        rfl
      rw [hnote]
      refine ⟨?_, ?_, fun y hy => ?_, knows_put (fun q hq => ?_) ?_, fun hno => ?_, fun r hr => ?_⟩
      · simp [hi.ordinals, List.range'_1_concat, x, Nat.add_comm]
      · refine List.pairwise_append.mpr ⟨hi.stamps, List.pairwise_singleton _ _, ?_⟩
        intro y hy z hz
        rw [List.mem_singleton.mp hz]
        obtain ⟨t, ht, hle⟩ := hi.clock y hy
        rw [hclock] at ht
        cases ht
        exact hle
      · rcases List.mem_append.mp hy with hy | hy
        · exact hi.clock y hy
        · rw [List.mem_singleton.mp hy]
          exact ⟨ch.reading p, hclock, Int.le_refl _⟩
      · have hk := hi.knows q
        refine ⟨hk.called, hk.drawn, fun r h0 => ?_⟩
        have := hothers q hq
        rw [PubPc.delivering_of_record h0] at this
        cases this
      · rw [hpc']
        refine ⟨by simp [PubPc.message?], by simp, fun r h0 => ?_⟩
        cases h0
        simp [hxr]
      · have := hno p (m.record (w.topic.acceptedOrdinal + 1))
        rw [World.putPub_self] at this
        exact absurd hpc' this
      · simp only [List.map_append, List.mem_append]
        exact .inl (hi.held r hr)
  | master hat =>
      rename_i r now
      subst hat
      have hlast := hold.newest r rfl
      have hnote : noteShared w (.pub p (.go now)) w' ch = ch := by simp only [noteShared, hpc]
      rw [hnote]
      refine ⟨hi.ordinals, hi.stamps, hi.clock, knows_put (fun q _ => hi.knows q) ?_,
        fun _ => hlast.symm, fun r' hr' => ?_⟩
      · rw [hpc']
        exact ⟨by simp [PubPc.message?], by simp, hold.newest⟩
      · cases hr'
        exact (hi.newest_mem (p := p) (by rw [hpc]; rfl)).1
  | store hat =>
      rename_i r i k now
      subst hat
      have hnote : noteShared w (.pub p (.go now)) w' ch = ch := by simp only [noteShared, hpc]
      rw [hnote]
      refine ⟨hi.ordinals, hi.stamps, hi.clock, knows_put (fun q _ => hi.knows q) ?_,
        fun hno => ?_, hi.held⟩
      · rw [hpc']
        exact ⟨by simp [PubPc.message?], by simp, hold.newest⟩
      · refine hi.master (no_master_put (fun r => ?_) hno)
        rw [hpc]
        simp
  | quiet hna hnc hnd hnm hmas hacc hcell hmsg hnd' hnm' hrec =>
      have hnote : noteShared w (.pub p a) w' ch = ch := by
        cases a with
        | publish m => exact absurd rfl (hna m)
        | go now => simp only [noteShared, hpc]
        | _ => rfl
      rw [hnote]
      refine ⟨by simpa [hacc] using hi.ordinals, hi.stamps, hi.clock,
        knows_put (fun q _ => hi.knows q) ?_, fun hno => ?_, fun r hr => ?_⟩
      · rw [hpc']
        exact ⟨fun m h0 => hold.called m (hmsg m h0), fun m h0 => absurd h0 (hnd' m),
          fun r h0 => hold.newest r (hrec r h0)⟩
      · show h'.master = _
        rw [hmas]
        exact hi.master (no_master_put (fun r => by rw [hpc]; exact hnm r) hno)
      · exact hi.held r (by rw [← hmas]; exact hr)

/-- A subscriber's step leaves the writes alone. -/
theorem noteShared_sub (w w' : World T) (k : Nat) (a : SubAct) (ch : Chronicle T) :
    (noteShared w (.sub k a) w' ch).call = ch.call ∧
      (noteShared w (.sub k a) w' ch).reading = ch.reading ∧
      (noteShared w (.sub k a) w' ch).clock = ch.clock ∧
      (noteShared w (.sub k a) w' ch).writes = ch.writes ∧
      ∀ k', k' ≠ k → (noteShared w (.sub k a) w' ch).taken k' = ch.taken k' := by
  cases a with
  | go now =>
      simp only [noteShared]
      split
      · exact ⟨rfl, rfl, rfl, rfl, fun k' hk => extend_ne _ _ hk⟩
      · exact ⟨rfl, rfl, rfl, rfl, fun _ _ => rfl⟩
  | _ => exact ⟨rfl, rfl, rfl, rfl, fun _ _ => rfl⟩

theorem writeInv_sub {a : SubAct} {h' : Topic T} {ep' : SubEp T} (hi : WriteInv w ch)
    (hs : subStep w.topic k (w.subs k) a = some (h', ep')) (w' : World T) :
    WriteInv (w.putSub k h' ep') (noteShared w (.sub k a) w' ch) := by
  obtain ⟨hcall, hread, hclk, hwr, -⟩ := noteShared_sub w w' k a ch
  obtain ⟨hmas, hacc, -⟩ := subStep_others hs
  refine ⟨?_, ?_, ?_, fun q => ⟨?_, ?_, ?_⟩, ?_, ?_⟩
  · rw [hwr, World.putSub_topic, hacc]
    exact hi.ordinals
  · rw [hwr]
    exact hi.stamps
  · rw [hwr, hclk]
    exact hi.clock
  · rw [hcall]
    exact (hi.knows q).called
  · rw [hcall, hread, hclk]
    exact (hi.knows q).drawn
  · rw [hwr]
    exact (hi.knows q).newest
  · rw [hwr, World.putSub_topic, hmas]
    exact hi.master
  · rw [hwr, World.putSub_topic, hmas]
    exact hi.held

/-! ## The readers -/

/-- Everything a latest-only subscriber meets is an accepted publish, and what it was
handed, has in hand and finds in its cell come in accepted order. -/
structure SharedReader (w : World T) (ch : Chronicle T) (k : Nat) : Prop where
  seed : ∀ r, (w.subs k).pc = .seed r → r ∈ ch.writes.map Write.record
  seen : ∀ r ∈ ch.taken k ++ (w.subs k).pc.inHand ++ (w.topic.cores k).cell.toList,
    r ∈ ch.writes.map Write.record
  early : (w.subs k).pc.early = true → ch.taken k = []
  sorted : (w.subs k).pc.early = false →
    (ch.taken k ++ (w.subs k).pc.inHand ++ (w.topic.cores k).cell.toList).Pairwise
      fun r s => r.ordinal ≤ s.ordinal

theorem SubPc.inHand_early {pc : SubPc T} (h : pc.early = true) : pc.inHand = [] := by
  cases pc <;> first | rfl | cases h

/-- The writes only grow. -/
theorem writes_grow {a : PubAct T} {r : MailRecord T} (w' : World T)
    (hr : r ∈ ch.writes.map Write.record) :
    r ∈ (noteShared w (.pub p a) w' ch).writes.map Write.record := by
  cases a with
  | go now =>
      simp only [noteShared]
      split
      · exact hr
      · split
        · simp only [List.map_append, List.mem_append]
          exact .inl hr
        · exact hr
      · exact hr
  | _ => exact hr

theorem noteShared_pub_taken (w w' : World T) (p : Nat) (a : PubAct T) (ch : Chronicle T) :
    (noteShared w (.pub p a) w' ch).taken = ch.taken := by
  cases a with
  | go now =>
      simp only [noteShared]
      split
      · rfl
      · split <;> rfl
      · rfl
  | _ => rfl

/-- Putting the newest record at the end keeps the order. -/
theorem pairwise_newest {l : List (MailRecord T)} {r : MailRecord T}
    (h : l.Pairwise fun r s => r.ordinal ≤ s.ordinal) (hle : ∀ s ∈ l, s.ordinal ≤ r.ordinal) :
    (l ++ [r]).Pairwise fun r s => r.ordinal ≤ s.ordinal := by
  refine List.pairwise_append.mpr ⟨h, List.pairwise_singleton _ _, ?_⟩
  intro s hs t ht
  rw [List.mem_singleton.mp ht]
  exact hle s hs

theorem sharedReader_pub {a : PubAct T} {h' : Topic T} {ep' : PubEp T} (hi : WriteInv w ch)
    (hk : SharedReader w ch k) (hs : pubStep size w.topic p (w.pubs p) a = some (h', ep'))
    (w' : World T) : SharedReader (w.putPub p h' ep') (noteShared w (.pub p a) w' ch) k := by
  have hcell : (h'.cores k).cell = (w.topic.cores k).cell ∨
      ∃ r, (w.pubs p).pc.record? = some r ∧ (h'.cores k).cell = some r := by
    have hmove := pubStep_writeMove hs
    generalize (w.pubs p).pc = pc at hmove
    generalize ep'.pc = pc' at hmove
    cases hmove with
    | publish | clock | draw | master => exact .inl rfl
    | quiet hna hnc hnd hnm hmas hacc hcell => exact .inl (hcell k)
    | store hat =>
        rename_i r i x now
        subst hat
        by_cases hx : k = x
        · subst hx
          rw [setCore_self]
          rcases SubCore.store_cell (c := w.topic.cores k) r with h0 | h0
          · exact .inr ⟨r, rfl, h0⟩
          · exact .inl h0
        · left
          rw [setCore_ne _ _ hx]
  have htk : (noteShared w (.pub p a) w' ch).taken k = ch.taken k := by
    rw [noteShared_pub_taken]
  rcases hcell with hcell | ⟨r, hrec, hcell⟩
  · refine ⟨fun r hr => writes_grow w' (hk.seed r hr), fun r hr => ?_, fun he => ?_, fun he => ?_⟩
    · rw [htk, World.putPub_subs, World.putPub_topic, hcell] at hr
      exact writes_grow w' (hk.seen r hr)
    · rw [htk]
      exact hk.early he
    · rw [htk, World.putPub_subs, World.putPub_topic, hcell]
      exact hk.sorted he
  · obtain ⟨hmem, hord⟩ := hi.newest_mem hrec
    refine ⟨fun r hr => writes_grow w' (hk.seed r hr), fun s hs => ?_, fun he => ?_, fun he => ?_⟩
    · rw [htk, World.putPub_subs, World.putPub_topic, hcell] at hs
      refine writes_grow w' ?_
      rcases List.mem_append.mp hs with hs | hs
      · exact hk.seen s (List.mem_append_left _ hs)
      · rw [List.mem_singleton.mp hs]
        exact hmem
    · rw [htk]
      exact hk.early he
    · rw [htk, World.putPub_subs, World.putPub_topic, hcell]
      refine pairwise_newest (List.pairwise_append.mp (hk.sorted he)).1 fun s hs => ?_
      rw [hord]
      exact hi.le_accepted (hk.seen s (List.mem_append_left _ hs))

theorem sharedReader_other {a : SubAct} {k' : Nat} {h' : Topic T} {ep' : SubEp T}
    (hk : SharedReader w ch k) (hne : k ≠ k')
    (hs : subStep w.topic k' (w.subs k') a = some (h', ep')) (w' : World T) :
    SharedReader (w.putSub k' h' ep') (noteShared w (.sub k' a) w' ch) k := by
  obtain ⟨-, -, -, hwr, htk⟩ := noteShared_sub w w' k' a ch
  obtain ⟨-, -, hcores⟩ := subStep_others hs
  have hsub : (w.putSub k' h' ep').subs k = w.subs k := World.putSub_ne _ _ _ _ hne
  have hcore : (w.putSub k' h' ep').topic.cores k = w.topic.cores k := hcores k hne
  refine ⟨?_, ?_, ?_, ?_⟩
  · rw [hsub, hwr]
    exact hk.seed
  · rw [hsub, hwr, hcore, htk k hne]
    exact hk.seen
  · rw [hsub, htk k hne]
    exact hk.early
  · rw [hsub, hcore, htk k hne]
    exact hk.sorted

theorem noteShared_still {a : SubAct} (w' : World T)
    (h : ∀ r stale, (w.subs k).pc ≠ .wired (.ret (some (r, stale)))) :
    noteShared w (.sub k a) w' ch = ch := by
  cases a with
  | go now => simp only [noteShared]
  | _ => rfl

theorem sharedReader_own {a : SubAct} {h' : Topic T} {ep' : SubEp T} (hi : WriteInv w ch)
    (hk : SharedReader w ch k) (hcore : CoreInv w)
    (hlat : (w.subs k).qos.history.isLatest = true)
    (hs : subStep w.topic k (w.subs k) a = some (h', ep')) (w' : World T) :
    SharedReader (w.putSub k h' ep') (noteShared w (.sub k a) w' ch) k := by
  obtain ⟨-, -, -, hwr, -⟩ := noteShared_sub w w' k a ch
  have hreader := subStep_reader hs fun hm => (hcore.fits k hm).latest hlat
  have hself : (w.putSub k h' ep').subs k = ep' := World.putSub_self _ _ _ _
  have hold := hk.sorted
  have hseen := hk.seen
  rcases hreader with ⟨r, hpc, hpc', hcell, hcell'⟩ | ⟨r, stale, now, rfl, hpc, hpc', hcell⟩ |
    ⟨he, he', hseed, hcell⟩ | ⟨hcell, hhand, he', hnr⟩
  · -- the load: the cell's record is now in hand as well
    rw [hpc, hcell] at hold hseen
    simp only [SubPc.inHand, TakePc.inHand, List.append_nil, Option.toList_some] at hold hseen
    have hstill : noteShared w (.sub k a) w' ch = ch := noteShared_still w' (by rw [hpc]; simp)
    rw [hstill]
    refine ⟨fun x hx => ?_, ?_, fun he => ?_, fun _ => ?_⟩
    · rw [hself, hpc'] at hx
      cases hx
    · rw [hself, hpc', World.putSub_topic, hcell']
      intro x hx
      simp only [SubPc.inHand, TakePc.inHand, Option.toList_some, List.append_assoc,
        List.mem_append, List.mem_singleton] at hx
      refine hseen x (List.mem_append.mpr ?_)
      rcases hx with hx | hx | hx
      · exact .inl hx
      · exact .inr (List.mem_singleton.mpr hx)
      · exact .inr (List.mem_singleton.mpr hx)
    · rw [hself, hpc'] at he
      cases he
    · rw [hself, hpc', World.putSub_topic, hcell']
      refine pairwise_newest (by simpa [SubPc.inHand, TakePc.inHand] using hold rfl) ?_
      intro x hx
      simp only [SubPc.inHand, TakePc.inHand, List.mem_append, List.mem_singleton] at hx
      rcases hx with hx | hx
      · exact (List.pairwise_append.mp (hold rfl)).2.2 x hx r (by simp)
      · rw [hx]
  · -- the sample leaves the take's hands for the caller's
    have hnote : noteShared w (.sub k (.go now)) w' ch =
        { ch with taken := extend ch.taken k [r] } := by
      simp only [noteShared, hpc]
    rw [hpc] at hold hseen
    rw [hnote]
    refine ⟨fun x hx => ?_, ?_, fun he => ?_, fun _ => ?_⟩
    · rw [hself, hpc'] at hx
      cases hx
    · rw [hself, hpc', World.putSub_topic, hcell]
      simpa [SubPc.inHand, TakePc.inHand] using hseen
    · rw [hself, hpc'] at he
      cases he
    · rw [hself, hpc', World.putSub_topic, hcell]
      simpa [SubPc.inHand, TakePc.inHand] using hold rfl
  · have hstill : noteShared w (.sub k a) w' ch = ch := by
      refine noteShared_still w' ?_
      intro r stale h0
      rw [h0] at he
      cases he
    rw [hstill]
    refine ⟨fun x hx => ?_, fun x hx => ?_, fun _ => hk.early he, fun h0 => ?_⟩
    · rw [hself] at hx
      exact hi.held x (hseed x hx)
    · rw [hself, World.putSub_topic, hk.early he, SubPc.inHand_early he'] at hx
      simp only [List.nil_append, Option.mem_toList] at hx
      rcases hcell with h0 | h0 | ⟨r, hr, h0⟩
      · rw [h0] at hx
        exact hseen x (List.mem_append_right _ (Option.mem_toList.mpr hx))
      · rw [h0] at hx
        cases hx
      · rw [h0] at hx
        cases hx
        exact hk.seed _ hr
    · rw [hself, he'] at h0
      cases h0
  · have hstill : noteShared w (.sub k a) w' ch = ch := noteShared_still w' hnr
    rw [hstill]
    refine ⟨fun x hx => ?_, ?_, fun h0 => ?_, fun _ => ?_⟩
    · rw [hself] at hx
      rw [hx] at he'
      cases he'
    · rw [hself, World.putSub_topic, hcell, hhand]
      exact hseen
    · rw [hself, he'] at h0
      cases h0
    · rw [hself, World.putSub_topic, hcell, hhand]
      cases he : (w.subs k).pc.early with
      | false => exact hold he
      | true =>
          rw [hk.early he, SubPc.inHand_early he]
          cases (w.topic.cores k).cell <;> simp

/-! ## Last writer wins -/

structure SharedInv (w : World T) (ch : Chronicle T) : Prop where
  writes : WriteInv w ch
  readers : ∀ k, (w.subs k).qos.history.isLatest = true → SharedReader w ch k

theorem sharedInv_reached (ok : World T → Chronicle T → Act T → Prop)
    (hfwd : ∀ w ch a, ok w ch a → ClockForward w ch a)
    (h : (chronicled T size).Reached (fun q a => ok q.1 q.2 a) (w, ch)) : SharedInv w ch := by
  refine Machine.Reached.invariant (P := fun q : World T × Chronicle T => SharedInv q.1 q.2)
    ?_ ?_ h
  · rintro ⟨w, ch⟩ ⟨⟨ht, hsub, hpub⟩, rfl⟩
    simp only at ht hsub hpub
    refine ⟨⟨by simp [ht], .nil, by simp, fun p => ?_, fun _ => by simp [ht], by simp [ht]⟩,
      fun k _ => ⟨by simp [hsub], ?_, fun _ => rfl, by simp [hsub, SubPc.early]⟩⟩
    · rw [(hpub p).1]
      exact ⟨by simp [PubPc.message?], by simp, by simp [PubPc.record?]⟩
    · simp [ht, hsub, SubPc.inHand, SubCore.cell, SubCore.new]
  · rintro ⟨w, ch⟩ a ⟨w', ch'⟩ hr hi hok hstep
    have hplain : (machine T size).Reached anyStep w :=
      Machine.reached_any (hr.weaken fun _ _ _ => trivial)
    obtain ⟨hs, htr⟩ := Machine.withHistory_step hstep
    clear hstep
    simp only at hs htr hi hok ⊢
    subst htr
    rcases step_cases hs with ⟨k, b, h', ep', rfl, hst, rfl⟩ | ⟨p, b, h', ep', rfl, hst, rfl⟩
    · have hqos := (subStep_wireMove hst).2
      refine ⟨writeInv_sub hi.writes hst _, fun k' hlat => ?_⟩
      by_cases hk : k' = k
      · subst hk
        rw [World.putSub_self, hqos] at hlat
        exact sharedReader_own hi.writes (hi.readers k' hlat) (coreInv_reached hplain) hlat hst _
      · rw [World.putSub_ne _ _ _ _ hk] at hlat
        exact sharedReader_other (hi.readers k' hlat) hk hst _
    · exact ⟨writeInv_pub hi.writes (pubInv_reached hplain) (hfwd w ch _ hok) hst _,
        fun k hlat => sharedReader_pub hi.writes (hi.readers k hlat) hst _⟩

/-- The ordinals tell the publishes apart. -/
theorem WriteInv.unique (hi : WriteInv w ch) {x y : Write T} (hx : x ∈ ch.writes)
    (hy : y ∈ ch.writes) (h : x.ordinal = y.ordinal) : x = y := by
  refine List.inj_on_of_nodup_map (f := Write.ordinal) ?_ hx hy h
  rw [hi.ordinals]
  exact List.nodup_range'

theorem WriteInv.ordinal_le (hi : WriteInv w ch) {x y : Write T} (hx : x ∈ ch.writes)
    (hy : y ∈ ch.writes) (h : x.ordinal ≤ y.ordinal) : x.reading ≤ y.reading := by
  obtain ⟨i, hi', rfl⟩ := List.mem_iff_getElem.mp hx
  obtain ⟨j, hj, rfl⟩ := List.mem_iff_getElem.mp hy
  have hord : ∀ n (hn : n < ch.writes.length), ch.writes[n].ordinal = 1 + n := by
    intro n hn
    have := congrArg (·[n]?) hi.ordinals
    simp only [List.getElem?_map, List.getElem?_eq_getElem hn, Option.map_some] at this
    have hlen : ch.writes.length = w.topic.acceptedOrdinal := by
      simpa using congrArg List.length hi.ordinals
    rw [List.getElem?_range' (by omega)] at this
    simpa using this
  rw [hord i hi', hord j hj] at h
  rcases Nat.lt_or_ge i j with hlt | hge
  · exact List.pairwise_iff_getElem.mp hi.stamps i j hi' hj hlt
  · obtain rfl : i = j := by omega
    exact Int.le_refl _

/-- What shared ownership gives, with `S` the subscribers that attached first. -/
structure LastWriterWins (S : Nat → Prop) (w : World T) (ch : Chronicle T) : Prop where
  ordinals : ch.writes.map Write.ordinal = List.range' 1 w.topic.acceptedOrdinal
  stamps : ch.writes.Pairwise fun x y =>
    x.record.envelope.publishStampNs ≤ y.record.envelope.publishStampNs
  takes : ∀ k, (w.subs k).qos.history.isLatest = true →
    (ch.taken k).Pairwise fun r s =>
      r.envelope.publishStampNs ≤ s.envelope.publishStampNs ∧ r.ordinal ≤ s.ordinal
  genuine : ∀ k, (w.subs k).qos.history.isLatest = true → ∀ r ∈ ch.taken k,
    ∃ x ∈ ch.writes, r = x.record ∧ ∀ y ∈ ch.writes, y.ordinal = r.ordinal → y = x
  settled : (∀ p, (w.pubs p).pc.airborne = false) → ∀ x, ch.writes.getLast? = some x →
    w.topic.master = some x.record ∧
    (∀ k i, S k → (w.subs k).qos.history.isLatest = true → w.topic.subSlots i = some k →
      (w.topic.cores k).box = .latest (some x.record)) ∧
    ∀ y ∈ ch.writes, y.ordinal ≤ x.ordinal ∧
      y.record.envelope.publishStampNs ≤ x.record.envelope.publishStampNs

theorem SharedReader.takes (hi : WriteInv w ch) (hk : SharedReader w ch k) :
    (ch.taken k).Pairwise fun r s =>
      r.envelope.publishStampNs ≤ s.envelope.publishStampNs ∧ r.ordinal ≤ s.ordinal := by
  have hsorted : (ch.taken k).Pairwise fun r s => r.ordinal ≤ s.ordinal := by
    cases he : (w.subs k).pc.early with
    | true =>
        rw [hk.early he]
        exact .nil
    | false => exact (List.pairwise_append.mp (List.pairwise_append.mp (hk.sorted he)).1).1
  refine hsorted.imp_of_mem fun {r s} hr hs hle => ?_
  obtain ⟨x, hx, rfl⟩ := List.mem_map.mp (hk.seen r (by simp [hr]))
  obtain ⟨y, hy, rfl⟩ := List.mem_map.mp (hk.seen s (by simp [hs]))
  exact ⟨hi.ordinal_le hx hy hle, hle⟩

/-- Publishers over, a mailbox that attached first holds the newest record. -/
theorem settled_mailbox {S : Nat → Prop} {i : Nat} {x : Write T}
    (h : (machine T size).Reached (AttachedFirst S) w) (hi : SharedInv w ch)
    (hquiet : ∀ p, (w.pubs p).pc.airborne = false) (hx : ch.writes.getLast? = some x) (hS : S k)
    (hlat : (w.subs k).qos.history.isLatest = true) (hslot : w.topic.subSlots i = some k) :
    (w.topic.cores k).box = .latest (some x.record) := by
  obtain ⟨tr, htr⟩ := h.recorded ({} : Trace T) note
  have hlast := getLast?_ordinal hi.writes.ordinals hx
  have hmem := List.mem_of_getLast? hx
  have hpos : 0 < w.topic.acceptedOrdinal := by
    have : x.ordinal ∈ List.range' 1 w.topic.acceptedOrdinal := by
      rw [← hi.writes.ordinals]
      exact List.mem_map_of_mem hmem
    rw [List.mem_range'_1] at this
    omega
  have hjoin : ∀ (w : World T) now, AttachedFirst S w (.sub k (.go now)) →
      JoinDiscipline k w (.sub k (.go now)) := by
    intro w now h0
    simp only [AttachedFirst, JoinDiscipline] at h0 ⊢
    cases hpc : (w.subs k).pc with
    | attach i =>
        rw [hpc] at h0
        exact fun _ _ => .inl (h0 hS)
    | _ => exact fun _ => trivial
  obtain ⟨r, hbox, hord, -⟩ := current_of_joined hjoin htr hlat hslot hquiet hpos
  have hseen := (hi.readers k hlat).seen r (by simp [SubCore.cell, hbox])
  obtain ⟨y, hy, rfl⟩ := List.mem_map.mp hseen
  rw [hbox, hi.writes.unique hy hmem (hord.trans hlast.symm)]

theorem last_writer_wins {S : Nat → Prop} {w : World T} {ch : Chronicle T}
    (h : (chronicled T size).Reached
      (fun q a => ClockForward q.1 q.2 a ∧ AttachedFirst S q.1 a) (w, ch)) :
    LastWriterWins S w ch := by
  have hi : SharedInv w ch :=
    sharedInv_reached (fun w ch a => ClockForward w ch a ∧ AttachedFirst S w a)
      (fun _ _ _ h0 => h0.1) h
  have hplain : (machine T size).Reached (AttachedFirst S) w :=
    Machine.reached_fst (h.weaken fun _ _ h0 => h0.2)
  refine ⟨hi.writes.ordinals, hi.writes.stamps, fun k hlat => (hi.readers k hlat).takes hi.writes,
    fun k hlat r hr => ?_, fun hquiet x hx => ⟨?_, fun k i hS hlat hslot =>
      settled_mailbox hplain hi hquiet hx hS hlat hslot, fun y hy => ?_⟩⟩
  · obtain ⟨x, hx, rfl⟩ := List.mem_map.mp ((hi.readers k hlat).seen r (by simp [hr]))
    exact ⟨x, hx, rfl, fun y hy hord => hi.writes.unique hy hx hord⟩
  · have hm := hi.writes.master fun p r hp => by
      have := hquiet p
      rw [hp] at this
      cases this
    rw [hm, hx]
    rfl
  · have hlast := getLast?_ordinal hi.writes.ordinals hx
    have hle : y.ordinal ≤ x.ordinal := by
      rw [hlast]
      exact hi.writes.le_accepted (List.mem_map_of_mem hy)
    exact ⟨hle, hi.writes.ordinal_le hy (List.mem_of_getLast? hx) hle⟩

/-! ## A run -/

/-- A decidable form of both disciplines, for every subscriber. -/
def sharedCheck (q : World Nat × Chronicle Nat) : Act Nat → Bool
  | .pub p (.go now) =>
      match (q.1.pubs p).pc with
      | .clock _ => q.2.clock.all fun t => decide (t ≤ now)
      | _ => true
  | .sub k (.go _) =>
      match (q.1.subs k).pc with
      | .attach _ => decide (q.1.topic.acceptedOrdinal = 0)
      | _ => true
  | _ => true

theorem sharedCheck_sound (q : World Nat × Chronicle Nat) (a : Act Nat)
    (h : sharedCheck q a = true) :
    ClockForward q.1 q.2 a ∧ AttachedFirst (fun _ => True) q.1 a := by
  cases a with
  | pub p b =>
      refine ⟨?_, trivial⟩
      cases b with
      | go now =>
          simp only [ClockForward, sharedCheck] at h ⊢
          split
          · next m hpc =>
              intro t ht
              simpa [hpc, ht] using h
          · trivial
      | _ => trivial
  | sub k b =>
      refine ⟨trivial, ?_⟩
      cases b with
      | go now =>
          simp only [AttachedFirst, sharedCheck] at h ⊢
          split
          · next i hpc =>
              intro _
              simpa [hpc] using h
          · trivial
      | _ => trivial

/-- Latest-only subscribers and declared-shared publishers. -/
def sharedTopic : World Nat where
  subs _ := {}
  pubs _ := { qos := { ownership := .shared } }

/-- Both publishers have called; the second gets the mutex first, and a take of the
subscriber falls between the two deliveries. -/
theorem last_writer_wins_two : ∃ (w : World Nat) (ch : Chronicle Nat),
    (chronicled Nat 8).Reached
      (fun q a => ClockForward q.1 q.2 a ∧ AttachedFirst (fun _ => True) q.1 a) (w, ch) ∧
      ch.writes.map (fun x => (x.writer, x.message.value, x.reading, x.ordinal)) =
        [(1, 20, 5, 1), (0, 10, 5, 2)] ∧
      (ch.taken 0).map (fun r => (r.payload, r.ordinal)) = [(20, 1)] ∧
      LastWriterWins (fun _ => True) w ch := by
  have hrun : ((chronicled Nat 8).execOk sharedCheck
      (Act.sub 0 .subscribe :: List.replicate 6 (Act.sub 0 (.go 0)) ++
        [Act.pub 0 .advertise, Act.pub 1 .advertise, Act.pub 0 (.publish { value := 10 }),
          Act.pub 1 (.publish { value := 20 })] ++ List.replicate 75 (Act.pub 1 (.go 5)) ++
        Act.sub 0 .takeLatest :: List.replicate 7 (Act.sub 0 (.go 5)) ++
        List.replicate 74 (Act.pub 0 (.go 5))) (sharedTopic, {})).map
        (fun q => (q.2.writes.map (fun x => (x.writer, x.message.value, x.reading, x.ordinal)),
          (q.2.taken 0).map (fun r => (r.payload, r.ordinal)))) =
      some ([(1, 20, 5, 1), (0, 10, 5, 2)], [(20, 1)]) := by decide +kernel
  obtain ⟨⟨w, ch⟩, hw, hf⟩ := Option.map_eq_some_iff.mp hrun
  simp only [Prod.mk.injEq] at hf
  have hr := Machine.reached_of_execOk (M := chronicled Nat 8) (J := fun _ => True)
    (fun q a _ => sharedCheck_sound q a) (fun _ _ _ _ _ _ => trivial) trivial
    (.start ⟨⟨rfl, fun _ => rfl, fun _ => ⟨rfl, rfl, rfl, rfl⟩⟩, rfl⟩) hw
  exact ⟨w, ch, hr, hf.1, hf.2, last_writer_wins hr⟩

end Xmmsg.InProc
