import Xmmsg.Shm.Join
import Xmmsg.Shm.Accounting

/-!
# What a shm subscriber is handed, over its whole life

A mailbox of the segment is written by one publisher after another, emptied by a
repair, seeded by its own claimant, and may be half-written when its owner looks.
`TakeLatestSample` answers such a look from `cached_`, the last complete record
this process has loaded. Whether that can take a reader back in time is a question
about four places at once: the cache, the mailbox, the seed and the ordinal the
current publisher is spreading.

The run is recorded by what was drawn, what was completely stored into the master
cell, and what every take handed back, nothing included.
-/

namespace Xmmsg.Shm

open Xmmsg.Sys Xmmsg.Mail

variable {T : Type} {size : Nat}

/-- The record of a run. -/
structure Takes (T : Type) where
  log : List (MailRecord T) := []         -- drew their ordinal
  stored : List (MailRecord T) := []      -- completely stored into the master cell
  returned : Bool := false                -- some Publish has returned
  late : Nat → Bool := fun _ => false     -- became active after that
  taken : Nat → List (Option (MailRecord T)) := fun _ => []

def noteTake (w : World T) (a : Act T) (_ : World T) (tk : Takes T) : Takes T :=
  match a with
  | .pub p .go =>
      match (w.pubs p).pc with
      | .draw m => { tk with log := tk.log ++ [m.record (w.seg.acceptedOrdinal + 1)] }
      | .masterEnd r => { tk with stored := tk.stored ++ [r] }
      | .bytesShared => { tk with returned := true }
      | _ => tk
  | .sub e (.go _) =>
      match (w.subs e).pc with
      | .storeActive _ => { tk with late := Function.update tk.late e tk.returned }
      | .wired _ (.ret o) => { tk with taken := extend tk.taken e [o.map Prod.fst] }
      | _ => tk
  | _ => tk

/-- The machine with its takes. -/
def handing (T : Type) (size : Nat) : Machine (World T × Takes T) (Act T) :=
  (machine T size).withHistory {} noteTake

/-! ## Where records are -/

/-- Past the master store, looking at slots. -/
def PubPc.spreading : PubPc T → Option (MailRecord T)
  | .loadState r _ | .loadKind r _ | .loadBase r _ | .stamp r _ | .cellBegin r _ | .cellEnd r _
  | .push r _ | .drop r _ => some r
  | _ => none

/-- Past the fan-out, counting the publish. -/
def PubPc.counting : PubPc T → Bool
  | .countLocal | .countShared | .bytesShared => true
  | _ => false

/-- Every record in the segment or in somebody's hands has been drawn, and stored
into the master cell before it went anywhere else. -/
structure RecordInv (w : World T) (tk : Takes T) : Prop where
  ordinals : tk.log.map (·.ordinal) = List.range' 1 w.seg.acceptedOrdinal
  stored : ∀ r ∈ tk.stored, r ∈ tk.log
  mastering : ∀ p r, (w.pubs p).pc.mastering = some r → r ∈ tk.log
  spreading : ∀ p r, (w.pubs p).pc.spreading = some r → r ∈ tk.stored
  -- the one live owner carries the newest ordinal
  current : ∀ p r, w.livePub p →
    (w.pubs p).pc.mastering = some r ∨ (w.pubs p).pc.spreading = some r →
    r.ordinal = w.seg.acceptedOrdinal
  counting : ∀ p, (w.pubs p).pc.counting = true → tk.stored ≠ []
  returned : tk.returned = true → tk.stored ≠ []
  master : ∀ r, w.seg.master = .full r → r ∈ tk.stored
  latest : ∀ i r, w.seg.latest i = .full r → r ∈ tk.stored
  seeding : ∀ e r, (w.subs e).pc.seeding = some r → r ∈ tk.stored

theorem RecordInv.le {w : World T} {tk : Takes T} (h : RecordInv w tk) {r : MailRecord T}
    (hr : r ∈ tk.stored) : r.ordinal ≤ w.seg.acceptedOrdinal := by
  have hmem : r.ordinal ∈ tk.log.map (·.ordinal) := List.mem_map_of_mem (h.stored r hr)
  rw [h.ordinals, List.mem_range'_1] at hmem
  omega

theorem RecordInv.congr {w : World T} {tk tk' : Takes T} (h : RecordInv w tk)
    (hlog : tk'.log = tk.log) (hsto : tk'.stored = tk.stored)
    (hret : tk'.returned = true → tk.stored ≠ []) : RecordInv w tk' where
  ordinals := hlog ▸ h.ordinals
  stored := by rw [hlog, hsto]; exact h.stored
  mastering := hlog ▸ h.mastering
  spreading := hsto ▸ h.spreading
  current := h.current
  counting := hsto ▸ h.counting
  returned := hsto ▸ hret
  master := hsto ▸ h.master
  latest := hsto ▸ h.latest
  seeding := hsto ▸ h.seeding

/-- What an access of a publisher does with records. -/
inductive RecordMove (h : Segment T) (ep : PubEp T) : Segment T → PubEp T → Prop
  | quiet {h' : Segment T} {ep' : PubEp T} : ep.pc.mastering = none → (∀ m, ep.pc ≠ .draw m) →
      (∀ r i, ep.pc ≠ .cellEnd r i) → h'.acceptedOrdinal = h.acceptedOrdinal →
      h'.master = h.master → h'.latest = h.latest →
      ep'.pc.mastering = none →
      (∀ r, ep'.pc.spreading = some r → ep.pc.spreading = some r) →
      (ep'.pc.counting = true → ep.pc.counting = true ∨ ep.pc.spreading ≠ none) →
      RecordMove h ep h' ep'
  | draw {m : Message T} : ep.pc = .draw m →
      RecordMove h ep { h with acceptedOrdinal := h.acceptedOrdinal + 1 }
        (ep.at' (.masterBegin (m.record (h.acceptedOrdinal + 1))))
  | masterBegin {r : MailRecord T} : ep.pc = .masterBegin r →
      RecordMove h ep { h with master := .torn } (ep.at' (.masterEnd r))
  | masterEnd {r : MailRecord T} : ep.pc = .masterEnd r →
      RecordMove h ep { h with master := .full r } (ep.at' (.loadState r 0))
  | cellBegin {r : MailRecord T} {i : Nat} : ep.pc = .cellBegin r i →
      RecordMove h ep (h.setLatest i .torn) (ep.at' (.cellEnd r i))
  | cellEnd {r : MailRecord T} {i : Nat} : ep.pc = .cellEnd r i →
      RecordMove h ep (h.setLatest i (.full r)) (ep.at' (.loadState r (i + 1)))
  | repairMaster : ep.pc = .repairMaster →
      RecordMove h ep { h with master := h.master.repair } (ep.at' (.repairState 0))
  | repairCell {i : Nat} : ep.pc = .repairCell i →
      RecordMove h ep (h.setLatest i (h.latest i).repair) (ep.at' (.repairState (i + 1)))

theorem pubStep_record {alive : Nat → Bool} {h h' : Segment T} {ep ep' : PubEp T}
    {a : PubAct T} (hs : pubStep size alive h ep a = some (h', ep')) :
    RecordMove h ep h' ep' := by
  cases a with
  | publish m | destroy =>
      cases hpc : ep.pc <;> simp only [pubStep, hpc] at hs <;> cases hs
      all_goals
        exact .quiet (by rw [hpc]; rfl) (by simp [hpc]) (by simp [hpc]) rfl rfl rfl rfl
          (fun r h0 => (by cases h0)) (fun h0 => (by cases h0))
  | go =>
      cases hpc : ep.pc <;> simp only [pubStep, hpc] at hs
      case draw m => cases hs; exact .draw hpc
      case masterBegin r => cases hs; exact .masterBegin hpc
      case masterEnd r => cases hs; exact .masterEnd hpc
      case cellBegin r i => cases hs; exact .cellBegin hpc
      case cellEnd r i => cases hs; exact .cellEnd hpc
      case repairMaster => cases hs; exact .repairMaster hpc
      case repairCell i => cases hs; exact .repairCell hpc
      case casRelease =>
        cases hs
        by_cases e : h.pubPid = ep.pid
        · rw [if_pos e]
          exact .quiet (by rw [hpc]; rfl) (by simp [hpc]) (by simp [hpc]) rfl rfl rfl rfl
            (fun r h0 => (by cases h0)) (fun h0 => (by cases h0))
        · rw [if_neg e]
          exact .quiet (by rw [hpc]; rfl) (by simp [hpc]) (by simp [hpc]) rfl rfl rfl rfl
            (fun r h0 => (by cases h0)) (fun h0 => (by cases h0))
      all_goals
        repeat' split at hs
        all_goals cases hs
        all_goals
          exact .quiet (by rw [hpc]; rfl) (by simp [hpc]) (by simp [hpc]) rfl rfl rfl rfl
            (by simp [hpc, PubPc.spreading]) (by simp [hpc, PubPc.counting, PubPc.spreading])

theorem pubStep_owned {w : World T} {p : Nat} {r : MailRecord T}
    (h : (w.pubs p).pc.mastering = some r ∨ (w.pubs p).pc.spreading = some r) :
    (w.pubs p).pc.owning = true := by
  cases hpc : (w.pubs p).pc <;> rw [hpc] at h <;>
    first | rfl | (rcases h with h0 | h0 <;> cases h0)

/-- Only `Publish` and the destructor are called; every other access follows. -/
theorem pubStep_go {alive : Nat → Bool} {h h' : Segment T} {ep ep' : PubEp T} {a : PubAct T}
    (hs : pubStep size alive h ep a = some (h', ep')) (h1 : ep.pc ≠ .idle)
    (h2 : ep.pc ≠ .refused) : a = .go := by
  cases a with
  | go => rfl
  | publish m | destroy =>
      cases hpc : ep.pc <;> simp only [pubStep, hpc] at hs
      all_goals first | cases hs; done | exact absurd hpc h1 | exact absurd hpc h2

/-- What a step adds to the recorded lists. -/
theorem noteTake_pub {w : World T} {p : Nat} (w' : World T) (a : PubAct T) (tk : Takes T)
    (h1 : (w.pubs p).pc.mastering = none) (h2 : ∀ m, (w.pubs p).pc ≠ .draw m) :
    (noteTake w (.pub p a) w' tk).log = tk.log ∧
      (noteTake w (.pub p a) w' tk).stored = tk.stored ∧
      ((noteTake w (.pub p a) w' tk).returned = true →
        tk.returned = true ∨ (w.pubs p).pc.counting = true) := by
  cases a with
  | go =>
      cases hpc : (w.pubs p).pc <;> simp only [noteTake, hpc]
      case draw m => exact absurd hpc (h2 m)
      case masterEnd r => rw [hpc] at h1; cases h1
      case bytesShared => exact ⟨trivial, trivial, fun _ => .inr rfl⟩
      all_goals exact ⟨trivial, trivial, .inl⟩
  | _ => exact ⟨rfl, rfl, .inl⟩

theorem noteTake_pub_taken {w w' : World T} {p : Nat} {a : PubAct T} {tk : Takes T} :
    (noteTake w (.pub p a) w' tk).taken = tk.taken ∧
      (noteTake w (.pub p a) w' tk).late = tk.late := by
  cases a with
  | go => simp only [noteTake]; split <;> exact ⟨rfl, rfl⟩
  | _ => exact ⟨rfl, rfl⟩

theorem noteTake_sub (w w' : World T) (e : Nat) (a : SubAct) (tk : Takes T) :
    (noteTake w (.sub e a) w' tk).log = tk.log ∧
      (noteTake w (.sub e a) w' tk).stored = tk.stored ∧
      (noteTake w (.sub e a) w' tk).returned = tk.returned := by
  cases a with
  | go now => simp only [noteTake]; split <;> exact ⟨rfl, rfl, rfl⟩
  | _ => exact ⟨rfl, rfl, rfl⟩

/-- A subscriber spreads no record but the seed it loaded from the master cell. -/
theorem subStep_record {alive : Nat → Bool} {h h' : Segment T} {ep ep' : SubEp T}
    {a : SubAct} (hs : subStep alive h ep a = some (h', ep')) :
    (∀ i r, h'.latest i = .full r → h.latest i = .full r ∨ ep.pc.seeding = some r) ∧
      ∀ r, ep'.pc.seeding = some r → ep.pc.seeding = some r ∨ h.master = .full r := by
  cases a with
  | go now =>
      cases hpc : ep.pc <;> simp only [subStep, hpc] at hs
      case wired i t =>
        obtain ⟨-, ⟨t', ht'⟩, -⟩ := takeStep_quiet hs
        refine ⟨fun j r hr => .inl ?_, fun r hr => ?_⟩
        · have : h'.latest = h.latest := by
            cases t <;> simp only [takeStep] at hs
            all_goals
              repeat' split at hs
              all_goals cases hs
              all_goals rfl
          rw [← this]
          exact hr
        · rw [ht'] at hr
          cases hr
      case initLatest i | seedBegin i r =>
        cases hs
        refine ⟨fun j r hr => ?_, fun r hr => .inl hr⟩
        by_cases e : j = i
        · subst e
          simp at hr
        · exact .inl (by simpa [e] using hr)
      case seedEnd i s =>
        cases hs
        refine ⟨fun j r hr => ?_, fun r hr => (by cases hr)⟩
        by_cases e : j = i
        · subst e
          obtain rfl : s = r := by simpa using hr
          exact .inr rfl
        · exact .inl (by simpa [e] using hr)
      case loadMaster i =>
        split at hs <;> cases hs
        · next s hm =>
            refine ⟨fun j r hr => .inl hr, fun r hr => ?_⟩
            obtain rfl : s = r := by simpa [SubPc.seeding] using hr
            exact .inr hm
        · exact ⟨fun j r hr => .inl hr, fun r hr => (by cases hr)⟩
        · exact ⟨fun j r hr => .inl hr, fun r hr => (by cases hr)⟩
      case storeMiss i =>
        cases hs
        refine ⟨fun j r hr => .inl hr, fun r hr => ?_⟩
        cases hl : ep.history.isLatest <;> simp [hl, SubPc.seeding] at hr
      all_goals
        repeat' split at hs
        all_goals cases hs
        all_goals exact ⟨fun j r hr => .inl hr, fun r hr => (by cases hr)⟩
  | _ =>
      simp only [subStep] at hs
      repeat' split at hs
      all_goals cases hs
      all_goals exact ⟨fun j r hr => .inl hr, fun r hr => (by cases hr)⟩

theorem recordInv_sub {w : World T} {tk : Takes T} (h : RecordInv w tk) {e : Nat} {a : SubAct}
    {h' : Segment T} {ep' : SubEp T}
    (hs : subStep w.alive w.seg (w.subs e) a = some (h', ep')) :
    RecordInv (w.putSub e h' ep') tk := by
  obtain ⟨-, hacc, hmas⟩ := subStep_header hs
  obtain ⟨hcell, hseed⟩ := subStep_record hs
  refine ⟨?_, h.stored, h.mastering, h.spreading, ?_, h.counting, h.returned, ?_, ?_, ?_⟩
  · rw [World.putSub_seg, hacc]
    exact h.ordinals
  · rw [World.putSub_seg, hacc]
    exact h.current
  · rw [World.putSub_seg, hmas]
    exact h.master
  · intro i r hr
    rcases hcell i r hr with h0 | h0
    · exact h.latest i r h0
    · exact h.seeding e r h0
  · intro x r hr
    by_cases hx : x = e
    · subst hx
      rw [World.putSub_self] at hr
      rcases hseed r hr with h0 | h0
      · exact h.seeding x r h0
      · exact h.master r h0
    · rw [World.putSub_ne _ _ _ _ hx] at hr
      exact h.seeding x r hr

/-- What an access of publisher `p` has to establish, the others' records being
where they were. -/
theorem RecordInv.putPub {w : World T} {tk tk' : Takes T} (h : RecordInv w tk) {p : Nat}
    {h' : Segment T} {ep' : PubEp T} (hl : w.livePub p)
    (hlog : ∀ r ∈ tk.log, r ∈ tk'.log) (hsto : ∀ r ∈ tk.stored, r ∈ tk'.stored)
    (hord : tk'.log.map (·.ordinal) = List.range' 1 h'.acceptedOrdinal)
    (hall : ∀ r ∈ tk'.stored, r ∈ tk'.log)
    (hmine : ∀ r, ep'.pc.mastering = some r → r ∈ tk'.log ∧ r.ordinal = h'.acceptedOrdinal)
    (hspread : ∀ r, ep'.pc.spreading = some r →
      r ∈ tk'.stored ∧ r.ordinal = h'.acceptedOrdinal)
    (hothers : ∀ q r, q ≠ p → w.livePub q →
      (w.pubs q).pc.mastering = some r ∨ (w.pubs q).pc.spreading = some r →
      h'.acceptedOrdinal = w.seg.acceptedOrdinal)
    (hcount : ep'.pc.counting = true → tk'.stored ≠ [])
    (hret : tk'.returned = true → tk'.stored ≠ [])
    (hmas : ∀ r, h'.master = .full r → r ∈ tk'.stored)
    (hcell : ∀ i r, h'.latest i = .full r → r ∈ tk'.stored) :
    RecordInv (w.putPub p h' ep') tk' := by
  have hkeep : tk.stored ≠ [] → tk'.stored ≠ [] := by
    intro hne h0
    obtain ⟨r, hr⟩ := List.exists_mem_of_ne_nil _ hne
    have := hsto r hr
    rw [h0] at this
    cases this
  refine ⟨hord, hall, fun q r hq => ?_, fun q r hq => ?_, fun q r hlq hq => ?_, fun q hq => ?_,
    hret, hmas, hcell, fun e r he => hsto r (h.seeding e r he)⟩
  · by_cases e : q = p
    · subst e
      rw [World.putPub_self] at hq
      exact (hmine r hq).1
    · rw [World.putPub_ne _ _ _ _ e] at hq
      exact hlog r (h.mastering q r hq)
  · by_cases e : q = p
    · subst e
      rw [World.putPub_self] at hq
      exact (hspread r hq).1
    · rw [World.putPub_ne _ _ _ _ e] at hq
      exact hsto r (h.spreading q r hq)
  · by_cases e : q = p
    · subst e
      rw [World.putPub_self] at hq
      rcases hq with h0 | h0
      · exact (hmine r h0).2
      · exact (hspread r h0).2
    · rw [World.livePub, World.putPub_alive, World.putPub_ne _ _ _ _ e] at hlq
      rw [World.putPub_ne _ _ _ _ e] at hq
      rw [World.putPub_seg, hothers q r e hlq hq]
      exact h.current q r hlq hq
  · by_cases e : q = p
    · subst e
      rw [World.putPub_self] at hq
      exact hcount hq
    · rw [World.putPub_ne _ _ _ _ e] at hq
      exact hkeep (h.counting q hq)

theorem recordInv_pub {w : World T} {tk : Takes T} (hown : OwnerInv w) (h : RecordInv w tk)
    {p : Nat} {a : PubAct T} {h' : Segment T} {ep' : PubEp T} (hl : w.livePub p)
    (hs : pubStep size w.alive w.seg (w.pubs p) a = some (h', ep')) :
    RecordInv (w.putPub p h' ep') (noteTake w (.pub p a) (w.putPub p h' ep') tk) := by
  have hgo := pubStep_go hs
  -- cells that are only torn, emptied or refilled with what is spread
  have hcell : ∀ (i : Nat) (c : Cell T), (∀ r, c = .full r → r ∈ tk.stored) →
      ∀ j r, (w.seg.setLatest i c).latest j = .full r → r ∈ tk.stored := by
    intro i c hc j r hr
    by_cases e : j = i
    · subst e
      exact hc r (by simpa using hr)
    · exact h.latest j r (by simpa [e] using hr)
  have hrepair : ∀ (c : Cell T) r, c.repair = .full r → c = .full r := by
    intro c r hr
    cases c <;> simp_all [Cell.repair]
  cases pubStep_record hs with
  | quiet hm hd _ h1 h2 h3 h4 h5 h6 =>
      obtain ⟨hlog, hsto, hret⟩ := noteTake_pub (w.putPub p h' ep') a tk hm hd
      have hq : RecordInv (w.putPub p h' ep') tk := by
        refine h.putPub hl (fun _ h0 => h0) (fun _ h0 => h0) (h1 ▸ h.ordinals) h.stored
          (fun r hr => ?_) (fun r hr => ?_) (fun _ _ _ _ _ => h1) (fun h0 => ?_) h.returned
          (h2 ▸ h.master) (h3 ▸ h.latest)
        · rw [h4] at hr
          cases hr
        · rw [h1]
          exact ⟨h.spreading p r (h5 r hr), h.current p r hl (.inr (h5 r hr))⟩
        · rcases h6 h0 with h7 | h7
          · exact h.counting p h7
          · obtain ⟨r, hr⟩ := Option.ne_none_iff_exists'.mp h7
            exact List.ne_nil_of_mem (h.spreading p r hr)
      refine hq.congr hlog hsto fun h0 => ?_
      rcases hret h0 with h7 | h7
      · exact h.returned h7
      · exact h.counting p h7
  | draw hpc =>
      obtain rfl := hgo (by simp [hpc]) (by simp [hpc])
      simp only [noteTake, hpc]
      refine h.putPub hl (fun r hr => List.mem_append_left _ hr) (fun _ h0 => h0) ?_
        (fun r hr => List.mem_append_left _ (h.stored r hr)) (fun r hr => ?_)
        (fun r hr => (by cases hr)) (fun q r hne hlq hq => ?_) (fun h0 => (by cases h0)) h.returned
        h.master h.latest
      · rw [List.map_append, h.ordinals, List.range'_concat]
        simp [Nat.add_comm]
      · cases hr
        exact ⟨by simp, rfl⟩
      · -- nobody else alive owns the segment
        exact absurd (hown.unique q p hlq hl (pubStep_owned hq) (by rw [hpc]; rfl)) hne
  | masterBegin hpc =>
      obtain rfl := hgo (by simp [hpc]) (by simp [hpc])
      simp only [noteTake, hpc]
      refine h.putPub hl (fun _ h0 => h0) (fun _ h0 => h0) h.ordinals h.stored (fun r hr => ?_)
        (fun r hr => (by cases hr)) (fun _ _ _ _ _ => rfl) (fun h0 => (by cases h0)) h.returned
        (fun r hr => (by cases hr)) h.latest
      have hold : (w.pubs p).pc.mastering = some r := by
        rw [hpc]
        exact hr
      exact ⟨h.mastering p r hold, h.current p r hl (.inl hold)⟩
  | masterEnd hpc =>
      obtain rfl := hgo (by simp [hpc]) (by simp [hpc])
      simp only [noteTake, hpc]
      next r₀ =>
      have hold : (w.pubs p).pc.mastering = some r₀ := by rw [hpc]; rfl
      have hkeep : ∀ r ∈ tk.stored, r ∈ tk.stored ++ [r₀] := fun r hr => List.mem_append_left _ hr
      have hnew : r₀ ∈ tk.stored ++ [r₀] := by simp
      refine h.putPub hl (fun _ h0 => h0) hkeep h.ordinals (fun r hr => ?_)
        (fun r hr => (by cases hr)) (fun r hr => ?_) (fun _ _ _ _ _ => rfl)
        (fun h0 => (by cases h0)) (fun _ => List.ne_nil_of_mem hnew) (fun r hr => ?_)
        (fun i r hr => hkeep r (h.latest i r hr))
      · rcases List.mem_append.mp hr with h0 | h0
        · exact h.stored r h0
        · rw [List.mem_singleton.mp h0]
          exact h.mastering p r₀ hold
      · cases hr
        exact ⟨hnew, h.current p r₀ hl (.inl hold)⟩
      · cases hr
        exact hnew
  | cellBegin hpc =>
      obtain rfl := hgo (by simp [hpc]) (by simp [hpc])
      simp only [noteTake, hpc]
      refine h.putPub hl (fun _ h0 => h0) (fun _ h0 => h0) h.ordinals h.stored
        (fun r hr => (by cases hr)) (fun r hr => ?_) (fun _ _ _ _ _ => rfl)
        (fun h0 => (by cases h0)) h.returned h.master (hcell _ _ fun r hr => (by cases hr))
      have hold : (w.pubs p).pc.spreading = some r := by rw [hpc]; exact hr
      exact ⟨h.spreading p r hold, h.current p r hl (.inr hold)⟩
  | cellEnd hpc =>
      obtain rfl := hgo (by simp [hpc]) (by simp [hpc])
      simp only [noteTake, hpc]
      have hold : ∀ r, (w.pubs p).pc.spreading = some r →
          r ∈ tk.stored ∧ r.ordinal = w.seg.acceptedOrdinal :=
        fun r hr => ⟨h.spreading p r hr, h.current p r hl (.inr hr)⟩
      rw [hpc] at hold
      refine h.putPub hl (fun _ h0 => h0) (fun _ h0 => h0) h.ordinals h.stored
        (fun r hr => (by cases hr)) hold (fun _ _ _ _ _ => rfl) (fun h0 => (by cases h0))
        h.returned h.master (hcell _ _ fun r hr => ?_)
      cases hr
      exact (hold _ rfl).1
  | repairMaster hpc =>
      obtain rfl := hgo (by simp [hpc]) (by simp [hpc])
      simp only [noteTake, hpc]
      exact h.putPub hl (fun _ h0 => h0) (fun _ h0 => h0) h.ordinals h.stored
        (fun r hr => (by cases hr)) (fun r hr => (by cases hr)) (fun _ _ _ _ _ => rfl)
        (fun h0 => (by cases h0)) h.returned (fun r hr => h.master r (hrepair _ r hr)) h.latest
  | repairCell hpc =>
      obtain rfl := hgo (by simp [hpc]) (by simp [hpc])
      simp only [noteTake, hpc]
      exact h.putPub hl (fun _ h0 => h0) (fun _ h0 => h0) h.ordinals h.stored
        (fun r hr => (by cases hr)) (fun r hr => (by cases hr)) (fun _ _ _ _ _ => rfl)
        (fun h0 => (by cases h0)) h.returned h.master
        (hcell _ _ fun r hr => h.latest _ r (hrepair _ r hr))

theorem recordInv_step {w w' : World T} {tk : Takes T} {a : Act T} (hown : OwnerInv w)
    (h : RecordInv w tk) (hs : w.step size a = some w') :
    RecordInv w' (noteTake w a w' tk) := by
  rcases step_cases hs with ⟨pid, rfl, rfl⟩ | ⟨e, b, h', ep', rfl, -, hsub, rfl⟩ |
    ⟨p, b, h', ep', rfl, hal, hpub, rfl⟩
  · refine ⟨h.ordinals, h.stored, h.mastering, h.spreading, fun p r hl => ?_, h.counting,
      h.returned, h.master, h.latest, h.seeding⟩
    exact h.current p r (World.alive_of_kill w pid hl)
  · obtain ⟨h1, h2, h3⟩ := noteTake_sub w (w.putSub e h' ep') e b tk
    exact (recordInv_sub h hsub).congr h1 h2 fun h0 => h.returned (h3 ▸ h0)
  · exact recordInv_pub hown h hal hpub

theorem recordInv_reached {ok : World T × Takes T → Act T → Prop} {q : World T × Takes T}
    (hq : (handing T size).Reached ok q) : RecordInv q.1 q.2 := by
  have hany : (handing T size).Reached anyStep q := hq.weaken fun _ _ _ => trivial
  refine hany.invariant (P := fun q => RecordInv q.1 q.2) ?_ ?_
  · rintro ⟨w, tk⟩ ⟨hw, rfl⟩
    have hpub := fun p => (hw.2.2.2 p).2.1
    refine ⟨?_, fun r hr => (nomatch hr), fun p r hr => ?_, fun p r hr => ?_, fun p r _ hr => ?_,
      fun p hr => ?_, fun h0 => (nomatch h0), fun r hr => ?_, fun i r hr => ?_, fun e r hr => ?_⟩
    · rw [hw.1]; rfl
    · rw [hpub p] at hr; cases hr
    · rw [hpub p] at hr; cases hr
    · rw [hpub p] at hr; rcases hr with h0 | h0 <;> cases h0
    · rw [hpub p] at hr; cases hr
    · rw [hw.1] at hr; cases hr
    · rw [hw.1] at hr; cases hr
    · rw [(hw.2.2.1 e).2.1] at hr; cases hr
  · rintro ⟨w, tk⟩ a ⟨w', tk'⟩ hr h - hst
    obtain ⟨hs, hn⟩ := Machine.withHistory_step hst
    simp only at hs hn
    subst hn
    exact recordInv_step (ownerInv_reached (Machine.reached_any hr)) h hs

/-! ## One reader -/

/-- What a take in progress is going to hand back, once it has looked. -/
def TakePc.outcome : TakePc T → Option (Option (MailRecord T))
  | .idle | .load | .pop => none
  | .count r | .miss r _ | .base r _ | .charge r _ _ | .store r _ => some (some r)
  | .ret o => some (o.map Prod.fst)

/-- A later take has a value if an earlier one had, and no smaller ordinal. -/
def Advances (a b : Option (MailRecord T)) : Prop :=
  ∀ r, a = some r → ∃ r', b = some r' ∧ r.ordinal ≤ r'.ordinal

/-- A latest-only reader: what it hands back is its cache, and its mailbox is never
behind its cache. -/
structure ReaderInv (e : Nat) (w : World T) (tk : Takes T) : Prop where
  early : (w.subs e).pc.wiredAt = none → (w.subs e).pc.left = false → (w.subs e).cached = none
  noPop : ∀ i, (w.subs e).pc ≠ .wired i .pop
  taking : ∀ i t o, (w.subs e).pc = .wired i t → t.outcome = some o → o = (w.subs e).cached
  cached : ∀ c, (w.subs e).cached = some c → c ∈ tk.stored
  box : w.liveSub e → ∀ i c r, (w.subs e).pc.wiredAt = some i → (w.subs e).cached = some c →
    w.seg.latest i = .full r → c.ordinal ≤ r.ordinal
  held : ∀ r, some r ∈ tk.taken e → r ∈ tk.stored ∧
    ∃ c, (w.subs e).cached = some c ∧ r.ordinal ≤ c.ordinal
  order : (tk.taken e).Pairwise Advances

/-- While endpoint `e` lives, nobody else alive holds the slot it holds. -/
def SoleHolder (e : Nat) (w : World T) : Prop :=
  w.liveSub e → ∀ i, (w.subs e).pc.Holds i → ∀ e', e' ≠ e → w.liveSub e' →
    ¬ (w.subs e').pc.Holds i

theorem ReaderInv.elsewhere {e : Nat} {w w' : World T} {tk tk' : Takes T}
    (h : ReaderInv e w tk) (hself : w'.subs e = w.subs e)
    (hlive : w'.liveSub e → w.liveSub e)
    (hsto : ∀ r ∈ tk.stored, r ∈ tk'.stored) (htak : tk'.taken e = tk.taken e)
    (hbox : w.liveSub e → ∀ i c r, (w.subs e).pc.wiredAt = some i →
      (w.subs e).cached = some c → w'.seg.latest i = .full r →
      w.seg.latest i = .full r ∨ c.ordinal ≤ r.ordinal) :
    ReaderInv e w' tk' where
  early := hself ▸ h.early
  noPop := hself ▸ h.noPop
  taking := hself ▸ h.taking
  cached c hc := hsto c (h.cached c (hself ▸ hc))
  box hl i c r hi hc hr := by
    rw [hself] at hi hc
    rcases hbox (hlive hl) i c r hi hc hr with h0 | h0
    · exact h.box (hlive hl) i c r hi hc h0
    · exact h0
  held r hr := by
    rw [htak] at hr
    rw [hself]
    exact ⟨hsto r (h.held r hr).1, (h.held r hr).2⟩
  order := htak ▸ h.order

theorem noteTake_stored (w w' : World T) (a : Act T) (tk : Takes T) :
    ∀ r ∈ tk.stored, r ∈ (noteTake w a w' tk).stored := by
  intro r hr
  unfold noteTake
  repeat' split
  all_goals first | exact hr | exact List.mem_append_left _ hr

theorem noteTake_other (w w' : World T) {e e' : Nat} (a : SubAct) (tk : Takes T) (hne : e ≠ e') :
    (noteTake w (.sub e' a) w' tk).taken e = tk.taken e ∧
      (noteTake w (.sub e' a) w' tk).late e = tk.late e := by
  cases a with
  | go now =>
      simp only [noteTake]
      split
      · exact ⟨rfl, by simp [hne]⟩
      · exact ⟨extend_ne _ _ hne, rfl⟩
      · exact ⟨rfl, rfl⟩
  | _ => exact ⟨rfl, rfl⟩

theorem readerInv_pub {e : Nat} {w : World T} {tk : Takes T} (hrec : RecordInv w tk)
    (h : ReaderInv e w tk) {p : Nat} {a : PubAct T} {h' : Segment T} {ep' : PubEp T}
    (hl : w.livePub p) (hs : pubStep size w.alive w.seg (w.pubs p) a = some (h', ep')) :
    ReaderInv e (w.putPub p h' ep') (noteTake w (.pub p a) (w.putPub p h' ep') tk) := by
  refine h.elsewhere rfl id (noteTake_stored _ _ _ _) (by rw [noteTake_pub_taken.1])
    fun _ i c r _ hc hr => ?_
  rw [World.putPub_seg] at hr
  cases pubStep_record hs with
  | quiet _ _ _ _ _ h3 => exact .inl (h3 ▸ hr)
  | draw | masterBegin | masterEnd | repairMaster => exact .inl hr
  | cellBegin =>
      next j _ =>
      by_cases e : i = j
      · subst e
        simp at hr
      · exact .inl (by simpa [e] using hr)
  | cellEnd hpc =>
      next s j =>
      by_cases e : i = j
      · subst e
        obtain rfl : s = r := by simpa using hr
        -- what is spread now is as new as anything ever stored
        rw [hrec.current p s hl (.inr (by rw [hpc]; rfl))]
        exact .inr (hrec.le (h.cached c hc))
      · exact .inl (by simpa [e] using hr)
  | repairCell =>
      next j _ =>
      by_cases e : i = j
      · subst e
        cases hc : w.seg.latest i <;> simp_all [Cell.repair]
      · exact .inl (by simpa [e] using hr)

theorem readerInv_other {e e' : Nat} {w : World T} {tk : Takes T} (hsole : SoleHolder e w)
    (h : ReaderInv e w tk) (hne : e ≠ e') (hl : w.liveSub e') {a : SubAct} {h' : Segment T}
    {ep' : SubEp T} (hs : subStep w.alive w.seg (w.subs e') a = some (h', ep')) :
    ReaderInv e (w.putSub e' h' ep') (noteTake w (.sub e' a) (w.putSub e' h' ep') tk) := by
  have hself : (w.putSub e' h' ep').subs e = w.subs e := World.putSub_ne _ _ _ _ hne
  refine h.elsewhere hself (fun h0 => by rwa [World.liveSub, hself] at h0)
    (noteTake_stored _ _ _ _) (noteTake_other _ _ _ _ hne).1 fun hle i c r hi _ hr => .inl ?_
  have hcell := (subStep_sameRegion hs (hsole hle i (.inr hi) e' (Ne.symm hne) hl)).cell
  rw [World.putSub_seg] at hr
  rw [hr] at hcell
  cases hc : w.seg.latest i <;> rw [hc] at hcell <;> cases hcell
  rfl

/-- An access of the reader itself that leaves its cache and its mailbox alone. -/
theorem ReaderInv.move {e i : Nat} {w : World T} {tk tk' : Takes T} (h : ReaderInv e w tk)
    {h' : Segment T} {ep' : SubEp T} {t : TakePc T} (hl : w.liveSub e)
    (hi : (w.subs e).pc.wiredAt = some i) (hcell : h'.latest = w.seg.latest)
    (hpc : ep'.pc = .wired i t) (hcache : ep'.cached = (w.subs e).cached) (hpop : t ≠ .pop)
    (hout : ∀ o, t.outcome = some o → o = (w.subs e).cached)
    (hsto : tk'.stored = tk.stored) (htak : tk'.taken e = tk.taken e) :
    ReaderInv e (w.putSub e h' ep') tk' := by
  refine ⟨?_, ?_, ?_, ?_, ?_, ?_, htak ▸ h.order⟩
  · intro h0
    rw [World.putSub_self, hpc] at h0
    cases h0
  · intro j hj
    rw [World.putSub_self, hpc] at hj
    cases hj
    exact hpop rfl
  · intro j t' o hj ho
    rw [World.putSub_self] at hj ⊢
    rw [hpc] at hj
    cases hj
    rw [hcache]
    exact hout o ho
  · intro c hc
    rw [World.putSub_self, hcache] at hc
    rw [hsto]
    exact h.cached c hc
  · intro _ j c r hj hc hr
    rw [World.putSub_self] at hj hc
    rw [hpc] at hj
    cases hj
    rw [hcache] at hc
    rw [World.putSub_seg, hcell] at hr
    exact h.box hl i c r hi hc hr
  · intro r hr
    rw [htak] at hr
    rw [World.putSub_self, hcache, hsto]
    exact h.held r hr

theorem readerInv_load {e i : Nat} {w : World T} {tk : Takes T} (hrec : RecordInv w tk)
    (h : ReaderInv e w tk) (hl : w.liveSub e) {h' : Segment T} {ep' : SubEp T} {now : Int}
    (hpc : (w.subs e).pc = .wired i .load)
    (hs : takeStep w.seg (w.subs e) i now .load = some (h', ep')) :
    ReaderInv e (w.putSub e h' ep') tk := by
  have hi : (w.subs e).pc.wiredAt = some i := by rw [hpc]; rfl
  simp only [takeStep] at hs
  split at hs
  · next r hr =>
    cases hs
    -- the cache catches up with the mailbox
    refine ⟨?_, ?_, ?_, ?_, ?_, ?_, h.order⟩
    · intro h0
      rw [World.putSub_self] at h0
      cases h0
    · intro j hj
      rw [World.putSub_self] at hj
      cases hj
    · intro j t o hj ho
      rw [World.putSub_self] at hj ⊢
      cases hj
      cases ho
      rfl
    · intro c hc
      rw [World.putSub_self] at hc
      cases hc
      exact hrec.latest i r hr
    · intro _ j c r' hj hc hr'
      rw [World.putSub_self] at hj hc
      cases hj
      cases hc
      rw [World.putSub_seg, hr] at hr'
      cases hr'
      exact Nat.le_refl _
    · intro x hx
      obtain ⟨h1, c, hc, hle⟩ := h.held x hx
      rw [World.putSub_self]
      exact ⟨h1, r, rfl, Nat.le_trans hle (h.box hl i c r hi hc hr)⟩
  all_goals
    split at hs <;> cases hs
    · next r hc =>
      exact h.move hl hi rfl rfl rfl (by simp) (fun o ho => by cases ho; exact hc.symm) rfl rfl
    · next hc =>
      exact h.move hl hi rfl rfl rfl (by simp) (fun o ho => by cases ho; exact hc.symm) rfl rfl

theorem readerInv_ret {e i : Nat} {w : World T} {tk : Takes T} (h : ReaderInv e w tk)
    (hl : w.liveSub e) {o : Option (MailRecord T × Bool)} {h' : Segment T} {ep' : SubEp T}
    {now : Int} (hpc : (w.subs e).pc = .wired i (.ret o))
    (hs : takeStep w.seg (w.subs e) i now (.ret o) = some (h', ep')) :
    ReaderInv e (w.putSub e h' ep')
      (noteTake w (.sub e (.go now)) (w.putSub e h' ep') tk) := by
  have hi : (w.subs e).pc.wiredAt = some i := by rw [hpc]; rfl
  have ho : o.map Prod.fst = (w.subs e).cached := h.taking i _ _ hpc rfl
  simp only [takeStep] at hs
  cases hs
  simp only [noteTake, hpc]
  have hmove : ReaderInv e (w.putSub e w.seg ((w.subs e).at' (.wired i .idle))) tk :=
    h.move hl hi rfl rfl rfl (by simp) (fun o h0 => (by cases h0)) rfl rfl
  refine ⟨hmove.early, hmove.noPop, hmove.taking, hmove.cached, hmove.box, fun r hr => ?_, ?_⟩
  · simp only [extend_self, List.mem_append, List.mem_singleton, ho] at hr
    rcases hr with h0 | h0
    · exact hmove.held r h0
    · refine ⟨h.cached r h0.symm, r, ?_, Nat.le_refl _⟩
      rw [World.putSub_self]
      exact h0.symm
  · simp only [extend_self, List.pairwise_append]
    refine ⟨h.order, List.pairwise_singleton _ _, fun a ha b hb r hr => ?_⟩
    rw [List.mem_singleton.mp hb, ho]
    exact (h.held r (hr ▸ ha)).2

theorem readerInv_take {e i : Nat} {w : World T} {tk : Takes T} (hrec : RecordInv w tk)
    (h : ReaderInv e w tk) (hl : w.liveSub e) (hlat : (w.subs e).history.isLatest = true)
    {t : TakePc T} {h' : Segment T} {ep' : SubEp T} {now : Int} (hpc : (w.subs e).pc = .wired i t)
    (hs : takeStep w.seg (w.subs e) i now t = some (h', ep')) :
    ReaderInv e (w.putSub e h' ep')
      (noteTake w (.sub e (.go now)) (w.putSub e h' ep') tk) := by
  have hi : (w.subs e).pc.wiredAt = some i := by rw [hpc]; rfl
  cases t with
  | idle => cases hs
  | pop => exact absurd hpc (h.noPop i)
  | load =>
      simp only [noteTake, hpc]
      exact readerInv_load hrec h hl hpc hs
  | ret o => exact readerInv_ret h hl hpc hs
  | count r | miss r stale | base r stale | charge r stale last | store r stale =>
      have hout : ∀ o, some (some r) = some o → o = (w.subs e).cached :=
        fun o ho => h.taking i _ o hpc ho
      simp only [noteTake, hpc]
      simp only [takeStep, hlat] at hs
      repeat' split at hs
      all_goals cases hs
      all_goals exact h.move hl hi rfl rfl rfl (by simp) hout rfl rfl

/-- Outside its takes a reader leaves its cache alone, and becomes wired by the
activating store only. -/
theorem subStep_outside {alive : Nat → Bool} {h h' : Segment T} {ep ep' : SubEp T} {a : SubAct}
    (hs : subStep alive h ep a = some (h', ep')) (ha : ∀ i t, ep.pc ≠ .wired i t) :
    ep'.cached = ep.cached ∧ (ep'.pc.left = false → ep.pc.left = false) ∧
      (ep'.pc.wiredAt = none ∨ ∃ i, ep.pc = .storeActive i ∧ ep'.pc = .wired i .idle) := by
  cases a with
  | go now =>
      cases hpc : ep.pc <;> simp only [subStep, hpc] at hs
      case wired i t => exact absurd hpc (ha i t)
      case storeActive i =>
        cases hs
        exact ⟨rfl, fun _ => rfl, .inr ⟨i, rfl, rfl⟩⟩
      case released i =>
        cases hs
        exact ⟨rfl, fun h0 => (by cases h0), .inl rfl⟩
      case storeMiss i =>
        cases hs
        refine ⟨rfl, fun _ => rfl, .inl ?_⟩
        cases ep.history.isLatest <;> rfl
      all_goals
        repeat' split at hs
        all_goals cases hs
        all_goals exact ⟨rfl, fun _ => rfl, .inl rfl⟩
  | _ =>
      cases hpc : ep.pc <;> simp only [subStep, hpc] at hs
      all_goals first
        | cases hs; done
        | exact absurd hpc (ha _ _)
        | (cases hs; exact ⟨rfl, fun _ => rfl, .inl rfl⟩)

theorem noteTake_outside {w : World T} {e : Nat} (w' : World T) (a : SubAct) (tk : Takes T)
    (h : ∀ i t, (w.subs e).pc ≠ .wired i t) :
    (noteTake w (.sub e a) w' tk).taken e = tk.taken e := by
  cases a with
  | go now =>
      simp only [noteTake]
      split
      · rfl
      · next hpc => exact absurd hpc (h _ _)
      · rfl
  | _ => rfl

theorem readerInv_own {e : Nat} {w : World T} {tk : Takes T} (hrec : RecordInv w tk)
    (h : ReaderInv e w tk) (hl : w.liveSub e) (hlat : (w.subs e).history.isLatest = true)
    {a : SubAct} {h' : Segment T} {ep' : SubEp T}
    (hs : subStep w.alive w.seg (w.subs e) a = some (h', ep')) :
    ReaderInv e (w.putSub e h' ep') (noteTake w (.sub e a) (w.putSub e h' ep') tk) := by
  by_cases hw : ∃ i t, (w.subs e).pc = .wired i t
  · obtain ⟨i, t, hpc⟩ := hw
    have hi : (w.subs e).pc.wiredAt = some i := by rw [hpc]; rfl
    cases a with
    | go now =>
        simp only [subStep, hpc] at hs
        exact readerInv_take hrec h hl hlat hpc hs
    | takeLatest =>
        cases t <;> simp only [subStep, hpc, hlat, if_true] at hs <;> cases hs
        exact h.move hl hi rfl rfl rfl (by simp) (fun o ho => (by cases ho)) rfl rfl
    | tryTake => cases t <;> simp [subStep, hpc, hlat] at hs
    | destroy =>
        cases t <;> simp only [subStep, hpc] at hs <;> cases hs
        refine ⟨fun _ h0 => ?_, fun j hj => ?_, fun j t o hj => ?_, fun c hc => ?_,
          fun _ j c r hj => ?_, fun r hr => ?_, h.order⟩
        · rw [World.putSub_self] at h0
          cases h0
        · rw [World.putSub_self] at hj
          cases hj
        · rw [World.putSub_self] at hj
          cases hj
        · rw [World.putSub_self] at hc
          exact h.cached c hc
        · rw [World.putSub_self] at hj
          cases hj
        · rw [World.putSub_self]
          exact h.held r hr
  · have hno : ∀ i t, (w.subs e).pc ≠ .wired i t := fun i t h0 => hw ⟨i, t, h0⟩
    have hnone : (w.subs e).pc.wiredAt = none := by
      cases hpc : (w.subs e).pc <;> first | rfl | exact absurd hpc (hno _ _)
    obtain ⟨hcache, hleft, hat⟩ := subStep_outside hs hno
    have htak := noteTake_outside (w.putSub e h' ep') a tk hno
    have hsto := (noteTake_sub w (w.putSub e h' ep') e a tk).2.1
    -- a reader that has just become wired has nothing in its cache
    have hfirst : ∀ i t, ep'.pc = .wired i t → t = .idle ∧ ep'.cached = none := by
      intro i t ht
      rcases hat with h0 | ⟨j, h0, h1⟩
      · rw [ht] at h0
        cases h0
      · rw [h1] at ht
        cases ht
        exact ⟨rfl, hcache.trans (h.early hnone (by rw [h0]; rfl))⟩
    refine ⟨fun _ h0 => ?_, fun j hj => ?_, fun j t o hj ho => ?_, fun c hc => ?_,
      fun _ j c r hj hc => ?_, fun r hr => ?_, htak ▸ h.order⟩
    · rw [World.putSub_self] at h0 ⊢
      rw [hcache]
      exact h.early hnone (hleft h0)
    · rw [World.putSub_self] at hj
      cases (hfirst j _ hj).1
    · rw [World.putSub_self] at hj
      cases (hfirst j _ hj).1
      cases ho
    · rw [World.putSub_self, hcache] at hc
      rw [hsto]
      exact h.cached c hc
    · rw [World.putSub_self] at hj hc
      cases hpc : ep'.pc <;> rw [hpc] at hj <;> cases hj
      rw [(hfirst _ _ hpc).2] at hc
      cases hc
    · rw [htak] at hr
      rw [World.putSub_self, hcache, hsto]
      exact h.held r hr

theorem readerInv_reached {e : Nat} {q : World T × Takes T}
    (hq : (handing T size).Reached (fun q _ => SoleHolder e q.1) q)
    (hlat : (q.1.subs e).history.isLatest = true) : ReaderInv e q.1 q.2 := by
  revert hlat
  refine hq.invariant
    (P := fun q => (q.1.subs e).history.isLatest = true → ReaderInv e q.1 q.2) ?_ ?_
  · rintro ⟨w, tk⟩ ⟨hw, rfl⟩ -
    have hpc := (hw.2.2.1 e).2.1
    have hcache := (hw.2.2.1 e).2.2
    refine ⟨fun _ _ => hcache, fun i h0 => ?_, fun i t o h0 => ?_, fun c hc => ?_,
      fun _ i c r h0 => ?_, fun r hr => (nomatch hr), List.Pairwise.nil⟩
    · rw [hpc] at h0; cases h0
    · rw [hpc] at h0; cases h0
    · rw [hcache] at hc; cases hc
    · rw [hpc] at h0; cases h0
  · rintro ⟨w, tk⟩ a ⟨w', tk'⟩ hr h hsole hst hlat
    have hrec := recordInv_reached hr
    obtain ⟨hs, hn⟩ := Machine.withHistory_step hst
    simp only at hs hn h hsole hlat hrec
    subst hn
    rcases step_cases hs with ⟨pid, rfl, rfl⟩ | ⟨x, b, h', ep', rfl, hal, hsub, rfl⟩ |
      ⟨p, b, h', ep', rfl, hal, hpub, rfl⟩
    · exact (h hlat).elsewhere rfl (World.alive_of_kill w pid) (fun _ h0 => h0) rfl
        fun _ _ _ _ _ _ h0 => .inl h0
    · by_cases hx : e = x
      · subst hx
        rw [World.putSub_self, (subStep_history hsub).1] at hlat
        exact readerInv_own hrec (h hlat) hal hlat hsub
      · rw [World.putSub_ne _ _ _ _ hx] at hlat
        exact readerInv_other hsole (h hlat) hx hal hsub
    · exact readerInv_pub hrec (h hlat) hal hpub

/-! ## Takes go forward -/

/-- How many accesses a take still has to make. -/
def TakePc.remaining : TakePc T → Nat
  | .idle => 0
  | .ret _ => 1
  | .store _ _ => 2
  | .charge _ _ _ => 3
  | .base _ _ => 4
  | .miss _ _ => 5
  | .count _ => 6
  | .load | .pop => 7

/-- A take never waits: its next access is always possible and brings it closer to
its end. -/
theorem takeStep_remaining (h : Segment T) (ep : SubEp T) (i : Nat) (now : Int) {t : TakePc T}
    (ht : t ≠ .idle) : ∃ h' ep' t', takeStep h ep i now t = some (h', ep') ∧
      ep'.pc = .wired i t' ∧ t'.remaining < t.remaining := by
  cases t with
  | idle => exact absurd rfl ht
  | load =>
      simp only [takeStep]
      cases h.latest i <;> cases ep.cached
      all_goals exact ⟨_, _, _, rfl, rfl, by simp [TakePc.remaining]⟩
  | pop =>
      simp only [takeStep]
      cases (h.ring i).tryPop
      all_goals exact ⟨_, _, _, rfl, rfl, by simp [TakePc.remaining]⟩
  | miss r stale =>
      simp only [takeStep]
      cases stale <;> cases ep.staleLatched <;> cases ep.history.isLatest
      all_goals exact ⟨_, _, _, rfl, rfl, by simp [TakePc.remaining]⟩
  | base r stale =>
      simp only [takeStep]
      cases (h.subSlots i).lastConsumedOrdinal with
      | none => exact ⟨_, _, _, rfl, rfl, by simp [TakePc.remaining]⟩
      | some last =>
          by_cases hlt : last < r.ordinal <;> simp only [hlt, if_true, if_false]
          all_goals exact ⟨_, _, _, rfl, rfl, by simp [TakePc.remaining]⟩
  | count | charge | store | ret =>
      exact ⟨_, _, _, rfl, rfl, by simp [TakePc.remaining]⟩

/-- No take of endpoint `e` waits. -/
def TakesEnd (e : Nat) (w : World T) : Prop :=
  ∀ i t now, (w.subs e).pc = .wired i t → t ≠ .idle →
    ∃ h' ep' t', subStep w.alive w.seg (w.subs e) (.go now) = some (h', ep') ∧
      ep'.pc = .wired i t' ∧ t'.remaining < t.remaining

theorem takesEnd (e : Nat) (w : World T) : TakesEnd e w := by
  intro i t now hpc ht
  simp only [subStep, hpc]
  exact takeStep_remaining w.seg (w.subs e) i now ht

structure NeverRegresses (e : Nat) (w : World T) (tk : Takes T) : Prop where
  ordinals : tk.log.map (·.ordinal) = List.range' 1 w.seg.acceptedOrdinal
  published : ∀ r, some r ∈ tk.taken e → r ∈ tk.log
  order : (tk.taken e).Pairwise Advances
  ends : TakesEnd e w

/-- Whatever publishers die where, as long as nobody else holds its slot a
latest-only subscriber is handed records of real publishes, after the first value
always a value, and ordinals that never decrease. -/
theorem never_regresses {e : Nat} {w : World T} {tk : Takes T}
    (hw : (handing T size).Reached (fun q _ => SoleHolder e q.1) (w, tk))
    (hlat : (w.subs e).history.isLatest = true) : NeverRegresses e w tk := by
  have hrec := recordInv_reached hw
  have hread := readerInv_reached hw hlat
  exact ⟨hrec.ordinals, fun r hr => hrec.stored r (hread.held r hr).1, hread.order,
    takesEnd e w⟩

theorem lonely_handing {ok : World T × Takes T → Act T → Prop} :
    (handing T size).Reached ok (lonely T, {}) :=
  .start ⟨lonely_fresh T, rfl⟩

theorem Few.sole {k : Nat} {w : World T} (h : Few 1 k w) : SoleHolder 0 w := by
  intro _ i _ e' he _ hi
  rw [h.1 e' (Nat.one_le_iff_ne_zero.mpr he)] at hi
  rcases hi with h0 | h0 <;> cases h0

/-- Subscriber 0 alone, and the first two publishers. -/
def aloneCheck (q : World T × Takes T) (a : Act T) : Bool := stayCheck 1 2 q.1 a

theorem reached_of_alone {as : List (Act T)} {w : World T} {tk : Takes T}
    (h : (handing T size).execOk aloneCheck as (lonely T, {}) = some (w, tk)) :
    (handing T size).Reached (fun q _ => SoleHolder 0 q.1) (w, tk) := by
  have hkeeps : ∀ q a q', Few 1 2 q.1 → aloneCheck q a = true →
      (handing T size).step q a = some q' → Few 1 2 q'.1 :=
    fun _ _ _ hJ hc hs => stayCheck_keeps hJ hc (Machine.withHistory_step hs).1
  exact Machine.reached_of_execOk (J := fun q => Few 1 2 q.1) (fun _ _ hJ _ => hJ.sole) hkeeps
    (lonely_few 1 2) lonely_handing h

/-- A publisher is killed inside the store into the mailbox; the next generation
repairs it to empty and publishes again. The takes in between come from the cache. -/
theorem never_regresses_restart : ∃ (w : World Nat) (tk : Takes Nat),
    (handing Nat 8).Reached (fun q _ => SoleHolder 0 q.1) (w, tk) ∧
      (tk.taken 0).map (Option.map (·.ordinal)) = [none, some 1, some 1, some 1, some 3] ∧
      NeverRegresses 0 w tk := by
  have hrun : ((handing Nat 8).execOk aloneCheck
      (subGo 0 13 ++ .sub 0 .takeLatest :: subGo 0 2 ++ pubGo 0 23 ++
        .pub 0 (.publish { value := 10 }) :: pubGo 0 28 ++ .sub 0 .takeLatest :: subGo 0 7 ++
        .pub 0 (.publish { value := 20 }) :: pubGo 0 7 ++
        .die 101 :: .sub 0 .takeLatest :: subGo 0 5 ++ pubGo 1 25 ++
        .sub 0 .takeLatest :: subGo 0 5 ++ .pub 1 (.publish { value := 30 }) :: pubGo 1 27 ++
        .sub 0 .takeLatest :: subGo 0 7) (lonely Nat, {})).map
        (fun q => ((q.2.taken 0).map (Option.map (·.ordinal)), wiredCheck q.1)) =
      some ([none, some 1, some 1, some 1, some 3], true) := by decide +kernel
  obtain ⟨⟨w, tk⟩, hw, hf⟩ := Option.map_eq_some_iff.mp hrun
  simp only [Prod.mk.injEq] at hf
  have hr := reached_of_alone hw
  obtain ⟨-, h2, -⟩ := wired_of_check hf.2
  exact ⟨w, tk, hr, hf.1, never_regresses hr h2⟩

end Xmmsg.Shm
