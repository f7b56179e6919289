import Xmmsg.Shm.Snapshot
import Xmmsg.Sys.Progress

/-!
# Opening a segment from outside

`IntrospectReader` maps a segment read-only while others may still be making it, and the
operator may unlink the name at any time and let the next participant make another
segment under it. `Open` looks at the size, then at the flag the creator sets last, and
only then at the identity fields; `Snapshot` copies those fields again, whenever it is
asked, from the mapping it has, and everything else that the participants have written.

The readers are put beside the callers of `Rendezvous.lean`, one system call or memory
access at a time, together with the unlinking of the name by `UnlinkSegment`. A reader
step has no way to change the memory it looks at. What the participants share of a segment
is not modelled with the rendezvous, so each access of a reader comes with whatever it
finds there (`Shared`). What has to be found out is that the size an early look found and
the fields a late one finds belong together: a descriptor stays with its object, an object
is sized once, and nobody writes an identity field of an object that is ready.
-/

namespace Xmmsg.Shm

open Xmmsg.Sys

/-! ## Readers -/

/-- The fields `Open` compares, in source order. -/
def openFields : List IdField :=
  [.magic, .layoutVersion, .envelopeVersion, .totalSize, .maxSubscribers]

/-- What `Open` expects in a field of an object of size `n`. -/
def expected (n : Nat) : IdField → Nat
  | .magic => kShmMagic
  | .layoutVersion => kShmLayoutVersion
  | .envelopeVersion => kShmEnvelopeVersion
  | .maxSubscribers => kShmMaxSubscribers
  | _ => n

/-- The verdict on a field that differs. -/
def IdField.verdict : IdField → IntrospectOpenStatus
  | .layoutVersion | .envelopeVersion => .versionSkew
  | _ => .foreign

/-- Where a call stands; `n` is `st_size`. -/
inductive ReaderPc where
  | idle
  | openName
  | stat (o : Nat)
  | map (o n : Nat)
  | readInit (o n : Nat)
  | check (o n : Nat) (rest : List IdField)
  | opened (status : IntrospectOpenStatus)
  | snapshot (o : Nat) (pc : SnapshotPc)

/-- One `IntrospectReader`: its mapping, as an object and `size_`, and the call it is in. -/
structure Reader where
  view : Option (Nat × Nat) := none
  pc : ReaderPc := .idle

def Reader.at' (x : Reader) (pc : ReaderPc) : Reader := { x with pc := pc }

/-- What an access may find beside the rendezvous: whose processes are there, the words the
participants share, and those of the master cell. -/
structure Shared where
  alive : Nat → Bool := fun _ => false
  words : Segment Unit := {}
  master : Seqlock.Cell UInt64 := { words := fun _ => 0 }

/-- One system call or memory access; `ok` says whether a system call succeeds. -/
def readerStep (k : ShmNamespace) (ok : Bool) (z : Shared) (x : Reader) : Option Reader :=
  match x.pc with
  | .openName =>
      match k.name with
      | none => some (x.at' (.opened .unavailable))
      | some o => if ok then some (x.at' (.stat o)) else some (x.at' (.opened .unavailable))
  | .stat o =>
      if ok then
        if (k.objects o).size < kHeaderBytes then some (x.at' (.opened .notReady))
        else some (x.at' (.map o (k.objects o).size))
      else some (x.at' (.opened .unavailable))
  | .map o n =>
      if ok then some (x.at' (.readInit o n)) else some (x.at' (.opened .unavailable))
  | .readInit o n =>
      if (k.objects o).initState = 1 then some (x.at' (.check o n openFields))
      else some (x.at' (.opened .notReady))
  | .check o n (f :: rest) =>
      if (k.objects o).ident f = expected n f then some (x.at' (.check o n rest))
      else some (x.at' (.opened f.verdict))
  | .check o n [] => some { view := some (o, n), pc := .opened .ok }
  | .snapshot o pc =>
      if pc.isDone then none
      else some (x.at' (.snapshot o (snapshotStep z.alive (k.objects o) z.words z.master pc)))
  | .idle | .opened _ => none

/-- In no call. -/
def ReaderPc.atRest : ReaderPc → Bool
  | .idle | .opened _ => true
  | .snapshot _ pc => pc.isDone
  | _ => false

structure Inspection where
  meet : Meeting
  readers : Nat → Reader := fun _ => {}

inductive InspectAct where
  | meet (a : MeetAct)
  | unlink
  | opens (r : Nat)
  | snapshots (r : Nat)
  | look (r : Nat) (ok : Bool) (z : Shared)

def Inspection.put (w : Inspection) (r : Nat) (x : Reader) : Inspection :=
  { w with readers := Function.update w.readers r x }

/-- A step of a caller, `UnlinkSegment`, the start of a call of a reader, or its next
access. A reader that has no mapping takes no snapshot. -/
def inspectStep (w : Inspection) : InspectAct → Option Inspection
  | .meet a => (meetStep w.meet a).map fun m => { w with meet := m }
  | .unlink =>
      some { w with meet := { w.meet with shm := { w.meet.shm with name := none } } }
  | .opens r =>
      if (w.readers r).pc.atRest then some (w.put r ((w.readers r).at' .openName)) else none
  | .snapshots r =>
      if (w.readers r).pc.atRest then
        match (w.readers r).view with
        | none => none
        | some (o, _) => some (w.put r ((w.readers r).at' (.snapshot o .begin)))
      else none
  | .look r ok z => (readerStep w.meet.shm ok z (w.readers r)).map (w.put r)

/-- Any callers with any arguments, any readers, the name free. -/
def inspection : Machine Inspection InspectAct where
  start w := meeting.start w.meet ∧ ∀ r, w.readers r = {}
  step := inspectStep

/-! ## Objects are sized once -/

/-- Only the object a creator is about to size has a size of zero to lose. -/
structure SizeInv (m : Meeting) : Prop where
  unmade : ∀ o, m.shm.created ≤ o → (m.shm.objects o).size = 0
  unsized : ∀ p o, (m.callers p).pc = .truncate o → (m.shm.objects o).size = 0
  sized : ∀ p o, (m.callers p).pc.makes = some o → (m.callers p).pc ≠ .truncate o →
    (m.shm.objects o).size = (m.callers p).args.totalSize

variable {a : AttachArgs} {k k' : ShmNamespace} {ok : Bool} {z : Shared} {pc pc' : OpenPc}
  {m m' : Meeting}

/-- A caller's step sizes an object, the caller's own, or no object. -/
theorem attachStep_size (h : attachStep a k ok pc = some (k', pc')) (o : Nat) :
    (k'.objects o).size = (k.objects o).size ∧ (pc = .truncate o → pc' = .unlink) ∨
      pc = .truncate o ∧ pc' = .mapNew o ∧ (k'.objects o).size = a.totalSize := by
  cases pc with
  | truncate x =>
      simp only [attachStep] at h
      split at h
      · cases h
        rw [modify_objects]
        split
        · next hx =>
            subst hx
            exact .inr ⟨rfl, rfl, rfl⟩
        · next hx =>
            refine .inl ⟨rfl, fun h0 => ?_⟩
            cases h0
            exact absurd rfl hx
      · cases h
        exact .inl ⟨rfl, fun _ => rfl⟩
  | write x rest | compare x rest =>
      left
      cases rest <;> simp only [attachStep] at h <;> (repeat' split at h) <;> cases h <;>
        first | (rw [modify_objects]; split <;> simp_all) | simp
  | markReady x | refuseHash x | refuseSize x | refusePid x | refuseCount x =>
      left
      simp only [attachStep] at h
      cases h
      rw [modify_objects]
      split <;> simp_all
  | _ =>
      left
      simp only [attachStep] at h
      (repeat' split at h) <;> cases h <;> simp

/-- Two callers do not make one object. -/
theorem MeetInv.maker {t : Trail} (hi : MeetInv m t) {p q o : Nat}
    (hp : (m.callers p).pc.makes = some o) (hq : (m.callers q).pc.makes = some o) : p = q := by
  have hsame := hi.makes p o hp
  rw [hi.makes q o hq] at hsame
  exact (List.cons.inj hsame).1.symm

theorem Stepped.sizes {t : Trail} {p : Nat} (hw : Stepped m m' p ok) (hi : MeetInv m t)
    (hs : SizeInv m) : SizeInv m' := by
  have hmine : ∀ {o : Nat}, (m.callers p).pc = .truncate o → (m.callers p).pc.makes = some o := by
    intro o h0
    rw [h0]
    rfl
  refine ⟨fun o ho => ?_, fun q o hq => ?_, fun q o hm hne => ?_⟩
  · have hle : m.shm.created ≤ o := by
      rcases attachStep_created hw.step with hc | ⟨hc, -⟩ <;> omega
    rcases attachStep_size hw.step o with ⟨hsize, -⟩ | ⟨hpc, -, -⟩
    · rw [hsize]
      exact hs.unmade o hle
    · have hcr := hi.makes p o (hmine hpc)
      rw [(hi.fresh o hle).1] at hcr
      cases hcr
  · rcases attachStep_size hw.step o with ⟨hsize, -⟩ | ⟨hpc, hpc', -⟩
    · rw [hsize]
      by_cases hqp : q = p
      · subst hqp
        exact hs.unmade o (Nat.le_of_eq (hw.entered hi hq).1.symm)
      · rw [hw.other q hqp] at hq
        exact hs.unsized q o hq
    · by_cases hqp : q = p
      · rw [hqp, hpc'] at hq
        cases hq
      · rw [hw.other q hqp] at hq
        exact absurd (hi.maker (by rw [hq]; rfl) (hmine hpc)) hqp
  · by_cases hqp : q = p
    · subst hqp
      rw [hw.args]
      rcases attachStep_makes hw.step hm with ⟨-, h0, -⟩ | ⟨hm0, -, -⟩
      · exact absurd h0 hne
      · rcases attachStep_size hw.step o with ⟨hsize, hun⟩ | ⟨-, -, hsize⟩
        · rw [hsize]
          refine hs.sized q o hm0 fun h0 => ?_
          rw [hun h0] at hm
          cases hm
        · exact hsize
    · rw [hw.other q hqp] at hm hne ⊢
      rcases attachStep_size hw.step o with ⟨hsize, -⟩ | ⟨hpc, -, -⟩
      · rw [hsize]
        exact hs.sized q o hm hne
      · exact absurd (hi.maker hm (hmine hpc)) hqp

/-! ## What a reader has seen stays so -/

/-- What later steps leave alone: the identity of a ready object, and a size that was
set. -/
structure Unmoved (k k' : ShmNamespace) : Prop where
  ready : ∀ o, (k.objects o).initState = 1 →
    (k'.objects o).ident = (k.objects o).ident ∧ (k'.objects o).initState = 1
  size : ∀ o, (k.objects o).size ≠ 0 → (k'.objects o).size = (k.objects o).size

/-- A ready object of size `n`. -/
structure Mappable (k : ShmNamespace) (o n : Nat) : Prop where
  ready : (k.objects o).initState = 1
  size : (k.objects o).size = n
  header : kHeaderBytes ≤ n

/-- What a reader may conclude at each point. -/
def ReaderPc.Fits (k : ShmNamespace) : ReaderPc → Prop
  | .map o n | .readInit o n => (k.objects o).size = n ∧ kHeaderBytes ≤ n
  | .check o n rest => Mappable k o n ∧ rest <:+ openFields
  | .snapshot o pc => pc.Copied (k.objects o).ident ∧ pc.budget ≤ kSnapshotAccesses
  | .opened status => status ≠ .foreign ∧ status ≠ .versionSkew
  | _ => True

structure SightInv (k : ShmNamespace) (x : Reader) : Prop where
  view : ∀ o n, x.view = some (o, n) → Mappable k o n
  pc : x.pc.Fits k
  viewed : ∀ o pc, x.pc = .snapshot o pc → ∃ n, x.view = some (o, n)

theorem Mappable.unmoved {o n : Nat} (h : Mappable k o n) (hq : Unmoved k k') :
    Mappable k' o n where
  ready := (hq.ready o h.ready).2
  size := by
    have hpos : 0 < kHeaderBytes := by decide
    have hne : (k.objects o).size ≠ 0 := by
      rw [h.size]
      exact Nat.ne_of_gt (Nat.lt_of_lt_of_le hpos h.header)
    rw [hq.size o hne, h.size]
  header := h.header

theorem SightInv.unmoved {x : Reader} (h : SightInv k x) (hq : Unmoved k k') : SightInv k' x where
  view o n hv := (h.view o n hv).unmoved hq
  pc := by
    have hpc := h.pc
    have hsize : ∀ {o n}, (k.objects o).size = n ∧ kHeaderBytes ≤ n →
        (k'.objects o).size = n ∧ kHeaderBytes ≤ n := by
      rintro o n ⟨hn, hle⟩
      have hpos : 0 < kHeaderBytes := by decide
      rw [hq.size o (by omega)]
      exact ⟨hn, hle⟩
    cases hx : x.pc with
    | map o n | readInit o n =>
        rw [hx] at hpc
        exact hsize hpc
    | check o n rest =>
        rw [hx] at hpc
        exact ⟨hpc.1.unmoved hq, hpc.2⟩
    | opened status =>
        rw [hx] at hpc
        exact hpc
    | snapshot o pc =>
        rw [hx] at hpc
        obtain ⟨n, hv⟩ := h.viewed o pc hx
        rw [ReaderPc.Fits, (hq.ready o (h.view o n hv).ready).1]
        exact hpc
    | idle | openName | stat => trivial
  viewed := h.viewed

/-- The fields of a mappable object are those its creator passed, and its size is what
its creator asked for. -/
theorem MeetInv.maker_of {t : Trail} (hi : MeetInv m t) (hs : SizeInv m) {o n : Nat}
    (h : Mappable m.shm o n) : ∃ p, (m.callers p).pc = .done .ok (some o) true ∧
      n = (m.callers p).args.totalSize ∧
      ∀ f, (m.shm.objects o).ident f = (m.callers p).args.field f := by
  obtain ⟨p, hp⟩ := hi.ready o h.ready
  have hmakes : (m.callers p).pc.makes = some o := by
    rw [hp]
    rfl
  refine ⟨p, hp, ?_, fun f => hi.written p o hmakes f ?_⟩
  · rw [← h.size]
    refine hs.sized p o hmakes ?_
    rw [hp]
    simp
  · rw [hp]
    simp [OpenPc.unwritten]

/-- So every comparison of `Open` comes out equal. -/
theorem MeetInv.passes {t : Trail} (hi : MeetInv m t) (hs : SizeInv m) {o n : Nat}
    (h : Mappable m.shm o n) {f : IdField} (hf : f ∈ openFields) :
    (m.shm.objects o).ident f = expected n f := by
  obtain ⟨p, -, hn, hid⟩ := hi.maker_of hs h
  rw [hid f, hn]
  simp only [openFields, List.mem_cons, List.not_mem_nil, or_false] at hf
  rcases hf with rfl | rfl | rfl | rfl | rfl <;> rfl

/-- A reader's access. -/
theorem readerStep_sight {x x' : Reader} (h : readerStep k ok z x = some x') (hx : SightInv k x)
    (hpass : ∀ {o n f}, Mappable k o n → f ∈ openFields → (k.objects o).ident f = expected n f) :
    SightInv k x' := by
  have hmove : ∀ pc : ReaderPc, pc.Fits k → (∀ o p, pc ≠ .snapshot o p) →
      SightInv k (x.at' pc) :=
    fun pc hpc hno => ⟨hx.view, hpc, fun o p h0 => absurd h0 (hno o p)⟩
  have hpc := hx.pc
  unfold readerStep at h
  cases hat : x.pc with
  | idle | opened =>
      rw [hat] at h
      cases h
  | openName =>
      rw [hat] at h
      simp only at h
      repeat' split at h
      all_goals
        cases h
        exact hmove _ (by simp [ReaderPc.Fits]) (by simp)
  | stat o =>
      rw [hat] at h
      simp only at h
      split at h
      · split at h
        · cases h
          exact hmove _ (by simp [ReaderPc.Fits]) (by simp)
        · next hlt =>
            cases h
            exact hmove _ ⟨rfl, Nat.le_of_not_lt hlt⟩ (by simp)
      · cases h
        exact hmove _ (by simp [ReaderPc.Fits]) (by simp)
  | map o n =>
      rw [hat] at h hpc
      simp only at h
      split at h
      · cases h
        exact hmove _ hpc (by simp)
      · cases h
        exact hmove _ (by simp [ReaderPc.Fits]) (by simp)
  | readInit o n =>
      rw [hat] at h hpc
      simp only at h
      split at h
      · next hready =>
          cases h
          exact hmove _ ⟨⟨hready, hpc.1, hpc.2⟩, List.suffix_refl _⟩ (by simp)
      · cases h
        exact hmove _ (by simp [ReaderPc.Fits]) (by simp)
  | check o n rest =>
      rw [hat] at h hpc
      cases rest with
      | nil =>
          cases h
          refine ⟨fun o' n' hv => ?_, ?_, fun o p h0 => ?_⟩
          · cases hv
            exact hpc.1
          · simp [ReaderPc.Fits]
          · cases h0
      | cons f rest =>
          -- the comparison cannot fail
          simp only [if_pos (hpass hpc.1 (hpc.2.subset List.mem_cons_self))] at h
          cases h
          exact hmove _ ⟨hpc.1, (List.suffix_cons f rest).trans hpc.2⟩ (by simp)
  | snapshot o pc =>
      rw [hat] at h hpc
      obtain ⟨hcopied, hbudget⟩ := hpc
      simp only at h
      split at h
      · cases h
      · next hnot =>
          cases h
          have hlt : (snapshotStep z.alive (k.objects o) z.words z.master pc).budget < pc.budget :=
            snapshotStep_budget (Bool.eq_false_iff.mpr hnot)
          refine ⟨hx.view, ⟨snapshotStep_copied hcopied, by omega⟩, fun o' p h0 => ?_⟩
          cases h0
          exact hx.viewed o pc hat

/-! ## Every run -/

structure InspectInv (w : Inspection) : Prop where
  meet : ∃ t, MeetInv w.meet t
  sizes : SizeInv w.meet
  sight : ∀ r, SightInv w.meet.shm (w.readers r)

variable {w w' : Inspection} {act : InspectAct}

theorem meetStep_unmoved {b : MeetAct} {t : Trail} (h : meetStep m b = some m') (hi : MeetInv m t)
    (hs : SizeInv m) : Unmoved m.shm m'.shm ∧ SizeInv m' := by
  cases b with
  | die p =>
      rcases meetStep_cases h with ⟨q, -, hk, hpc⟩ | ⟨q, ok, pc', hq, -⟩
      · rw [hk]
        refine ⟨⟨fun o ho => ⟨rfl, ho⟩, fun o _ => rfl⟩, ?_, fun q o hq => ?_, fun q o hm hne => ?_⟩
        · rw [hk]
          exact hs.unmade
        · rw [(hpc q).1] at hq
          rw [hk]
          exact hs.unsized q o hq
        · rw [(hpc q).1] at hm hne
          rw [hk, (hpc q).2]
          exact hs.sized q o hm hne
      · cases hq
  | go p ok =>
      obtain ⟨-, hw⟩ := stepped_of_meetStep h
      refine ⟨⟨fun o ho => hw.frozen hi ho, fun o ho => ?_⟩, hw.sizes hi hs⟩
      rcases attachStep_size hw.step o with ⟨hsize, -⟩ | ⟨hpc, -, -⟩
      · exact hsize
      · exact absurd (hs.unsized p o hpc) ho

/-- What a step does: it moves the callers, or it takes the name away, or it is one
reader's and changes that reader only. -/
theorem inspectStep_cases (h : inspectStep w act = some w') :
    (∃ b, act = .meet b ∧ meetStep w.meet b = some w'.meet ∧ w'.readers = w.readers) ∨
      (w'.meet.shm = { w.meet.shm with name := none } ∧ w'.meet.callers = w.meet.callers ∧
        w'.readers = w.readers) ∨
      ∃ r x, w' = w.put r x ∧
        (x = (w.readers r).at' .openName ∨
          (∃ o n, (w.readers r).view = some (o, n) ∧
            x = (w.readers r).at' (.snapshot o .begin)) ∨
          ∃ ok z, readerStep w.meet.shm ok z (w.readers r) = some x) := by
  cases act with
  | meet b =>
      obtain ⟨m, hm, rfl⟩ := Option.map_eq_some_iff.mp h
      exact .inl ⟨b, rfl, hm, rfl⟩
  | unlink =>
      cases h
      exact .inr (.inl ⟨rfl, rfl, rfl⟩)
  | opens r =>
      simp only [inspectStep] at h
      split at h
      · cases h
        exact .inr (.inr ⟨r, _, rfl, .inl rfl⟩)
      · cases h
  | snapshots r =>
      simp only [inspectStep] at h
      split at h
      · split at h
        · cases h
        · next o n hv =>
            cases h
            exact .inr (.inr ⟨r, _, rfl, .inr (.inl ⟨o, n, hv, rfl⟩)⟩)
      · cases h
  | look r ok z =>
      obtain ⟨x, hx, rfl⟩ := Option.map_eq_some_iff.mp h
      exact .inr (.inr ⟨r, x, rfl, .inr (.inr ⟨ok, z, hx⟩)⟩)

theorem inspectStep_unmoved (h : inspectStep w act = some w') (hi : InspectInv w) :
    Unmoved w.meet.shm w'.meet.shm := by
  obtain ⟨t, ht⟩ := hi.meet
  rcases inspectStep_cases h with ⟨b, -, hm, -⟩ | ⟨hk, -, -⟩ | ⟨r, x, rfl, -⟩
  · exact (meetStep_unmoved hm ht hi.sizes).1
  · rw [hk]
    exact ⟨fun o ho => ⟨rfl, ho⟩, fun o _ => rfl⟩
  · exact ⟨fun o ho => ⟨rfl, ho⟩, fun o _ => rfl⟩

theorem inspectInv_step (h : inspectStep w act = some w') (hi : InspectInv w) : InspectInv w' := by
  have hun := inspectStep_unmoved h hi
  obtain ⟨t, ht⟩ := hi.meet
  rcases inspectStep_cases h with ⟨b, -, hm, hr⟩ | ⟨hk, hc, hr⟩ | ⟨r, x, rfl, hx⟩
  · refine ⟨⟨_, meetInv_step hm ht⟩, (meetStep_unmoved hm ht hi.sizes).2, fun r => ?_⟩
    rw [hr]
    exact (hi.sight r).unmoved hun
  · have hmeet : w'.meet = { w.meet with shm := { w.meet.shm with name := none } } := by
      cases w' with
      | mk meet readers =>
          cases meet
          simp_all
    refine ⟨⟨t, ?_⟩, ?_, fun r => ?_⟩
    · rw [hmeet]
      exact ⟨ht.fresh, ht.sole, ht.makes, ht.written, ht.ready, ht.compares, ht.counted, ht.nodup,
        ht.refusers⟩
    · rw [hmeet]
      exact ⟨hi.sizes.unmade, hi.sizes.unsized, hi.sizes.sized⟩
    · rw [hr]
      exact (hi.sight r).unmoved hun
  · refine ⟨⟨t, ht⟩, hi.sizes, fun q => ?_⟩
    by_cases hq : q = r
    · subst hq
      rw [show (w.put q x).readers q = x from Function.update_self ..]
      have hold := hi.sight q
      rcases hx with rfl | ⟨o, n, hv, rfl⟩ | ⟨ok, z, hx⟩
      · refine ⟨hold.view, trivial, fun o p h0 => ?_⟩
        cases h0
      · refine ⟨hold.view, ⟨copied_begin _, Nat.le_of_eq budget_begin⟩, fun o' p h0 => ?_⟩
        cases h0
        exact ⟨n, hv⟩
      · exact readerStep_sight hx hold fun hmap hf => ht.passes hi.sizes hmap hf
    · rw [show (w.put r x).readers q = w.readers q from Function.update_of_ne hq ..]
      exact hi.sight q

theorem inspectInv_reached (h : inspection.Reached anyStep w) : InspectInv w := by
  refine h.invariant (P := InspectInv) ?_ ?_
  · rintro w ⟨hmeet, hreaders⟩
    have hinv : MeetInv w.meet {} :=
      meetInv_reached (s := (w.meet, {})) (.start ⟨hmeet, rfl⟩)
    obtain ⟨hshm, hpc⟩ := hmeet
    refine ⟨⟨{}, hinv⟩, ⟨fun o _ => ?_, fun p o h0 => ?_, fun p o h0 _ => ?_⟩, fun r => ?_⟩
    · rw [hshm]
    · rw [hpc p] at h0
      cases h0
    · rw [hpc p] at h0
      cases h0
    · rw [hreaders r]
      refine ⟨fun o n h0 => ?_, trivial, fun o p h0 => ?_⟩
      · cases h0
      · cases h0
  · intro w act w' _ hi _ hs
    exact inspectInv_step hs hi

/-! ## A reader is never held up -/

/-- How many more accesses of its own a call takes at most. -/
def ReaderPc.budget : ReaderPc → Nat
  | .openName => 10
  | .stat _ => 9
  | .map _ _ => 8
  | .readInit _ _ => 7
  | .check _ _ rest => rest.length + 1
  | .snapshot _ pc => pc.budget
  | .idle | .opened _ => 0

/-- `Open` takes ten: three system calls, the flag, five fields, and the mapping is kept. -/
def kOpenAccesses : Nat := 10

/-- The bound of the call the reader is in. -/
def ReaderPc.bound : ReaderPc → Nat
  | .snapshot _ _ => kSnapshotAccesses
  | _ => kOpenAccesses

def InspectAct.isLookOf (r : Nat) : InspectAct → Bool
  | .look q _ _ => q == r
  | _ => false

theorem readerStep_budget {x x' : Reader} (h : readerStep k ok z x = some x') :
    x'.pc.budget < x.pc.budget := by
  unfold readerStep at h
  cases hat : x.pc with
  | idle | opened =>
      rw [hat] at h
      cases h
  | openName | stat | map | readInit =>
      rw [hat] at h
      simp only at h
      repeat' split at h
      all_goals
        cases h
        simp [ReaderPc.budget, Reader.at', openFields]
  | check o n rest =>
      rw [hat] at h
      cases rest with
      | nil =>
          cases h
          exact Nat.one_pos
      | cons f rest =>
          simp only at h
          split at h
          · cases h
            exact Nat.lt_succ_self _
          · cases h
            exact Nat.succ_pos _
  | snapshot o pc =>
      rw [hat] at h
      simp only at h
      split at h
      · cases h
      · next hnot =>
          cases h
          exact snapshotStep_budget (Bool.eq_false_iff.mpr hnot)

theorem readerStep_enabled (k : ShmNamespace) (ok : Bool) (z : Shared) {x : Reader}
    (h : x.pc.atRest = false) : ∃ x', readerStep k ok z x = some x' := by
  unfold readerStep
  cases hat : x.pc with
  | idle | opened =>
      rw [hat] at h
      cases h
  | openName =>
      simp only
      split
      · exact ⟨_, rfl⟩
      · split <;> exact ⟨_, rfl⟩
  | stat =>
      simp only
      split
      · split <;> exact ⟨_, rfl⟩
      · exact ⟨_, rfl⟩
  | map | readInit =>
      simp only
      split <;> exact ⟨_, rfl⟩
  | check o n rest =>
      cases rest with
      | nil => exact ⟨_, rfl⟩
      | cons f rest =>
          simp only
          split <;> exact ⟨_, rfl⟩
  | snapshot o pc =>
      rw [hat] at h
      simp only [show pc.isDone = false from h]
      exact ⟨_, rfl⟩

theorem ReaderPc.budget_pos {pc : ReaderPc} (h : pc.atRest = false) : 0 < pc.budget := by
  cases pc with
  | idle | opened => cases h
  | openName | stat | map | readInit => simp [budget]
  | check o n rest => exact Nat.succ_pos _
  | snapshot o pc => exact SnapshotPc.budget_pos h

theorem SightInv.budget_le {x : Reader} (h : SightInv k x) : x.pc.budget ≤ x.pc.bound := by
  have hpc := h.pc
  cases hat : x.pc with
  | idle | openName | stat | map | readInit | opened =>
      simp [ReaderPc.budget, ReaderPc.bound, kOpenAccesses]
  | check o n rest =>
      rw [hat] at hpc
      have hlen : rest.length ≤ 5 := hpc.2.length_le
      exact Nat.le_trans (Nat.succ_le_succ hlen) (show 6 ≤ kOpenAccesses by decide)
  | snapshot o pc =>
      rw [hat] at hpc
      exact hpc.2

/-- Nobody else's step is felt by a reader in a call. -/
theorem reader_paced (r : Nat) : inspection.Paced anyStep (InspectAct.isLookOf r)
    (fun w => (w.readers r).pc.atRest = false) (fun w => (w.readers r).pc.budget) where
  left hb := ReaderPc.budget_pos hb
  mine := by
    intro w act w' _ hown _ hst
    cases act with
    | look q ok z =>
        have hq : q = r := eq_of_beq hown
        subst hq
        obtain ⟨x, hx, rfl⟩ := Option.map_eq_some_iff.mp hst
        rw [show (w.put q x).readers q = x from Function.update_self ..]
        exact readerStep_budget hx
    | meet | unlink | opens | snapshots => cases hown
  theirs := by
    intro w act w' hb hown _ hst
    have hother : ∀ {q : Nat} (x : Reader), q ≠ r →
        ((w.put q x).readers r).pc.budget ≤ (w.readers r).pc.budget := by
      intro q x hq
      rw [show (w.put q x).readers r = w.readers r from Function.update_of_ne (Ne.symm hq) ..]
    cases act with
    | meet b =>
        obtain ⟨m, -, rfl⟩ := Option.map_eq_some_iff.mp hst
        exact Nat.le_refl _
    | unlink =>
        cases hst
        exact Nat.le_refl _
    | opens q =>
        simp only [inspection, inspectStep] at hst
        split at hst
        · next hq =>
            cases hst
            refine hother _ fun h0 => ?_
            rw [h0, hb] at hq
            cases hq
        · cases hst
    | snapshots q =>
        simp only [inspection, inspectStep] at hst
        split at hst
        · next hq =>
            split at hst
            · cases hst
            · cases hst
              refine hother _ fun h0 => ?_
              rw [h0, hb] at hq
              cases hq
        · cases hst
    | look q ok z =>
        obtain ⟨x, -, rfl⟩ := Option.map_eq_some_iff.mp hst
        refine hother x fun h0 => ?_
        rw [h0] at hown
        simp [InspectAct.isLookOf] at hown

/-! ## A ready segment is found -/

/-- Alone, a reader in the middle of its comparisons comes to the end of them. -/
theorem check_run {r o n : Nat} {x : Reader} (hpass : ∀ f ∈ openFields,
    (w.meet.shm.objects o).ident f = expected n f) : ∀ {rest : List IdField}, rest <:+ openFields →
    inspection.Run anyStep (w.put r (x.at' (.check o n rest)))
      (List.replicate (rest.length + 1) (.look r true {}))
      (w.put r { view := some (o, n), pc := .opened .ok }) := by
  intro rest
  induction rest with
  | nil =>
      intro _
      refine .cons trivial ?_ (.nil _)
      simp [inspection, inspectStep, Inspection.put, readerStep, Reader.at']
  | cons f rest ih =>
      intro hsuf
      refine .cons (t := w.put r (x.at' (.check o n rest))) trivial ?_
        (ih ((List.suffix_cons f rest).trans hsuf))
      have heq := hpass f (hsuf.subset List.mem_cons_self)
      simp [inspection, inspectStep, Inspection.put, readerStep, Reader.at', heq]

/-- The accesses of an undisturbed `Open`. -/
def openRun (r : Nat) : List InspectAct :=
  .opens r :: List.replicate kOpenAccesses (.look r true {})

theorem open_run {r o : Nat} (hi : InspectInv w) (hrest : (w.readers r).pc.atRest = true)
    (hname : w.meet.shm.name = some o) (hready : (w.meet.shm.objects o).initState = 1)
    (hsize : kHeaderBytes ≤ (w.meet.shm.objects o).size) :
    inspection.Run anyStep w (openRun r)
      (w.put r { view := some (o, (w.meet.shm.objects o).size), pc := .opened .ok }) := by
  obtain ⟨t, ht⟩ := hi.meet
  have hnot : ¬ (w.meet.shm.objects o).size < kHeaderBytes := Nat.not_lt.mpr hsize
  have hpass : ∀ f ∈ openFields, (w.meet.shm.objects o).ident f =
      expected (w.meet.shm.objects o).size f :=
    fun f hf => ht.passes hi.sizes ⟨hready, rfl, hsize⟩ hf
  let x := w.readers r
  refine .cons (t := w.put r (x.at' .openName)) trivial ?_ ?_
  · simp [inspection, inspectStep, hrest, x]
  refine .cons (t := w.put r (x.at' (.stat o))) trivial ?_ ?_
  · simp [inspection, inspectStep, Inspection.put, readerStep, Reader.at', hname]
  refine .cons (t := w.put r (x.at' (.map o (w.meet.shm.objects o).size))) trivial ?_ ?_
  · simp [inspection, inspectStep, Inspection.put, readerStep, Reader.at', hnot]
  refine .cons (t := w.put r (x.at' (.readInit o (w.meet.shm.objects o).size))) trivial ?_ ?_
  · simp [inspection, inspectStep, Inspection.put, readerStep, Reader.at']
  refine .cons (t := w.put r (x.at' (.check o (w.meet.shm.objects o).size openFields)))
    trivial ?_ ?_
  · simp [inspection, inspectStep, Inspection.put, readerStep, Reader.at', hready]
  exact check_run hpass (List.suffix_refl _)

/-! ## What a reader may rely on -/

structure Trustworthy (w : Inspection) : Prop where
  /-- `Open` never takes a segment of this library for something else. -/
  verdict : ∀ r status, (w.readers r).pc = .opened status →
    status = .ok ∨ status = .notReady ∨ status = .unavailable
  /-- A mapping covers all of an object whose creator has finished. -/
  mapped : ∀ r o n, (w.readers r).view = some (o, n) → (w.meet.shm.objects o).size = n ∧
    ∃ p, (w.meet.callers p).pc = .done .ok (some o) true ∧
      n = (w.meet.callers p).args.totalSize ∧
      ∀ f, (w.meet.shm.objects o).ident f = (w.meet.callers p).args.field f
  /-- A snapshot has the identity that creator passed. -/
  snapshot : ∀ r o out, (w.readers r).pc = .snapshot o (.done out) → ∃ n p,
    (w.readers r).view = some (o, n) ∧ (w.meet.callers p).pc = .done .ok (some o) true ∧
      ∀ f ∈ snapshotFields, out.ident f = f.word ((w.meet.callers p).args.field f)
  /-- Whatever happens to the name and to the participants, what is mapped stays. -/
  lasting : ∀ acts w' r o n, inspection.exec acts w = some w' →
    (w.readers r).view = some (o, n) → Mappable w'.meet.shm o n ∧
      (w'.meet.shm.objects o).ident = (w.meet.shm.objects o).ident
  /-- A call returns within its bound of accesses of its own, the retries of the master read
  among them, each of which can be taken. -/
  prompt : ∀ r, (w.readers r).pc.atRest = false →
    (∀ ok z, ∃ w', inspectStep w (.look r ok z) = some w') ∧
      inspection.Within anyStep (InspectAct.isLookOf r) (w.readers r).pc.bound w
        fun u => (u.readers r).pc.atRest = true
  /-- A segment that is ready under the name is opened. -/
  finds : ∀ r o, (w.readers r).pc.atRest = true → w.meet.shm.name = some o →
    (w.meet.shm.objects o).initState = 1 → kHeaderBytes ≤ (w.meet.shm.objects o).size →
    ∃ w', inspection.Run anyStep w (openRun r) w' ∧ (w'.readers r).pc = .opened .ok ∧
      (w'.readers r).view = some (o, (w.meet.shm.objects o).size)

theorem exec_lasting {acts : List InspectAct} {w w' : Inspection} {o n : Nat} (hi : InspectInv w)
    (hmap : Mappable w.meet.shm o n) (h : inspection.exec acts w = some w') :
    Mappable w'.meet.shm o n ∧ (w'.meet.shm.objects o).ident = (w.meet.shm.objects o).ident := by
  induction acts generalizing w with
  | nil =>
      cases h
      exact ⟨hmap, rfl⟩
  | cons act acts ih =>
      rw [Machine.exec] at h
      split at h
      · cases h
      · next w1 h1 =>
          have hun := inspectStep_unmoved h1 hi
          obtain ⟨hmap', hid⟩ := ih (inspectInv_step h1 hi) (hmap.unmoved hun) h
          exact ⟨hmap', hid.trans (hun.ready o hmap.ready).1⟩

/-- Any callers, any crash points, the name unlinked at any time, any readers. -/
theorem open_trustworthy (h : inspection.Reached anyStep w) : Trustworthy w := by
  have hi := inspectInv_reached h
  obtain ⟨t, ht⟩ := hi.meet
  refine ⟨fun r status hpc => ?_, fun r o n hv => ?_, fun r o out hpc => ?_,
    fun acts w' r o n hex hv => exec_lasting hi ((hi.sight r).view o n hv) hex, fun r hb => ?_,
    fun r o hrest hname hready hsize => ?_⟩
  · have hfits := (hi.sight r).pc
    rw [hpc] at hfits
    cases status with
    | ok => exact .inl rfl
    | notReady => exact .inr (.inl rfl)
    | unavailable => exact .inr (.inr rfl)
    | foreign => exact absurd rfl hfits.1
    | versionSkew => exact absurd rfl hfits.2
  · have hmap := (hi.sight r).view o n hv
    exact ⟨hmap.size, ht.maker_of hi.sizes hmap⟩
  · obtain ⟨n, hv⟩ := (hi.sight r).viewed o _ hpc
    obtain ⟨p, hp, -, hid⟩ := ht.maker_of hi.sizes ((hi.sight r).view o n hv)
    have hfits := (hi.sight r).pc
    rw [hpc] at hfits
    refine ⟨n, p, hv, hp, fun f hf => ?_⟩
    rw [← hid f]
    exact hfits.1 f hf
  · refine ⟨fun ok z => ?_, ?_⟩
    · obtain ⟨x, hx⟩ := readerStep_enabled w.meet.shm ok z hb
      exact ⟨w.put r x, by rw [inspectStep, hx]; rfl⟩
    · refine ((reader_paced r).rests (hi.sight r).budget_le).imp h fun u _ hu => ?_
      simpa using hu
  · exact ⟨_, open_run hi hrest hname hready hsize, by simp [Inspection.put],
      by simp [Inspection.put]⟩

/-- What the fields of a snapshot say of the type. -/
def ReaderPc.typed : ReaderPc → Option (UInt64 × UInt64)
  | .snapshot _ pc => pc.result.map fun out => (out.schemaHash, out.payloadSize)
  | _ => none

/-- A look at a half-made segment, a second one when it is ready; then the name is
unlinked, another segment is made under it, and the snapshot is of the first. -/
theorem open_trustworthy_replaced : ∃ w, inspection.Reached anyStep w ∧
    ((w.readers 0).view, w.meet.shm.name, (w.meet.shm.objects 1).ident .schemaHash,
      (w.readers 0).pc.typed) = (some (0, 2000), some 1, 9, some (7, 8)) ∧ Trustworthy w := by
  let args (p : Nat) : AttachArgs := ⟨7 + 2 * p, 8, 8, 2000, 0, 0, p + 1⟩
  let w₀ : Inspection := { meet := { callers := fun p => { args := args p } } }
  let look : InspectAct := .look 0 true {}
  have hrun : (inspection.exec (List.replicate 3 (.meet (.go 0 true)) ++
      .opens 0 :: List.replicate 4 look ++ List.replicate 14 (.meet (.go 0 true)) ++
      openRun 0 ++ .unlink :: List.replicate 17 (.meet (.go 1 true)) ++
      .snapshots 0 :: List.replicate 38 look) w₀).map
        (fun w => ((w.readers 0).view, w.meet.shm.name, (w.meet.shm.objects 1).ident .schemaHash,
          (w.readers 0).pc.typed)) = some (some (0, 2000), some 1, 9, some (7, 8)) := by
    decide +kernel
  obtain ⟨w, hw, hf⟩ := Option.map_eq_some_iff.mp hrun
  have hreach : inspection.Reached anyStep w :=
    Machine.reached_of_exec (.start ⟨⟨rfl, fun _ => rfl⟩, fun _ => rfl⟩) hw
  exact ⟨w, hreach, hf, open_trustworthy hreach⟩

end Xmmsg.Shm
