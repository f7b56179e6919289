import Mathlib.Data.List.Infix
import Xmmsg.Shm.Discovery
import Xmmsg.Shm.Reclaim
import Xmmsg.Shm.Snapshot
import Xmmsg.Shm.Survival

/-!
# What `xmmsg clean` may unlink

Segments are never unlinked by the library. The manual path is the tool: it walks the
names under `/dev/shm`, takes a picture of each segment that validates, and proposes
for unlinking those with nobody left. The picture is not atomic. The publisher's pid is
loaded and probed first, then for each slot its state, its pid and a probe of the pid,
while participants go on wiring, detaching and dying.

A participant that is there for the whole of the picture should be seen, and a segment
where there is nobody for the whole of it should be proposed. `Vigil` is the record of
the two. The second holds in every run that keeps the slots exclusive. For the first the
tool looks at active slots only: a subscriber that is between its CAS and the store of
`kShmSubActive` when its state word is loaded is a live participant that does not count,
and if the picture has no live publisher either, the segment goes.

The picture is `Snapshot` as a whole. Of its forty and more loads a few matter here, and
`LookPc` is what they leave of it; `snapshotStep_look` says that the others change nothing.
-/

namespace Xmmsg.Shm

open Xmmsg.Sys

variable {T : Type} {size : Nat}

/-! ## The tool -/

structure TopicView where
  seg : DiscoveredSegment
  status : IntrospectOpenStatus := .unavailable
  snap : IntrospectSnapshot := {}
  deriving DecidableEq

/-- `DiscoverXmmsgSegments`, given the entries of the directory. -/
def discoverXmmsgSegments (entries : List (List Char)) : List DiscoveredSegment :=
  entries.filterMap fun entry => parseSegmentName ('/' :: entry)

/-- `Collect`. What `Open` answers for a name, and what `Snapshot` then returns, are
the state of the system. -/
def collect (domainFilter : List Char) (openStatus : List Char → IntrospectOpenStatus)
    (snapshot : List Char → IntrospectSnapshot) (entries : List (List Char)) : List TopicView :=
  (discoverXmmsgSegments entries).filterMap fun seg =>
    if !domainFilter.isEmpty && seg.isolationKey != domainFilter then none
    else
      match openStatus seg.name with
      | .foreign => none
      | .ok => some { seg, status := .ok, snap := snapshot seg.name }
      | status => some { seg, status }

/-- The candidates of `CmdClean`, and how many segments it skipped. -/
def cmdClean (domainFilter : List Char) (openStatus : List Char → IntrospectOpenStatus)
    (snapshot : List Char → IntrospectSnapshot) (entries : List (List Char)) :
    List TopicView × Nat :=
  let views := collect domainFilter openStatus snapshot entries
  (views.filter fun view => view.status = .ok && !view.snap.pubLive && !view.snap.subLive,
    views.countP fun view => view.status ≠ .ok)

/-- A candidate was validated, and its picture shows nobody. -/
theorem cmdClean_sound {domainFilter : List Char}
    {openStatus : List Char → IntrospectOpenStatus} {snapshot : List Char → IntrospectSnapshot}
    {entries : List (List Char)} {view : TopicView}
    (h : view ∈ (cmdClean domainFilter openStatus snapshot entries).1) :
    (snapshot view.seg.name).pubLive = false ∧ (snapshot view.seg.name).subLive = false := by
  obtain ⟨hmem, htest⟩ := List.mem_filter.mp h
  obtain ⟨seg, -, hview⟩ := List.mem_filterMap.mp hmem
  simp only [Bool.and_eq_true, decide_eq_true_eq, Bool.not_eq_true'] at htest
  obtain ⟨⟨hok, hpub⟩, hsub⟩ := htest
  split at hview
  · cases hview
  · split at hview
    · cases hview
    · cases hview
      exact ⟨hpub, hsub⟩
    · next _ hne =>
      cases hview
      exact absurd hok hne

/-- And every such segment is a candidate when nothing is filtered. -/
theorem cmdClean_complete {openStatus : List Char → IntrospectOpenStatus}
    {snapshot : List Char → IntrospectSnapshot} {entries : List (List Char)} {entry : List Char}
    {seg : DiscoveredSegment} (hmem : entry ∈ entries)
    (hparse : parseSegmentName ('/' :: entry) = some seg) (hok : openStatus seg.name = .ok)
    (hpub : (snapshot seg.name).pubLive = false) (hsub : (snapshot seg.name).subLive = false) :
    ∃ view ∈ (cmdClean [] openStatus snapshot entries).1, view.seg = seg := by
  refine ⟨{ seg, status := .ok, snap := snapshot seg.name }, List.mem_filter.mpr ⟨?_, ?_⟩, rfl⟩
  · refine List.mem_filterMap.mpr ⟨seg, List.mem_filterMap.mpr ⟨entry, hmem, hparse⟩, ?_⟩
    simp [hok]
  · simp [hpub, hsub]

/-! ## The picture -/

/-- What the rest of a segment holds at the time of an access: the words that name nobody,
and those of the master cell. -/
structure Elsewhere where
  object : ShmObject := {}
  master : Seqlock.Cell UInt64 := { words := fun _ => 0 }

inductive WatchAct (T : Type) where
  | world (a : Act T)
  | look (x : Elsewhere)

/-- The participants of a segment, and a tool that takes a picture of it, and another
one when that is done. -/
def inspected (T : Type) (size : Nat) : Machine (World T × SnapshotPc) (WatchAct T) where
  start q := q.1.Fresh ∧ q.2 = .begin
  step q
    | .world a => (q.1.step size a).map fun w => (w, q.2)
    | .look x => some (q.1, snapshotStep q.1.alive x.object q.1.seg x.master q.2)

/-- Nobody alive owns the publisher slot or a subscriber slot. -/
def World.Vacant (w : World T) : Prop :=
  (∀ p, w.livePub p → (w.pubs p).pc.owning = false) ∧ ∀ i, ¬ w.Owned i

/-- What has been so since the picture was begun. -/
structure Vigil where
  pubs : Nat → Prop
  subs : Nat → Nat → Prop
  vacant : Prop

def noteVigil (q : World T × SnapshotPc) (_ : WatchAct T) (q' : World T × SnapshotPc)
    (v : Vigil) : Vigil where
  pubs p := (q.2 = .begin ∨ v.pubs p) ∧ q'.1.livePub p ∧ (q'.1.pubs p).pc.owning = true
  subs e i := (q.2 = .begin ∨ v.subs e i) ∧ q'.1.liveSub e ∧ (q'.1.subs e).pc.Holds i
  vacant := (q.2 = .begin ∨ v.vacant) ∧ q'.1.Vacant

def watched (T : Type) (size : Nat) : Machine ((World T × SnapshotPc) × Vigil) (WatchAct T) :=
  (inspected T size).withHistory ⟨fun _ => False, fun _ _ => False, False⟩ noteVigil

/-- What `clean` owes to a segment whose picture is `s`. -/
structure Spares (s : IntrospectSnapshot) (v : Vigil) : Prop where
  kept : (∃ p, v.pubs p) ∨ (∃ e i, v.subs e i) → ∀ domainFilter openStatus snapshot entries,
    ∀ view ∈ (cmdClean domainFilter openStatus snapshot entries).1, snapshot view.seg.name ≠ s
  cleaned : v.vacant → ∀ openStatus snapshot entries entry seg, entry ∈ entries →
    parseSegmentName ('/' :: entry) = some seg → openStatus seg.name = .ok →
    snapshot seg.name = s → ∃ view ∈ (cmdClean [] openStatus snapshot entries).1, view.seg = seg

/-- The slots stay exclusive, and a picture that has found no live publisher loads no slot's
state while a live subscriber is on the way from its CAS on it to `kShmSubActive`. -/
def CleanDiscipline (q : World T × SnapshotPc) : WatchAct T → Prop
  | .world a => SlotDiscipline q.1 a
  | .look _ => ∀ i out, q.2 = .state i out → out.pubLive = false →
      ∀ e, q.1.liveSub e → (q.1.subs e).pc.claiming ≠ some i

/-! ## What matters of it -/

/-- The part of an `IntrospectSubSlot` that says who is there. -/
structure HeldSlot where
  state : SlotState
  alive : Bool
  deriving DecidableEq

/-- The part of an `IntrospectSnapshot` that says who is there. -/
structure IntrospectHolders where
  pubLive : Bool := false
  subscribers : List HeldSlot := []
  deriving DecidableEq

def IntrospectSubSlot.held (sub : IntrospectSubSlot) : HeldSlot := ⟨sub.state, sub.alive⟩

def IntrospectSnapshot.holders (s : IntrospectSnapshot) : IntrospectHolders :=
  ⟨s.pubLive, s.subscribers.map IntrospectSubSlot.held⟩

/-- Some active slot of a live process. -/
def IntrospectHolders.subLive (s : IntrospectHolders) : Bool :=
  s.subscribers.any fun sub => sub.state = .active && sub.alive

theorem holders_subLive (s : IntrospectSnapshot) : s.holders.subLive = s.subLive := by
  simp only [IntrospectHolders.subLive, IntrospectSnapshot.holders, List.any_map]
  rfl

/-- The loads of `Snapshot` that look for somebody. -/
inductive LookPc where
  | idle
  | pubProbe (pid : Nat)
  | state (s : IntrospectHolders) (i : Nat)
  | pid (s : IntrospectHolders) (i : Nat) (st : SlotState)
  | probe (s : IntrospectHolders) (i : Nat) (st : SlotState) (pid : Nat)
  | done (s : IntrospectHolders)
  deriving DecidableEq

def lookStep (alive : Nat → Bool) (h : Segment T) : LookPc → LookPc
  | .idle => .pubProbe h.pubPid
  | .pubProbe pid => .state { pubLive := pid != 0 && alive pid } 0
  | .state s i =>
      if i < kShmMaxSubscribers then
        match (h.subSlots i).state with
        | .free => .state s (i + 1)
        | st => .pid s i st
      else .done s
  | .pid s i st => .probe s i st (h.subSlots i).pid
  | .probe s i st pid =>
      .state { s with subscribers := s.subscribers ++ [⟨st, pid != 0 && alive pid⟩] } (i + 1)
  | .done _ => .idle

/-- What `Snapshot` has of the two, by the loads it has still to make. -/
def SnapshotPc.look : SnapshotPc → LookPc
  | .header next rest out =>
      if .pubPid ∈ next :: rest then .idle
      else if .pubProbe ∈ next :: rest then .pubProbe out.pubPid
      else .state out.holders 0
  | .state i out => .state out.holders i
  | .slot i next rest sub out =>
      if .pid ∈ next :: rest then .pid out.holders i sub.state
      else if .probe ∈ next :: rest then .probe out.holders i sub.state sub.pid
      else .state (out.push sub).holders (i + 1)
  | .master _ out | .done out => .done out.holders

/-- The loads come in the order of the source. -/
def SnapshotPc.Taking : SnapshotPc → Prop
  | .header next rest out => next :: rest <:+ headerLoads ∧ out.subscribers = []
  | .slot _ next rest _ _ => next :: rest <:+ slotLoads
  | _ => True

section Look

variable {alive : Nat → Bool} {m : ShmObject} {h : Segment T} {c : Seqlock.Cell UInt64}

theorem headerLoad_order {next : HeaderLoad} {rest : List HeaderLoad}
    (hs : next :: rest <:+ headerLoads) :
    (next = .pubPid → .pubPid ∉ rest ∧ .pubProbe ∈ rest) ∧
      (next = .pubProbe → .pubPid ∉ rest ∧ .pubProbe ∉ rest) := by
  have hall : ∀ l ∈ headerLoads.tails, (l.head? = some .pubPid → .pubPid ∉ l.tail ∧
      .pubProbe ∈ l.tail) ∧ (l.head? = some .pubProbe → .pubPid ∉ l.tail ∧ .pubProbe ∉ l.tail) := by
    decide
  obtain ⟨hpid, hprobe⟩ := hall _ ((List.mem_tails _ _).mpr hs)
  exact ⟨fun h0 => hpid (congrArg some h0), fun h0 => hprobe (congrArg some h0)⟩

theorem slotLoad_order {next : SlotLoad} {rest : List SlotLoad}
    (hs : next :: rest <:+ slotLoads) :
    (next = .pid → .pid ∉ rest ∧ .probe ∈ rest) ∧
      (next = .probe → .pid ∉ rest ∧ .probe ∉ rest) := by
  have hall : ∀ l ∈ slotLoads.tails, (l.head? = some .pid → .pid ∉ l.tail ∧
      .probe ∈ l.tail) ∧ (l.head? = some .probe → .pid ∉ l.tail ∧ .probe ∉ l.tail) := by
    decide
  obtain ⟨hpid, hprobe⟩ := hall _ ((List.mem_tails _ _).mpr hs)
  exact ⟨fun h0 => hpid (congrArg some h0), fun h0 => hprobe (congrArg some h0)⟩

theorem taking_begin : SnapshotPc.begin.Taking := ⟨List.suffix_refl _, rfl⟩

theorem taking_words (i : Nat) (sub : IntrospectSubSlot) (out : IntrospectSnapshot)
    {rest : List SlotLoad} (hs : rest <:+ slotLoads) :
    (SnapshotPc.words i sub out rest).Taking := by
  cases rest with
  | nil => trivial
  | cons => exact hs

theorem taking_settle (out : IntrospectSnapshot) (read : ObserverPc) :
    (SnapshotPc.settle out read).Taking := by
  cases read <;> trivial

theorem snapshotStep_taking {pc : SnapshotPc} (ht : pc.Taking) :
    (snapshotStep alive m h c pc).Taking := by
  cases pc with
  | header next rest out =>
      obtain ⟨hs, hout⟩ := ht
      have hnone : (next.into alive m h out).subscribers = [] := by
        cases next with
        | ident f => cases f <;> exact hout
        | _ => exact hout
      cases rest with
      | nil => trivial
      | cons => exact ⟨(List.suffix_cons _ _).trans hs, hnone⟩
  | state i out =>
      simp only [snapshotStep]
      split
      · split
        · trivial
        · exact taking_words i _ _ (List.suffix_refl _)
      · exact taking_settle _ _
  | slot i next rest sub out => exact taking_words i _ _ ((List.suffix_cons _ _).trans ht)
  | master read out => exact taking_settle _ _
  | done => exact taking_begin

theorem look_headers (out : IntrospectSnapshot) (rest : List HeaderLoad) :
    (SnapshotPc.headers out rest).look =
      if .pubPid ∈ rest then .idle
      else if .pubProbe ∈ rest then .pubProbe out.pubPid
      else .state out.holders 0 := by
  cases rest with
  | nil => rfl
  | cons => rfl

theorem look_words (i : Nat) (sub : IntrospectSubSlot) (out : IntrospectSnapshot)
    (rest : List SlotLoad) : (SnapshotPc.words i sub out rest).look =
      if .pid ∈ rest then .pid out.holders i sub.state
      else if .probe ∈ rest then .probe out.holders i sub.state sub.pid
      else .state (out.push sub).holders (i + 1) := by
  cases rest with
  | nil => rfl
  | cons => rfl

theorem look_settle (out : IntrospectSnapshot) (read : ObserverPc) :
    (SnapshotPc.settle out read).look = .done out.holders := by
  cases read <;> rfl

theorem holders_push (out : IntrospectSnapshot) (sub : IntrospectSubSlot) :
    (out.push sub).holders =
      { out.holders with subscribers := out.holders.subscribers ++ [sub.held] } := by
  simp only [IntrospectSnapshot.holders, IntrospectSnapshot.push, IntrospectSnapshot.pubLive,
    List.map_append, List.map_cons, List.map_nil]

theorem look_header_step {next : HeaderLoad} {rest : List HeaderLoad} {out : IntrospectSnapshot}
    (hs : next :: rest <:+ headerLoads) (hout : out.subscribers = []) :
    let pc := SnapshotPc.header next rest out
    let pc' := snapshotStep alive m h c pc
    pc'.look = pc.look ∨ pc'.look = lookStep alive h pc.look ∧ ∀ s i, pc.look ≠ .state s i := by
  intro pc pc'
  obtain ⟨hpid, hprobe⟩ := headerLoad_order hs
  have hlook' : pc'.look = _ := look_headers (next.into alive m h out) rest
  have hlook : pc.look = if HeaderLoad.pubPid ∈ next :: rest then .idle
      else if .pubProbe ∈ next :: rest then .pubProbe out.pubPid
      else .state out.holders 0 := rfl
  rw [hlook', hlook]
  cases next with
  | pubPid =>
      obtain ⟨h1, h2⟩ := hpid rfl
      rw [if_neg h1, if_pos h2, if_pos List.mem_cons_self]
      exact .inr ⟨rfl, fun _ _ => nofun⟩
  | pubProbe =>
      obtain ⟨h1, h2⟩ := hprobe rfl
      have hno : HeaderLoad.pubPid ∉ HeaderLoad.pubProbe :: rest :=
        List.not_mem_cons_of_ne_of_not_mem nofun h1
      rw [if_neg h1, if_neg h2, if_neg hno, if_pos List.mem_cons_self]
      refine .inr ⟨?_, fun _ _ => nofun⟩
      simp only [lookStep, HeaderLoad.into, IntrospectSnapshot.holders,
        IntrospectSnapshot.pubLive, hout, List.map_nil, ← Bool.and_assoc, Bool.and_self]
  | ident f =>
      refine .inl ?_
      have hsame : ((HeaderLoad.ident f).into alive m h out).holders = out.holders ∧
          ((HeaderLoad.ident f).into alive m h out).pubPid = out.pubPid := by
        cases f <;> exact ⟨rfl, rfl⟩
      simp only [hsame, List.mem_cons, reduceCtorEq, false_or]
  | _ =>
      refine .inl ?_
      simp only [List.mem_cons, reduceCtorEq, false_or]
      rfl

theorem look_slot_step {i : Nat} {next : SlotLoad} {rest : List SlotLoad}
    {sub : IntrospectSubSlot} {out : IntrospectSnapshot} (hs : next :: rest <:+ slotLoads) :
    let pc := SnapshotPc.slot i next rest sub out
    let pc' := snapshotStep alive m h c pc
    pc'.look = pc.look ∨ pc'.look = lookStep alive h pc.look ∧ ∀ s i, pc.look ≠ .state s i := by
  intro pc pc'
  obtain ⟨hpid, hprobe⟩ := slotLoad_order hs
  have hlook' : pc'.look = _ := look_words i (next.into alive (h.subSlots i) sub) out rest
  have hlook : pc.look = if SlotLoad.pid ∈ next :: rest then .pid out.holders i sub.state
      else if .probe ∈ next :: rest then .probe out.holders i sub.state sub.pid
      else .state (out.push sub).holders (i + 1) := rfl
  rw [hlook', hlook]
  cases next with
  | pid =>
      obtain ⟨h1, h2⟩ := hpid rfl
      rw [if_neg h1, if_pos h2, if_pos List.mem_cons_self]
      exact .inr ⟨rfl, fun _ _ => nofun⟩
  | probe =>
      obtain ⟨h1, h2⟩ := hprobe rfl
      have hno : SlotLoad.pid ∉ SlotLoad.probe :: rest :=
        List.not_mem_cons_of_ne_of_not_mem nofun h1
      rw [if_neg h1, if_neg h2, if_neg hno, if_pos List.mem_cons_self, holders_push]
      exact .inr ⟨rfl, fun _ _ => nofun⟩
  | _ =>
      refine .inl ?_
      simp only [holders_push, List.mem_cons, reduceCtorEq, false_or]
      rfl

/-- An access of `Snapshot` makes the next of these loads or leaves all as it is. -/
theorem snapshotStep_look {pc : SnapshotPc} (ht : pc.Taking) :
    (snapshotStep alive m h c pc).look = pc.look ∨
    (snapshotStep alive m h c pc).look = lookStep alive h pc.look ∧
      ((∃ i out, pc = .state i out) ∨ ∀ s i, pc.look ≠ .state s i) := by
  cases pc with
  | header next rest out => exact (look_header_step ht.1 ht.2).imp id (And.imp id .inr)
  | state i out =>
      refine .inr ⟨?_, .inl ⟨i, out, rfl⟩⟩
      simp only [snapshotStep, lookStep, show (SnapshotPc.state i out).look =
        .state out.holders i from rfl]
      split
      · cases hst : (h.subSlots i).state <;> rfl
      · exact look_settle out _
  | slot i next rest sub out => exact (look_slot_step ht).imp id (And.imp id .inr)
  | master read out => exact .inl (look_settle out _)
  | done out =>
      refine .inr ⟨rfl, .inr fun s i h0 => ?_⟩
      cases h0

end Look

/-! ## What the words say of their owners -/

/-- An active slot with a live pid in it is the slot of a wired endpoint of that process. -/
def Backed (w : World T) : Prop :=
  ∀ i, (w.seg.word i).1 = .active → w.alive (w.seg.word i).2 = true →
    ∃ e, (w.subs e).pid = (w.seg.word i).2 ∧ (w.subs e).pc.wiredAt = some i

/-- One endpoint's access, given what it does to the slots it leaves active. -/
theorem Backed.sub_frame {w : World T} (h : Backed w) {e : Nat} {h' : Segment T} {ep' : SubEp T}
    (hpid : ep'.pid = (w.subs e).pid)
    (hslot : ∀ i, (h'.word i).1 = .active → w.alive (h'.word i).2 = true →
      h'.word i = w.seg.word i ∧ ((w.subs e).pc.wiredAt = some i → ep'.pc.wiredAt = some i) ∨
      ep'.pid = (h'.word i).2 ∧ ep'.pc.wiredAt = some i) :
    Backed (w.putSub e h' ep') := by
  intro i hact hal
  rw [World.putSub_alive] at hal
  rw [World.putSub_seg] at hact hal ⊢
  rcases hslot i hact hal with ⟨hword, hstay⟩ | hown
  · rw [hword] at hact hal ⊢
    obtain ⟨x, hx, hwired⟩ := h i hact hal
    refine ⟨x, ?_⟩
    by_cases hxe : x = e
    · subst hxe
      rw [World.putSub_self, hpid]
      exact ⟨hx, hstay hwired⟩
    · rw [World.putSub_ne _ _ _ _ hxe]
      exact ⟨hx, hwired⟩
  · exact ⟨e, by rw [World.putSub_self]; exact hown⟩

theorem backed_sub {w : World T} (hinv : SlotInv w) (h : Backed w) {e : Nat} {a : SubAct}
    {h' : Segment T} {ep' : SubEp T} (hl : w.liveSub e)
    (hs : subStep w.alive w.seg (w.subs e) a = some (h', ep')) :
    Backed (w.putSub e h' ep') := by
  obtain ⟨hm, hpid⟩ := subStep_slotMove hs
  refine h.sub_frame hpid fun i hact hal => ?_
  cases hm with
  | quiet hword _ _ hwired => exact .inl ⟨hword i, fun h0 => hwired.trans h0⟩
  | claim j hpc | reclaim j hpc =>
      rw [Segment.word_setSlot] at hact ⊢
      split at hact
      · cases hact
      · next hij => exact .inl ⟨if_neg hij, fun h0 => by rw [hpc] at h0; cases h0⟩
  | sign j hpc =>
      rw [Segment.word_setSlot] at hact ⊢
      split at hact
      · have := hinv.claimed e j hl (by rw [hpc]; rfl)
        rw [Segment.word, hact] at this
        cases this
      · next hij => exact .inl ⟨if_neg hij, fun h0 => by rw [hpc] at h0; cases h0⟩
  | activate j hpc =>
      rw [Segment.word_setSlot]
      by_cases hij : i = j
      · have := hinv.signed e j hl (by rw [hpc]; rfl)
        rw [if_pos hij]
        exact .inr ⟨this.symm, by rw [hij]; rfl⟩
      · exact .inl ⟨if_neg hij, fun h0 => by rw [hpc] at h0; cases h0⟩
  | release j hpc =>
      rw [Segment.word_setSlot] at hact ⊢
      split at hact
      · cases hact
      · next hij =>
        refine .inl ⟨if_neg hij, fun h0 => ?_⟩
        rw [hpc] at h0
        exact absurd (Option.some.inj h0).symm hij
  | clear j hpc =>
      rw [Segment.word_setSlot] at hal ⊢
      split at hal
      · exact absurd rfl (alive_pos hal)
      · next hij => exact .inl ⟨if_neg hij, fun h0 => by rw [hpc] at h0; cases h0⟩

theorem backed_reached {w : World T} (hw : (machine T size).Reached SlotDiscipline w) :
    Backed w := by
  refine hw.invariant (P := Backed) ?_ ?_
  · rintro w ⟨hseg, -⟩ i hact
    rw [hseg] at hact
    cases hact
  · intro w a w' hr h _ hs
    rcases step_cases hs with ⟨pid, rfl, rfl⟩ | ⟨e, b, h', ep', rfl, hal, hsub, rfl⟩ |
      ⟨p, b, h', ep', rfl, hal, hpub, rfl⟩
    · exact fun i hact hlive => h i hact (World.alive_of_kill w pid hlive)
    · exact backed_sub (slotInv_reached hr) h hal hsub
    · intro i hact hlive
      rw [World.putPub_alive] at hlive
      rw [World.putPub_seg, pubStep_word hpub] at hact hlive ⊢
      exact h i hact hlive

/-- The publisher's word too: a live pid in it is the pid of a live owner. -/
theorem pubPid_backed {w : World T} (hw : (machine T size).Reached anyStep w)
    (hal : w.alive w.seg.pubPid = true) : ∃ p, w.livePub p ∧ (w.pubs p).pc.owning = true := by
  obtain ⟨seen, hr⟩ := hw.recorded (fun _ => False) noteOwned
  obtain ⟨p, hp, hown⟩ := (claimInv_reached hr).backed (alive_pos hal)
  exact ⟨p, by rw [World.livePub, hp]; exact hal, hown⟩

theorem index_of_holds {pc : SubPc T} {i : Nat} (h : pc.Holds i) : pc.index = some i := by
  cases pc <;> rcases h with h | h <;> first | (cases h; done) | exact h

/-- Nobody holds a slot past the sixteenth. -/
theorem holds_bound {ok : World T → Act T → Prop} {w : World T}
    (hw : (machine T size).Reached ok w) {e i : Nat} (hh : (w.subs e).pc.Holds i) :
    i < kShmMaxSubscribers := by
  have hall : ∀ e i, (w.subs e).pc.index = some i → i < kShmMaxSubscribers := by
    refine hw.invariant
      (P := fun w => ∀ e i, (w.subs e).pc.index = some i → i < kShmMaxSubscribers) ?_ ?_
    · rintro w ⟨-, -, hsub, -⟩ e i hi
      rw [(hsub e).2.1] at hi
      cases hi
    · intro w a w' _ h _ hs e i hi
      rcases step_cases hs with ⟨pid, rfl, rfl⟩ | ⟨x, b, h', ep', rfl, hal, hsub, rfl⟩ |
        ⟨p, b, h', ep', rfl, hal, hpub, rfl⟩
      · exact h e i hi
      · by_cases hex : e = x
        · subst hex
          rw [World.putSub_self] at hi
          exact (subStep_index hsub hi).elim (h e i) id
        · rw [World.putSub_ne _ _ _ _ hex] at hi
          exact h e i hi
      · exact h e i hi
  exact hall e i (index_of_holds hh)

/-! ## What the picture has seen so far -/

/-- Of a publisher with this pid. -/
def LookPc.PubSeen (pid : Nat) : LookPc → Prop
  | .idle => True
  | .pubProbe p => p = pid
  | .state s _ | .pid s _ _ | .probe s _ _ _ | .done s => s.pubLive = true

/-- Of the subscriber in slot `i`, where no publisher is seen. -/
def LookPc.SubSeen (ep : SubEp T) (i : Nat) : LookPc → Prop
  | .idle | .pubProbe _ => True
  | .state s j => s.pubLive = false → i < j → s.subLive = true
  | .pid s j st => s.pubLive = false →
      (i < j → s.subLive = true) ∧ (i = j → st = .active ∧ ep.pc.wiredAt = some i)
  | .probe s j st p => s.pubLive = false →
      (i < j → s.subLive = true) ∧ (i = j → st = .active ∧ p = ep.pid)
  | .done s => s.pubLive = false → s.subLive = true

def IntrospectHolders.Dark (s : IntrospectHolders) : Prop :=
  s.pubLive = false ∧ s.subLive = false

/-- Of a segment with nobody there. -/
def LookPc.Dark (w : World T) : LookPc → Prop
  | .idle => True
  | .pubProbe p => w.alive p = false
  | .state s _ | .done s => s.Dark
  | .pid s i st => s.Dark ∧ (st = .active → w.alive (w.seg.word i).2 = false)
  | .probe s _ st p => s.Dark ∧ (st = .active → w.alive p = false)

theorem subLive_append (s : IntrospectHolders) (sub : HeldSlot) :
    { s with subscribers := s.subscribers ++ [sub] }.subLive =
      (s.subLive || (decide (sub.state = .active) && sub.alive)) := by
  simp [IntrospectHolders.subLive]

/-- The picture of a live owner, one load further. -/
theorem pubSeen_look {w : World T} (hown : OwnerInv w) {p : Nat} (hl : w.livePub p)
    (ho : (w.pubs p).pc.owning = true) {pc : LookPc}
    (h : pc = .idle ∨ pc.PubSeen (w.pubs p).pid) :
    (lookStep w.alive w.seg pc).PubSeen (w.pubs p).pid := by
  cases pc with
  | idle => exact hown.signed p hl ho
  | pubProbe pid =>
      have hpid : pid = (w.pubs p).pid := h.resolve_left nofun
      have hal : w.alive pid = true := hpid ▸ hl
      have hpos : (pid != 0) = true := bne_iff_ne.mpr (alive_pos hal)
      simp only [lookStep, LookPc.PubSeen, hal, hpos, Bool.and_self]
  | state s i =>
      have hseen : s.pubLive = true := h.resolve_left nofun
      simp only [lookStep]
      repeat' split
      all_goals exact hseen
  | pid s i st => exact h.resolve_left nofun
  | probe s i st pid =>
      have hseen : s.pubLive = true := h.resolve_left nofun
      exact hseen
  | done s => exact trivial

/-- The picture of a slot that a live endpoint holds, one load further. -/
theorem subSeen_look {w : World T} (hinv : SlotInv w) {e i : Nat} (hl : w.liveSub e)
    (hh : (w.subs e).pc.Holds i) (hi : i < kShmMaxSubscribers) {pc : LookPc}
    (hok : ∀ s, pc = .state s i → s.pubLive = false → (w.subs e).pc.claiming ≠ some i)
    (h : pc = .idle ∨ pc.SubSeen (w.subs e) i) :
    (lookStep w.alive w.seg pc).SubSeen (w.subs e) i := by
  cases pc with
  | idle => exact trivial
  | pubProbe pid => exact fun _ h0 => absurd h0 (Nat.not_lt_zero i)
  | state s j =>
      have hseen : s.pubLive = false → i < j → s.subLive = true := h.resolve_left nofun
      simp only [lookStep]
      by_cases hj : j < kShmMaxSubscribers
      · rw [if_pos hj]
        have hwired : s.pubLive = false → i = j →
            (w.subs e).pc.wiredAt = some i ∧ (w.seg.subSlots j).state = .active := by
          rintro hno rfl
          have hw := hh.resolve_left (hok s rfl hno)
          exact ⟨hw, hinv.wired e i hl hw⟩
        cases hst : (w.seg.subSlots j).state with
        | free =>
            intro hno hij
            refine hseen hno (Nat.lt_of_le_of_ne (Nat.le_of_lt_succ hij) fun h0 => ?_)
            rw [(hwired hno h0).2] at hst
            cases hst
        | claimed =>
            refine fun hno => ⟨hseen hno, fun h0 => ?_⟩
            rw [(hwired hno h0).2] at hst
            cases hst
        | active => exact fun hno => ⟨hseen hno, fun h0 => ⟨rfl, (hwired hno h0).1⟩⟩
      · rw [if_neg hj]
        exact fun hno => hseen hno (Nat.lt_of_lt_of_le hi (Nat.le_of_not_lt hj))
  | pid s j st =>
      intro hno
      obtain ⟨hseen, hat⟩ := (h.resolve_left nofun) hno
      refine ⟨hseen, fun h0 => ⟨(hat h0).1, ?_⟩⟩
      subst h0
      exact hinv.signed e i hl (signed_of_wiredAt (hat rfl).2)
  | probe s j st pid =>
      intro hno hij
      obtain ⟨hseen, hat⟩ := (h.resolve_left nofun) hno
      rw [subLive_append]
      rcases Nat.lt_or_eq_of_le (Nat.le_of_lt_succ hij) with hlt | heq
      · rw [hseen hlt, Bool.true_or]
      · obtain ⟨hst, hpid⟩ := hat heq
        have hal : w.alive pid = true := hpid ▸ hl
        have hpos : (pid != 0) = true := bne_iff_ne.mpr (alive_pos hal)
        simp only [hst, hal, hpos, decide_true, Bool.and_self, Bool.or_true]
  | done s => exact trivial

/-- The picture of a segment with nobody there, one load further. -/
theorem dark_look {w : World T} (hr : (machine T size).Reached SlotDiscipline w)
    (hv : w.Vacant) {pc : LookPc} (h : pc = .idle ∨ pc.Dark w) :
    (lookStep w.alive w.seg pc).Dark w := by
  cases pc with
  | idle =>
      refine Bool.eq_false_iff.mpr fun hal => ?_
      obtain ⟨p, hl, ho⟩ := pubPid_backed (hr.weaken fun _ _ _ => trivial) hal
      rw [hv.1 p hl] at ho
      cases ho
  | pubProbe pid =>
      have hd : w.alive pid = false := h.resolve_left (by simp)
      refine ⟨?_, rfl⟩
      simp only [hd, Bool.and_false]
  | state s i =>
      have hd : s.Dark := h.resolve_left (by simp)
      simp only [lookStep]
      split
      · cases hst : (w.seg.subSlots i).state with
        | free => exact hd
        | claimed => exact ⟨hd, fun h0 => by cases h0⟩
        | active =>
            refine ⟨hd, fun _ => Bool.eq_false_iff.mpr fun hal => ?_⟩
            obtain ⟨e, hpid, hwired⟩ := backed_reached hr i hst hal
            exact hv.2 i ⟨e, by rw [World.liveSub, hpid]; exact hal, .inr hwired⟩
      · exact hd
  | pid s i st => exact h.resolve_left (by simp)
  | probe s i st pid =>
      obtain ⟨hd, hdead⟩ := h.resolve_left (by simp)
      refine ⟨hd.1, ?_⟩
      rw [subLive_append, hd.2, Bool.false_or]
      by_cases hst : st = .active
      · simp only [hdead hst, Bool.and_false]
      · simp only [hst, decide_false, Bool.false_and]
  | done s => exact trivial

/-! ## Steps of the participants meanwhile -/

/-- A wired endpoint that still holds its slot is still wired. -/
theorem wiredAt_stays {alive : Nat → Bool} {h h' : Segment T} {ep ep' : SubEp T} {a : SubAct}
    (hs : subStep alive h ep a = some (h', ep')) {i : Nat} (hw : ep.pc.wiredAt = some i)
    (hh : ep'.pc.Holds i) : ep'.pc.wiredAt = some i := by
  cases (subStep_slotMove hs).1 with
  | quiet _ _ _ hwired => exact hwired.trans hw
  | release j hpc => rcases hh with hh | hh <;> cases hh
  | claim j hpc | reclaim j hpc | sign j hpc | activate j hpc | clear j hpc =>
      rw [hpc] at hw
      cases hw

theorem subSeen_world {w w' : World T} {a : Act T} (hs : w.step size a = some w') {e i : Nat}
    (hh : (w'.subs e).pc.Holds i) {pc : LookPc} (h : pc.SubSeen (w.subs e) i) :
    pc.SubSeen (w'.subs e) i := by
  have hstay : (w'.subs e).pid = (w.subs e).pid ∧
      ((w.subs e).pc.wiredAt = some i → (w'.subs e).pc.wiredAt = some i) := by
    rcases step_cases hs with ⟨pid, rfl, rfl⟩ | ⟨x, b, h', ep', rfl, hal, hsub, rfl⟩ |
      ⟨p, b, h', ep', rfl, hal, hpub, rfl⟩
    · exact ⟨rfl, id⟩
    · by_cases hex : e = x
      · subst hex
        rw [World.putSub_self] at hh ⊢
        exact ⟨(subStep_slotMove hsub).2, fun hw => wiredAt_stays hsub hw hh⟩
      · rw [World.putSub_ne _ _ _ _ hex]
        exact ⟨rfl, id⟩
    · exact ⟨rfl, id⟩
  cases pc with
  | pid s j st =>
      intro hno
      obtain ⟨hseen, hat⟩ := h hno
      exact ⟨hseen, fun h0 => ⟨(hat h0).1, hstay.2 (hat h0).2⟩⟩
  | probe s j st pid =>
      intro hno
      obtain ⟨hseen, hat⟩ := h hno
      exact ⟨hseen, fun h0 => ⟨(hat h0).1, (hat h0).2.trans hstay.1.symm⟩⟩
  | _ => exact h

theorem pubSeen_world {w w' : World T} {a : Act T} (hs : w.step size a = some w') {p : Nat}
    {pc : LookPc} (h : pc.PubSeen (w.pubs p).pid) : pc.PubSeen (w'.pubs p).pid := by
  have hpid : (w'.pubs p).pid = (w.pubs p).pid := by
    rcases step_cases hs with ⟨pid, rfl, rfl⟩ | ⟨x, b, h', ep', rfl, hal, hsub, rfl⟩ |
      ⟨x, b, h', ep', rfl, hal, hpub, rfl⟩
    · rfl
    · rfl
    · by_cases hpx : p = x
      · subst hpx
        rw [World.putPub_self]
        exact pubStep_pid hpub
      · rw [World.putPub_ne _ _ _ _ hpx]
  rw [hpid]
  exact h

theorem alive_of_step {w w' : World T} {a : Act T} (hs : w.step size a = some w') {pid : Nat}
    (hdead : w.alive pid = false) : w'.alive pid = false := by
  rcases step_cases hs with ⟨q, rfl, rfl⟩ | ⟨x, b, h', ep', rfl, hal, hsub, rfl⟩ |
    ⟨x, b, h', ep', rfl, hal, hpub, rfl⟩
  · exact Bool.eq_false_iff.mpr fun h0 => Bool.eq_false_iff.mp hdead (World.alive_of_kill w q h0)
  · exact hdead
  · exact hdead

/-- While there is nobody, no pid is put into a slot. -/
theorem dark_world {w w' : World T} {a : Act T} (hs : w.step size a = some w')
    (hv : w'.Vacant) {pc : LookPc} (h : pc.Dark w) : pc.Dark w' := by
  have hword : ∀ i, w.alive (w.seg.word i).2 = false → w'.alive (w'.seg.word i).2 = false := by
    intro i hdead
    have hold := alive_of_step hs hdead
    rcases step_cases hs with ⟨q, rfl, rfl⟩ | ⟨x, b, h', ep', rfl, hal, hsub, rfl⟩ |
      ⟨x, b, h', ep', rfl, hal, hpub, rfl⟩
    · exact hold
    · rw [World.putSub_seg]
      rcases subStep_pid_word hsub i with hsame | hzero | ⟨-, hsigned⟩
      · rw [hsame]
        exact hold
      · rw [hzero]
        rfl
      · refine absurd ⟨x, ?_, ?_⟩ (hv.2 i)
        · rw [World.liveSub, World.putSub_self, World.putSub_alive, (subStep_slotMove hsub).2]
          exact hal
        · rw [World.putSub_self]
          exact held_of_signed hsigned
    · rw [World.putPub_seg, pubStep_word hpub]
      exact hold
  cases pc with
  | pubProbe pid => exact alive_of_step hs h
  | pid s i st => exact ⟨h.1, fun h0 => hword i (h.2 h0)⟩
  | probe s i st pid => exact ⟨h.1, fun h0 => alive_of_step hs (h.2 h0)⟩
  | _ => exact h

/-! ## The whole picture -/

structure WatchInv (w : World T) (pc : SnapshotPc) (v : Vigil) : Prop where
  taking : pc.Taking
  pubs : ∀ p, v.pubs p → pc.look.PubSeen (w.pubs p).pid
  subs : ∀ e i, v.subs e i → pc.look.SubSeen (w.subs e) i
  vacant : v.vacant → pc.look.Dark w

/-- The participants do not know of the tool. -/
theorem reached_world {q : World T × SnapshotPc}
    (hq : (inspected T size).Reached CleanDiscipline q) :
    (machine T size).Reached SlotDiscipline q.1 := by
  refine hq.invariant (P := fun q => (machine T size).Reached SlotDiscipline q.1) ?_ ?_
  · exact fun q h => .start h.1
  · intro q a q' _ h hok hs
    cases a with
    | world b =>
        obtain ⟨w', hw', rfl⟩ := Option.map_eq_some_iff.mp hs
        exact h.next hok hw'
    | look x =>
        cases hs
        exact h

theorem look_begin : SnapshotPc.begin.look = .idle := rfl

/-- A step of a participant, after which the record is about those still there. -/
theorem watchInv_world {w w' : World T} {pc : SnapshotPc} {v : Vigil} (h : WatchInv w pc v)
    {a : Act T} (hs : w.step size a = some w') :
    WatchInv w' pc (noteVigil (w, pc) (.world a) (w', pc) v) where
  taking := h.taking
  pubs p := by
    rintro ⟨rfl | hv, -, -⟩
    · exact trivial
    · exact pubSeen_world hs (h.pubs p hv)
  subs e i := by
    rintro ⟨rfl | hv, -, hh⟩
    · exact trivial
    · exact subSeen_world hs hh (h.subs e i hv)
  vacant := by
    rintro ⟨rfl | hv, hvac⟩
    · exact trivial
    · exact dark_world hs hvac (h.vacant hv)

theorem watchInv_look {w : World T} {pc : SnapshotPc} {v : Vigil} (h : WatchInv w pc v)
    (hr : (machine T size).Reached SlotDiscipline w) {x : Elsewhere}
    (hok : CleanDiscipline (w, pc) (.look x)) :
    WatchInv w (snapshotStep w.alive x.object w.seg x.master pc)
      (noteVigil (w, pc) (.look x) (w, snapshotStep w.alive x.object w.seg x.master pc) v) := by
  have hbegin : pc = .begin → pc.look = .idle := fun h0 => by rw [h0, look_begin]
  have hlook : (snapshotStep w.alive x.object w.seg x.master pc).look = pc.look ∨
      (snapshotStep w.alive x.object w.seg x.master pc).look = lookStep w.alive w.seg pc.look ∧
        ((∃ i out, pc = .state i out) ∨ ∀ s i, pc.look ≠ .state s i) :=
    snapshotStep_look h.taking
  -- at the beginning nothing has been seen, and nothing is asked
  refine ⟨snapshotStep_taking h.taking, ?_, ?_, ?_⟩
  · rintro p ⟨hv, hl, ho⟩
    have hseen : pc.look = .idle ∨ pc.look.PubSeen (w.pubs p).pid := hv.imp hbegin (h.pubs p)
    rcases hlook with h0 | ⟨h0, -⟩
    · rw [h0]
      rcases hseen with h1 | h1
      · rw [h1]
        trivial
      · exact h1
    · rw [h0]
      exact pubSeen_look (ownerInv_reached hr) hl ho hseen
  · rintro e i ⟨hv, hl, hh⟩
    have hseen : pc.look = .idle ∨ pc.look.SubSeen (w.subs e) i := hv.imp hbegin (h.subs e i)
    rcases hlook with h0 | ⟨h0, hat⟩
    · rw [h0]
      rcases hseen with h1 | h1
      · rw [h1]
        trivial
      · exact h1
    · rw [h0]
      refine subSeen_look (slotInv_reached hr) hl hh (holds_bound hr hh) (fun s hs hno => ?_) hseen
      rcases hat with ⟨j, out, rfl⟩ | hat
      · cases hs
        exact hok i out rfl hno e hl
      · exact absurd hs (hat s i)
  · rintro ⟨hv, hvac⟩
    have hdark : pc.look = .idle ∨ pc.look.Dark w := hv.imp hbegin h.vacant
    rcases hlook with h0 | ⟨h0, -⟩
    · rw [h0]
      rcases hdark with h1 | h1
      · rw [h1]
        trivial
      · exact h1
    · rw [h0]
      exact dark_look hr hvac hdark

theorem watchInv_reached {q : (World T × SnapshotPc) × Vigil}
    (hq : (watched T size).Reached (fun q a => CleanDiscipline q.1 a) q) :
    WatchInv q.1.1 q.1.2 q.2 := by
  refine hq.invariant (P := fun q => WatchInv q.1.1 q.1.2 q.2) ?_ ?_
  · rintro ⟨⟨w, pc⟩, v⟩ ⟨⟨-, rfl⟩, rfl⟩
    exact ⟨taking_begin, fun _ h0 => h0.elim, fun _ _ h0 => h0.elim, fun h0 => h0.elim⟩
  · rintro ⟨⟨w, pc⟩, v⟩ a ⟨⟨w', pc'⟩, v'⟩ hr h hok hs
    obtain ⟨hstep, hnote⟩ := Machine.withHistory_step hs
    dsimp only at hstep hnote h ⊢
    subst hnote
    cases a with
    | world b =>
        obtain ⟨x, hx, heq⟩ := Option.map_eq_some_iff.mp hstep
        cases heq
        exact watchInv_world h hx
    | look x =>
        cases hstep
        exact watchInv_look h (reached_world (Machine.reached_fst hr)) hok

/-- In every run in which the slots stay exclusive and no picture without a live publisher
loads the state of a slot that a live subscriber is initialising, `clean` proposes no
segment that had a participant for the whole of the picture, and every validated one that
had none. -/
theorem clean_spares {q : (World T × SnapshotPc) × Vigil}
    (hq : (watched T size).Reached (fun q a => CleanDiscipline q.1 a) q) {s : IntrospectSnapshot}
    (hdone : q.1.2 = .done s) : Spares s q.2 := by
  have hinv := watchInv_reached hq
  rw [hdone] at hinv
  constructor
  · rintro hthere domainFilter openStatus snapshot entries view hview rfl
    obtain ⟨hpub, hsub⟩ := cmdClean_sound hview
    rcases hthere with ⟨p, hp⟩ | ⟨e, i, he⟩
    · have hseen : (snapshot view.seg.name).pubLive = true := hinv.pubs p hp
      rw [hpub] at hseen
      cases hseen
    · have hseen := hinv.subs e i he hpub
      rw [holders_subLive, hsub] at hseen
      cases hseen
  · rintro hvac openStatus snapshot entries entry seg hmem hparse hok rfl
    obtain ⟨hpub, hsub⟩ := hinv.vacant hvac
    rw [holders_subLive] at hsub
    exact cmdClean_complete hmem hparse hok hpub hsub

/-! Concrete runs: subscriber endpoint 0 moves up to some point, and then a picture is
taken while it stays there. -/

/-- Endpoint 0 moves before the picture, and holds slot 0 during it. -/
def stillCheck (q : (World T × SnapshotPc) × Vigil) : WatchAct T → Bool
  | .world a => a.below 1 && decide (q.1.2 = .begin)
  | .look _ => q.1.1.alive (q.1.1.subs 0).pid &&
      ((q.1.1.subs 0).pc.claiming == some 0 || (q.1.1.subs 0).pc.wiredAt == some 0)

def Still (q : (World T × SnapshotPc) × Vigil) : Prop :=
  Untouched 1 q.1.1 ∧ (q.1.2 = .begin ∨ q.2.subs 0 0)

theorem still_step {q q' : (World T × SnapshotPc) × Vigil} {a : WatchAct T} (h : Still q)
    (hc : stillCheck q a = true) (hs : (watched T size).step q a = some q') : Still q' := by
  obtain ⟨⟨w, pc⟩, v⟩ := q
  obtain ⟨⟨w', pc'⟩, v'⟩ := q'
  obtain ⟨hstep, hnote⟩ := Machine.withHistory_step hs
  dsimp only at hstep hnote
  subst hnote
  cases a with
  | world b =>
      obtain ⟨x, hx, heq⟩ := Option.map_eq_some_iff.mp hstep
      cases heq
      obtain ⟨hbelow, hidle⟩ := Bool.and_eq_true_iff.mp hc
      exact ⟨untouched_step h.1 hbelow hx, .inl (of_decide_eq_true hidle)⟩
  | look x =>
      cases hstep
      obtain ⟨hl, hh⟩ := Bool.and_eq_true_iff.mp hc
      refine ⟨h.1, .inr ⟨h.2, hl, ?_⟩⟩
      simpa only [SubPc.Holds, Bool.or_eq_true, beq_iff_eq] using hh

def cleanCheck (q : World T × SnapshotPc) : WatchAct T → Bool
  | .world a => slotCheck q.1 a
  | .look _ => (q.1.subs 0).pc.claiming.isNone

theorem cleanCheck_sound {q : World T × SnapshotPc} {a : WatchAct T} (hj : Untouched 1 q.1)
    (h : cleanCheck q a = true) : CleanDiscipline q a := by
  cases a with
  | world b => exact slotCheck_sound q.1 b h
  | look x =>
      intro i out _ _ e _
      cases e with
      | zero =>
          rw [Option.isNone_iff_eq_none.mp h]
          exact nofun
      | succ e =>
          rw [hj (e + 1) (Nat.le_add_left 1 e)]
          exact nofun

/-- Endpoint 0 makes `n` accesses, and then a whole picture is taken. -/
def pictured (n : Nat) : List (WatchAct Unit) :=
  (subGo 0 n).map .world ++ List.replicate 47 (.look { object := { size := 2000 } })

def undisturbed : (World Unit × SnapshotPc) × Vigil :=
  ((lonely Unit, .begin), ⟨fun _ => False, fun _ _ => False, False⟩)

theorem undisturbed_start : (watched Unit 1).start undisturbed :=
  ⟨⟨lonely_fresh Unit, rfl⟩, rfl⟩

theorem undisturbed_still : Still undisturbed := ⟨fun _ _ => rfl, .inl rfl⟩

/-- A wired subscriber is seen. -/
theorem clean_spares_wired : ∃ (q : (World Unit × SnapshotPc) × Vigil) (s : IntrospectSnapshot),
    (watched Unit 1).Reached (fun q a => CleanDiscipline q.1 a) q ∧ q.1.2 = .done s ∧
      q.2.subs 0 0 ∧ Spares s q.2 := by
  have hrun : ((watched Unit 1).execOk (fun q a => stillCheck q a && cleanCheck q.1 a)
      (pictured 13) undisturbed).map (fun q => q.1.2.result.isSome) = some true := by
    decide +kernel
  obtain ⟨q, hq, hdone⟩ := Option.map_eq_some_iff.mp hrun
  obtain ⟨s, hs⟩ := Option.isSome_iff_exists.mp hdone
  have hkeeps : ∀ (q : (World Unit × SnapshotPc) × Vigil) a q', Still q →
      (stillCheck q a && cleanCheck q.1 a) = true → (watched Unit 1).step q a = some q' →
      Still q' :=
    fun q a q' hj h hs => still_step hj (Bool.and_eq_true_iff.mp h).1 hs
  have hr : (watched Unit 1).Reached (fun q a => CleanDiscipline q.1 a) q :=
    Machine.reached_of_execOk (J := Still)
      (fun _ _ hj h => cleanCheck_sound hj.1 (Bool.and_eq_true_iff.mp h).2) hkeeps
      undisturbed_still (.start undisturbed_start) hq
  have hsub := (Machine.execOk_keeps (J := Still) hkeeps undisturbed_still hq).2
  refine ⟨q, s, hr, SnapshotPc.result_some hs, hsub.resolve_left ?_,
    clean_spares hr (SnapshotPc.result_some hs)⟩
  rw [SnapshotPc.result_some hs]
  exact nofun

/-- A subscriber that is still initialising its slot is not, and its segment is
proposed. -/
theorem clean_not_spares : ∃ (q : (World Unit × SnapshotPc) × Vigil) (s : IntrospectSnapshot),
    (watched Unit 1).Reached anyStep q ∧ q.1.2 = .done s ∧ q.2.subs 0 0 ∧
      (cmdClean [] (fun _ => .ok) (fun _ => s) ["xmmsg.u0.default.t".toList]).1 ≠ [] ∧
      ¬ Spares s q.2 := by
  have hrun : ((watched Unit 1).execOk stillCheck (pictured 5) undisturbed).map
      (fun q => q.1.2.result.map IntrospectSnapshot.holders) =
        some (some { subscribers := [⟨.claimed, true⟩] }) := by
    decide +kernel
  obtain ⟨q, hq, hdone⟩ := Option.map_eq_some_iff.mp hrun
  obtain ⟨s, hs, hheld⟩ := Option.map_eq_some_iff.mp hdone
  have hkeeps : ∀ (q : (World Unit × SnapshotPc) × Vigil) a q', Still q → stillCheck q a = true →
      (watched Unit 1).step q a = some q' → Still q' :=
    fun q a q' hj h hs => still_step hj h hs
  have hr : (watched Unit 1).Reached anyStep q :=
    Machine.reached_of_execOk (J := Still) (fun _ _ _ _ => trivial) hkeeps undisturbed_still
      (.start undisturbed_start) hq
  have hsub : q.2.subs 0 0 := by
    refine (Machine.execOk_keeps (J := Still) hkeeps undisturbed_still hq).2.resolve_left ?_
    rw [SnapshotPc.result_some hs]
    exact nofun
  have hpub : s.pubLive = false := congrArg IntrospectHolders.pubLive hheld
  have hdark : s.subLive = false := by rw [← holders_subLive, hheld]; rfl
  obtain ⟨seg, hseg⟩ : ∃ seg, parseSegmentName ('/' :: "xmmsg.u0.default.t".toList) = some seg :=
    Option.isSome_iff_exists.mp (by decide +kernel)
  have hcandidate : ∃ view ∈ (cmdClean [] (fun _ => .ok) (fun _ => s)
      ["xmmsg.u0.default.t".toList]).1, view.seg = seg :=
    cmdClean_complete (List.mem_singleton.mpr rfl) hseg rfl hpub hdark
  obtain ⟨view, hview, -⟩ := hcandidate
  refine ⟨q, s, hr, SnapshotPc.result_some hs, hsub, List.ne_nil_of_mem hview, fun h => ?_⟩
  exact h.kept (.inr ⟨0, 0, hsub⟩) [] _ _ _ view hview rfl

end Xmmsg.Shm
