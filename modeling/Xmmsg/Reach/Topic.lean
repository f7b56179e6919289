import Xmmsg.Reach.Mirror

/-!
# One topic on two reaches

The simulation between an in-process topic and a shm segment, for a program of one
process that makes one call at a time. Subscribers are related by `Mirror`, through
two tables that may place them differently: the fan-out table of sixty-four core
pointers, and the sixteen slots of the segment. Publishers are related by their
handles, and by the one count or the one pid that stands for the owner.

`sim_call` is the step: both reaches refuse a call as impossible, or both answer the
same and stay related. Its hypothesis on the subscribers wired is the shm reach's,
sixteen a topic.
-/

namespace Xmmsg.Reach

open Xmmsg.Sys

variable {T : Type} {me : Nat} {live : List Nat}

/-- What holds of the endpoint that moved and of all others holds of all. -/
theorem forall_update {α β : Type} {P : α → β → Prop} {a : Nat → α} {b : Nat → β} {p : Nat} {x : α}
    {y : β} (hxy : P x y) (hab : ∀ q, P (a q) (b q)) (q : Nat) :
    P (Function.update a p x q) (Function.update b p y q) := by
  by_cases hq : q = p
  · subst hq
    rw [Function.update_self, Function.update_self]
    exact hxy
  · rw [Function.update_of_ne hq, Function.update_of_ne hq]
    exact hab q

/-! ## The relation -/

/-- A subscriber declares the same on both reaches, and no empty queue. -/
structure SubDecl (me : Nat) (x : InProc.SubEp T) (y : Shm.SubEp T) : Prop where
  pid : y.pid = me
  history : y.history = x.qos.history
  deadline : y.deadline = x.qos.deadline
  depth : x.qos.history.depth ≠ 0

structure SubsSim (me : Nat) (live : List Nat) (t : InProc.Topic T) (a : Nat → InProc.SubEp T)
    (g : Shm.Segment T) (b : Nat → Shm.SubEp T) : Prop where
  tabled : InProc.Tabled live t
  wired : ∀ k, k ∈ live ↔ (a k).pc = .wired .idle
  decl : ∀ k, SubDecl me (a k) (b k)
  apart : ∀ k, k ∉ live →
    (a k).pc = .unwired ∧ (b k).pc = .unwired ∧ (b k).cached = none ∧ (b k).staleLatched = false ∨
      (a k).pc = .gone ∧ (b k).pc = .gone
  slot : ∀ k, k ∈ live → ∃ i, i < Shm.kShmMaxSubscribers ∧ (b k).pc = .wired i .idle ∧
    g.word i = (.active, me) ∧ Mirror (t.cores k) (b k) (g.region i)
  owner : ∀ i, i < Shm.kShmMaxSubscribers → (g.subSlots i).state = .free ∨
    ∃ k, k ∈ live ∧ (b k).pc = .wired i .idle
  once : ∀ k k' i, (b k).pc = .wired i .idle → (b k').pc = .wired i .idle → k = k'
  active : (List.range Shm.kShmMaxSubscribers).countP
    (fun i => decide ((g.subSlots i).state = .active)) = live.length

inductive SamePc : InProc.PubPc T → Shm.PubPc T → Prop
  | unwired : SamePc .unadvertised .unwired
  | idle : SamePc .idle .idle
  | refused : SamePc .refused .refused
  | gone : SamePc .gone .gone

/-- One publisher handle on both reaches. -/
structure PubSim (me : Nat) (x : InProc.PubEp T) (y : Shm.PubEp T) : Prop where
  pc : SamePc x.pc y.pc
  pid : y.pid = me
  count : y.publishCount = x.publishCount
  zero : y.pc = .unwired ∨ y.pc = .refused → y.publishCount = 0
  bestEffort : x.qos.reliability = .bestEffort
  exclusive : x.qos.ownership = .exclusive

structure PubsSim (me : Nat) (t : InProc.Topic T) (a : Nat → InProc.PubEp T)
    (g : Shm.Segment T) (b : Nat → Shm.PubEp T) : Prop where
  each : ∀ p, PubSim me (a p) (b p)
  declared : t.declaredOwnership = .exclusive
  owner : t.publisherCount = 0 ∧ g.pubPid = 0 ∧ (∀ p, (a p).pc ≠ .idle) ∨
    t.publisherCount = 1 ∧ g.pubPid = me ∧ ∃ p, ∀ q, (a q).pc = .idle ↔ q = p

structure Sim (me : Nat) (live : List Nat) (w : InProc.World T) (v : Shm.World T) : Prop where
  subs : SubsSim me live w.topic w.subs v.seg v.subs
  pubs : PubsSim me w.topic w.pubs v.seg v.pubs
  dead : ∀ pid, v.dead pid = false
  ordinal : v.seg.acceptedOrdinal = w.topic.acceptedOrdinal
  master : v.seg.master = cellOf w.topic.master

theorem Sim.alive {w : InProc.World T} {v : Shm.World T} (hs : Sim me live w v) (hme : me ≠ 0) :
    v.alive me = true := by
  simp [Shm.World.alive, hs.dead, hme]

/-! ## Publishers -/

theorem SubsSim.congr {t t' : InProc.Topic T} {a : Nat → InProc.SubEp T} {g g' : Shm.Segment T}
    {b : Nat → Shm.SubEp T} (hs : SubsSim me live t a g b) (hslots : t'.subSlots = t.subSlots)
    (hcount : t'.subscriberCount = t.subscriberCount) (hcores : t'.cores = t.cores)
    (hregion : ∀ i, g'.region i = g.region i) : SubsSim me live t' a g' b := by
  have hsub : ∀ i, g'.subSlots i = g.subSlots i := fun i => congrArg Shm.Region.slot (hregion i)
  refine ⟨hs.tabled.congr hslots hcount, hs.wired, hs.decl, hs.apart,
    fun k hk => ?_, fun i hi => ?_, hs.once, ?_⟩
  · obtain ⟨i, hi, hpc, hword, hm⟩ := hs.slot k hk
    refine ⟨i, hi, hpc, ?_, ?_⟩
    · rw [Shm.Segment.word, hsub]
      exact hword
    · rw [hcores, hregion]
      exact hm
  · rw [hsub]
    exact hs.owner i hi
  · simp only [hsub]
    exact hs.active

/-- A new publisher finds nothing to repair. -/
theorem repair_eq {t : InProc.Topic T} {a : Nat → InProc.SubEp T} {g : Shm.Segment T}
    {b : Nat → Shm.SubEp T} (hs : SubsSim me live t a g b) :
    (List.range Shm.kShmMaxSubscribers).foldl Shm.Segment.repairSlot g = g := by
  refine foldl_range_invariant (f := Shm.Segment.repairSlot) (P := fun _ g' => g' = g) rfl
    Shm.kShmMaxSubscribers ?_
  rintro i g' hi rfl
  rw [Shm.Segment.repairSlot]
  split
  · next hact =>
      rcases hs.owner i hi with hfree | ⟨k, hk, hpc⟩
      · rw [hfree] at hact
        cases hact.1
      · obtain ⟨j, -, hpc', -, hm⟩ := hs.slot k hk
        rw [hpc'] at hpc
        cases hpc
        have hbox := hm.box
        have hcell : (g'.latest i).repair = g'.latest i := by
          cases hb : (t.cores k).box with
          | latest x =>
              rw [hb] at hbox
              have hx : g'.latest i = cellOf x := hbox.2.2.1
              rw [hx]
              cases x <;> rfl
          | queue q =>
              rw [hb] at hbox
              have hkind : (g'.subSlots i).historyKind = 1 := hbox.2.1
              rw [hkind] at hact
              cases hact.2
        simp [Shm.Segment.setLatest, hcell]
  · rfl

/-! ## Subscribers -/

section Subscribers

variable {t : InProc.Topic T} {a : Nat → InProc.SubEp T} {g : Shm.Segment T}
  {b : Nat → Shm.SubEp T} {i k : Nat}

/-- Where subscriber `k` stands on both reaches. -/
theorem SubsSim.cases (hs : SubsSim me live t a g b) (k : Nat) :
    (k ∈ live ∧ (a k).pc = .wired .idle ∧ ∃ i, i < Shm.kShmMaxSubscribers ∧
      (b k).pc = .wired i .idle ∧ g.word i = (.active, me) ∧
      Mirror (t.cores k) (b k) (g.region i)) ∨
    (k ∉ live ∧ (a k).pc = .unwired ∧ (b k).pc = .unwired ∧ (b k).cached = none ∧
      (b k).staleLatched = false) ∨
    (k ∉ live ∧ (a k).pc = .gone ∧ (b k).pc = .gone) := by
  by_cases hk : k ∈ live
  · exact .inl ⟨hk, (hs.wired k).mp hk, hs.slot k hk⟩
  · rcases hs.apart k hk with ⟨ha, hb⟩ | ⟨ha, hb⟩
    · exact .inr (.inl ⟨hk, ha, hb⟩)
    · exact .inr (.inr ⟨hk, ha, hb⟩)

theorem SubsSim.live_of_wired (hs : SubsSim me live t a g b) (hpc : (b k).pc = .wired i .idle) :
    k ∈ live := by
  rcases hs.cases k with ⟨hk, -⟩ | ⟨-, -, hb, -⟩ | ⟨-, -, hb⟩
  · exact hk
  · rw [hb] at hpc
    cases hpc
  · rw [hb] at hpc
    cases hpc

/-- A slot somebody is wired at is active, and his. -/
theorem SubsSim.word_of_wired (hs : SubsSim me live t a g b) (hk : k ∈ live)
    (hpc : (b k).pc = .wired i .idle) : g.word i = (.active, me) := by
  obtain ⟨j, -, hpc', hw, -⟩ := hs.slot k hk
  rw [hpc] at hpc'
  cases hpc'
  exact hw

/-- A slot that is not active is free. -/
theorem SubsSim.free_of_not_active (hs : SubsSim me live t a g b)
    (hi : i < Shm.kShmMaxSubscribers) (hna : (g.subSlots i).state ≠ .active) :
    (g.subSlots i).state = .free := by
  rcases hs.owner i hi with hfree | ⟨k, hk, hpc⟩
  · exact hfree
  · exact absurd (congrArg Prod.fst (hs.word_of_wired hk hpc)) hna

/-- A take moves one subscriber and his slot. -/
theorem subsSim_take {g' : Shm.Segment T} {c' : InProc.SubCore T} {ep' : Shm.SubEp T}
    (hs : SubsSim me live t a g b) (hk : k ∈ live) (hpc : (b k).pc = .wired i .idle)
    (hm : Mirror c' ep' (g'.region i)) (honly : OnlySlot i g g') (hsame : SameWiring (b k) ep') :
    SubsSim me live (t.setCore k c') a g' (Function.update b k ep') := by
  have hbpc : ∀ q, (Function.update b k ep' q).pc = (b q).pc := by
    intro q
    by_cases hq : q = k
    · subst hq
      rw [Function.update_self]
      exact hsame.pc
    · rw [Function.update_of_ne hq]
  have hword : ∀ j, g'.word j = g.word j := by
    intro j
    by_cases hj : j = i
    · subst hj
      exact honly.word
    · have h0 : g'.subSlots j = g.subSlots j := congrArg Shm.Region.slot (honly.others j hj)
      rw [Shm.Segment.word, h0]
      rfl
  have hstate : ∀ j, (g'.subSlots j).state = (g.subSlots j).state :=
    fun j => congrArg Prod.fst (hword j)
  refine ⟨hs.tabled.congr rfl rfl, hs.wired, fun q => ?_, fun q hq => ?_, fun q hq => ?_,
    fun j hj => ?_, fun q q' j => ?_, ?_⟩
  · by_cases hqk : q = k
    · subst hqk
      rw [Function.update_self]
      have hd := hs.decl q
      exact ⟨hsame.pid.trans hd.pid, hsame.history.trans hd.history,
        hsame.deadline.trans hd.deadline, hd.depth⟩
    · rw [Function.update_of_ne hqk]
      exact hs.decl q
  · have hqk : q ≠ k := fun h0 => hq (h0 ▸ hk)
    rw [Function.update_of_ne hqk]
    exact hs.apart q hq
  · by_cases hqk : q = k
    · subst hqk
      obtain ⟨j, hj, hpc', hw, -⟩ := hs.slot q hq
      rw [hpc] at hpc'
      cases hpc'
      rw [Function.update_self]
      refine ⟨i, hj, hsame.pc.trans hpc, (hword i).trans hw, ?_⟩
      simpa [InProc.Topic.setCore] using hm
    · obtain ⟨j, hj, hpc', hw, hmq⟩ := hs.slot q hq
      have hji : j ≠ i := by
        rintro rfl
        exact hqk (hs.once q k j hpc' hpc)
      rw [Function.update_of_ne hqk]
      refine ⟨j, hj, hpc', (hword j).trans hw, ?_⟩
      rw [honly.others j hji]
      simpa [InProc.Topic.setCore, hqk] using hmq
  · rw [hstate]
    simp only [hbpc]
    exact hs.owner j hj
  · simp only [hbpc]
    exact hs.once q q' j
  · simp only [hstate]
    exact hs.active

/-- What the owner's stores make of the segment. -/
theorem occupy_spec (g : Shm.Segment T) (i : Nat) (ep : Shm.SubEp T) :
    (g.occupy i ep).header = g.header ∧ (∀ j, j ≠ i → (g.occupy i ep).region j = g.region j) ∧
      (g.occupy i ep).word i = (.active, ep.pid) := by
  simp only [Shm.Segment.occupy]
  split
  · split <;>
      refine ⟨rfl, fun j hj => ?_, ?_⟩
    · rw [Shm.region_setLatest, if_neg hj, Shm.region_setSlot, if_neg hj]
    · simp [Shm.Segment.word, Shm.Segment.freshSlot]
    · rw [Shm.region_setLatest, if_neg hj, Shm.region_setSlot, if_neg hj]
    · simp [Shm.Segment.word, Shm.Segment.freshSlot]
  · refine ⟨rfl, fun j hj => ?_, ?_⟩
    · rw [Shm.region_setRing, if_neg hj, Shm.region_setSlot, if_neg hj]
    · simp [Shm.Segment.word, Shm.Segment.freshSlot]

/-- A new core and a new slot start alike, with the same seed. -/
theorem mirror_new {ep : Shm.SubEp T} {qos : Qos} (hmaster : g.master = cellOf t.master)
    (hh : ep.history = qos.history) (hd : ep.deadline = qos.deadline)
    (hdepth : qos.history.depth ≠ 0) (hcache : ep.cached = none)
    (hlatch : ep.staleLatched = false) :
    Mirror (t.seededCore qos) ep ((g.occupy i ep).region i) := by
  cases hq : qos.history with
  | latestOnly =>
      have hlat : ep.history.isLatest = true := by
        rw [hh, hq]
        rfl
      have hkind : (Shm.Segment.freshSlot ep).historyKind = 0 := by
        simp [Shm.Segment.freshSlot, hlat]
      cases hm : t.master with
      | none =>
          have hcell : g.master = .empty := by rw [hmaster, hm]; rfl
          have hcore : t.seededCore qos = { box := .latest none, deadline := qos.deadline } := by
            simp [InProc.Topic.seededCore, hm, InProc.SubCore.new, hq]
          have hocc : (g.occupy i ep).region i =
              ⟨Shm.Segment.freshSlot ep, .empty, g.ring i⟩ := by
            simp [Shm.Segment.occupy, hlat, hcell, Shm.Segment.region, Shm.Segment.setLatest,
              Shm.Segment.setSlot]
          rw [hcore, hocc]
          exact ⟨hd, hlatch, rfl, rfl, rfl, rfl, rfl, hlat, hkind, rfl, fun _ => hcache⟩
      | some r =>
          have hcell : g.master = .full r := by rw [hmaster, hm]; rfl
          have hcore : t.seededCore qos =
              { box := .latest (some r), deadline := qos.deadline } := by
            simp [InProc.Topic.seededCore, hm, InProc.SubCore.new, hq, InProc.SubCore.store]
          have hocc : (g.occupy i ep).region i =
              ⟨Shm.Segment.freshSlot ep, .full r, g.ring i⟩ := by
            simp [Shm.Segment.occupy, hlat, hcell, Shm.Segment.region, Shm.Segment.setLatest,
              Shm.Segment.setSlot]
          rw [hcore, hocc]
          exact ⟨hd, hlatch, rfl, rfl, rfl, rfl, rfl, hlat, hkind, rfl, fun h0 => (by cases h0)⟩
  | queue depth =>
      have hlat : ep.history.isLatest = false := by
        rw [hh, hq]
        rfl
      have hkind : (Shm.Segment.freshSlot ep).historyKind = 1 := by
        simp [Shm.Segment.freshSlot, hlat]
      have hep : ep.history.depth = depth := by
        rw [hh, hq]
        rfl
      have hne : ¬ depth = 0 := by
        rw [hq] at hdepth
        exact hdepth
      have hcore : t.seededCore qos =
          { box := .queue (.empty depth), deadline := qos.deadline } := by
        cases hm : t.master <;>
          simp [InProc.Topic.seededCore, hm, InProc.SubCore.new, hq, InProc.SubCore.store]
      have hocc : (g.occupy i ep).region i =
          ⟨Shm.Segment.freshSlot ep, g.latest i, .empty depth⟩ := by
        simp [Shm.Segment.occupy, hlat, hep, hne, Shm.Segment.region, Shm.Segment.setRing,
          Shm.Segment.setSlot]
      rw [hcore, hocc]
      exact ⟨hd, hlatch, rfl, rfl, rfl, rfl, rfl, hlat, hkind, rfl⟩

/-- The slot a claim gets is free: the owners of the others live. -/
theorem claimable_free (hs : SubsSim me live t a g b) {alive : Nat → Bool}
    (hal : alive me = true) (hroom : live.length < Shm.kShmMaxSubscribers) :
    ∃ i, g.claimable alive = some i ∧ i < Shm.kShmMaxSubscribers ∧
      (g.subSlots i).state = .free := by
  cases hf : g.claimable alive with
  | none =>
      rw [← hs.active] at hroom
      obtain ⟨i, hi, hna⟩ := exists_of_countP_range_lt hroom
      have hfree := hs.free_of_not_active hi (of_decide_eq_false hna)
      have hno := List.find?_eq_none.mp hf i (List.mem_range.mpr hi)
      simp [hfree] at hno
  | some i =>
      have hi := List.mem_range.mp (List.mem_of_find?_eq_some hf)
      refine ⟨i, rfl, hi, ?_⟩
      rcases hs.owner i hi with hfree | ⟨k, hk, hpc⟩
      · exact hfree
      · -- an active slot is claimable only if its owner is dead
        have hw := hs.word_of_wired hk hpc
        have hstate : (g.subSlots i).state = .active := congrArg Prod.fst hw
        have hpid : (g.subSlots i).pid = me := congrArg Prod.snd hw
        have hp := List.find?_some hf
        simp [hstate, hpid, hal] at hp

/-- A join on both reaches. -/
theorem subsSim_join {t' : InProc.Topic T} {c' : InProc.SubCore T}
    (hs : SubsSim me live t a g b) (hk : k ∉ live) (hi : i < Shm.kShmMaxSubscribers)
    (hfree : (g.subSlots i).state = .free) (htab : InProc.Tabled (k :: live) t')
    (hcores : t'.cores = Function.update t.cores k c')
    (hm : Mirror c' (b k) ((g.occupy i (b k)).region i)) :
    SubsSim me (k :: live) t' (Function.update a k ((a k).at' (.wired .idle)))
      (g.occupy i (b k)) (Function.update b k ((b k).at' (.wired i .idle))) := by
  obtain ⟨-, hothers, hword⟩ := occupy_spec g i (b k)
  have hd := hs.decl k
  rw [hd.pid] at hword
  have hslot : ∀ j, j ≠ i → (g.occupy i (b k)).subSlots j = g.subSlots j :=
    fun j hj => congrArg Shm.Region.slot (hothers j hj)
  have hunused : ∀ q, (b q).pc ≠ .wired i .idle := by
    intro q hpc
    have := congrArg Prod.fst (hs.word_of_wired (hs.live_of_wired hpc) hpc)
    have hst : (g.subSlots i).state = .active := this
    rw [hfree] at hst
    cases hst
  refine ⟨htab, fun q => ?_, fun q => ?_, fun q hq => ?_, fun q hq => ?_, fun j hj => ?_,
    fun q q' j => ?_, ?_⟩
  · by_cases hqk : q = k
    · subst hqk
      simp [InProc.SubEp.at']
    · simp only [List.mem_cons, hqk, false_or, Function.update_of_ne hqk]
      exact hs.wired q
  · exact forall_update (P := SubDecl me) (x := (a k).at' (.wired .idle))
      (y := (b k).at' (.wired i .idle)) ⟨hd.pid, hd.history, hd.deadline, hd.depth⟩ hs.decl q
  · rw [List.mem_cons, not_or] at hq
    rw [Function.update_of_ne hq.1, Function.update_of_ne hq.1]
    exact hs.apart q hq.2
  · by_cases hqk : q = k
    · subst hqk
      rw [Function.update_self]
      refine ⟨i, hi, rfl, hword, ?_⟩
      rw [hcores, Function.update_self]
      exact ⟨hm.deadline, hm.latched, hm.takeCount, hm.dropCount, hm.overwriteCount, hm.missCount,
        hm.base, hm.box⟩
    · have hql : q ∈ live := (List.mem_cons.mp hq).resolve_left hqk
      obtain ⟨j, hj, hpc, hw, hmq⟩ := hs.slot q hql
      have hji : j ≠ i := by
        rintro rfl
        exact hunused q hpc
      rw [Function.update_of_ne hqk]
      refine ⟨j, hj, hpc, ?_, ?_⟩
      · rw [Shm.Segment.word, hslot j hji]
        exact hw
      · rw [hcores, Function.update_of_ne hqk, hothers j hji]
        exact hmq
  · by_cases hji : j = i
    · subst hji
      exact .inr ⟨k, List.mem_cons_self, by rw [Function.update_self]; rfl⟩
    · rw [hslot j hji]
      rcases hs.owner j hj with hfr | ⟨q, hq, hpc⟩
      · exact .inl hfr
      · have hqk : q ≠ k := fun h0 => hk (h0 ▸ hq)
        exact .inr ⟨q, List.mem_cons_of_mem k hq, by rw [Function.update_of_ne hqk]; exact hpc⟩
  · intro hq hq'
    by_cases hqk : q = k <;> by_cases hqk' : q' = k
    · exact hqk.trans hqk'.symm
    · subst hqk
      rw [Function.update_self] at hq
      rw [Function.update_of_ne hqk'] at hq'
      cases hq
      exact absurd hq' (hunused q')
    · subst hqk'
      rw [Function.update_self] at hq'
      rw [Function.update_of_ne hqk] at hq
      cases hq'
      exact absurd hq (hunused q)
    · rw [Function.update_of_ne hqk] at hq
      rw [Function.update_of_ne hqk'] at hq'
      exact hs.once q q' j hq hq'
  · rw [List.length_cons, ← hs.active]
    refine countP_range_insert hi ?_ ?_ fun j hj => ?_
    · simp [hfree]
    · have : ((g.occupy i (b k)).subSlots i).state = .active := congrArg Prod.fst hword
      simp [this]
    · rw [hslot j hj]

/-- A leave on both reaches. -/
theorem subsSim_leave {t' : InProc.Topic T} (hs : SubsSim me live t a g b) (hk : k ∈ live)
    (hpc : (b k).pc = .wired i .idle) (hi : i < Shm.kShmMaxSubscribers)
    (htab : InProc.Tabled (live.erase k) t') (hcores : t'.cores = t.cores) :
    SubsSim me (live.erase k) t' (Function.update a k ((a k).at' .gone))
      (g.releaseSubscriberSlot i) (Function.update b k ((b k).at' .gone)) := by
  have hnd := hs.tabled.nodup
  have hothers : ∀ j, j ≠ i → (g.releaseSubscriberSlot i).region j = g.region j := by
    intro j hj
    rw [Shm.Segment.releaseSubscriberSlot, Shm.region_setSlot, if_neg hj]
  have hslot : ∀ j, j ≠ i → (g.releaseSubscriberSlot i).subSlots j = g.subSlots j :=
    fun j hj => congrArg Shm.Region.slot (hothers j hj)
  have hfree : ((g.releaseSubscriberSlot i).subSlots i).state = .free := by
    simp [Shm.Segment.releaseSubscriberSlot]
  have hact : (g.subSlots i).state = .active := congrArg Prod.fst (hs.word_of_wired hk hpc)
  have hd := hs.decl k
  refine ⟨htab, fun q => ?_, fun q => ?_, fun q hq => ?_, fun q hq => ?_, fun j hj => ?_,
    fun q q' j => ?_, ?_⟩
  · rw [hnd.mem_erase_iff]
    by_cases hqk : q = k
    · subst hqk
      simp [InProc.SubEp.at']
    · simp only [hqk, ne_eq, not_false_iff, true_and, Function.update_of_ne hqk]
      exact hs.wired q
  · exact forall_update (P := SubDecl me) (x := (a k).at' .gone) (y := (b k).at' .gone)
      ⟨hd.pid, hd.history, hd.deadline, hd.depth⟩ hs.decl q
  · by_cases hqk : q = k
    · subst hqk
      rw [Function.update_self, Function.update_self]
      exact .inr ⟨rfl, rfl⟩
    · rw [Function.update_of_ne hqk, Function.update_of_ne hqk]
      exact hs.apart q fun h0 => hq (hnd.mem_erase_iff.mpr ⟨hqk, h0⟩)
  · obtain ⟨hqk, hql⟩ := hnd.mem_erase_iff.mp hq
    obtain ⟨j, hj, hpcq, hw, hmq⟩ := hs.slot q hql
    have hji : j ≠ i := by
      rintro rfl
      exact hqk (hs.once q k j hpcq hpc)
    rw [Function.update_of_ne hqk]
    refine ⟨j, hj, hpcq, ?_, ?_⟩
    · rw [Shm.Segment.word, hslot j hji]
      exact hw
    · rw [hcores, hothers j hji]
      exact hmq
  · by_cases hji : j = i
    · subst hji
      exact .inl hfree
    · rw [hslot j hji]
      rcases hs.owner j hj with hfr | ⟨q, hq, hpcq⟩
      · exact .inl hfr
      · have hqk : q ≠ k := by
          rintro rfl
          rw [hpc] at hpcq
          cases hpcq
          exact hji rfl
        refine .inr ⟨q, hnd.mem_erase_iff.mpr ⟨hqk, hq⟩, ?_⟩
        rw [Function.update_of_ne hqk]
        exact hpcq
  · intro hq hq'
    by_cases hqk : q = k
    · subst hqk
      rw [Function.update_self] at hq
      cases hq
    · by_cases hqk' : q' = k
      · subst hqk'
        rw [Function.update_self] at hq'
        cases hq'
      · rw [Function.update_of_ne hqk] at hq
        rw [Function.update_of_ne hqk'] at hq'
        exact hs.once q q' j hq hq'
  · have hcount := countP_range_insert (n := Shm.kShmMaxSubscribers)
      (p := fun j => decide (((g.releaseSubscriberSlot i).subSlots j).state = .active))
      (q := fun j => decide ((g.subSlots j).state = .active)) hi (by simp [hfree])
      (by simp [hact]) fun j hj => by rw [hslot j hj]
    rw [hs.active] at hcount
    rw [List.length_erase_of_mem hk]
    omega

end Subscribers

/-! ## The calls -/

section Calls

variable {size : Nat} {w : InProc.World T} {v : Shm.World T}

/-- Moving one subscriber handle. -/
theorem Sim.putSub {live' : List Nat} {t' : InProc.Topic T} {g' : Shm.Segment T} {k : Nat}
    {x : InProc.SubEp T} {y : Shm.SubEp T} (hs : Sim me live w v)
    (hsubs : SubsSim me live' t' (Function.update w.subs k x) g' (Function.update v.subs k y))
    (hcount : t'.publisherCount = w.topic.publisherCount)
    (hdecl : t'.declaredOwnership = w.topic.declaredOwnership)
    (hord : t'.acceptedOrdinal = w.topic.acceptedOrdinal) (hmaster : t'.master = w.topic.master)
    (hheader : g'.header = v.seg.header) : Sim me live' (w.putSub k t' x) (v.putSub k g' y) := by
  simp only [Shm.Segment.header, Prod.mk.injEq] at hheader
  obtain ⟨hord', hpid', -, -, -, hmaster'⟩ := hheader
  refine ⟨hsubs, ⟨hs.pubs.each, hdecl.trans hs.pubs.declared, ?_⟩, hs.dead, ?_, ?_⟩
  · show t'.publisherCount = 0 ∧ g'.pubPid = 0 ∧ _ ∨ t'.publisherCount = 1 ∧ g'.pubPid = me ∧ _
    rw [hcount, hpid']
    exact hs.pubs.owner
  · exact hord'.trans (hs.ordinal.trans hord.symm)
  · show g'.master = cellOf t'.master
    rw [hmaster', hmaster]
    exact hs.master

/-- A handle that is the owner's before and after, or neither, changes no owner. -/
theorem PubsSim.owner_update {t : InProc.Topic T} {a : Nat → InProc.PubEp T} {g : Shm.Segment T}
    {b : Nat → Shm.PubEp T} {p : Nat} {x : InProc.PubEp T} (hs : PubsSim me t a g b)
    (hx : x.pc = .idle ↔ (a p).pc = .idle) :
    t.publisherCount = 0 ∧ g.pubPid = 0 ∧ (∀ q, (Function.update a p x q).pc ≠ .idle) ∨
      t.publisherCount = 1 ∧ g.pubPid = me ∧
        ∃ q', ∀ q, (Function.update a p x q).pc = .idle ↔ q = q' := by
  have hsame : ∀ q, (Function.update a p x q).pc = .idle ↔ (a q).pc = .idle := by
    intro q
    by_cases hq : q = p
    · subst hq
      rw [Function.update_self]
      exact hx
    · rw [Function.update_of_ne hq]
  simp only [ne_eq, hsame]
  exact hs.owner

/-- Moving one publisher handle. -/
theorem Sim.putPub {t' : InProc.Topic T} {g' : Shm.Segment T} {p : Nat} {x : InProc.PubEp T}
    {y : Shm.PubEp T} (hs : Sim me live w v) (hsubs : SubsSim me live t' w.subs g' v.subs)
    (hxy : PubSim me x y) (hdecl : t'.declaredOwnership = .exclusive)
    (howner : t'.publisherCount = 0 ∧ g'.pubPid = 0 ∧
        (∀ q, (Function.update w.pubs p x q).pc ≠ .idle) ∨
      t'.publisherCount = 1 ∧ g'.pubPid = me ∧
        ∃ q', ∀ q, (Function.update w.pubs p x q).pc = .idle ↔ q = q')
    (hord : g'.acceptedOrdinal = t'.acceptedOrdinal) (hmaster : g'.master = cellOf t'.master) :
    Sim me live (w.putPub p t' x) (v.putPub p g' y) := by
  refine ⟨hsubs, ⟨fun q => ?_, hdecl, howner⟩, hs.dead, hord, hmaster⟩
  exact forall_update hxy hs.pubs.each q

/-- The delivery of one record on both reaches. -/
theorem subsSim_deliver {m : Message T} (hs : Sim me live w v) :
    SubsSim me live (w.topic.deliver m) w.subs (v.seg.publish size m) v.subs := by
  have hsubs := hs.subs
  obtain ⟨hregion, -, -, -⟩ := Shm.publish_spec size v.seg m
  rw [InProc.deliver_eq hsubs.tabled]
  generalize hg : v.seg.publish size m = g' at hregion
  have hstate : ∀ i, ((v.seg.region i).receive (m.record (v.seg.acceptedOrdinal + 1))).slot.state =
      (v.seg.subSlots i).state ∧
      ((v.seg.region i).receive (m.record (v.seg.acceptedOrdinal + 1))).slot.pid =
      (v.seg.subSlots i).pid := by
    intro i
    rw [Shm.Region.receive]
    split
    · split
      · exact ⟨rfl, rfl⟩
      · split <;> exact ⟨rfl, rfl⟩
    · exact ⟨rfl, rfl⟩
  have hword : ∀ i, g'.word i = v.seg.word i := by
    intro i
    have h0 : g'.subSlots i = (g'.region i).slot := rfl
    rw [Shm.Segment.word, h0, hregion i]
    split
    · rw [(hstate i).1, (hstate i).2]
      rfl
    · rfl
  refine ⟨hsubs.tabled.congr rfl rfl, hsubs.wired, hsubs.decl, hsubs.apart, fun k hk => ?_,
    fun i hi => ?_, hsubs.once, ?_⟩
  · obtain ⟨i, hi, hpc, hw, hm⟩ := hsubs.slot k hk
    refine ⟨i, hi, hpc, (hword i).trans hw, ?_⟩
    have hact : (v.seg.region i).slot.state = .active := congrArg Prod.fst hw
    rw [hregion i, if_pos hi]
    simp only [hk, if_true]
    rw [hs.ordinal]
    exact mirror_receive hm hact _
  · have := congrArg Prod.fst (hword i)
    rw [show (g'.subSlots i).state = (v.seg.subSlots i).state from this]
    exact hsubs.owner i hi
  · have : ∀ i, (g'.subSlots i).state = (v.seg.subSlots i).state :=
      fun i => congrArg Prod.fst (hword i)
    simp only [this]
    exact hsubs.active

variable [Inhabited T]

theorem sim_advertise (hs : Sim me live w v) (hme : me ≠ 0) (p : Nat) :
    Agree (Sim me live) (w.call size (.advertise p)) (v.call size (.advertise p)) := by
  have hp := hs.pubs.each p
  have hpc := hp.pc
  simp only [InProc.World.call, Shm.World.call]
  generalize hx : (w.pubs p).pc = x at hpc
  generalize hy : (v.pubs p).pc = y at hpc
  cases hpc with
  | unwired =>
      rcases hs.pubs.owner with ⟨hc, hpid, hnone⟩ | ⟨hc, hpid, -⟩
      · let t' : InProc.Topic T :=
          { w.topic with declaredOwnership := .exclusive, publisherCount := 1 }
        let g' : Shm.Segment T := { v.seg with pubPid := me, pubEpoch := v.seg.pubEpoch + 1 }
        have hsubs : SubsSim me live t' w.subs g' v.subs :=
          hs.subs.congr rfl rfl rfl fun _ => rfl
        have hadd : w.topic.addPublisher (w.pubs p).qos = (.ok, t') := by
          simp [InProc.Topic.addPublisher, hc, hp.exclusive, t']
        have hrep : v.seg.master.repair = v.seg.master := by
          rw [hs.master]
          cases w.topic.master <;> rfl
        have hclaim : v.seg.claimPublisherSlot v.alive (v.pubs p).pid = (.ok, g') := by
          simp only [Shm.Segment.claimPublisherSlot, hpid, ne_eq, not_true, false_and, if_false,
            hrep, hp.pid]
          rw [repair_eq hsubs]
        simp only [hadd, hclaim]
        refine .answered (hs.putPub hsubs ?_ rfl (.inr ⟨rfl, rfl, p, fun q => ?_⟩) hs.ordinal
          hs.master)
        · exact ⟨.idle, hp.pid, hp.count, fun h0 => h0.elim (fun h1 => (by cases h1))
            (fun h1 => (by cases h1)), hp.bestEffort, hp.exclusive⟩
        · by_cases hqp : q = p
          · subst hqp
            simp [InProc.PubEp.at']
          · simp [hqp, hnone q]
      · have hadd : w.topic.addPublisher (w.pubs p).qos = (.ownershipRefused, w.topic) := by
          simp [InProc.Topic.addPublisher, hc, hp.exclusive]
        have hclaim : v.seg.claimPublisherSlot v.alive (v.pubs p).pid =
            (.ownershipRefused, v.seg) := by
          simp [Shm.Segment.claimPublisherSlot, hpid, hme, hs.alive hme]
        simp only [hadd, hclaim]
        refine .answered (hs.putPub hs.subs ?_ hs.pubs.declared (hs.pubs.owner_update ?_)
          hs.ordinal hs.master)
        · exact ⟨.refused, hp.pid, hp.count, fun _ => hp.zero (.inl hy), hp.bestEffort,
            hp.exclusive⟩
        · rw [hx]
          exact ⟨fun h0 => (by cases h0), fun h0 => (by cases h0)⟩
  | idle | refused | gone => exact .refused

theorem sim_publish (hs : Sim me live w v) (p : Nat) (m : Message T) :
    Agree (Sim me live) (w.publish size p m) (v.publish size p m) := by
  have hp := hs.pubs.each p
  have hpc := hp.pc
  have hbest : ¬ ((w.pubs p).qos.reliability = .reliable ∧ w.topic.wouldBlock = true) := by
    rw [hp.bestEffort]
    exact fun h0 => (nomatch h0.1)
  simp only [InProc.World.publish, Shm.World.publish, hbest, if_false]
  generalize hx : (w.pubs p).pc = x at hpc
  generalize hy : (v.pubs p).pc = y at hpc
  cases hpc with
  | idle =>
      obtain ⟨-, hord, hpid, hmaster⟩ := Shm.publish_spec size v.seg m
      have hdel := InProc.deliver_eq hs.subs.tabled m
      refine .answered (hs.putPub (subsSim_deliver hs) ?_ ?_ ?_ ?_ ?_)
      · refine ⟨.idle, hp.pid, ?_, fun h0 => h0.elim (fun h1 => (nomatch h1))
          (fun h1 => (nomatch h1)), hp.bestEffort, hp.exclusive⟩
        show (v.pubs p).publishCount + 1 = (w.pubs p).publishCount + 1
        rw [hp.count]
      · rw [hdel]
        exact hs.pubs.declared
      · rw [hdel, hpid]
        exact hs.pubs.owner_update (by rw [hx])
      · rw [hdel, hord, hs.ordinal]
      · rw [hdel, hmaster, hs.ordinal]
        rfl
  | refused => exact .answered hs
  | unwired | gone => exact .refused

theorem sim_publishCount (hs : Sim me live w v) (p : Nat) :
    Agree (Sim me live) (w.call size (.publishCount p)) (v.call size (.publishCount p)) := by
  have hp := hs.pubs.each p
  have hpc := hp.pc
  simp only [InProc.World.call, Shm.World.call]
  generalize hx : (w.pubs p).pc = x at hpc
  generalize hy : (v.pubs p).pc = y at hpc
  cases hpc with
  | idle =>
      rw [hp.count]
      exact .answered hs
  | refused =>
      rw [hp.zero (.inr hy)]
      exact .answered hs
  | unwired | gone => exact .refused

theorem sim_publisherMatched (hs : Sim me live w v) (hme : me ≠ 0) (p : Nat) :
    Agree (Sim me live) (w.call size (.publisherMatched p))
      (v.call size (.publisherMatched p)) := by
  have hp := hs.pubs.each p
  have hpc := hp.pc
  -- every active slot belongs to a subscriber of this process, which lives
  have hcount : v.seg.publisherMatched v.alive = w.topic.subscriberCount := by
    rw [hs.subs.tabled.subscriberCount, ← hs.subs.active]
    refine List.countP_congr fun i hi => ?_
    rcases hs.subs.owner i (List.mem_range.mp hi) with hfree | ⟨k, hk, hpc'⟩
    · simp [hfree]
    · obtain ⟨j, -, hpc'', hw, -⟩ := hs.subs.slot k hk
      rw [hpc''] at hpc'
      cases hpc'
      have hpid : (v.seg.subSlots i).pid = me := congrArg Prod.snd hw
      simp [hpid, hs.alive hme]
  simp only [InProc.World.call, Shm.World.call]
  generalize hx : (w.pubs p).pc = x at hpc
  generalize hy : (v.pubs p).pc = y at hpc
  cases hpc with
  | idle =>
      rw [hcount]
      exact .answered hs
  | refused => exact .answered hs
  | unwired | gone => exact .refused

theorem sim_destroyPublisher (hs : Sim me live w v) (p : Nat) :
    Agree (Sim me live) (w.call size (.destroyPublisher p))
      (v.call size (.destroyPublisher p)) := by
  have hp := hs.pubs.each p
  have hpc := hp.pc
  have hgone : PubSim me ((w.pubs p).at' .gone) ((v.pubs p).at' .gone) :=
    ⟨.gone, hp.pid, hp.count, fun h0 => h0.elim (fun h1 => (by cases h1)) (fun h1 => (by cases h1)),
      hp.bestEffort, hp.exclusive⟩
  simp only [InProc.World.call, Shm.World.call]
  generalize hx : (w.pubs p).pc = x at hpc
  generalize hy : (v.pubs p).pc = y at hpc
  cases hpc with
  | idle =>
      -- the owner leaves
      rcases hs.pubs.owner with ⟨-, -, hnone⟩ | ⟨hc, hpid, q, hq⟩
      · exact absurd hx (hnone p)
      · obtain rfl : p = q := (hq p).mp hx
        have hrel : v.seg.releasePublisherSlot (v.pubs p).pid = { v.seg with pubPid := 0 } := by
          simp [Shm.Segment.releasePublisherSlot, hp.pid, hpid]
        rw [hrel]
        refine .answered (hs.putPub (hs.subs.congr rfl rfl rfl fun _ => rfl) hgone
          hs.pubs.declared (.inl ⟨?_, rfl, fun q => ?_⟩) hs.ordinal hs.master)
        · show w.topic.publisherCount - 1 = 0
          rw [hc]
        · by_cases hqp : q = p
          · subst hqp
            simp [InProc.PubEp.at']
          · rw [Function.update_of_ne hqp]
            exact fun h0 => hqp ((hq q).mp h0)
  | refused =>
      exact .answered (hs.putPub hs.subs hgone hs.pubs.declared
        (hs.pubs.owner_update
          (by rw [hx]; exact ⟨fun h0 => (by cases h0), fun h0 => (by cases h0)⟩))
        hs.ordinal hs.master)
  | unwired | gone => exact .refused

theorem sim_take (hs : Sim me live w v) (k : Nat)
    {verb : InProc.SubCore T → Option (MailRecord T × Bool) × InProc.SubCore T}
    {verb' : Shm.Segment T → Shm.SubEp T → Nat →
      Option (MailRecord T × Bool) × Shm.Segment T × Shm.SubEp T}
    (hverb : ∀ c ep h i, Mirror c ep (h.region i) →
      ∃ h' ep', verb' h ep i = ((verb c).1, h', ep') ∧ Mirror (verb c).2 ep' (h'.region i) ∧
        OnlySlot i h h' ∧ SameWiring ep ep') :
    Agree (Sim me live) (w.take k verb) (v.take k verb') := by
  rcases hs.subs.cases k with
    ⟨hk, hx, i, hi, hy, hw, hm⟩ | ⟨-, hx, hy, -⟩ | ⟨-, hx, hy⟩
  · obtain ⟨g', ep', heq, hm', honly, hsame⟩ := hverb _ _ _ _ hm
    simp only [InProc.World.take, Shm.World.take, hx, hy, heq]
    refine .answered (hs.putSub ?_ rfl rfl rfl rfl honly.header)
    rw [Function.update_eq_self]
    exact subsSim_take hs.subs hk hy hm' honly hsame
  · simp only [InProc.World.take, Shm.World.take, hx, hy]
    exact .refused
  · simp only [InProc.World.take, Shm.World.take, hx, hy]
    exact .refused

theorem sim_subscribe (hs : Sim me live w v) (hme : me ≠ 0) (k : Nat)
    (hroom : (k :: live).length ≤ Shm.kShmMaxSubscribers) :
    Agree (Sim me (k :: live)) (w.call size (.subscribe k)) (v.call size (.subscribe k)) := by
  simp only [InProc.World.call, Shm.World.call]
  rcases hs.subs.cases k with
    ⟨-, hx, i, -, hy, -⟩ | ⟨hk, hx, hy, hcache, hlatch⟩ | ⟨-, hx, hy⟩
  · simp only [hx, hy]
    exact .refused
  · have hlt : live.length < Shm.kShmMaxSubscribers := hroom
    have hlt' : live.length < InProc.kMaxSubscribers := Nat.lt_of_lt_of_le hlt (by decide)
    obtain ⟨i, hclaim, hi, hfree⟩ := claimable_free hs.subs (hs.alive hme) hlt
    obtain ⟨htab, j, hadd⟩ := InProc.addSubscriber_spec hs.subs.tabled hk hlt' (w.subs k).qos
    have hd := hs.subs.decl k
    have hnew : Mirror (w.topic.seededCore (w.subs k).qos) (v.subs k)
        ((v.seg.occupy i (v.subs k)).region i) :=
      mirror_new hs.master hd.history hd.deadline hd.depth hcache hlatch
    simp only [hx, hy, hclaim]
    refine .answered (hs.putSub (subsSim_join hs.subs hk hi hfree htab ?_ hnew) ?_ ?_ ?_ ?_
      (occupy_spec _ _ _).1)
    all_goals rw [hadd]
  · simp only [hx, hy]
    exact .refused

theorem sim_count (hs : Sim me live w v) (k : Nat) (c : Counter) :
    Agree (Sim me live) (w.call size (.count k c)) (v.call size (.count k c)) := by
  simp only [InProc.World.call, Shm.World.call]
  rcases hs.subs.cases k with
    ⟨-, hx, i, -, hy, -, hm⟩ | ⟨-, hx, hy, -⟩ | ⟨-, hx, hy⟩
  · have hcount : (v.seg.subSlots i).counter c = (w.topic.cores k).counter c := hm.counter c
    simp only [hx, hy, hcount]
    exact .answered hs
  · simp only [hx, hy]
    exact .refused
  · simp only [hx, hy]
    exact .refused

theorem sim_subscriberMatched (hs : Sim me live w v) (hme : me ≠ 0) (k : Nat) :
    Agree (Sim me live) (w.call size (.subscriberMatched k))
      (v.call size (.subscriberMatched k)) := by
  have hcount : v.seg.subscriberMatched v.alive = w.topic.publisherCount := by
    rcases hs.pubs.owner with ⟨hc, hpid, -⟩ | ⟨hc, hpid, -⟩
    · simp [Shm.Segment.subscriberMatched, hc, hpid, Shm.World.alive]
    · simp [Shm.Segment.subscriberMatched, hc, hpid, hs.alive hme]
  simp only [InProc.World.call, Shm.World.call]
  rcases hs.subs.cases k with
    ⟨-, hx, i, -, hy, -⟩ | ⟨-, hx, hy, -⟩ | ⟨-, hx, hy⟩
  · simp only [hx, hy, hcount]
    exact .answered hs
  · simp only [hx, hy]
    exact .refused
  · simp only [hx, hy]
    exact .refused

theorem sim_destroySubscriber (hs : Sim me live w v) (k : Nat) :
    Agree (Sim me (live.erase k)) (w.call size (.destroySubscriber k))
      (v.call size (.destroySubscriber k)) := by
  simp only [InProc.World.call, Shm.World.call]
  rcases hs.subs.cases k with
    ⟨hk, hx, i, hi, hy, -⟩ | ⟨-, hx, hy, -⟩ | ⟨-, hx, hy⟩
  · obtain ⟨htab, j, hrem⟩ := InProc.removeSubscriber_spec hs.subs.tabled hk
    simp only [hx, hy]
    refine .answered (hs.putSub (subsSim_leave hs.subs hk hy hi htab ?_) ?_ ?_ ?_ ?_ rfl)
    all_goals rw [hrem]
  · simp only [hx, hy]
    exact .refused
  · simp only [hx, hy]
    exact .refused

/-- The step of the simulation. -/
theorem sim_call {c : Op T} (hs : Sim me live w v) (hme : me ≠ 0)
    (hroom : (c.note live).length ≤ Shm.kShmMaxSubscribers) :
    Agree (Sim me (c.note live)) (w.call size c) (v.call size c) := by
  cases c with
  | advertise p => exact sim_advertise hs hme p
  | publish p value context now => exact sim_publish hs p _
  | publishDerived p value upstream context now => exact sim_publish hs p _
  | publishCount p => exact sim_publishCount hs p
  | publisherMatched p => exact sim_publisherMatched hs hme p
  | destroyPublisher p => exact sim_destroyPublisher hs p
  | subscribe k => exact sim_subscribe hs hme k hroom
  | takeLatest k now => exact sim_take hs k fun _ _ _ _ hm => mirror_takeLatest hm now
  | tryTake k now => exact sim_take hs k fun _ _ _ _ hm => mirror_tryTake hm now
  | count k c => exact sim_count hs k c
  | subscriberMatched k => exact sim_subscriberMatched hs hme k
  | destroySubscriber k => exact sim_destroySubscriber hs k

end Calls

end Xmmsg.Reach
