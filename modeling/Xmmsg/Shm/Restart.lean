import Xmmsg.Shm.Whole

/-!
# A topic comes back after any crash

Whatever has happened on a segment, publishers and subscribers killed inside any store
and slots left claimed or written by two hands, a topic whose publisher slot is held by
nobody alive and in which some subscriber slot can be had is as good as new for a
publisher and a subscriber that join it now. The ordinals go on where the segment's own
counter stands, and the takes of the new subscriber return what it keeps of the messages
sent to it, in order and without a gap: the last of them for a latest-only subscriber,
the first `queue_depth` of them for a queue.

The other endpoints may stand anywhere, a lock held by a dead hand included; they do not
move here. The calls are put together as scripts, and `lives_comes` is the step from whole
calls to accesses.
-/

namespace Xmmsg.Shm

open Xmmsg.Sys

variable {T : Type}

/-! ## What a slot keeps of the messages sent to it -/

/-- The records of messages published one after the other, the last ordinal before them
being `a`. -/
def stamped (a : Nat) : List (Message T) → List (MailRecord T)
  | [] => []
  | m :: ms => m.record (a + 1) :: stamped (a + 1) ms

/-- The depth of the ring a subscriber gets. -/
def SubEp.ringDepth (ep : SubEp T) : Nat := if ep.history.depth = 0 then 1 else ep.history.depth

/-- What a subscriber keeps of the records that reach it before its first take. -/
def SubEp.keeps (ep : SubEp T) (rs : List (MailRecord T)) : List (MailRecord T) :=
  if ep.history.isLatest then rs.getLast?.toList else rs.take ep.ringDepth

/-- Several publishes. -/
def Segment.publishes (size : Nat) (h : Segment T) (ms : List (Message T)) : Segment T :=
  ms.foldl (Segment.publish size) h

/-- A slot takes the records one after the other. -/
theorem publishes_region (size : Nat) (h : Segment T) (ms : List (Message T)) {i : Nat}
    (hi : i < kShmMaxSubscribers) : (h.publishes size ms).region i =
      (stamped h.acceptedOrdinal ms).foldl (fun x r => x.receive r) (h.region i) := by
  induction ms generalizing h with
  | nil => rfl
  | cons m ms ih =>
      obtain ⟨hregion, haccepted, -⟩ := publish_spec size h m
      rw [Segment.publishes, List.foldl_cons, ← Segment.publishes, ih, haccepted, hregion i,
        if_pos hi]
      rfl

/-- A slot in use as its owner made it. -/
structure Region.Open (x : Region T) (latest : Bool) : Prop where
  active : x.slot.state = .active
  kind : x.slot.historyKind = if latest then 0 else 1

theorem receive_open {x : Region T} {latest : Bool} (h : x.Open latest) (r : MailRecord T) :
    (x.receive r).Open latest := by
  unfold Region.receive
  rw [if_pos h.active]
  split
  · exact ⟨h.active, h.kind⟩
  · split
    · exact ⟨h.active, h.kind⟩
    · exact ⟨h.active, h.kind⟩

theorem receives_latest {x : Region T} (h : x.Open true) (rs : List (MailRecord T)) :
    (rs.foldl (fun x r => x.receive r) x).cell = (rs.getLast?.map Cell.full).getD x.cell := by
  induction rs generalizing x with
  | nil => rfl
  | cons r rs ih =>
      have hcell : (x.receive r).cell = .full r := by
        have hkind : x.slot.historyKind = 0 := h.kind
        unfold Region.receive
        rw [if_pos h.active, if_pos hkind]
      rw [List.foldl_cons, ih (receive_open h r), hcell]
      cases rs with
      | nil => rfl
      | cons r' rs => rw [List.getLast?_cons_cons, List.getLast?_cons]; rfl

theorem receives_ring {x : Region T} (h : x.Open false) (rs : List (MailRecord T)) :
    (rs.foldl (fun x r => x.receive r) x).ring.items = (x.ring.items ++ rs).take x.ring.depth ∧
      (rs.foldl (fun x r => x.receive r) x).ring.depth = x.ring.depth := by
  induction rs generalizing x with
  | nil => exact ⟨by rw [List.append_nil, List.take_of_length_le x.ring.bounded]; rfl, rfl⟩
  | cons r rs ih =>
      obtain ⟨hitems, hdepth⟩ := ih (receive_open h r)
      have hkind : x.slot.historyKind ≠ 0 := by rw [h.kind]; decide
      rw [List.foldl_cons, hitems, hdepth]
      unfold Region.receive
      rw [if_pos h.active, if_neg hkind]
      cases hp : x.ring.tryPush r with
      | some q =>
          obtain ⟨hq, hqd, -⟩ := Fifo.tryPush_some hp
          simp only [hq, hqd, List.append_assoc, List.singleton_append, and_self]
      | none =>
          -- a full ring keeps what it has, whatever follows
          have hfull := Fifo.full_iff.mp (Fifo.tryPush_none.mp hp)
          simp only [← hfull, List.take_left', and_self]

/-! ## The calls -/

/-- Taking the publisher slot over leaves the subscribers' slots and the counter alone. -/
theorem takenOver_slots (h : Segment T) (me : Nat) :
    (h.takenOver me).subSlots = h.subSlots ∧
      (h.takenOver me).acceptedOrdinal = h.acceptedOrdinal := by
  let g : Segment T :=
    { h with pubPid := me, pubEpoch := h.pubEpoch + 1, master := h.master.repair }
  have hloop := foldl_range_invariant (f := Segment.repairSlot) (s := g)
    (P := fun _ g => g.subSlots = h.subSlots ∧ g.acceptedOrdinal = h.acceptedOrdinal) ⟨rfl, rfl⟩
    kShmMaxSubscribers
  refine hloop ?_
  rintro n g' - ⟨hslots, haccepted⟩
  rw [Segment.repairSlot]
  split
  · exact ⟨hslots, haccepted⟩
  · exact ⟨hslots, haccepted⟩

theorem occupy_latest (h : Segment T) (i : Nat) {ep : SubEp T} (hl : ep.history.isLatest = true) :
    ∃ c, h.occupy i ep = (h.setSlot i (Segment.freshSlot ep)).setLatest i c := by
  simp only [Segment.occupy, hl, if_true]
  split
  · next r _ => exact ⟨.full r, rfl⟩
  · exact ⟨.empty, rfl⟩

theorem occupy_queue (h : Segment T) (i : Nat) {ep : SubEp T} (hl : ep.history.isLatest = false) :
    h.occupy i ep = (h.setSlot i (Segment.freshSlot ep)).setRing i (.empty ep.ringDepth) := by
  simp only [Segment.occupy, hl, Bool.false_eq_true, if_false]
  rfl

theorem freshSlot_kind (ep : SubEp T) :
    (Segment.freshSlot ep).historyKind = if ep.history.isLatest then 0 else 1 := rfl

/-- What a claimed slot looks like when it turns active. -/
theorem occupy_open (h : Segment T) (i : Nat) (ep : SubEp T) :
    ((h.occupy i ep).region i).Open ep.history.isLatest ∧
      (h.occupy i ep).acceptedOrdinal = h.acceptedOrdinal ∧
      (ep.history.isLatest = false → (h.occupy i ep).ring i = .empty ep.ringDepth) := by
  cases hl : ep.history.isLatest with
  | true =>
      obtain ⟨c, hc⟩ := occupy_latest h i hl
      rw [hc, region_setLatest, if_pos rfl, region_setSlot, if_pos rfl]
      exact ⟨⟨rfl, (freshSlot_kind ep).trans (by rw [hl])⟩, rfl, fun h0 => by cases h0⟩
  | false =>
      rw [occupy_queue h i hl, region_setRing, if_pos rfl, region_setSlot, if_pos rfl]
      refine ⟨⟨rfl, (freshSlot_kind ep).trans (by rw [hl])⟩, rfl, fun _ => ?_⟩
      rw [← region_ring, region_setRing, if_pos rfl]

/-- What a publish on handle `p` sends. -/
def sends (p : Nat) : Op T → Option (Message T)
  | .publish q value context now =>
      if q = p then some { value := value, context := context, now := now } else none
  | .publishDerived q value upstream context now =>
      if q = p then
        some { value := value, derived := derivedInfo upstream, context := context, now := now }
      else none
  | _ => none

/-- The take verb of a subscriber with that history. -/
def takes (history : History) (e : Nat) (now : Int) : Op T :=
  if history.isLatest then .takeLatest e now else .tryTake e now

variable {w : World T} {p e : Nat}

/-- The two processes that join live. -/
theorem joins_live (hp : w.livePub p) (he : w.liveSub e) {op : Op T}
    (hop : op ∈ [Op.advertise p, .subscribe e]) : Lives op w := by
  rcases List.mem_cons.mp hop with rfl | hop
  · refine ⟨fun _ h0 => ?_, fun _ h0 => ?_⟩
    · cases h0
    · cases h0
      exact hp
  · rw [List.mem_singleton.mp hop]
    refine ⟨fun _ h0 => ?_, fun _ h0 => ?_⟩
    · cases h0
      exact he
    · cases h0

variable [Inhabited T]

/-- A take and the record it returns. -/
def took (history : History) (deadline : Option Int) (e : Nat) (r : MailRecord T) (now : Int) :
    Op T × Answer T :=
  (takes history e now, .sample (r.sample (isStale deadline now r.envelope.publishStampNs)))

theorem took_subscriber (history : History) (deadline : Option Int) (e : Nat)
    (r : MailRecord T) (now : Int) :
    (took history deadline e r now).1.subscriber = some e ∧
      (took history deadline e r now).1.publisher = none := by
  unfold took takes
  cases history.isLatest <;> exact ⟨rfl, rfl⟩

theorem call_sends (size : Nat) {op : Op T} {m : Message T} (h : sends p op = some m) :
    w.call size op = w.publish size p m ∧ op.publisher = some p ∧ op.subscriber = none := by
  cases op <;> simp only [sends] at h
  case publish q value context now =>
    split at h
    · next hq =>
        cases h
        rw [hq]
        exact ⟨rfl, rfl, rfl⟩
    · cases h
  case publishDerived q value upstream context now =>
    split at h
    · next hq =>
        cases h
        rw [hq]
        exact ⟨rfl, rfl, rfl⟩
    · cases h
  all_goals cases h

/-- The publishes of a wired publisher, one after the other. -/
theorem publishes_script (size : Nat) {ops : List (Op T)} (hpc : (w.pubs p).pc = .idle)
    (hops : ∀ op ∈ ops, (sends p op).isSome) :
    ∃ w', script (World.call size) ops w = some (ops.map fun op => (op, .published .ok), w') ∧
      w'.seg = w.seg.publishes size (ops.filterMap (sends p)) ∧ w'.subs = w.subs := by
  induction ops generalizing w with
  | nil => exact ⟨w, rfl, rfl, rfl⟩
  | cons op ops ih =>
      obtain ⟨m, hm⟩ := Option.isSome_iff_exists.mp (hops op List.mem_cons_self)
      have hcall : w.call size op = some (.published .ok, w.putPub p (w.seg.publish size m)
          { w.pubs p with
            publishCount := (w.pubs p).publishCount + 1, bytes := (w.pubs p).bytes + size }) := by
        simp only [(call_sends size hm).1, World.publish, hpc]
      rw [List.filterMap_cons_some hm, Segment.publishes, List.foldl_cons, ← Segment.publishes]
      generalize w.seg.publish size m = g at hcall ⊢
      obtain ⟨w', hscript, hseg, hsubs⟩ := ih
        (w := w.putPub p g { w.pubs p with
          publishCount := (w.pubs p).publishCount + 1, bytes := (w.pubs p).bytes + size })
        (by rw [World.putPub_self]; exact hpc)
        fun op' hop' => hops op' (List.mem_cons_of_mem op hop')
      refine ⟨w', ?_, hseg, hsubs⟩
      rw [script, hcall]
      simp only [hscript]
      rfl

/-- One take from a queue that holds something. -/
theorem tryTake_front (size : Nat) {i : Nat} {r : MailRecord T} {rs : List (MailRecord T)}
    (now : Int) (hpc : (w.subs e).pc = .wired i .idle) (hl : (w.subs e).history.isLatest = false)
    (hrs : (w.seg.ring i).items = r :: rs) :
    ∃ w' : World T, w.call size (.tryTake e now) = some (.sample (r.sample
        (isStale (w.subs e).deadline now r.envelope.publishStampNs)), w') ∧
      (w'.subs e).pc = .wired i .idle ∧ (w'.subs e).history = (w.subs e).history ∧
      (w'.subs e).deadline = (w.subs e).deadline ∧ (w'.seg.ring i).items = rs := by
  obtain ⟨q, hq, hitems⟩ := Fifo.tryPop_cons hrs
  have htake : w.seg.tryTakeSample (w.subs e) i now =
      (some (r, ((w.seg.setRing i q).fillSample (w.subs e) i now r).1),
        ((w.seg.setRing i q).fillSample (w.subs e) i now r).2.1,
        ((w.seg.setRing i q).fillSample (w.subs e) i now r).2.2) := by
    simp only [Segment.tryTakeSample, hl, Bool.false_eq_true, if_false, hq]
  refine ⟨w.putSub e ((w.seg.setRing i q).fillSample (w.subs e) i now r).2.1
    ((w.seg.setRing i q).fillSample (w.subs e) i now r).2.2, ?_, ?_⟩
  · simp only [World.call, World.take, hpc, htake]
    rfl
  · rw [World.putSub_self, World.putSub_seg]
    refine ⟨hpc, rfl, rfl, ?_⟩
    rw [Segment.fillSample, ← hitems, ← region_ring, region_setSlot, if_pos rfl,
      region_setRing, if_pos rfl]

/-- What a queue holds, the takes return. -/
theorem takes_queue {size i : Nat} {history : History} {deadline : Option Int}
    {rs : List (MailRecord T)} {nows : List Int} (hpc : (w.subs e).pc = .wired i .idle)
    (hh : (w.subs e).history = history) (hd : (w.subs e).deadline = deadline)
    (hl : history.isLatest = false) (hrs : (w.seg.ring i).items = rs) :
    ∃ w', script (World.call size) ((List.zipWith (took history deadline e) rs nows).map Prod.fst)
      w = some (List.zipWith (took history deadline e) rs nows, w') := by
  induction rs generalizing w nows with
  | nil => exact ⟨w, rfl⟩
  | cons r rs ih =>
      cases nows with
      | nil => exact ⟨w, rfl⟩
      | cons now nows =>
          obtain ⟨u, hcall, hpc', hh', hd', hrs'⟩ :=
            tryTake_front size now hpc (by rw [hh]; exact hl) hrs
          have hrest : ∃ w', script (World.call size)
              ((List.zipWith (took history deadline e) rs nows).map Prod.fst) u =
              some (List.zipWith (took history deadline e) rs nows, w') :=
            ih hpc' (hh'.trans hh) (hd'.trans hd) hrs'
          obtain ⟨w', hscript⟩ := hrest
          refine ⟨w', ?_⟩
          have hop : (took history deadline e r now).1 = .tryTake e now := by
            simp only [took, takes, hl, Bool.false_eq_true, if_false]
          rw [List.zipWith_cons_cons, List.map_cons, script, hop, hcall]
          simp only [hscript]
          rw [← hop, hd]
          rfl

/-- What the mailbox holds, the take returns. -/
theorem takes_latest {size i : Nat} {r : MailRecord T} {nows : List Int}
    (hpc : (w.subs e).pc = .wired i .idle) (hl : (w.subs e).history.isLatest = true)
    (hr : w.seg.latest i = .full r) :
    ∃ w', script (World.call size) ((List.zipWith (took (w.subs e).history (w.subs e).deadline e)
      [r] nows).map Prod.fst) w =
        some (List.zipWith (took (w.subs e).history (w.subs e).deadline e) [r] nows, w') := by
  cases nows with
  | nil => exact ⟨w, rfl⟩
  | cons now nows =>
      have hload : ((w.subs e).loaded (w.seg.latest i)).cached = some r := by
        rw [hr]
        rfl
      let ep := (w.subs e).loaded (w.seg.latest i)
      have htake : w.seg.takeLatestSample (w.subs e) i now =
          (some (r, (w.seg.fillSample ep i now r).1),
            (w.seg.fillSample ep i now r).2.1.charge i r, (w.seg.fillSample ep i now r).2.2) :=
        takeLatestSample_some hl hload
      have hop : (took (w.subs e).history (w.subs e).deadline e r now).1 = .takeLatest e now := by
        simp only [took, takes, hl, if_true]
      refine ⟨w.putSub e ((w.seg.fillSample ep i now r).2.1.charge i r)
        (w.seg.fillSample ep i now r).2.2, ?_⟩
      rw [List.zipWith_cons_cons, List.zipWith_nil_left, List.map_cons, List.map_nil, script, hop]
      simp only [World.call, World.take, hpc, htake, script]
      rw [← hop]
      have hdeadline : ep.deadline = (w.subs e).deadline := by
        rw [show ep = { w.subs e with cached := some r } by simp only [ep, hr, SubEp.loaded]]
      simp only [took, sampleOf, Segment.fillSample, ← hdeadline, ep]

/-- What has reached an open slot before its first take, the takes return. -/
theorem takes_kept (size : Nat) (nows : List Int) {i : Nat} {x : Region T}
    {rs : List (MailRecord T)} (hpc : (w.subs e).pc = .wired i .idle)
    (hopen : x.Open (w.subs e).history.isLatest)
    (hring : (w.subs e).history.isLatest = false → x.ring = .empty (w.subs e).ringDepth)
    (hregion : w.seg.region i = rs.foldl (fun x r => x.receive r) x) :
    ∃ w', script (World.call size) ((List.zipWith (took (w.subs e).history (w.subs e).deadline e)
      ((w.subs e).keeps rs) nows).map Prod.fst) w =
        some (List.zipWith (took (w.subs e).history (w.subs e).deadline e)
          ((w.subs e).keeps rs) nows, w') := by
  cases hl : (w.subs e).history.isLatest with
  | true =>
      have hcell := receives_latest (by rw [← hl]; exact hopen) rs
      rw [← hregion, region_cell] at hcell
      simp only [SubEp.keeps, hl, if_true]
      cases hlast : rs.getLast? with
      | none => exact ⟨w, rfl⟩
      | some r =>
          rw [hlast] at hcell
          exact takes_latest hpc hl hcell
  | false =>
      have hitems := (receives_ring (by rw [← hl]; exact hopen) rs).1
      rw [← hregion, region_ring, hring hl, Fifo.empty_items, List.nil_append,
        Fifo.empty_depth] at hitems
      simp only [SubEp.keeps, hl, Bool.false_eq_true, if_false]
      exact takes_queue hpc rfl rfl hl hitems

/-! ## The topic comes back -/

/-- A claim of the publisher slot whose owner is gone, then a claim of a slot that can be
had. -/
theorem joins_script (size : Nat) {i : Nat}
    (hdead : ¬ (w.seg.pubPid ≠ 0 ∧ w.alive w.seg.pubPid = true))
    (hroom : w.seg.claimable w.alive = some i) (hp : (w.pubs p).pc = .unwired)
    (he : (w.subs e).pc = .unwired) :
    ∃ w' : World T, script (World.call size) [.advertise p, .subscribe e] w =
        some ([(.advertise p, .advertised .ok), (.subscribe e, .subscribed .ok)], w') ∧
      (w'.pubs p).pc = .idle ∧ (w'.subs e).pc = .wired i .idle ∧
      (w'.subs e).history = (w.subs e).history ∧ (w'.subs e).deadline = (w.subs e).deadline ∧
      w'.seg.acceptedOrdinal = w.seg.acceptedOrdinal ∧
      (w'.seg.region i).Open (w.subs e).history.isLatest ∧
      ((w.subs e).history.isLatest = false → w'.seg.ring i = .empty (w.subs e).ringDepth) := by
  obtain ⟨hslots, haccepted⟩ := takenOver_slots w.seg (w.pubs p).pid
  have hadv : w.call size (.advertise p) = some (.advertised .ok,
      w.putPub p (w.seg.takenOver (w.pubs p).pid)
        { w.pubs p with ownsPublisherSlot := true, pc := .idle }) := by
    simp only [World.call, hp, claimPublisherSlot_eq, if_neg hdead]
  generalize w.seg.takenOver (w.pubs p).pid = g at hslots haccepted hadv
  let u := w.putPub p g { w.pubs p with ownsPublisherSlot := true, pc := .idle }
  have hadv : w.call size (.advertise p) = some (.advertised .ok, u) := hadv
  have hclaim : u.seg.claimable u.alive = some i := by
    rw [Segment.claimable, show u.seg.subSlots = w.seg.subSlots from hslots]
    exact hroom
  obtain ⟨hopen, hacc, hring⟩ := occupy_open u.seg i (u.subs e)
  have hsub : u.call size (.subscribe e) = some (.subscribed .ok,
      u.putSub e (u.seg.occupy i (u.subs e)) ((u.subs e).at' (.wired i .idle))) := by
    have hpc : (u.subs e).pc = .unwired := he
    simp only [World.call, hpc, hclaim]
  generalize u.seg.occupy i (u.subs e) = g' at hopen hacc hring hsub
  refine ⟨u.putSub e g' ((u.subs e).at' (.wired i .idle)), ?_, ?_, ?_⟩
  · simp only [script, hadv, hsub]
  · rw [World.putSub_pubs]
    exact congrArg PubEp.pc (World.putPub_self w p g _)
  · rw [World.putSub_self, World.putSub_seg]
    exact ⟨rfl, rfl, rfl, hacc.trans haccepted, hopen, hring⟩

theorem sends_live (hp : w.livePub p) {op : Op T} (hop : (sends p op).isSome) : Lives op w := by
  obtain ⟨m, hm⟩ := Option.isSome_iff_exists.mp hop
  obtain ⟨-, hpub, hsub⟩ := call_sends (w := w) 0 hm
  refine ⟨fun k hk => ?_, fun q hq => ?_⟩
  · rw [hsub] at hk
    cases hk
  · rw [hpub] at hq
    cases hq
    exact hp

theorem took_live (he : w.liveSub e) {history : History} {deadline : Option Int}
    {rs : List (MailRecord T)} {nows : List Int} {x : Op T × Answer T}
    (hx : x ∈ List.zipWith (took history deadline e) rs nows) : Lives x.1 w := by
  obtain ⟨r, now, rfl⟩ : ∃ r now, x = took history deadline e r now := by
    obtain ⟨n, hn, rfl⟩ := List.mem_iff_getElem.mp hx
    exact ⟨_, _, List.getElem_zipWith⟩
  obtain ⟨hsub, hpub⟩ := took_subscriber history deadline e r now
  refine ⟨fun k hk => ?_, fun q hq => ?_⟩
  · rw [hsub] at hk
    cases hk
    exact he
  · rw [hpub] at hq
    cases hq

/-- From every state the interleaved code reaches, publishers and subscribers killed in
any access included: once the process in the publisher slot is dead and a subscriber slot
can be had, a live publisher and a live subscriber that join are served. Whatever the
publisher sends, takes of the subscriber return the records it keeps, under the ordinals
that follow the segment's counter. Nobody else moves during these calls, and they are the
calls named: the messages of `ops`, the clocks of `nows`. -/
theorem restart_serves {size i : Nat} (ops : List (Op T)) (nows : List Int)
    (hw : (machine T size).Reached anyStep w)
    (hdead : w.seg.pubPid ≠ 0 → w.alive w.seg.pubPid = false)
    (hroom : w.seg.claimable w.alive = some i) (hp : w.livePub p) (he : w.liveSub e)
    (hpc : (w.pubs p).pc = .unwired) (hec : (w.subs e).pc = .unwired)
    (hops : ∀ op ∈ ops, (sends p op).isSome) :
    ∃ w', (machine T size).Played (verbs T) w
        ((.advertise p, .advertised .ok) :: (.subscribe e, .subscribed .ok) ::
          (ops.map (fun op => (op, .published .ok)) ++
            List.zipWith (took (w.subs e).history (w.subs e).deadline e)
              ((w.subs e).keeps (stamped w.seg.acceptedOrdinal (ops.filterMap (sends p)))) nows))
        w' ∧ (machine T size).Reached anyStep w' := by
  obtain ⟨u, hjoin, hidle, hwired, hhist, hdl, hacc, hopen, hring⟩ :=
    joins_script size (fun h0 => by rw [hdead h0.1] at h0; cases h0.2) hroom hpc hec
  obtain ⟨v, hpub, hseg, hsubs⟩ := publishes_script size hidle hops
  have hi : i < kShmMaxSubscribers := List.mem_range.mp (List.mem_of_find?_eq_some hroom)
  have hregion := publishes_region size u.seg (ops.filterMap (sends p)) hi
  rw [hacc, ← hseg] at hregion
  generalize stamped w.seg.acceptedOrdinal (ops.filterMap (sends p)) = rs at hregion ⊢
  have hvpc : (v.subs e).pc = .wired i .idle := by rw [hsubs, hwired]
  have hvh : (v.subs e).history = (w.subs e).history := by rw [hsubs, hhist]
  have hvd : (v.subs e).deadline = (w.subs e).deadline := by rw [hsubs, hdl]
  have hdepth : (v.subs e).ringDepth = (w.subs e).ringDepth := by rw [SubEp.ringDepth, hvh]; rfl
  have hkeeps : (v.subs e).keeps rs = (w.subs e).keeps rs := by
    rw [SubEp.keeps, hvh, hdepth]
    rfl
  -- the subscriber has not moved while the publisher sent
  have htakes := takes_kept size nows hvpc (by rw [hvh]; exact hopen)
    (by rw [hvh, hdepth, region_ring]; exact hring) hregion
  rw [hvh, hvd, hkeeps] at htakes
  obtain ⟨w', htake⟩ := htakes
  have hall := script_append hjoin (script_append hpub htake)
  refine ⟨w', ?_⟩
  have hlive : ∀ op ∈ [.advertise p, .subscribe e] ++ (ops ++ (List.zipWith
      (took (w.subs e).history (w.subs e).deadline e) ((w.subs e).keeps rs) nows).map Prod.fst),
      Lives op w := by
    intro op hop
    rcases List.mem_append.mp hop with hop | hop
    · exact joins_live hp he hop
    · rcases List.mem_append.mp hop with hop | hop
      · exact sends_live hp (hops op hop)
      · obtain ⟨a, ha, rfl⟩ := List.mem_map.mp hop
        exact took_live he ha
  have hplayed : (machine T size).Played (verbs T) w _ w' :=
    Machine.script_played (fun _ _ _ _ hs hc => lives_comes hs hc) hlive hall
  exact ⟨hplayed, hplayed.reached hw⟩

theorem advertise_unwired {size : Nat} (h : (w.call size (.advertise p)).isSome) :
    (w.pubs p).pc = .unwired := by
  simp only [World.call] at h
  split at h
  · assumption
  · cases h

theorem subscribe_unwired {size : Nat} (h : (w.call size (.subscribe e)).isSome) :
    (w.subs e).pc = .unwired := by
  simp only [World.call] at h
  split at h
  · assumption
  · cases h

/-- Publisher 0 dies inside its first store into the master cell. Publisher 1 takes the slot
over, a subscriber with a queue of two joins, and of three messages it takes the first two,
the ordinal of the torn one left out. -/
theorem restart_serves_torn : ∃ w w' : World Nat, w.seg.master = .torn ∧
    (machine Nat 8).Reached anyStep w' ∧
    (machine Nat 8).Played (verbs Nat) w
      [(.advertise 1, .advertised .ok), (.subscribe 0, .subscribed .ok),
        (.publish 1 9 0 5, .published .ok), (.publish 1 8 0 6, .published .ok),
        (.publish 1 7 0 7, .published .ok),
        (.tryTake 0 8, .sample ((Message.record { value := 9, now := 5 } 2).sample false)),
        (.tryTake 0 9, .sample ((Message.record { value := 8, now := 6 } 3).sample false))] w' := by
  let w₀ : World Nat :=
    { subs := fun e => { pid := e + 10, history := .queue 2 }, pubs := fun p => { pid := p + 1 } }
  let seen : World Nat → Bool := fun w =>
    decide (w.seg.master = .torn) && !w.alive w.seg.pubPid && w.alive (w.pubs 1).pid &&
      w.alive (w.subs 0).pid && decide (w.seg.claimable w.alive = some 0) &&
      (w.call 8 (.advertise 1)).isSome && (w.call 8 (.subscribe 0)).isSome &&
      decide ((w.subs 0).history = .queue 2) && decide ((w.subs 0).deadline = none) &&
      decide (w.seg.acceptedOrdinal = 1)
  have hstart : ((machine Nat 8).exec (pubGo 0 21 ++ [.pub 0 (.publish { value := 7 }), .pub 0 .go,
      .pub 0 .go, .die 1]) w₀).map seen = some true := by
    decide +kernel
  obtain ⟨w, hw, hseen⟩ := Option.map_eq_some_iff.mp hstart
  simp only [seen, Bool.and_eq_true, Bool.not_eq_true', decide_eq_true_eq] at hseen
  obtain ⟨⟨⟨⟨⟨⟨⟨⟨⟨htorn, hdead⟩, hp⟩, he⟩, hroom⟩, hpc⟩, hec⟩, hhist⟩, hdl⟩, hord⟩ := hseen
  have hreach : (machine Nat 8).Reached anyStep w :=
    Machine.reached_of_exec (.start ⟨rfl, fun _ => rfl, fun e => ⟨Nat.succ_ne_zero _, rfl, rfl⟩,
      fun p => ⟨Nat.succ_ne_zero _, rfl, rfl⟩⟩) hw
  obtain ⟨w', hplayed, hreached⟩ := restart_serves (p := 1) (e := 0)
    [.publish 1 9 0 5, .publish 1 8 0 6, .publish 1 7 0 7] [8, 9] hreach (fun _ => hdead) hroom
    hp he (advertise_unwired hpc) (subscribe_unwired hec) (by decide)
  rw [SubEp.keeps, SubEp.ringDepth, hhist, hdl, hord] at hplayed
  exact ⟨w, w', htorn, hreached, hplayed⟩

end Xmmsg.Shm
