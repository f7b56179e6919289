import Xmmsg.Shm.Clean

/-!
# Addressing a topic by its name

`ResolveTopic` of the tool: `xmmsg stat <topic|segment> --domain <key>` scans the
directory, takes every name apart, keeps the domain asked for and looks for the topic
among what is left. Within a domain a topic has one segment, since a name is put
together again from its parts (`name_of_parse`), so the search has one hit.

The argument may be a segment name as well, and an argument that begins with `xmmsg.`
is taken for one. The grammar has topics that begin so. For those the tool looks for
a segment that no participant makes (`resolve_topic_iff`).
-/

namespace Xmmsg.Shm

/-- `ResolveTopic`; the two refusals and their messages are one answer here. -/
def resolveTopic (arg domainFilter : List Char) (openStatus : List Char → IntrospectOpenStatus)
    (snapshot : List Char → IntrospectSnapshot) (entries : List (List Char)) : Option TopicView :=
  let views := collect domainFilter openStatus snapshot entries
  let raw := !arg.isEmpty && (arg.head? == some '/' || "xmmsg.".toList.isPrefixOf arg)
  let rawName := if arg.head? == some '/' then arg else '/' :: arg
  match views.filter fun view =>
      if raw then view.seg.name == rawName else view.seg.topic == arg with
  | [view] => some view
  | _ => none

/-! ## A name is put together from its parts -/

theorem getElem?_of_findFrom {s : List Char} {c : Char} {pos i : Nat}
    (h : findFrom s c pos = some i) : s[i]? = some c := by
  rw [findFrom] at h
  obtain ⟨j, hj, rfl⟩ := Option.map_eq_some_iff.mp h
  obtain ⟨hlt, hget, -⟩ := List.idxOf?_eq_some_iff.mp hj
  have hdrop : (s.drop pos)[j]? = some c := by
    rw [List.getElem?_eq_getElem hlt, hget]
  rw [List.getElem?_drop] at hdrop
  rw [Nat.add_comm]
  exact hdrop

/-- What is not a hash is its key and its topic. -/
theorem name_of_parse {name : List Char} {seg : DiscoveredSegment}
    (h : parseSegmentName name = some seg) (hreadable : seg.hashedName = false) :
    name = "/xmmsg.".toList ++ (seg.isolationKey ++ '.' :: seg.topic) := by
  simp only [parseSegmentName] at h
  split at h
  · cases h
  · next hbegin =>
      split at h
      · cases h
        cases hreadable
      · split at h
        · cases h
        · split at h
          · cases h
          · next dot2 hdot =>
              split at h
              · cases h
              · split at h
                · cases h
                · cases h
                  have hget := getElem?_of_findFrom hdot
                  obtain ⟨hlt, hval⟩ := List.getElem?_eq_some_iff.mp hget
                  have hwhole := List.take_append_drop "/xmmsg.".toList.length name
                  rw [not_not.mp hbegin] at hwhole
                  rw [← hval, List.getElem_cons_drop hlt, List.take_append_drop]
                  exact hwhole.symm

/-- A hashed name has no topic. -/
theorem topic_of_hashed {name : List Char} {seg : DiscoveredSegment}
    (h : parseSegmentName name = some seg) (hhashed : seg.hashedName = true) : seg.topic = [] := by
  simp only [parseSegmentName] at h
  repeat' split at h
  all_goals first | (cases h; done) | (cases h; rfl) | (cases h; cases hhashed)

/-! ## One hit -/

/-- A list without repetitions in which one entry has a value, and no other has. -/
theorem filterMap_single {α β : Type} {f : α → Option β} {l : List α} {x : α} {b : β}
    (hnd : l.Nodup) (hx : x ∈ l) (hf : f x = some b) (hrest : ∀ y ∈ l, y ≠ x → f y = none) :
    l.filterMap f = [b] := by
  obtain ⟨l₁, l₂, rfl⟩ := List.append_of_mem hx
  rw [List.nodup_middle, List.nodup_cons] at hnd
  have hnone : ∀ y ∈ l₁ ++ l₂, f y = none := fun y hy =>
    hrest y (List.mem_append.mpr ((List.mem_append.mp hy).imp id (List.mem_cons_of_mem _)))
      fun h => hnd.1 (h ▸ hy)
  rw [List.filterMap_append, List.filterMap_cons_some hf,
    List.filterMap_eq_nil_iff.mpr fun y hy => hnone y (List.mem_append_left _ hy),
    List.filterMap_eq_nil_iff.mpr fun y hy => hnone y (List.mem_append_right _ hy)]
  rfl

/-- What `Collect` makes of one discovered segment. -/
def viewOf (domainFilter : List Char) (openStatus : List Char → IntrospectOpenStatus)
    (snapshot : List Char → IntrospectSnapshot) (seg : DiscoveredSegment) : Option TopicView :=
  if !domainFilter.isEmpty && seg.isolationKey != domainFilter then none
  else
    match openStatus seg.name with
    | .foreign => none
    | .ok => some { seg, status := .ok, snap := snapshot seg.name }
    | status => some { seg, status }

variable {openStatus : List Char → IntrospectOpenStatus} {snapshot : List Char → IntrospectSnapshot}

theorem viewOf_some {key : List Char} {seg : DiscoveredSegment} (hkey : seg.isolationKey = key)
    (hopen : openStatus seg.name ≠ .foreign) :
    ∃ view, viewOf key openStatus snapshot seg = some view ∧ view.seg = seg := by
  have hpass : ¬ (!key.isEmpty && seg.isolationKey != key) = true := by
    rw [hkey, bne_self_eq_false, Bool.and_false]
    exact Bool.false_ne_true
  rw [viewOf, if_neg hpass]
  split
  · next h => exact absurd h hopen
  · exact ⟨_, rfl, rfl⟩
  · exact ⟨_, rfl, rfl⟩

theorem seg_of_viewOf {key : List Char} {seg : DiscoveredSegment} {view : TopicView}
    (hne : key ≠ []) (h : viewOf key openStatus snapshot seg = some view) :
    view.seg = seg ∧ seg.isolationKey = key := by
  rw [viewOf] at h
  split at h
  · cases h
  · next hpass =>
      have hkey : seg.isolationKey = key := by
        rw [Bool.and_eq_true, not_and] at hpass
        have := hpass (by rwa [Bool.not_eq_true', List.isEmpty_eq_false_iff])
        rwa [bne_iff_ne, not_not] at this
      split at h <;> cases h <;> exact ⟨rfl, hkey⟩

/-- The search as one pass over the directory. -/
theorem collect_filter (domainFilter : List Char) (entries : List (List Char))
    (p : TopicView → Bool) :
    (collect domainFilter openStatus snapshot entries).filter p = entries.filterMap fun entry =>
      ((parseSegmentName ('/' :: entry)).bind
        (viewOf domainFilter openStatus snapshot)).filter p := by
  rw [collect, discoverXmmsgSegments, List.filterMap_filterMap, List.filter_filterMap]
  rfl

theorem shmSegmentName_topic {euid : Nat} {name topic : List Char} (ht : isTopicName topic = true)
    (hr : Readable (deriveIsolationKey euid name) topic) :
    shmSegmentName (deriveIsolationKey euid name) topic =
      "/xmmsg.".toList ++ (deriveIsolationKey euid name ++ '.' :: topic) := by
  have hrest : readableRest euid name topic = deriveIsolationKey euid name ++ '.' :: topic := by
    rw [readableRest, sanitize_topic ht, deriveIsolationKey_eq, List.append_assoc, List.cons_append]
  exact (shmSegmentName_short hr).trans ((readableName_eq euid name topic).trans
    (congrArg _ hrest))

theorem topic_ne_nil {topic : List Char} (h : isTopicName topic = true) : topic ≠ [] := by
  rintro rfl
  exact Bool.false_ne_true h

/-- Among the segments of a domain, the one of a topic is found by it. -/
theorem found_by_topic (snapshot : List Char → IntrospectSnapshot) {euid : Nat}
    {name topic : List Char} {entries : List (List Char)} {entry : List Char}
    (ht : isTopicName topic = true)
    (hr : Readable (deriveIsolationKey euid name) topic) (hnd : entries.Nodup)
    (hmem : entry ∈ entries)
    (hentry : '/' :: entry = shmSegmentName (deriveIsolationKey euid name) topic)
    (hopen : openStatus (shmSegmentName (deriveIsolationKey euid name) topic) ≠ .foreign) :
    ∃ view, (collect (deriveIsolationKey euid name) openStatus snapshot entries).filter
        (fun view => view.seg.topic == topic) = [view] ∧
      view.seg = { name := shmSegmentName (deriveIsolationKey euid name) topic
                   isolationKey := deriveIsolationKey euid name
                   topic := topic } := by
  have hparse := parse_of_readable (topic_ne_nil ht) hr
  rw [sanitize_topic ht] at hparse
  let seg : DiscoveredSegment :=
    { name := shmSegmentName (deriveIsolationKey euid name) topic
      isolationKey := deriveIsolationKey euid name, topic := topic }
  obtain ⟨view, hview, hseg⟩ : ∃ view,
      viewOf (deriveIsolationKey euid name) openStatus snapshot seg = some view ∧
        view.seg = seg := viewOf_some rfl hopen
  refine ⟨view, ?_, hseg⟩
  rw [collect_filter]
  refine filterMap_single hnd hmem ?_ fun y _ hy => ?_
  · rw [hentry, hparse, Option.bind_some, hview, Option.filter_some, if_pos]
    rw [hseg, beq_iff_eq]
  · -- another entry of this domain with this topic would have the same name
    refine Option.eq_none_iff_forall_ne_some.mpr fun v hv => hy ?_
    obtain ⟨hbind, htopic⟩ := Option.filter_eq_some_iff.mp hv
    obtain ⟨seg, hyparse, hyview⟩ := Option.bind_eq_some_iff.mp hbind
    obtain ⟨hvseg, hkey⟩ := seg_of_viewOf (by rw [deriveIsolationKey]; exact List.cons_ne_nil _ _)
      hyview
    rw [hvseg, beq_iff_eq] at htopic
    have hplain : seg.hashedName = false := by
      cases hh : seg.hashedName with
      | false => rfl
      | true => exact absurd (htopic.symm.trans (topic_of_hashed hyparse hh)) (topic_ne_nil ht)
    have hname := name_of_parse hyparse hplain
    rw [hkey, htopic, ← shmSegmentName_topic ht hr, ← hentry] at hname
    exact List.tail_eq_of_cons_eq hname

/-! ## The argument -/

theorem head_of_topic {topic : List Char} (h : isTopicName topic = true) :
    (topic.head? == some '/') = false := by
  cases topic with
  | nil => rfl
  | cons c cs =>
      rw [List.head?_cons, beq_eq_false_iff_ne]
      intro hc
      cases hc
      rw [isTopicName, topicFrom, if_neg (by decide)] at h
      exact absurd h (by simp [isSegmentChar, isLower, isDigit])

/-- A topic of the grammar that is there under its readable name, and not foreign, is
found by its name exactly if it does not begin with `xmmsg.`. -/
theorem resolve_topic_iff (euid : Nat) (name topic : List Char) (entries : List (List Char))
    (openStatus : List Char → IntrospectOpenStatus) (snapshot : List Char → IntrospectSnapshot)
    (ht : isTopicName topic = true) (hr : Readable (deriveIsolationKey euid name) topic)
    (hnd : entries.Nodup)
    (hmem : ∃ entry ∈ entries, '/' :: entry = shmSegmentName (deriveIsolationKey euid name) topic)
    (hopen : openStatus (shmSegmentName (deriveIsolationKey euid name) topic) ≠ .foreign) :
    (∃ view, resolveTopic topic (deriveIsolationKey euid name) openStatus snapshot entries =
        some view ∧
      view.seg = { name := shmSegmentName (deriveIsolationKey euid name) topic
                   isolationKey := deriveIsolationKey euid name
                   topic := topic }) ↔
    ¬ "xmmsg.".toList <+: topic := by
  obtain ⟨entry, hin, hentry⟩ := hmem
  have hne : topic.isEmpty = false := List.isEmpty_eq_false_iff.mpr (topic_ne_nil ht)
  by_cases hraw : "xmmsg.".toList.isPrefixOf topic = true
  · refine iff_of_false ?_ (not_not_intro (List.isPrefixOf_iff_prefix.mp hraw))
    -- the name looked for is too short
    rintro ⟨view, hres, hseg⟩
    simp only [resolveTopic, hne, head_of_topic ht, hraw, Bool.or_true, Bool.not_false,
      Bool.and_true, if_true, Bool.false_eq_true, if_false] at hres
    split at hres
    · next v hfilter =>
        cases hres
        have hv := (List.mem_filter.mp (hfilter ▸ List.mem_singleton_self view)).2
        rw [beq_iff_eq, hseg] at hv
        have hlen := congrArg List.length (hv.symm.trans (shmSegmentName_topic ht hr))
        have hbegin : 1 ≤ "/xmmsg.".toList.length := by decide
        rw [List.length_append, List.length_append, List.length_cons, List.length_cons] at hlen
        omega
    · cases hres
  · refine iff_of_true ?_ fun h => hraw (List.isPrefixOf_iff_prefix.mpr h)
    obtain ⟨view, hfilter, hseg⟩ := found_by_topic snapshot ht hr hnd hin hentry hopen
    refine ⟨view, ?_, hseg⟩
    have hplain := Bool.eq_false_iff.mpr hraw
    simp only [resolveTopic, hne, head_of_topic ht, hplain, Bool.or_false, Bool.and_false,
      Bool.false_eq_true, if_false, hfilter]

/-- The entries of a directory: a file of another program, two segments of domain
`u0.d`, one of `u0.e`. -/
def sharedDirectory : List (List Char) :=
  ["sem.lock".toList, "xmmsg.u0.d.m1.h".toList, "xmmsg.u0.d.xmmsg.foo".toList,
    "xmmsg.u0.e.m1.h".toList]

theorem resolve_topic_iff_head :
    ∃ view, resolveTopic "m1.h".toList (deriveIsolationKey 0 ['d']) (fun _ => .ok) (fun _ => {})
        sharedDirectory = some view ∧
      view.seg = { name := shmSegmentName (deriveIsolationKey 0 ['d']) "m1.h".toList
                   isolationKey := deriveIsolationKey 0 ['d']
                   topic := "m1.h".toList } :=
  (resolve_topic_iff 0 ['d'] "m1.h".toList sharedDirectory (fun _ => .ok) (fun _ => {})
    (by decide +kernel) (by unfold Readable; decide +kernel) (by decide +kernel)
    ⟨"xmmsg.u0.d.m1.h".toList, by decide +kernel, by decide +kernel⟩ (by decide)).mpr
    (by decide +kernel)

/-- Topic `xmmsg.foo` is there, and the tool does not find it. -/
theorem resolve_topic_fails :
    ¬ ∀ (euid : Nat) (name topic : List Char) (entries : List (List Char))
      (openStatus : List Char → IntrospectOpenStatus) (snapshot : List Char → IntrospectSnapshot),
      isTopicName topic = true → Readable (deriveIsolationKey euid name) topic → entries.Nodup →
      (∃ entry ∈ entries,
        '/' :: entry = shmSegmentName (deriveIsolationKey euid name) topic) →
      openStatus (shmSegmentName (deriveIsolationKey euid name) topic) ≠ .foreign →
      ∃ view, resolveTopic topic (deriveIsolationKey euid name) openStatus snapshot entries =
          some view ∧
        view.seg.name = shmSegmentName (deriveIsolationKey euid name) topic := by
  intro h
  obtain ⟨view, hres, -⟩ := h 0 ['d'] "xmmsg.foo".toList sharedDirectory (fun _ => .ok)
    (fun _ => {}) (by decide +kernel) (by unfold Readable; decide +kernel) (by decide +kernel)
    ⟨"xmmsg.u0.d.xmmsg.foo".toList, by decide +kernel, by decide +kernel⟩ (by decide)
  have hnone : resolveTopic "xmmsg.foo".toList (deriveIsolationKey 0 ['d']) (fun _ => .ok)
      (fun _ => {}) sharedDirectory = none := by decide +kernel
  rw [hnone] at hres
  cases hres

end Xmmsg.Shm
