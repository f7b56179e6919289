import Xmmsg.Rpc.Agreement

/-!
# Every slot in use has somebody who will free it

A call slot is freed from five places, and a sixth that forgot to, or a second one
that did it twice, would only show after eight such races, as callers timing out
for ever. The accounting here is the reason it does not happen. A slot that a call
still waits on has that call. A slot in the server's hands has one request, which
is being copied or was handed out and not yet replied to; the reply finds the slot
under the request's own token and moves it on.

The token is what ties a request to its slot, so the accounting ends where tokens
do: the draw number `2 ^ 60` gives slot 0 the token zero, the one `Reply` takes for
the empty request and answers without a look at the slot.
-/

namespace Xmmsg.Rpc

open Xmmsg.Sys Proto

variable {Req Rsp : Type}

/-! ## Requests in the server's hands -/

/-- The slot is in the server's hands, under token `t`. -/
def Proto.Live (s : Proto Rsp) (t : Nat) : Prop :=
  (s.slot (tokenIndex t)).tok = t ∧ (s.slot (tokenIndex t)).state.held = true

/-- Some `Reply` for token `t` has returned. -/
def Proto.RepliedTo (s : Proto Rsp) (t : Nat) : Prop :=
  ∃ r v, s.reply r = .ok t v ∨ s.reply r = .expired t v

theorem Proto.Live.of_update {s : Proto Rsp} {i t : Nat} {core : Core Rsp} {s' : Proto Rsp}
    (hs : s'.slot = Function.update s.slot i core) (hl : s'.Live t)
    (hi : i = tokenIndex t → core.state.held = true → s.Live t) : s.Live t := by
  rw [Proto.Live, hs] at hl
  by_cases e : tokenIndex t = i
  · subst e
    rw [Function.update_self] at hl
    exact hi rfl hl.2
  · rwa [Function.update_of_ne e] at hl

/-- A request handed out does not come back into the server's hands. -/
theorem live_move {s s' : Proto Rsp} (h : Inv s) (hm : Move s s') {t : Nat} (ht : t ∈ s.taken)
    (hl : s'.Live t) : s.Live t := by
  cases hm with
  | claim c i | post c i | revoke c i | leave c i =>
      exact hl.of_update rfl fun _ h0 => (by cases h0)
  | sign c i u hc =>
      have hfit := h.fits c
      rw [hc] at hfit
      refine hl.of_update rfl fun _ h0 => ?_
      simp only [hfit.2] at h0
      cases h0
  | abandon c i u hc hst =>
      refine hl.of_update rfl fun e _ => ?_
      subst e
      have htok := hl.1
      simp only [setCall, setState, setSlot, Function.update_self] at htok
      exact ⟨htok, by rw [hst]; rfl⟩
  | accept k i _ hst =>
      refine hl.of_update rfl fun e _ => ?_
      subst e
      have htok := hl.1
      simp only [setState, setSlot, Function.update_self] at htok
      exact absurd hst (h.once t ht _ htok)
  | write r u v =>
      refine hl.of_update rfl fun e h0 => ?_
      have htok := hl.1
      simp only [setReply, setSlot, e, Function.update_self] at htok h0
      exact ⟨htok, h0⟩
  | commit r u v | reclaim r u v => exact hl.of_update rfl fun _ h0 => (by cases h0)
  | _ => exact hl

/-- Once abandoned, a slot stays so until its reply frees it. -/
theorem abandoned_move {s s' : Proto Rsp} (h : Inv s) (hm : Move s s') {t : Nat}
    (hl : s'.Live t) (ha : (s.slot (tokenIndex t)).state = .abandoned) :
    (s'.slot (tokenIndex t)).state = .abandoned := by
  have hupd : ∀ i core, s'.slot = Function.update s.slot i core →
      (i = tokenIndex t → core.state.held = true → core.state = .abandoned) →
      (s'.slot (tokenIndex t)).state = .abandoned := by
    intro i core hs hi
    have hheld := hl.2
    rw [hs] at hheld ⊢
    by_cases e : tokenIndex t = i
    · subst e
      rw [Function.update_self] at hheld ⊢
      exact hi rfl hheld
    · rw [Function.update_of_ne e]
      exact ha
  cases hm with
  | claim c i | post c i | revoke c i | leave c i =>
      exact hupd _ _ rfl fun _ h0 => (nomatch h0)
  | sign c i u hc =>
      have hfit := h.fits c
      rw [hc] at hfit
      refine hupd _ _ rfl fun _ h0 => ?_
      simp only [hfit.2] at h0
      cases h0
  | abandon c i u hc hst => exact hupd _ _ rfl fun _ _ => rfl
  | accept k i _ hst =>
      refine hupd _ _ rfl fun e _ => ?_
      rw [e, ha] at hst
      cases hst
  | write r u v => exact hupd _ _ rfl fun e _ => by rw [e]; exact ha
  | commit r u v | reclaim r u v => exact hupd _ _ rfl fun _ h0 => (nomatch h0)
  | _ => exact ha

/-- Only a reply of its own takes a request out of the server's hands. -/
theorem live_lost {s s' : Proto Rsp} (h : Inv s) (hm : Move s s') {t : Nat} (hl : s.Live t) :
    s'.Live t ∨ s'.RepliedTo t := by
  obtain ⟨htok, hheld⟩ := hl
  have hupd : ∀ i core, s'.slot = Function.update s.slot i core →
      (i = tokenIndex t → core.tok = t ∧ core.state.held = true ∨ s'.RepliedTo t) →
      s'.Live t ∨ s'.RepliedTo t := by
    intro i core hs hi
    by_cases e : tokenIndex t = i
    · subst e
      rcases hi rfl with h0 | h0
      · exact .inl ⟨by rw [hs, Function.update_self]; exact h0.1,
          by rw [hs, Function.update_self]; exact h0.2⟩
      · exact .inr h0
    · exact .inl ⟨by rw [hs, Function.update_of_ne e]; exact htok,
        by rw [hs, Function.update_of_ne e]; exact hheld⟩
  -- a slot in any other state is not in the server's hands
  have hnot : ∀ i, i = tokenIndex t → (s.slot i).state.held = false → False := by
    intro i e h0
    rw [e, hheld] at h0
    cases h0
  have hfit := h.fits
  cases hm with
  | claim c i _ _ hst =>
      exact hupd _ _ rfl fun e => (hnot i e (by rw [hst]; rfl)).elim
  | sign c i u hc =>
      have := hfit c
      rw [hc] at this
      exact hupd _ _ rfl fun e => (hnot i e (by rw [this.2]; rfl)).elim
  | post c i u hc =>
      have := hfit c
      rw [hc] at this
      exact hupd _ _ rfl fun e => (hnot i e (by rw [this.2.2]; rfl)).elim
  | revoke c i u hc hst => exact hupd _ _ rfl fun e => (hnot i e (by rw [hst]; rfl)).elim
  | abandon c i u hc hst => exact hupd _ _ rfl fun e => .inl ⟨by rw [e]; exact htok, rfl⟩
  | leave c i u v hc =>
      have := hfit c
      rw [hc] at this
      exact hupd _ _ rfl fun e => (hnot i e (by rw [this.2.2]; rfl)).elim
  | accept k i _ hst => exact hupd _ _ rfl fun e => .inl ⟨by rw [e]; exact htok, rfl⟩
  | write r u v => exact hupd _ _ rfl fun e => .inl ⟨by rw [e]; exact htok, by rw [e]; exact hheld⟩
  | commit r u v hr =>
      have hr' := h.replyFits r
      rw [hr] at hr'
      refine hupd _ _ rfl fun e => .inr ⟨r, v, .inl ?_⟩
      have hu : u = t := by rw [← htok, ← e]; exact hr'.1.symm
      simp only [setReply, Function.update_self, hu]
  | reclaim r u v hr =>
      have hr' := h.replyFits r
      rw [hr] at hr'
      refine hupd _ _ rfl fun e => .inr ⟨r, v, .inr ?_⟩
      have hu : u = t := by rw [← htok, ← e]; exact hr'.1.symm
      simp only [setReply, Function.update_self, hu]
  | _ => exact .inl ⟨htok, hheld⟩

theorem replied_move {s s' : Proto Rsp} (hm : Move s s') {t : Nat} (h : s.RepliedTo t) :
    s'.RepliedTo t := by
  obtain ⟨r, v, hr⟩ := h
  -- a reply that moves has not returned yet
  have hkeep : ∀ r₀ u, s'.reply = Function.update s.reply r₀ u →
      (∀ v, s.reply r₀ ≠ .ok t v ∧ s.reply r₀ ≠ .expired t v) → s'.RepliedTo t := by
    intro r₀ u hs hne
    refine ⟨r, v, ?_⟩
    by_cases e : r = r₀
    · subst e
      rcases hr with h0 | h0
      · exact absurd h0 (hne v).1
      · exact absurd h0 (hne v).2
    · rw [hs, Function.update_of_ne e]
      exact hr
  cases hm with
  | begin r₀ u v hr₀ | refuse r₀ u v hr₀ | see r₀ u v hr₀ | agree r₀ u v hr₀ | write r₀ u v hr₀
  | commit r₀ u v hr₀ | seeAbandoned r₀ u v hr₀ | agreeAbandoned r₀ u v hr₀
  | reclaim r₀ u v hr₀ =>
      refine hkeep r₀ _ rfl fun x => ?_
      rw [hr₀]
      exact ⟨fun h0 => (nomatch h0), fun h0 => (nomatch h0)⟩
  | relook r₀ u v hr₀ =>
      refine hkeep r₀ _ rfl fun x => ?_
      rcases hr₀ with h0 | h0 | h0 <;> rw [h0] <;>
        exact ⟨fun h0 => (nomatch h0), fun h0 => (nomatch h0)⟩
  | giveUp r₀ u v hr₀ =>
      refine hkeep r₀ _ rfl fun x => ?_
      rcases hr₀ with h0 | h0 <;> rw [h0] <;>
        exact ⟨fun h0 => (nomatch h0), fun h0 => (nomatch h0)⟩
  | _ => exact ⟨r, v, hr⟩

/-- Who answers for a slot in the server's hands. -/
structure Handled (s : Proto Rsp) : Prop where
  nodup : s.taken.Nodup
  held : ∀ i, (s.slot i).state.held = true →
    (∃ k, s.copying k = some i) ∨ (s.slot i).tok ∈ s.taken
  kept : ∀ t ∈ s.taken, s.Live t ∨ s.RepliedTo t

theorem Handled.slots {s s' : Proto Rsp} (hh : Handled s) {i : Nat} {core : Core Rsp}
    (hs : s'.slot = Function.update s.slot i core) (hc : s'.copying = s.copying)
    (ht : s'.taken = s.taken)
    (hi : core.state.held = true → core.tok = (s.slot i).tok ∧ (s.slot i).state.held = true) :
    ∀ j, (s'.slot j).state.held = true →
      (∃ k, s'.copying k = some j) ∨ (s'.slot j).tok ∈ s'.taken := by
  intro j hj
  rw [hs] at hj ⊢
  rw [hc, ht]
  by_cases e : j = i
  · subst e
    rw [Function.update_self] at hj ⊢
    rw [(hi hj).1]
    exact hh.held j (hi hj).2
  · rw [Function.update_of_ne e] at hj ⊢
    exact hh.held j hj

theorem held_move {s s' : Proto Rsp} (h : Inv s) (hh : Handled s) (hm : Move s s') :
    ∀ i, (s'.slot i).state.held = true →
      (∃ k, s'.copying k = some i) ∨ (s'.slot i).tok ∈ s'.taken := by
  cases hm with
  | claim c i | post c i | revoke c i | leave c i =>
      exact hh.slots rfl rfl rfl fun h0 => (by cases h0)
  | sign c i u hc =>
      have hfit := h.fits c
      rw [hc] at hfit
      refine hh.slots rfl rfl rfl fun h0 => ?_
      simp only [hfit.2] at h0
      cases h0
  | abandon c i u hc hst => exact hh.slots rfl rfl rfl fun _ => ⟨rfl, by rw [hst]; rfl⟩
  | accept k i hk hst =>
      intro j hj
      simp only [setState, setSlot] at hj ⊢
      by_cases e : j = i
      · exact .inl ⟨k, by rw [e, Function.update_self]⟩
      · rw [Function.update_of_ne e] at hj ⊢
        refine (hh.held j hj).imp_left ?_
        rintro ⟨k', hk'⟩
        refine ⟨k', ?_⟩
        have hne : k' ≠ k := by
          rintro rfl
          rw [hk] at hk'
          cases hk'
        rw [Function.update_of_ne hne]
        exact hk'
  | hand k i hk =>
      intro j hj
      rcases hh.held j hj with ⟨k', hk'⟩ | h0
      · by_cases e : k' = k
        · subst e
          rw [hk] at hk'
          cases hk'
          exact .inr (List.mem_append_right _ (List.mem_singleton.mpr rfl))
        · exact .inl ⟨k', by simp only [Function.update_of_ne e]; exact hk'⟩
      · exact .inr (List.mem_append_left _ h0)
  | write r u v => exact hh.slots rfl rfl rfl fun h0 => ⟨rfl, h0⟩
  | commit r u v | reclaim r u v => exact hh.slots rfl rfl rfl fun h0 => (by cases h0)
  | _ => exact hh.held

theorem handled_move {s s' : Proto Rsp} (h : Inv s) (hh : Handled s) (hm : Move s s') :
    Handled s' := by
  have hold : ∀ t ∈ s.taken, s'.Live t ∨ s'.RepliedTo t := by
    intro t ht
    rcases hh.kept t ht with h0 | h0
    · exact live_lost h hm h0
    · exact .inr (replied_move hm h0)
  have hheld := held_move h hh hm
  cases hm with
  | hand k i hk =>
      obtain ⟨hst, hnew⟩ := h.copies k i hk
      have hpost : (s.slot i).state.posted = true := by
        cases hs : (s.slot i).state <;> rw [hs] at hst <;> first | rfl | cases hst
      have hidx := h.index i hpost
      refine ⟨?_, hheld, fun t ht => ?_⟩
      · exact List.nodup_append.mpr ⟨hh.nodup, List.nodup_singleton _, fun a ha b hb => by
          rw [List.mem_singleton.mp hb]
          exact fun h0 => hnew (h0 ▸ ha)⟩
      · rcases List.mem_append.mp ht with h0 | h0
        · exact hold t h0
        · rw [List.mem_singleton.mp h0]
          exact .inl ⟨by rw [hidx], by rw [hidx]; exact hst⟩
  | _ => exact ⟨hh.nodup, hheld, hold⟩

/-! ## Replies do their work

The protocol lets a reply give up at any look. The code does not: a reply gives up
on its own slot only after the second look, and by then the slot is not in the
server's hands under its token, or is abandoned. -/

/-- What the second half of a `Reply`, or one that has returned, knows of its slot. -/
def ReplyDone (w : World Req Rsp) : ReplyPc Rsp → Prop
  | .reload t _ => w.proto.Live t → (w.topic.slots (tokenIndex t)).state = .abandoned
  | .done t _ _ => t = 0 ∨ t ∈ w.proto.taken ∧ ¬ w.proto.Live t
  | _ => True

theorem taken_move {s s' : Proto Rsp} (hm : Move s s') {t : Nat} (ht : t ∈ s.taken) :
    t ∈ s'.taken := by
  cases hm with
  | hand => exact List.mem_append_left _ ht
  | _ => exact ht

theorem ReplyDone.keep {w w' : World Req Rsp} (hinv : Inv w.proto)
    (hm : Move w.proto w'.proto ∨ w'.proto = w.proto) {r : Nat}
    (h : ReplyDone w (w.replies r)) : ReplyDone w' (w.replies r) := by
  cases hpc : w.replies r with
  | reload t v =>
      rw [hpc] at h
      intro hl
      have ht : t ∈ w.proto.taken := hinv.replying r t (by simp only [World.proto, hpc]; rfl)
      rcases hm with hm | he
      · exact abandoned_move hinv hm hl (h (live_move hinv hm ht hl))
      · rw [he] at hl
        have := h hl
        rw [show (w'.topic.slots (tokenIndex t)).state = (w'.proto.slot (tokenIndex t)).state
          from rfl, he]
        exact this
  | done t v st =>
      rw [hpc] at h
      rcases h with h0 | ⟨ht, hn⟩
      · exact .inl h0
      · rcases hm with hm | he
        · exact .inr ⟨taken_move hm ht, fun hl => hn (live_move hinv hm ht hl)⟩
        · exact .inr ⟨by rw [he]; exact ht, by rw [he]; exact hn⟩
  | _ => trivial

theorem held_cases {st : CallSlotState} (h : st.held = true) : st = .taken ∨ st = .abandoned := by
  cases st <;> first | exact .inl rfl | exact .inr rfl | cases h

theorem live_topic {w : World Req Rsp} {t : Nat} :
    w.proto.Live t ↔ (w.topic.slots (tokenIndex t)).correlation = t ∧
      (w.topic.slots (tokenIndex t)).state.held = true := Iff.rfl

/-- One access of a `Reply`. -/
theorem replyStep_done {w : World Req Rsp} (hinv : Inv w.proto) {r : Nat}
    (h : ReplyDone w (w.replies r)) {h' : RpcTopic Req Rsp} {pc : ReplyPc Rsp}
    (hs : replyStep w.topic (w.replies r) = some (h', pc)) :
    ReplyDone { w with topic := h', replies := Function.update w.replies r pc } pc := by
  have hmem : ∀ t, (w.replies r).view.token? = some t → t ∈ w.proto.taken :=
    fun t ht => hinv.replying r t ht
  cases hpc : w.replies r with
  | idle => rw [hpc] at hs; cases hs
  | done t v st => rw [hpc] at hs; cases hs
  | load t v =>
      simp only [hpc, replyStep] at hs
      split at hs
      · cases hs; trivial
      · next hst =>
          cases hs
          exact fun hl => (held_cases hl.2).resolve_left hst
  | compare t v =>
      simp only [hpc, replyStep] at hs
      split at hs
      · cases hs; trivial
      · next hne =>
          cases hs
          exact fun hl => absurd hl.1 hne
  | write t v => simp only [hpc, replyStep] at hs; cases hs; trivial
  | cas t v =>
      simp only [hpc, replyStep] at hs
      split at hs
      · cases hs
        refine .inr ⟨hmem t (by rw [hpc]; rfl), fun hl => ?_⟩
        have := hl.2
        simp [World.proto, RpcTopic.setState, RpcTopic.setSlot, CallSlot.core,
          CallSlotState.held] at this
      · next hst =>
          cases hs
          exact fun hl => (held_cases hl.2).resolve_left hst
  | reload t v =>
      have ht := hmem t (by rw [hpc]; rfl)
      rw [hpc] at h
      simp only [hpc, replyStep] at hs
      split at hs
      · cases hs; trivial
      · next hst =>
          cases hs
          exact .inr ⟨ht, fun hl => hst (h hl)⟩
  | recompare t v =>
      have ht := hmem t (by rw [hpc]; rfl)
      simp only [hpc, replyStep] at hs
      split at hs
      · cases hs; trivial
      · next hne =>
          cases hs
          exact .inr ⟨ht, fun hl => hne hl.1⟩
  | reclaim t v =>
      simp only [hpc, replyStep] at hs
      cases hs
      refine .inr ⟨hmem t (by rw [hpc]; rfl), fun hl => ?_⟩
      have := hl.2
      simp [World.proto, RpcTopic.setState, RpcTopic.setSlot, CallSlot.core,
        CallSlotState.held] at this

theorem replyDone_step {rsp : Rsp} {w w' : World Req Rsp} {a : Act Req Rsp}
    (hinv : Inv w.proto) (h : ∀ r, ReplyDone w (w.replies r)) (hok : OneReplyEach w a)
    (hs : w.step rsp a = some w') : ∀ r, ReplyDone w' (w'.replies r) := by
  have hm := step_move hok hs
  have hkeep : ∀ r, w'.replies r = w.replies r → ReplyDone w' (w'.replies r) := by
    intro r hr
    rw [hr]
    exact ReplyDone.keep hinv hm (h r)
  intro r
  cases a with
  | reply r₀ =>
      simp only [World.step] at hs
      split at hs
      · cases hs
      · next hst =>
          cases hs
          by_cases e : r = r₀
          · subst e
            simp only [Function.update_self]
            exact replyStep_done hinv (h r) hst
          · exact hkeep r (Function.update_of_ne e _ _)
  | newReply r₀ t v =>
      simp only [World.step] at hs
      split at hs
      · split at hs
        · next h0 =>
            cases hs
            by_cases e : r = r₀
            · subst e
              simp only [Function.update_self]
              exact .inl h0
            · exact hkeep r (Function.update_of_ne e _ _)
        · split at hs
          · cases hs
            by_cases e : r = r₀
            · subst e
              simp only [Function.update_self]
              trivial
            · exact hkeep r (Function.update_of_ne e _ _)
          · cases hs
      · cases hs
  | _ =>
      refine hkeep r ?_
      simp only [World.step] at hs
      repeat' split at hs
      all_goals cases hs
      all_goals rfl

section Reached

variable {req : Req} {rsp : Rsp} {w : World Req Rsp}

theorem custody_reached (hw : (machine req rsp).Reached OneReplyEach w)
    (hn : w.topic.nextCorrelation < 2 ^ 60) :
    Handled w.proto ∧ ∀ r, ReplyDone w (w.replies r) := by
  revert hn
  refine hw.invariant (P := fun w => w.topic.nextCorrelation < 2 ^ 60 →
    Handled w.proto ∧ ∀ r, ReplyDone w (w.replies r)) ?_ ?_
  · rintro w rfl -
    exact ⟨⟨List.nodup_nil, fun i h0 => (nomatch h0), fun t ht => (nomatch ht)⟩, fun _ => trivial⟩
  · intro w a w' hr ih hok hs hn
    have hle : w.topic.nextCorrelation < 2 ^ 60 := by
      rcases step_move hok hs with hm | he
      · exact Nat.lt_of_le_of_lt (move_next_le hm) hn
      · have hnext : w'.topic.nextCorrelation = w.topic.nextCorrelation :=
          congrArg Proto.next he
        exact hnext ▸ hn
    obtain ⟨h1, h2⟩ := ih hle
    have hinv := inv_reached hr hle
    refine ⟨?_, replyDone_step hinv h2 hok hs⟩
    rcases step_move hok hs with hm | he
    · exact handled_move hinv h1 hm
    · rw [he]
      exact h1

/-- A call that drew a token does not come back without a server. -/
theorem posted_reached (hw : (machine req rsp).Reached OneReplyEach w) :
    ∀ c ep t res, w.calls c = some ep → ep.pc = .done (some t) res →
      res.status ≠ .noServer := by
  have hall : ∀ c ep t res, w.calls c = some ep → ep.pc = .done t res →
      t ≠ none → res.status ≠ .noServer :=
    result_reached (P := fun t res => t ≠ none → res.status ≠ .noServer) ?_ hw
  · exact fun c ep t res hc hpc => hall c ep _ res hc hpc (Option.some_ne_none t)
  intro h h' ep ep' a t res hs hpc ht
  cases a <;> cases hq : ep.pc <;> simp only [callStep, hq] at hs <;>
    (try split at hs) <;> (try split at hs) <;> cases hs <;>
    first
      | (simp [CallEp.at'] at hpc; done)
      | (simp only [CallEp.at', CallPc.done.injEq] at hpc
         obtain ⟨rfl, rfl⟩ := hpc
         first | exact CallStatus.noConfusion | exact absurd rfl ht)

end Reached

/-! ## The accounting -/

/-- Call `c` is in progress and owns slot `i`. -/
def World.Calling (w : World Req Rsp) (c i : Nat) : Prop :=
  (callView (w.calls c)).slot? = some i

/-- A request of slot `i` that was taken and not yet replied to: the one a server
thread is copying, or one handed out for which no `Reply` has returned. -/
def World.Unreplied (w : World Req Rsp) (i : Nat) : Nat ⊕ Nat → Prop
  | .inl k => (w.takes k).view = some i
  | .inr n => ∃ q, w.requests[n]? = some q ∧ tokenIndex q.correlation = i ∧
      ∀ r v st, w.replies r ≠ .done q.correlation v st

structure SlotsAccounted (w : World Req Rsp) : Prop where
  free : ∀ i, (w.topic.slots i).state = .free →
    (∀ c, ¬ w.Calling c i) ∧ ∀ x, ¬ w.Unreplied i x
  waited : ∀ i, (w.topic.slots i).state = .claimed ∨ (w.topic.slots i).state = .pending ∨
    (w.topic.slots i).state = .replied → (∃! c, w.Calling c i) ∧ ∀ x, ¬ w.Unreplied i x
  taken : ∀ i, (w.topic.slots i).state = .taken →
    (∃! c, w.Calling c i) ∧ ∃! x, w.Unreplied i x
  abandoned : ∀ i, (w.topic.slots i).state = .abandoned →
    (∀ c, ¬ w.Calling c i) ∧ (∃! x, w.Unreplied i x) ∧
      ∃ c ep res, w.calls c = some ep ∧
        ep.pc = .done (some (w.topic.slots i).correlation) res ∧ res.status = .deadlineExpired
  /-- A request not yet replied to is the one its slot carries. -/
  carried : ∀ i n q, w.Unreplied i (.inr n) → w.requests[n]? = some q →
    (w.topic.slots i).correlation = q.correlation
  quiescent : (∀ c ep, w.calls c = some ep → ∃ t res, ep.pc = .done t res) →
    (∀ k, (w.takes k).view = none) →
    (∀ q ∈ w.requests, ∃ r v st, w.replies r = .done q.correlation v st) →
    ∀ i, (w.topic.slots i).state = .free

section Accounting

variable {req : Req} {rsp : Rsp} {w : World Req Rsp}

/-- A request is not yet replied to exactly while its slot is in the server's hands
under its token. -/
theorem live_iff_unreplied (hinv : Inv w.proto) (hn : w.topic.nextCorrelation < 2 ^ 60)
    (hh : Handled w.proto) (hr : ∀ r, ReplyDone w (w.replies r)) {t : Nat}
    (ht : t ∈ w.proto.taken) : w.proto.Live t ↔ ∀ r v st, w.replies r ≠ .done t v st := by
  have hpos : t ≠ 0 := by
    obtain ⟨c, hc, -⟩ := hinv.handed t ht
    obtain ⟨n, i, hlt, hi, rfl⟩ := hinv.drawn c t hc
    have hlt' : n < 2 ^ 60 - 1 := by
      have : n < w.topic.nextCorrelation := hlt
      omega
    rw [token_eq_add hlt' hi]
    omega
  constructor
  · intro hl r v st h0
    have := hr r
    rw [h0] at this
    rcases this with h1 | ⟨-, h1⟩
    · exact hpos h1
    · exact h1 hl
  · intro hno
    rcases hh.kept t ht with h0 | ⟨r, v, h0⟩
    · exact h0
    · exfalso
      simp only [World.proto] at h0
      cases hpc : w.replies r with
      | done u x st =>
          cases st <;> rw [hpc] at h0 <;> rcases h0 with h0 | h0 <;> cases h0 <;>
            exact hno r _ _ hpc
      | _ => rw [hpc] at h0; rcases h0 with h0 | h0 <;> cases h0

theorem unreplied_live (hinv : Inv w.proto) (hn : w.topic.nextCorrelation < 2 ^ 60)
    (hh : Handled w.proto) (hr : ∀ r, ReplyDone w (w.replies r)) {i n : Nat}
    {q : Request Req} (hx : w.Unreplied i (.inr n)) (hq : w.requests[n]? = some q) :
    (w.topic.slots i).correlation = q.correlation ∧ (w.topic.slots i).state.held = true ∧
      q.correlation ∈ w.proto.taken := by
  obtain ⟨q', hq', rfl, hno⟩ := hx
  rw [hq] at hq'
  cases hq'
  have hmem : q.correlation ∈ w.proto.taken :=
    List.mem_map.mpr ⟨q, List.mem_of_getElem? hq, rfl⟩
  obtain ⟨h1, h2⟩ := (live_iff_unreplied hinv hn hh hr hmem).mpr hno
  exact ⟨h1, h2, hmem⟩

/-- A slot in the server's hands has exactly one request. -/
theorem unreplied_unique (hinv : Inv w.proto) (hn : w.topic.nextCorrelation < 2 ^ 60)
    (hh : Handled w.proto) (hr : ∀ r, ReplyDone w (w.replies r)) {i : Nat}
    (hst : (w.topic.slots i).state.held = true) : ∃! x, w.Unreplied i x := by
  have hidx : tokenIndex (w.topic.slots i).correlation = i := by
    refine hinv.index i ?_
    rcases held_cases hst with h0 | h0
    · rw [show (w.proto.slot i).state = (w.topic.slots i).state from rfl, h0]; rfl
    · rw [show (w.proto.slot i).state = (w.topic.slots i).state from rfl, h0]; rfl
  -- a request being copied has not been handed out
  have hclash : ∀ k n q, (w.takes k).view = some i → w.Unreplied i (.inr n) →
      w.requests[n]? = some q → False := by
    intro k n q hk hx hq
    obtain ⟨h1, -, h2⟩ := unreplied_live hinv hn hh hr hx hq
    refine (hinv.copies k i hk).2 ?_
    rw [← h1] at h2
    exact h2
  rcases hh.held i hst with ⟨k, hk⟩ | hmem
  · refine ⟨.inl k, hk, ?_⟩
    rintro (k' | n) hx
    · rw [hinv.copiers k' k i hx hk]
    · obtain ⟨q, hq, -⟩ := id hx
      exact (hclash k n q hk hx hq).elim
  · obtain ⟨q, hq, hcorr⟩ := List.mem_map.mp hmem
    obtain ⟨n, hn'⟩ := List.mem_iff_getElem?.mp hq
    have hcorr' : q.correlation = (w.topic.slots i).correlation := hcorr
    have hlive : w.proto.Live q.correlation := by
      rw [hcorr', live_topic, hidx]
      exact ⟨rfl, hst⟩
    have hmine : w.Unreplied i (.inr n) := by
      refine ⟨q, hn', by rw [hcorr', hidx], ?_⟩
      exact (live_iff_unreplied hinv hn hh hr (List.mem_map.mpr ⟨q, hq, rfl⟩)).mp hlive
    refine ⟨.inr n, hmine, ?_⟩
    rintro (k | m) hx
    · exact (hclash k n q hx hmine hn').elim
    · obtain ⟨q', hq', -⟩ := id hx
      have h1 := (unreplied_live hinv hn hh hr hx hq').1
      -- correlations are handed out once
      have hlt : m < w.requests.length := (List.getElem?_eq_some_iff.mp hq').1
      have heq : (w.requests.map (·.correlation))[m]? = (w.requests.map (·.correlation))[n]? := by
        rw [List.getElem?_map, List.getElem?_map, hq', hn']
        simp only [Option.map_some, ← h1, hcorr']
      have hlt' : m < (w.requests.map (·.correlation)).length := by simpa using hlt
      rw [(List.getElem?_inj hlt' hh.nodup).mp heq]

/-- With tokens to go round, every slot in use is accounted for, in every state
reached, and a quiescent topic has all its slots free. -/
theorem slots_accounted (hw : (machine req rsp).Reached OneReplyEach w) (calls : Finset Nat)
    (hcalls : ∀ c, w.calls c ≠ none → c ∈ calls) (hn : calls.card < 2 ^ 60) :
    SlotsAccounted w := by
  have hlt : w.topic.nextCorrelation < 2 ^ 60 := by
    have := draws_le_calls hw hcalls
    omega
  have hinv := inv_reached hw hlt
  obtain ⟨hh, hr⟩ := custody_reached hw hlt
  have hbusy : ∀ c i, w.Calling c i → (w.topic.slots i).state.busy = true :=
    fun c i hc => (hinv.fits c).busy hc
  have hcaller : ∀ i, (w.topic.slots i).state.busy = true → ∃! c, w.Calling c i := by
    intro i hb
    obtain ⟨c, hc⟩ := hinv.owned i hb
    exact ⟨c, hc, fun c' hc' => hinv.owners c' c i hc' hc⟩
  have hserver : ∀ i x, w.Unreplied i x → (w.topic.slots i).state.held = true := by
    rintro i (k | n) hx
    · exact (hinv.copies k i hx).1
    · obtain ⟨q, hq, -⟩ := id hx
      exact (unreplied_live hinv hlt hh hr hx hq).2.1
  refine ⟨fun i hi => ⟨fun c hc => ?_, fun x hx => ?_⟩,
    fun i hi => ⟨hcaller i ?_, fun x hx => ?_⟩,
    fun i hi => ⟨hcaller i (by rw [hi]; rfl), ?_⟩, fun i hi => ⟨fun c hc => ?_, ?_, ?_⟩,
    fun i n q hx hq => (unreplied_live hinv hlt hh hr hx hq).1, fun hc hk hq i => ?_⟩
  · have := hbusy c i hc
    rw [hi] at this
    cases this
  · have := hserver i x hx
    rw [hi] at this
    cases this
  · rcases hi with h0 | h0 | h0 <;> rw [h0] <;> rfl
  · have := hserver i x hx
    rcases hi with h0 | h0 | h0 <;> rw [h0] at this <;> cases this
  · exact unreplied_unique hinv hlt hh hr (by rw [hi]; rfl)
  · have := hbusy c i hc
    rw [hi] at this
    cases this
  · exact unreplied_unique hinv hlt hh hr (by rw [hi]; rfl)
  · obtain ⟨c, hc⟩ := hinv.orphan i hi
    simp only [World.proto] at hc
    cases hcall : w.calls c with
    | none => rw [hcall] at hc; cases hc
    | some ep =>
        rw [hcall] at hc
        cases hpc : ep.pc <;> simp only [callView, hpc, CallPc.view] at hc <;>
          first | cases hc | skip
        next t res =>
        cases t with
        | none => cases hc
        | some t =>
            simp only at hc
            split at hc
            · cases hc
            · next hst =>
                cases hc
                refine ⟨c, ep, res, hcall, hpc, ?_⟩
                have := posted_reached hw c ep _ res hcall hpc
                cases hs : res.status <;> simp_all
  · -- nobody is left to answer for a slot in use
    cases hst : (w.topic.slots i).state with
    | free => rfl
    | claimed | pending | replied | taken =>
        exfalso
        obtain ⟨c, hcc, -⟩ := hcaller i (by rw [hst]; rfl)
        cases hcall : w.calls c with
        | none => rw [World.Calling, hcall] at hcc; cases hcc
        | some ep =>
            obtain ⟨t, res, hpc⟩ := hc c ep hcall
            rw [World.Calling, hcall, callView, hpc] at hcc
            cases t with
            | none => cases hcc
            | some t => simp only [CallPc.view] at hcc; split at hcc <;> cases hcc
    | abandoned =>
        exfalso
        obtain ⟨x, hx, -⟩ := unreplied_unique hinv hlt hh hr (i := i) (by rw [hst]; rfl)
        cases x with
        | inl k =>
            have := hk k
            rw [show (w.takes k).view = some i from hx] at this
            cases this
        | inr n =>
            obtain ⟨q, hqn, -, hno⟩ := hx
            obtain ⟨r, v, st, h0⟩ := hq q (List.mem_of_getElem? hqn)
            exact hno r v st h0

end Accounting

/-- A call, taken and given up at its deadline; the server has not replied. -/
def givenUp : List (Act Nat Nat) :=
  [Act.addServer, Act.newCall 0 5 0] ++ callGo 0 11 ++ List.replicate 6 (Act.take 0) ++
    [Act.call 0 (.go 0), Act.call 0 .expire, Act.call 0 (.go 0), Act.call 0 (.go 0)]

/-- The request in the server's hands accounts for the slot. -/
theorem slots_accounted_abandoned : ∃ w : World Nat Nat,
    (machine 0 0).Reached OneReplyEach w ∧ (w.topic.slots 0).state = .abandoned ∧
      SlotsAccounted w := by
  have hrun : ((machine 0 0).execOk replyCheck givenUp quietTopic).map
      (fun w => (w.topic.slots 0).state) = some .abandoned := by rfl
  obtain ⟨w, hw, hf⟩ := Option.map_eq_some_iff.mp hrun
  have hr := reached_of_replyCheck hw
  refine ⟨w, hr.1, hf, slots_accounted hr.1 (Finset.range 2) (fun c hc => ?_) (by decide)⟩
  exact Finset.mem_range.mpr (hr.2.calls c hc)

/-! ## Where the tokens end

A call that nobody takes draws a token and gives its slot back, so any number of
draws is reached with the topic at rest. -/

/-- A topic at rest after `n` draws. -/
structure AtRest (n : Nat) (w : World Nat Nat) : Prop where
  drawn : w.topic.nextCorrelation = n
  server : w.topic.publisherCount = 1
  free : ∀ i, (w.topic.slots i).state = .free
  unused : ∀ c, n ≤ c → w.calls c = none
  done : ∀ c ep, w.calls c = some ep → ∃ t res, ep.pc = .done t res
  takes : ∀ k, w.takes k = .idle
  requests : w.requests = []
  replies : ∀ r, w.replies r = .idle

/-- Up to the first evaluation of the reply predicate. -/
def posting (c : Nat) : List (Act Nat Nat) := .newCall c 0 0 :: callGo c 11

def noReply (_ : World Nat Nat) : Act Nat Nat → Bool
  | .newReply _ _ _ => false
  | _ => true

def World.posted (w : World Nat Nat) (n : Nat) : World Nat Nat :=
  { w with
    topic := { w.topic with
      slots := Function.update w.topic.slots 0
        { state := .pending, correlation := token n 0, envelope := {}, request := 0,
          response := (w.topic.slots 0).response }
      nextCorrelation := n + 1 }
    calls := Function.update w.calls n (some ⟨0, 0, .await 0 (token n 0)⟩) }

theorem exec_posting {n : Nat} {w : World Nat Nat} (h : AtRest n w) :
    (machine 0 0).execOk noReply (posting n) w = some (w.posted n) := by
  have hc := h.unused n (Nat.le_refl n)
  simp [posting, callGo, Machine.execOk, noReply, machine, World.step, hc, callStep, h.server,
    h.free, h.drawn, kMaxInFlight, CallEp.at', RpcTopic.setState, RpcTopic.setSlot, World.posted,
    List.replicate]

def revoking (c : Nat) : List (Act Nat Nat) :=
  [.call c (.go 0), .call c .expire, .call c (.go 0)]

theorem noReply_sound (w : World Nat Nat) (a : Act Nat Nat) (_ : True) (h : noReply w a = true) :
    OneReplyEach w a := by
  cases a <;> trivial

theorem reached_of_noReply {as : List (Act Nat Nat)} {w w' : World Nat Nat}
    (hw : (machine 0 0).Reached OneReplyEach w)
    (h : (machine 0 0).execOk noReply as w = some w') :
    (machine 0 0).Reached OneReplyEach w' :=
  Machine.reached_of_execOk (J := fun _ => True) noReply_sound (fun _ _ _ _ _ _ => trivial)
    trivial hw h

/-- A call that nobody takes, revoked at its deadline. -/
theorem atRest_next {n : Nat} {w : World Nat Nat} (hw : (machine 0 0).Reached OneReplyEach w)
    (h : AtRest n w) : ∃ w', (machine 0 0).Reached OneReplyEach w' ∧ AtRest (n + 1) w' := by
  have hpost := reached_of_noReply hw (exec_posting h)
  let w' : World Nat Nat := { w with
    topic := { w.topic with
      slots := Function.update w.topic.slots 0
        { state := .free, correlation := token n 0, envelope := {}, request := 0,
          response := (w.topic.slots 0).response }
      nextCorrelation := n + 1 }
    calls := Function.update w.calls n
      (some ⟨0, 0, .done (some (token n 0)) ⟨.deadlineExpired, 0⟩⟩) }
  have hrun : (machine 0 0).execOk noReply (revoking n) (w.posted n) = some w' := by
    simp [revoking, Machine.execOk, noReply, machine, World.step, callStep, World.posted,
      CallEp.at', RpcTopic.setState, RpcTopic.setSlot, w']
  refine ⟨w', reached_of_noReply hpost hrun, rfl, h.server, fun i => ?_, fun c hc => ?_,
    fun c ep hc => ?_, h.takes, h.requests, h.replies⟩
  · by_cases e : i = 0
    · subst e
      simp [w']
    · simp only [w', Function.update_of_ne e]
      exact h.free i
  · simp only [w', Function.update_of_ne (show c ≠ n by omega)]
    exact h.unused c (by omega)
  · simp only [w'] at hc
    by_cases e : c = n
    · subst e
      rw [Function.update_self] at hc
      cases hc
      exact ⟨_, _, rfl⟩
    · rw [Function.update_of_ne e] at hc
      exact h.done c ep hc

theorem atRest_reached (n : Nat) :
    ∃ w, (machine 0 0).Reached OneReplyEach w ∧ AtRest n w := by
  induction n with
  | zero =>
      refine ⟨{ quietTopic with topic := { quietTopic.topic with publisherCount := 1 } },
        .next (a := .addServer) (.start rfl) trivial rfl, rfl, rfl, fun _ => rfl, fun _ _ => rfl,
        fun c ep h0 => (nomatch h0), fun _ => rfl, rfl, fun _ => rfl⟩
  | succ n ih =>
      obtain ⟨w, hw, h⟩ := ih
      exact atRest_next hw h

/-- A call whose token is zero is taken, replied to and abandoned, and its slot
stays abandoned. -/
theorem token_zero_leaks {n : Nat} (htok : token n 0 = 0) {w : World Nat Nat}
    (hw : (machine 0 0).Reached OneReplyEach w) (h : AtRest n w) :
    ∃ w', (machine 0 0).Reached OneReplyEach w' ∧ ¬ SlotsAccounted w' := by
  have hpost := reached_of_noReply hw (exec_posting h)
  -- the server takes it
  let w₁ : World Nat Nat := { w with
    topic := { w.topic with
      slots := Function.update w.topic.slots 0
        { state := .taken, correlation := 0, envelope := {}, request := 0,
          response := (w.topic.slots 0).response }
      nextCorrelation := n + 1 }
    calls := Function.update w.calls n (some ⟨0, 0, .await 0 0⟩)
    requests := [⟨0, 0, 0, 0⟩] }
  have htakes : w.takes = fun _ => .idle := funext h.takes
  have hrun₁ : (machine 0 0).execOk noReply (List.replicate 6 (.take 0))
      (w.posted n) = some w₁ := by
    simp [List.replicate, Machine.execOk, noReply, machine, World.step, takeStep, kMaxInFlight,
      RpcTopic.setState, RpcTopic.setSlot, World.posted, htok, h.requests, htakes, w₁]
  have h₁ := reached_of_noReply hpost hrun₁
  -- the reply to token zero is turned away
  let w₂ : World Nat Nat := { w₁ with
    replies := Function.update w.replies 0 (.done 0 0 .expired) }
  have h₂ : (machine 0 0).Reached OneReplyEach w₂ := by
    refine h₁.next (a := .newReply 0 0 0) (fun r => ?_) ?_
    · rw [h.replies r]
      exact fun h0 => (by cases h0)
    · simp [machine, World.step, h.replies, w₁, w₂]
  -- and the call gives up
  let w₃ : World Nat Nat := { w₂ with
    topic := { w₂.topic with
      slots := Function.update w.topic.slots 0
        { state := .abandoned, correlation := 0, envelope := {}, request := 0,
          response := (w.topic.slots 0).response } }
    calls := Function.update w.calls n
      (some ⟨0, 0, .done (some 0) ⟨.deadlineExpired, 0⟩⟩) }
  have hrun₃ : (machine 0 0).execOk noReply
      (revoking n ++ [.call n (.go 0)]) w₂ = some w₃ := by
    simp [revoking, Machine.execOk, noReply, machine, World.step, callStep,
      CallEp.at', RpcTopic.setState, RpcTopic.setSlot, w₁, w₂, w₃]
  refine ⟨w₃, reached_of_noReply h₂ hrun₃, fun hacc => ?_⟩
  have hfree := hacc.quiescent (fun c ep hc => ?_)
    (fun k => by simp only [w₃, w₂, w₁, h.takes]; rfl) (fun q hq => ?_) 0
  · simp [w₃] at hfree
  · simp only [w₃] at hc
    by_cases e : c = n
    · subst e
      rw [Function.update_self] at hc
      cases hc
      exact ⟨_, _, rfl⟩
    · rw [Function.update_of_ne e] at hc
      exact h.done c ep hc
  · obtain rfl := List.mem_singleton.mp hq
    exact ⟨0, 0, .expired, by simp [w₃, w₂]⟩

/-- Draw number `2 ^ 60` gives slot 0 the token zero. -/
theorem slot_leaked :
    ¬ ∀ w : World Nat Nat, (machine 0 0).Reached OneReplyEach w → SlotsAccounted w := by
  intro hall
  obtain ⟨w, hw, h⟩ := atRest_reached (2 ^ 60 - 1)
  obtain ⟨w', hw', hleak⟩ := token_zero_leaks (by decide) hw h
  exact hleak (hall w' hw')

end Xmmsg.Rpc
