import Xmmsg.Rpc.Invariant

/-!
# Every move, assembled

The three moves in which a reply touches a slot, then the case analysis over
`Move`. The counter bound enters in `draw` only: tokens repeat once the counter
has gone round.
-/

namespace Xmmsg.Rpc

open Proto

variable {Rsp : Type}

/-- A held slot's call in progress, if any, is waiting or late. -/
theorem CallFits.of_held {slot : Nat → Core Rsp} {v : CallView Rsp} {i : Nat}
    (h : CallFits slot v) (hi : v.slot? = some i) (hh : (slot i).state.held = true) :
    ∃ t, v = .waiting i t ∨ v = .late i t := by
  cases v <;> simp [CallView.slot?] at hi <;> subst hi <;> simp only [CallFits] at h
  case claimed => rw [h.2] at hh; cases hh
  case drawn => rw [h.2] at hh; cases hh
  case filling => rw [h.2.2] at hh; cases hh
  case waiting t => exact ⟨t, .inl rfl⟩
  case late t => exact ⟨t, .inr rfl⟩
  case reading => rw [h.2.2] at hh; cases hh
  case leaving => rw [h.2.2] at hh; cases hh

theorem CallSlotState.not_replied_of_held {st : CallSlotState} (h : st.held = true) :
    st ≠ .replied := by
  rintro rfl
  cases h

/-- Nobody else is at the slot of a call in progress. -/
theorem Inv.others {s : Proto Rsp} (h : Inv s) {c i : Nat} {v : CallView Rsp}
    (hc : s.call c = v) (hi : v.slot? = some i) :
    ∀ c', c' ≠ c → (s.call c').slot? ≠ some i :=
  fun c' hne h' => hne (h.owners c' c i h' (hc ▸ hi))

theorem Inv.mine {s : Proto Rsp} {c i : Nat} {v : CallView Rsp} (hc : s.call c = v)
    (hi : v.slot? = some i) (j : Nat) (hj : (s.call c).slot? = some j) : j = i := by
  rw [hc, hi] at hj
  exact (Option.some.inj hj).symm

theorem Inv.write {s : Proto Rsp} (h : Inv s) {r t : Nat} {v : Rsp}
    (hr : s.reply r = .matched t v) :
    Inv ((s.setSlot (tokenIndex t)
      { s.slot (tokenIndex t) with response := v }).setReply r (.wrote t v)) := by
  have hfit := h.replyFits r
  rw [hr] at hfit
  obtain ⟨htok, hheld⟩ := hfit
  have hnew : ∀ u w, ReplyView.wrote t v ≠ .ok u w := fun u w h0 => nomatch h0
  have hacc := accepted_setReply (r := r)
    (fun u w h0 => nomatch hr.symm.trans h0) hnew
  refine h.answer (t := t) (by rw [hr]; rfl) htok hheld htok id id ?_ ?_ ?_ ?_ ?_ ?_ ?_
  · intro hp
    exact h.once t (h.replying r t (by rw [hr]; rfl)) _ htok hp
  · exact fun u hu => (Option.some.inj hu).symm
  · simp only [ReplyFits, Function.update_self]
    exact ⟨htok, hheld, trivial⟩
  · intro c hc
    -- the call has not heard anything: the slot is not `kReplied`
    have hfc := h.fits c
    have hout := h.outcome c
    have hnr := CallSlotState.not_replied_of_held hheld
    obtain ⟨u, hu | hu⟩ := hfc.of_held hc hheld <;> rw [hu] at hfc hout ⊢ <;>
      simp only [CallFits, Outcome, Function.update_self] at hfc hout ⊢ <;>
      exact ⟨hfc, fun h0 => absurd h0 hnr,
        fun _ w hw => hout.2 hnr w ((hacc u w).mp hw)⟩
  · exact fun c _ u _ w => hacc u w
  · exact fun u w hw => h.okHanded u w ((hacc u w).mp hw)
  · exact fun r₁ r₂ u w₁ w₂ h₁ h₂ => h.okOnce r₁ r₂ u w₁ w₂
      (ok_of_setReply hnew h₁) (ok_of_setReply hnew h₂)

/-- The accepted reply. Its call is still waiting, so no earlier reply for it was
accepted, and the response in the slot is this reply's. -/
theorem Inv.commit {s : Proto Rsp} (h : Inv s) {r t : Nat} {v : Rsp}
    (hr : s.reply r = .wrote t v) (hst : (s.slot (tokenIndex t)).state = .taken) :
    Inv ((s.setState (tokenIndex t) .replied).setReply r (.ok t v)) := by
  have hfit := h.replyFits r
  rw [hr] at hfit
  obtain ⟨htok, hheld, hresp⟩ := hfit
  have hposted : (s.slot (tokenIndex t)).state.posted = true := by rw [hst]; rfl
  obtain ⟨c₀, hc₀⟩ := h.owned (tokenIndex t) (by rw [hst]; rfl)
  have htok₀ : (s.call c₀).token? = some t := htok ▸ (h.tok_of_owner hc₀ hposted).1
  -- no reply for `t` was accepted before this one
  have hnone : ∀ w, ¬ Accepted s.reply t w := by
    have hout := h.outcome c₀
    have hnr := CallSlotState.not_replied_of_held hheld
    obtain ⟨u, hu | hu⟩ := (h.fits c₀).of_held hc₀ hheld <;> rw [hu] at hout htok₀ <;>
      obtain rfl : u = t := Option.some.inj htok₀ <;> exact hout.2 hnr
  have hacc : ∀ u, u ≠ t → ∀ w, Accepted (Function.update s.reply r (.ok t v)) u w ↔
      Accepted s.reply u w := by
    intro u hu w
    constructor
    · rintro ⟨r', hr'⟩
      by_cases e : r' = r
      · rw [e, Function.update_self] at hr'
        cases hr'
        exact absurd rfl hu
      · rw [Function.update_of_ne e] at hr'
        exact ⟨r', hr'⟩
    · rintro ⟨r', hr'⟩
      have e : r' ≠ r := by
        rintro rfl
        rw [hr] at hr'
        cases hr'
      exact ⟨r', by rw [Function.update_of_ne e]; exact hr'⟩
  refine h.answer (t := t) (by rw [hr]; rfl) htok hheld htok (fun _ => by rw [hst]; rfl)
    CallSlotState.noConfusion CallSlotState.noConfusion ?_ trivial ?_ ?_ ?_ ?_
  · exact fun u hu => nomatch hu
  · intro c hc
    have hfc := h.fits c
    obtain rfl := h.owners c c₀ _ hc hc₀
    obtain ⟨u, hu | hu⟩ := hfc.of_held hc hheld <;> rw [hu] at hfc htok₀ ⊢ <;>
      obtain rfl : u = t := Option.some.inj htok₀ <;>
      simp only [CallFits, Outcome, Function.update_self] at hfc ⊢ <;>
      refine ⟨⟨hfc.1, hfc.2.1, by simp⟩, ?_, fun h0 => absurd rfl h0⟩ <;>
      exact fun _ => ⟨r, by rw [Function.update_self, hresp]⟩
  · intro c hc u hu
    refine hacc u ?_
    rintro rfl
    obtain rfl := h.tokens c c₀ u hu htok₀
    exact hc hc₀
  · intro u w hw
    by_cases e : u = t
    · rw [e]
      exact h.replying r t (by rw [hr]; rfl)
    · exact h.okHanded u w ((hacc u e w).mp hw)
  · intro r₁ r₂ u w₁ w₂ h₁ h₂
    by_cases e₁ : r₁ = r <;> by_cases e₂ : r₂ = r
    · rw [e₁, e₂]
    · rw [e₁, Function.update_self] at h₁
      cases h₁
      rw [Function.update_of_ne e₂] at h₂
      exact absurd ⟨r₂, h₂⟩ (hnone w₂)
    · rw [e₂, Function.update_self] at h₂
      cases h₂
      rw [Function.update_of_ne e₁] at h₁
      exact absurd ⟨r₁, h₁⟩ (hnone w₁)
    · rw [Function.update_of_ne e₁] at h₁
      rw [Function.update_of_ne e₂] at h₂
      exact h.okOnce r₁ r₂ u w₁ w₂ h₁ h₂

theorem Inv.reclaim {s : Proto Rsp} (h : Inv s) {r t : Nat} {v : Rsp}
    (hr : s.reply r = .reclaiming t v) :
    Inv ((s.setState (tokenIndex t) .free).setReply r (.expired t v)) := by
  have hfit := h.replyFits r
  rw [hr] at hfit
  obtain ⟨htok, hst⟩ := hfit
  have hnew : ∀ u w, ReplyView.expired t v ≠ .ok u w := fun u w h0 => nomatch h0
  have hacc := accepted_setReply (r := r)
    (fun u w h0 => nomatch hr.symm.trans h0) hnew
  refine h.answer (t := t) (by rw [hr]; rfl) htok (by rw [hst]; rfl) htok
    (fun hb => nomatch hb) CallSlotState.noConfusion CallSlotState.noConfusion ?_ trivial
    ?_ ?_ ?_ ?_
  · exact fun u hu => nomatch hu
  · intro c hc
    have hb := (h.fits c).busy hc
    rw [hst] at hb
    cases hb
  · exact fun c _ u _ w => hacc u w
  · exact fun u w hw => h.okHanded u w ((hacc u w).mp hw)
  · exact fun r₁ r₂ u w₁ w₂ h₁ h₂ => h.okOnce r₁ r₂ u w₁ w₂
      (ok_of_setReply hnew h₁) (ok_of_setReply hnew h₂)

/-- A reply moving on between looks, keeping its token. -/
theorem Inv.advance {s : Proto Rsp} (h : Inv s) {r t : Nat} {v : ReplyView Rsp}
    (hr : (s.reply r).token? = some t) (hv : ∀ u, v.token? = some u → u = t)
    (hnew : ∀ u w, v ≠ .ok u w) (hfit : ReplyFits s.slot v) : Inv (s.setReply r v) := by
  refine h.replyLook ?_ hnew ?_ hfit
  · intro u w h0
    rw [h0] at hr
    cases hr
  · intro u hu
    obtain rfl := hv u hu
    exact ⟨h.replying r u hr, fun r' hne h' => hne (h.repliers r' r u h' hr)⟩

theorem inv_move {s s' : Proto Rsp} (h : Inv s) (hb : s'.next < 2 ^ 60) (hm : Move s s') :
    Inv s' := by
  cases hm with
  | claim c i hi hc hst =>
      have hfree := h.unowned_of_free hst
      refine h.own (fun c' _ => hfree c') (fun j hj => ?_) (fun t h0 => ?_) (by rw [hst]; rfl)
        rfl (.inl rfl) (by rw [hc]; rfl) (fun h0 => by cases h0) (.inl rfl)
        (fun h0 => by cases h0) (fun h0 => by cases h0) ?_ trivial
      · rw [hc] at hj; cases hj
      · rw [hc] at h0; cases h0
      · simp only [CallFits, Function.update_self]
        exact ⟨hi, trivial⟩
  | draw c i hc =>
      refine h.draw ?_ hc
      simp only [setCall] at hb
      omega
  | sign c i t hc =>
      have hfit := h.fits c
      rw [hc] at hfit
      have hnot : t ∉ s.taken := h.hidden_not_taken (c := c) (by rw [hc]; rfl) (by rw [hc]; rfl)
      refine h.own (h.others hc rfl) (Inv.mine hc rfl) (fun u h0 => by cases hc.symm.trans h0)
        (by rw [hfit.2]; rfl) (by rw [hfit.2]; rfl) (.inl rfl) (by rw [hc]; rfl)
        (fun _ => by rw [hc]; rfl) (.inr hnot) (fun _ => hnot) (fun _ => hfit.1) ?_ trivial
      simp only [CallFits, Function.update_self]
      exact ⟨hfit.1, trivial, hfit.2⟩
  | post c i t hc =>
      have hfit := h.fits c
      rw [hc] at hfit
      obtain ⟨hi, htok, hst⟩ := hfit
      have hnot : t ∉ s.taken := h.hidden_not_taken (c := c) (by rw [hc]; rfl) (by rw [hc]; rfl)
      refine h.own (h.others hc rfl) (Inv.mine hc rfl) (fun u h0 => by cases hc.symm.trans h0)
        (by rw [hst]; rfl) rfl (.inl rfl) (by rw [hc]; rfl) (fun h0 => by cases h0) (.inl rfl)
        (fun _ => htok ▸ hnot) (fun _ => htok ▸ hi) ?_ ?_
      · simp only [CallFits, Function.update_self]
        exact ⟨hi, htok, .inl trivial⟩
      · simp only [Outcome, Function.update_self]
        exact ⟨fun h0 => absurd h0 CallSlotState.noConfusion,
          fun _ v hv => hnot (h.okHanded t v hv)⟩
  | hear c i t hc hst =>
      have hfit := h.fits c
      have hout := h.outcome c
      rw [hc] at hfit hout
      exact h.look (by rw [hc]; rfl) (by rw [hc]; rfl) (by rw [hc]; rfl)
        (fun u h0 => by cases hc.symm.trans h0) ⟨hfit.1, hfit.2.1, hst⟩ (hout.1 hst)
  | revoke c i t hc hst =>
      have hout := h.outcome c
      rw [hc] at hout
      refine h.own (h.others hc rfl) (Inv.mine hc rfl) (fun u h0 => by cases hc.symm.trans h0)
        (by rw [hst]; rfl) rfl (.inr ⟨rfl, rfl⟩) (by rw [hc]; rfl) (fun h0 => by cases h0)
        (.inl rfl) (fun h0 => by cases h0) (fun h0 => by cases h0) trivial ?_
      exact hout.2 (by rw [hst]; exact CallSlotState.noConfusion)
  | miss c i t hc hst =>
      have hfit := h.fits c
      have hout := h.outcome c
      rw [hc] at hfit hout
      exact h.look (by rw [hc]; rfl) (by rw [hc]; rfl) (by rw [hc]; rfl)
        (fun u h0 => by cases hc.symm.trans h0)
        ⟨hfit.1, hfit.2.1, hfit.2.2.resolve_left hst⟩ hout
  | abandon c i t hc hst => exact h.abandon hc hst
  | overtake c i t hc hst =>
      -- neither deadline CAS succeeded: the slot can only be `kReplied`
      have hfit := h.fits c
      have hout := h.outcome c
      rw [hc] at hfit hout
      have hrep := hfit.2.2.resolve_left hst
      exact h.look (by rw [hc]; rfl) (by rw [hc]; rfl) (by rw [hc]; rfl)
        (fun u h0 => by cases hc.symm.trans h0) ⟨hfit.1, hfit.2.1, hrep⟩ (hout.1 hrep)
  | read c i t hc =>
      have hfit := h.fits c
      have hout := h.outcome c
      rw [hc] at hfit hout
      exact h.look (by rw [hc]; rfl) (by rw [hc]; rfl) (by rw [hc]; rfl)
        (fun u h0 => by cases hc.symm.trans h0) hfit hout
  | leave c i t v hc =>
      have hfit := h.fits c
      have hout := h.outcome c
      rw [hc] at hfit hout
      exact h.own (h.others hc rfl) (Inv.mine hc rfl) (fun u h0 => by cases hc.symm.trans h0)
        (by rw [hfit.2.2]; rfl) rfl (.inr ⟨rfl, rfl⟩) (by rw [hc]; rfl) (fun h0 => by cases h0)
        (.inl rfl) (fun h0 => by cases h0) (fun h0 => by cases h0) trivial hout
  | fail c hc =>
      exact h.look (by rw [hc]; rfl) (by rw [hc]; rfl) (by rw [hc]; rfl)
        (fun u h0 => by cases hc.symm.trans h0) trivial trivial
  | accept k i hk hst => exact h.accept k hst
  | hand k i hk => exact h.hand hk
  | begin r t v hr ht hone =>
      refine h.replyLook (fun u w h0 => by cases hr.symm.trans h0) (fun u w h0 => by cases h0)
        (fun u hu => ?_) trivial
      obtain rfl : t = u := Option.some.inj hu
      exact ⟨ht, fun r' _ => hone r'⟩
  | refuse r t v hr =>
      exact h.replyLook (fun u w h0 => by cases hr.symm.trans h0) (fun u w h0 => by cases h0)
        (fun u hu => by cases hu) trivial
  | see r t v hr hst =>
      exact h.advance (t := t) (by rw [hr]; rfl) (fun u hu => (Option.some.inj hu).symm)
        (fun u w h0 => by cases h0) (fun _ => by rw [hst]; rfl)
  | agree r t v hr htok =>
      have hfit := h.replyFits r
      rw [hr] at hfit
      exact h.advance (t := t) (by rw [hr]; rfl) (fun u hu => (Option.some.inj hu).symm)
        (fun u w h0 => by cases h0) ⟨htok, hfit htok⟩
  | write r t v hr => exact h.write hr
  | commit r t v hr hst => exact h.commit hr hst
  | relook r t v hr =>
      have ht : (s.reply r).token? = some t := by
        rcases hr with hr | hr | hr <;> rw [hr] <;> rfl
      exact h.advance ht (fun u hu => (Option.some.inj hu).symm) (fun u w h0 => by cases h0)
        trivial
  | seeAbandoned r t v hr hst =>
      exact h.advance (t := t) (by rw [hr]; rfl) (fun u hu => (Option.some.inj hu).symm)
        (fun u w h0 => by cases h0) (fun _ => hst)
  | agreeAbandoned r t v hr htok =>
      have hfit := h.replyFits r
      rw [hr] at hfit
      exact h.advance (t := t) (by rw [hr]; rfl) (fun u hu => (Option.some.inj hu).symm)
        (fun u w h0 => by cases h0) ⟨htok, hfit htok⟩
  | reclaim r t v hr => exact h.reclaim hr
  | giveUp r t v hr =>
      have ht : (s.reply r).token? = some t := by
        rcases hr with hr | hr <;> rw [hr] <;> rfl
      exact h.advance ht (fun u hu => by cases hu) (fun u w h0 => by cases h0) trivial

end Xmmsg.Rpc
