import Xmmsg.Rpc.Protocol

/-!
# The reply invariant is kept by every move

Most moves touch one slot, one call and one reply, and most of the invariant is
about slots one at a time. The frame lemmas below say which part of the
invariant a move has to re-establish; the moves then fall into a few groups: a
call that only looks, a call working on its own slot, a reply that only looks,
and the handful that carry the argument (`draw`, `abandon`, `accept`, `hand`,
`write`, `commit`, `reclaim`).
-/

namespace Xmmsg.Rpc

open Proto

variable {Rsp : Type}

/-! ## What each part depends on -/

theorem CallFits.congr {slot slot' : Nat → Core Rsp} {v : CallView Rsp}
    (hs : ∀ i, v.slot? = some i → slot' i = slot i) (h : CallFits slot v) :
    CallFits slot' v := by
  cases v <;> simp_all [CallFits, CallView.slot?]

theorem Outcome.congr {slot slot' : Nat → Core Rsp} {reply reply' : Nat → ReplyView Rsp}
    {v : CallView Rsp} (hs : ∀ i, v.slot? = some i → slot' i = slot i)
    (hr : ∀ t, v.token? = some t → ∀ u, Accepted reply' t u ↔ Accepted reply t u)
    (h : Outcome slot reply v) : Outcome slot' reply' v := by
  cases v <;> simp_all [Outcome, CallView.slot?, CallView.token?]

/-- A reply in progress loses nothing when a slot outside the server's hands
changes, as long as the slot does not take on the reply's token. -/
theorem ReplyFits.of_not_held {slot : Nat → Core Rsp} {v : ReplyView Rsp} {i : Nat}
    {core : Core Rsp} (hst : (slot i).state.held = false)
    (htok : ∀ t, v.token? = some t → core.tok = t → (slot i).tok = t)
    (h : ReplyFits slot v) : ReplyFits (Function.update slot i core) v := by
  have habs : (slot i).state ≠ .abandoned := by
    intro h0
    rw [h0] at hst
    cases hst
  cases v with
  | sawTaken t v | matched t v | wrote t v | sawAbandoned t v | reclaiming t v =>
      by_cases hi : tokenIndex t = i
      · subst hi
        have := htok t rfl
        simp_all [ReplyFits]
      · simpa [ReplyFits, Function.update_of_ne hi] using h
  | _ => trivial

/-- Nor does it lose anything when the slot changes under somebody else's
token. -/
theorem ReplyFits.of_other {slot : Nat → Core Rsp} {v : ReplyView Rsp} {i : Nat}
    {core : Core Rsp} (htok : core.tok = (slot i).tok)
    (hne : ∀ t, v.token? = some t → t ≠ (slot i).tok) (h : ReplyFits slot v) :
    ReplyFits (Function.update slot i core) v := by
  cases v with
  | sawTaken t v | matched t v | wrote t v | sawAbandoned t v | reclaiming t v =>
      have hu : (slot i).tok ≠ t := (hne t rfl).symm
      by_cases hi : tokenIndex t = i
      · simp only [ReplyFits, hi, Function.update_self, htok] at h ⊢
        simp [hu] at h ⊢
      · simpa [ReplyFits, Function.update_of_ne hi] using h
  | _ => trivial

theorem Inv.unowned_of_free {s : Proto Rsp} (h : Inv s) {i : Nat}
    (hf : (s.slot i).state = .free) (c : Nat) : (s.call c).slot? ≠ some i := by
  intro hc
  have hfit := h.fits c
  cases hv : s.call c <;> rw [hv] at hc hfit <;>
    simp_all [CallView.slot?, CallFits]

theorem CallFits.busy {slot : Nat → Core Rsp} {v : CallView Rsp} {i : Nat}
    (h : CallFits slot v) (hi : v.slot? = some i) : (slot i).state.busy = true := by
  cases v <;> simp [CallView.slot?] at hi <;> subst hi <;> simp only [CallFits] at h
  case claimed => rw [h.2]; rfl
  case drawn => rw [h.2]; rfl
  case filling => rw [h.2.2]; rfl
  case waiting => rcases h.2.2 with h | h | h <;> rw [h] <;> rfl
  case late => rcases h.2.2 with h | h <;> rw [h] <;> rfl
  case reading => rw [h.2.2]; rfl
  case leaving => rw [h.2.2]; rfl

/-- A token on a slot in use by a call that has posted is that call's token. -/
theorem Inv.tok_of_owner {s : Proto Rsp} (h : Inv s) {c i : Nat}
    (hi : (s.call c).slot? = some i) (hp : (s.slot i).state.posted = true) :
    (s.call c).token? = some (s.slot i).tok ∧ (s.call c).hidden = false := by
  have hfit := h.fits c
  cases hv : s.call c <;> rw [hv] at hi hfit <;>
    simp_all [CallView.slot?, CallView.token?, CallView.hidden, CallFits,
      CallSlotState.posted]

/-- Every posted token belongs to a call that has shown its request. -/
theorem Inv.posted_call {s : Proto Rsp} (h : Inv s) {i : Nat}
    (hp : (s.slot i).state.posted = true) :
    ∃ c, (s.call c).token? = some (s.slot i).tok ∧ (s.call c).hidden = false := by
  by_cases ha : (s.slot i).state = .abandoned
  · obtain ⟨c, hc⟩ := h.orphan i ha
    exact ⟨c, by rw [hc]; exact ⟨rfl, rfl⟩⟩
  · have hb : (s.slot i).state.busy = true := by
      cases hst : (s.slot i).state <;> simp_all [CallSlotState.posted, CallSlotState.busy]
    obtain ⟨c, hc⟩ := h.owned i hb
    exact ⟨c, h.tok_of_owner hc hp⟩

/-- A hidden call's token has not been handed out. -/
theorem Inv.hidden_not_taken {s : Proto Rsp} (h : Inv s) {c t : Nat}
    (ht : (s.call c).token? = some t) (hh : (s.call c).hidden = true) : t ∉ s.taken := by
  intro hmem
  obtain ⟨c', hc', hn⟩ := h.handed t hmem
  obtain rfl := h.tokens c c' t ht hc'
  rw [hh] at hn
  cases hn

/-! ## Calls working on their own slot -/

theorem Inv.own {s : Proto Rsp} (h : Inv s) {c i : Nat} {core : Core Rsp}
    {v : CallView Rsp}
    (hmine : ∀ c', c' ≠ c → (s.call c').slot? ≠ some i)
    (hc : ∀ j, (s.call c).slot? = some j → j = i)
    (hlive : ∀ t, s.call c ≠ .expired t)
    (hst : (s.slot i).state.held = false) (hst' : core.state.held = false)
    (hown : v.slot? = some i ∨ v.slot? = none ∧ core.state.busy = false)
    (htok : v.token? = (s.call c).token?)
    (hhid : v.hidden = true → (s.call c).hidden = true)
    (hcore : core.tok = (s.slot i).tok ∨ core.tok ∉ s.taken)
    (hpend : core.state = .pending → core.tok ∉ s.taken)
    (hidx : core.state.posted = true → tokenIndex core.tok = i)
    (hfit : CallFits (Function.update s.slot i core) v)
    (hout : Outcome (Function.update s.slot i core) s.reply v) :
    Inv ((s.setSlot i core).setCall c v) := by
  have hcall : ∀ c', c' ≠ c → Function.update s.call c v c' = s.call c' :=
    fun c' hne => Function.update_of_ne hne _ _
  have hslot : ∀ j, j ≠ i → Function.update s.slot i core j = s.slot j :=
    fun j hne => Function.update_of_ne hne _ _
  have htok' : ∀ c', (Function.update s.call c v c').token? = (s.call c').token? := by
    intro c'
    by_cases hne : c' = c
    · rw [hne, Function.update_self, htok]
    · rw [hcall c' hne]
  have habs' : core.state ≠ .abandoned := by
    intro h0
    rw [h0] at hst'
    cases hst'
  constructor
  case drawn =>
    intro c' t ht
    rw [show ((s.setSlot i core).setCall c v).call c' = _ from rfl] at ht
    exact h.drawn c' t (htok' c' ▸ ht)
  case tokens =>
    intro c₁ c₂ t h₁ h₂
    exact h.tokens c₁ c₂ t (htok' c₁ ▸ h₁) (htok' c₂ ▸ h₂)
  case owners =>
    intro c₁ c₂ j h₁ h₂
    simp only [setCall, setSlot] at h₁ h₂
    by_cases e₁ : c₁ = c <;> by_cases e₂ : c₂ = c
    · rw [e₁, e₂]
    · subst e₁
      rw [Function.update_self] at h₁
      rw [hcall c₂ e₂] at h₂
      rcases hown with ho | ⟨ho, -⟩
      · obtain rfl : i = j := by rw [ho] at h₁; exact Option.some.inj h₁
        exact absurd h₂ (hmine c₂ e₂)
      · rw [ho] at h₁; cases h₁
    · subst e₂
      rw [Function.update_self] at h₂
      rw [hcall c₁ e₁] at h₁
      rcases hown with ho | ⟨ho, -⟩
      · obtain rfl : i = j := by rw [ho] at h₂; exact Option.some.inj h₂
        exact absurd h₁ (hmine c₁ e₁)
      · rw [ho] at h₂; cases h₂
    · rw [hcall c₁ e₁] at h₁
      rw [hcall c₂ e₂] at h₂
      exact h.owners c₁ c₂ j h₁ h₂
  case fits =>
    intro c'
    simp only [setCall, setSlot]
    by_cases e : c' = c
    · rw [e, Function.update_self]; exact hfit
    · rw [hcall c' e]
      refine (h.fits c').congr fun j hj => hslot j ?_
      rintro rfl
      exact hmine c' e hj
  case owned =>
    intro j hb
    simp only [setCall, setSlot] at hb ⊢
    by_cases e : j = i
    · subst e
      rw [Function.update_self] at hb
      rcases hown with ho | ⟨-, hf⟩
      · exact ⟨c, by rw [Function.update_self]; exact ho⟩
      · rw [hf] at hb; cases hb
    · rw [hslot j e] at hb
      obtain ⟨c', hc'⟩ := h.owned j hb
      have hne : c' ≠ c := by
        rintro rfl
        exact e (hc j hc')
      exact ⟨c', by rw [hcall c' hne]; exact hc'⟩
  case index =>
    intro j hp
    simp only [setCall, setSlot] at hp ⊢
    by_cases e : j = i
    · subst e
      rw [Function.update_self] at hp ⊢
      exact hidx hp
    · rw [hslot j e] at hp ⊢
      exact h.index j hp
  case orphan =>
    intro j ha
    simp only [setCall, setSlot] at ha ⊢
    by_cases e : j = i
    · subst e
      rw [Function.update_self] at ha
      exact absurd ha habs'
    · rw [hslot j e] at ha ⊢
      obtain ⟨c', hc'⟩ := h.orphan j ha
      have hne : c' ≠ c := by
        rintro rfl
        exact hlive _ hc'
      exact ⟨c', by rw [hcall c' hne]; exact hc'⟩
  case handed =>
    intro t ht
    obtain ⟨c', h₁, h₂⟩ := h.handed t ht
    refine ⟨c', (htok' c').trans h₁, ?_⟩
    simp only [setCall, setSlot]
    by_cases e : c' = c
    · rw [e, Function.update_self]
      rw [e] at h₂
      cases hv : v.hidden with
      | false => rfl
      | true => rw [hhid hv] at h₂; cases h₂
    · rw [hcall c' e]; exact h₂
  case once =>
    intro t ht j hj
    simp only [setCall, setSlot] at hj ⊢
    by_cases e : j = i
    · subst e
      rw [Function.update_self] at hj ⊢
      intro hp
      exact hpend hp (hj ▸ ht)
    · rw [hslot j e] at hj ⊢
      exact h.once t ht j hj
  case copies =>
    intro k j hk
    have hcp := h.copies k j hk
    have e : j ≠ i := by
      rintro rfl
      rw [hst] at hcp
      exact absurd hcp.1 (by simp)
    simp only [setCall, setSlot]
    rw [hslot j e]
    exact hcp
  case copiers => exact h.copiers
  case replying => exact h.replying
  case repliers => exact h.repliers
  case replyFits =>
    intro r
    refine (h.replyFits r).of_not_held hst ?_
    intro t ht hct
    rcases hcore with he | hn
    · rw [← he]; exact hct
    · exact absurd (h.replying r t ht) (hct ▸ hn)
  case okHanded => exact h.okHanded
  case okOnce => exact h.okOnce
  case outcome =>
    intro c'
    simp only [setCall, setSlot]
    by_cases e : c' = c
    · rw [e, Function.update_self]; exact hout
    · rw [hcall c' e]
      refine (h.outcome c').congr (fun j hj => hslot j ?_) (fun _ _ _ => Iff.rfl)
      rintro rfl
      exact hmine c' e hj

/-! ## Calls that only look -/

theorem Inv.look {s : Proto Rsp} (h : Inv s) {c : Nat} {v : CallView Rsp}
    (hslot : v.slot? = (s.call c).slot?) (htok : v.token? = (s.call c).token?)
    (hhid : v.hidden = (s.call c).hidden) (hlive : ∀ t, s.call c ≠ .expired t)
    (hfit : CallFits s.slot v) (hout : Outcome s.slot s.reply v) :
    Inv (s.setCall c v) := by
  have hcall : ∀ c', c' ≠ c → Function.update s.call c v c' = s.call c' :=
    fun c' hne => Function.update_of_ne hne _ _
  -- to the rest of the world the call has not moved
  have hsame : ∀ c', (Function.update s.call c v c').slot? = (s.call c').slot? ∧
      (Function.update s.call c v c').token? = (s.call c').token? ∧
      (Function.update s.call c v c').hidden = (s.call c').hidden := by
    intro c'
    by_cases hne : c' = c
    · rw [hne, Function.update_self]; exact ⟨hslot, htok, hhid⟩
    · rw [hcall c' hne]; exact ⟨rfl, rfl, rfl⟩
  constructor
  case drawn => exact fun c' t ht => h.drawn c' t ((hsame c').2.1 ▸ ht)
  case tokens =>
    exact fun c₁ c₂ t h₁ h₂ =>
      h.tokens c₁ c₂ t ((hsame c₁).2.1 ▸ h₁) ((hsame c₂).2.1 ▸ h₂)
  case owners =>
    exact fun c₁ c₂ i h₁ h₂ =>
      h.owners c₁ c₂ i ((hsame c₁).1 ▸ h₁) ((hsame c₂).1 ▸ h₂)
  case fits =>
    intro c'
    simp only [setCall]
    by_cases e : c' = c
    · rw [e, Function.update_self]; exact hfit
    · rw [hcall c' e]; exact h.fits c'
  case owned =>
    intro i hb
    obtain ⟨c', hc'⟩ := h.owned i hb
    exact ⟨c', (hsame c').1.trans hc'⟩
  case index => exact h.index
  case orphan =>
    intro i ha
    obtain ⟨c', hc'⟩ := h.orphan i ha
    have hne : c' ≠ c := by
      rintro rfl
      exact hlive _ hc'
    exact ⟨c', (hcall c' hne).trans hc'⟩
  case handed =>
    intro t ht
    obtain ⟨c', h₁, h₂⟩ := h.handed t ht
    exact ⟨c', (hsame c').2.1.trans h₁, (hsame c').2.2.trans h₂⟩
  case once => exact h.once
  case copies => exact h.copies
  case copiers => exact h.copiers
  case replying => exact h.replying
  case repliers => exact h.repliers
  case replyFits => exact h.replyFits
  case okHanded => exact h.okHanded
  case okOnce => exact h.okOnce
  case outcome =>
    intro c'
    simp only [setCall]
    by_cases e : c' = c
    · rw [e, Function.update_self]; exact hout
    · rw [hcall c' e]; exact h.outcome c'

/-- Drawing a token: as long as the counter has not wrapped, nobody has it. -/
theorem Inv.draw {s : Proto Rsp} (h : Inv s) (hb : s.next < 2 ^ 60 - 1) {c i : Nat}
    (hc : s.call c = .claimed i) :
    Inv (({ s with next := s.next + 1 } : Proto Rsp).setCall c
      (.drawn i (token s.next i))) := by
  have hfit := h.fits c
  rw [hc] at hfit
  obtain ⟨hi, hst⟩ := hfit
  have hcall : ∀ c', c' ≠ c →
      Function.update s.call c (.drawn i (token s.next i)) c' = s.call c' :=
    fun c' hne => Function.update_of_ne hne _ _
  have hfresh : ∀ c', (s.call c').token? ≠ some (token s.next i) := by
    intro c' ht
    obtain ⟨n, j, hn, hj, ht'⟩ := h.drawn c' _ ht
    have := token_inj hb hi (Nat.lt_trans hn hb) hj ht'
    omega
  have hslot : ∀ c', (Function.update s.call c (.drawn i (token s.next i)) c').slot? =
      (s.call c').slot? := by
    intro c'
    by_cases e : c' = c
    · rw [e, Function.update_self, hc]; rfl
    · rw [hcall c' e]
  constructor
  case drawn =>
    intro c' t ht
    simp only [setCall] at ht ⊢
    by_cases e : c' = c
    · rw [e, Function.update_self] at ht
      exact ⟨s.next, i, Nat.lt_succ_self _, hi, (Option.some.inj ht).symm⟩
    · rw [hcall c' e] at ht
      obtain ⟨n, j, hn, hj, ht'⟩ := h.drawn c' t ht
      exact ⟨n, j, Nat.lt_succ_of_lt hn, hj, ht'⟩
  case tokens =>
    intro c₁ c₂ t h₁ h₂
    simp only [setCall] at h₁ h₂
    by_cases e₁ : c₁ = c <;> by_cases e₂ : c₂ = c
    · rw [e₁, e₂]
    · rw [e₁, Function.update_self] at h₁
      rw [hcall c₂ e₂, ← Option.some.inj h₁] at h₂
      exact absurd h₂ (hfresh c₂)
    · rw [e₂, Function.update_self] at h₂
      rw [hcall c₁ e₁, ← Option.some.inj h₂] at h₁
      exact absurd h₁ (hfresh c₁)
    · rw [hcall c₁ e₁] at h₁
      rw [hcall c₂ e₂] at h₂
      exact h.tokens c₁ c₂ t h₁ h₂
  case owners => exact fun c₁ c₂ j h₁ h₂ => h.owners c₁ c₂ j (hslot c₁ ▸ h₁) (hslot c₂ ▸ h₂)
  case fits =>
    intro c'
    simp only [setCall]
    by_cases e : c' = c
    · rw [e, Function.update_self]
      exact ⟨tokenIndex_token hb hi, hst⟩
    · rw [hcall c' e]; exact h.fits c'
  case owned =>
    intro j hj
    obtain ⟨c', hc'⟩ := h.owned j hj
    exact ⟨c', (hslot c').trans hc'⟩
  case index => exact h.index
  case orphan =>
    intro j ha
    obtain ⟨c', hc'⟩ := h.orphan j ha
    have hne : c' ≠ c := by
      rintro rfl
      rw [hc] at hc'
      cases hc'
    exact ⟨c', (hcall c' hne).trans hc'⟩
  case handed =>
    intro t ht
    obtain ⟨c', h₁, h₂⟩ := h.handed t ht
    have hne : c' ≠ c := by
      rintro rfl
      rw [hc] at h₁
      cases h₁
    simp only [setCall]
    exact ⟨c', by rw [hcall c' hne]; exact ⟨h₁, h₂⟩⟩
  case once => exact h.once
  case copies => exact h.copies
  case copiers => exact h.copiers
  case replying => exact h.replying
  case repliers => exact h.repliers
  case replyFits => exact h.replyFits
  case okHanded => exact h.okHanded
  case okOnce => exact h.okOnce
  case outcome =>
    intro c'
    simp only [setCall]
    by_cases e : c' = c
    · rw [e, Function.update_self]; trivial
    · rw [hcall c' e]; exact h.outcome c'

/-- Giving up on a taken request: the slot passes to the server's reply. -/
theorem Inv.abandon {s : Proto Rsp} (h : Inv s) {c i t : Nat}
    (hc : s.call c = .late i t) (hst : (s.slot i).state = .taken) :
    Inv ((s.setState i .abandoned).setCall c (.expired t)) := by
  have hfit := h.fits c
  rw [hc] at hfit
  obtain ⟨hidx, htok, -⟩ := hfit
  have hout := h.outcome c
  rw [hc] at hout
  have hcall : ∀ c', c' ≠ c → Function.update s.call c (.expired t) c' = s.call c' :=
    fun c' hne => Function.update_of_ne hne _ _
  have hslot : ∀ j, j ≠ i →
      Function.update s.slot i { s.slot i with state := .abandoned } j = s.slot j :=
    fun j hne => Function.update_of_ne hne _ _
  have hmine : ∀ c', c' ≠ c → (s.call c').slot? ≠ some i :=
    fun c' hne hi => hne (h.owners c' c i hi (by rw [hc]; rfl))
  have htok' : ∀ c', (Function.update s.call c (.expired t) c').token? =
      (s.call c').token? := by
    intro c'
    by_cases e : c' = c
    · rw [e, Function.update_self, hc]; rfl
    · rw [hcall c' e]
  constructor
  case drawn => exact fun c' u hu => h.drawn c' u (htok' c' ▸ hu)
  case tokens => exact fun c₁ c₂ u h₁ h₂ => h.tokens c₁ c₂ u (htok' c₁ ▸ h₁) (htok' c₂ ▸ h₂)
  case owners =>
    intro c₁ c₂ j h₁ h₂
    simp only [setCall, setState, setSlot] at h₁ h₂
    by_cases e₁ : c₁ = c
    · rw [e₁, Function.update_self] at h₁; cases h₁
    · by_cases e₂ : c₂ = c
      · rw [e₂, Function.update_self] at h₂; cases h₂
      · rw [hcall c₁ e₁] at h₁
        rw [hcall c₂ e₂] at h₂
        exact h.owners c₁ c₂ j h₁ h₂
  case fits =>
    intro c'
    simp only [setCall, setState, setSlot]
    by_cases e : c' = c
    · rw [e, Function.update_self]; trivial
    · rw [hcall c' e]
      refine (h.fits c').congr fun j hj => hslot j ?_
      rintro rfl
      exact hmine c' e hj
  case owned =>
    intro j hb
    simp only [setCall, setState, setSlot] at hb ⊢
    by_cases e : j = i
    · rw [e, Function.update_self] at hb; cases hb
    · rw [hslot j e] at hb
      obtain ⟨c', hc'⟩ := h.owned j hb
      have hne : c' ≠ c := by
        rintro rfl
        rw [hc] at hc'
        exact e (Option.some.inj hc').symm
      exact ⟨c', by rw [hcall c' hne]; exact hc'⟩
  case index =>
    intro j hp
    simp only [setCall, setState, setSlot] at hp ⊢
    by_cases e : j = i
    · rw [e, Function.update_self]
      exact h.index i (by rw [hst]; rfl)
    · rw [hslot j e] at hp ⊢
      exact h.index j hp
  case orphan =>
    intro j ha
    simp only [setCall, setState, setSlot] at ha ⊢
    by_cases e : j = i
    · rw [e, Function.update_self]
      exact ⟨c, by rw [Function.update_self, htok]⟩
    · rw [hslot j e] at ha ⊢
      obtain ⟨c', hc'⟩ := h.orphan j ha
      have hne : c' ≠ c := by
        rintro rfl
        rw [hc] at hc'
        cases hc'
      exact ⟨c', (hcall c' hne).trans hc'⟩
  case handed =>
    intro u hu
    obtain ⟨c', h₁, h₂⟩ := h.handed u hu
    refine ⟨c', (htok' c').trans h₁, ?_⟩
    simp only [setCall, setState, setSlot]
    by_cases e : c' = c
    · rw [e, Function.update_self]; rfl
    · rw [hcall c' e]; exact h₂
  case once =>
    intro u hu j hj
    simp only [setCall, setState, setSlot] at hj ⊢
    by_cases e : j = i
    · rw [e, Function.update_self]; exact CallSlotState.noConfusion
    · rw [hslot j e] at hj ⊢
      exact h.once u hu j hj
  case copies =>
    intro k j hk
    simp only [setCall, setState, setSlot] at hk ⊢
    by_cases e : j = i
    · subst e
      rw [Function.update_self]
      exact ⟨rfl, (h.copies k j hk).2⟩
    · rw [hslot j e]
      exact h.copies k j hk
  case copiers => exact h.copiers
  case replying => exact h.replying
  case repliers => exact h.repliers
  case replyFits =>
    -- a reply that holds the slot keeps it: taken or abandoned is all it needs
    intro r
    have hr := h.replyFits r
    simp only [setCall, setState, setSlot]
    cases hv : s.reply r <;> rw [hv] at hr
    case sawTaken u w | matched u w | wrote u w | sawAbandoned u w | reclaiming u w =>
      by_cases e : tokenIndex u = i
      · subst e
        simp_all [ReplyFits, CallSlotState.held]
      · simpa [ReplyFits, Function.update_of_ne e] using hr
    all_goals trivial
  case okHanded => exact h.okHanded
  case okOnce => exact h.okOnce
  case outcome =>
    intro c'
    simp only [setCall, setState, setSlot]
    by_cases e : c' = c
    · rw [e, Function.update_self]
      exact hout.2 (by rw [hst]; exact CallSlotState.noConfusion)
    · rw [hcall c' e]
      refine (h.outcome c').congr (fun j hj => hslot j ?_) (fun _ _ _ => Iff.rfl)
      rintro rfl
      exact hmine c' e hj

/-! ## Server threads -/

theorem Inv.accept {s : Proto Rsp} (h : Inv s) (k : Nat) {i : Nat}
    (hst : (s.slot i).state = .pending) :
    Inv { s.setState i .taken with
      copying := Function.update s.copying k (some i) } := by
  have hslot : ∀ j, j ≠ i →
      Function.update s.slot i { s.slot i with state := .taken } j = s.slot j :=
    fun j hne => Function.update_of_ne hne _ _
  have hnot : ∀ t ∈ s.taken, (s.slot i).tok ≠ t := fun t ht he => h.once t ht i he hst
  -- nobody was copying a pending slot
  have hno : ∀ k', s.copying k' ≠ some i := by
    intro k' hk'
    have := (h.copies k' i hk').1
    rw [hst] at this
    cases this
  have hcopy : ∀ k' j, Function.update s.copying k (some i) k' = some j →
      k' = k ∧ j = i ∨ s.copying k' = some j := by
    intro k' j hj
    by_cases e : k' = k
    · rw [e, Function.update_self] at hj
      exact .inl ⟨e, (Option.some.inj hj).symm⟩
    · rw [Function.update_of_ne e] at hj
      exact .inr hj
  constructor
  case drawn => exact h.drawn
  case tokens => exact h.tokens
  case owners => exact h.owners
  case fits =>
    intro c
    have hfit := h.fits c
    simp only [setState, setSlot]
    by_cases e : (s.call c).slot? = some i
    · cases hv : s.call c <;> rw [hv] at hfit e <;> simp [CallView.slot?] at e <;>
        subst e <;> simp_all [CallFits]
    · refine hfit.congr fun j hj => hslot j ?_
      rintro rfl
      exact e hj
  case owned =>
    intro j hb
    simp only [setState, setSlot] at hb
    by_cases e : j = i
    · exact h.owned j (by rw [e, hst]; rfl)
    · rw [hslot j e] at hb
      exact h.owned j hb
  case index =>
    intro j hp
    simp only [setState, setSlot] at hp ⊢
    by_cases e : j = i
    · rw [e, Function.update_self]
      exact h.index i (by rw [hst]; rfl)
    · rw [hslot j e] at hp ⊢
      exact h.index j hp
  case orphan =>
    intro j ha
    simp only [setState, setSlot] at ha ⊢
    by_cases e : j = i
    · rw [e, Function.update_self] at ha; cases ha
    · rw [hslot j e] at ha ⊢
      exact h.orphan j ha
  case handed => exact h.handed
  case once =>
    intro t ht j hj
    simp only [setState, setSlot] at hj ⊢
    by_cases e : j = i
    · rw [e, Function.update_self]; exact CallSlotState.noConfusion
    · rw [hslot j e] at hj ⊢
      exact h.once t ht j hj
  case copies =>
    intro k' j hj
    simp only [setState, setSlot] at hj ⊢
    rcases hcopy k' j hj with ⟨-, rfl⟩ | hold
    · rw [Function.update_self]
      exact ⟨rfl, fun hmem => hnot _ hmem rfl⟩
    · have hne : j ≠ i := by
        rintro rfl
        exact hno k' hold
      rw [hslot j hne]
      exact h.copies k' j hold
  case copiers =>
    intro k₁ k₂ j h₁ h₂
    rcases hcopy k₁ j h₁ with ⟨e₁, rfl⟩ | hold₁ <;>
      rcases hcopy k₂ j h₂ with ⟨e₂, he⟩ | hold₂
    · rw [e₁, e₂]
    · exact absurd hold₂ (hno k₂)
    · subst he; exact absurd hold₁ (hno k₁)
    · exact h.copiers k₁ k₂ j hold₁ hold₂
  case replying => exact h.replying
  case repliers => exact h.repliers
  case replyFits =>
    intro r
    refine (h.replyFits r).of_not_held (by rw [hst]; rfl) ?_
    exact fun t _ he => he
  case okHanded => exact h.okHanded
  case okOnce => exact h.okOnce
  case outcome =>
    intro c
    have hout := h.outcome c
    have hfit := h.fits c
    simp only [setState, setSlot]
    by_cases e : (s.call c).slot? = some i
    · cases hv : s.call c <;> rw [hv] at hfit hout e <;> simp [CallView.slot?] at e <;>
        subst e <;> simp_all [CallFits, Outcome]
    · refine hout.congr (fun j hj => hslot j ?_) (fun _ _ _ => Iff.rfl)
      rintro rfl
      exact e hj

theorem posted_of_held {st : CallSlotState} (h : st.held = true) : st.posted = true := by
  cases st <;> first | rfl | cases h

/-- Handing a request to the application: its token was posted by one call, is
under one slot only, and from here on will not be pending again. -/
theorem Inv.hand {s : Proto Rsp} (h : Inv s) {k i : Nat} (hk : s.copying k = some i) :
    Inv { s with
      copying := Function.update s.copying k none
      taken := s.taken ++ [(s.slot i).tok] } := by
  obtain ⟨hheld, hfresh⟩ := h.copies k i hk
  have hposted : (s.slot i).state.posted = true := posted_of_held hheld
  have hcopy : ∀ k' j, Function.update s.copying k none k' = some j →
      k' ≠ k ∧ s.copying k' = some j := by
    intro k' j hj
    by_cases e : k' = k
    · rw [e, Function.update_self] at hj; cases hj
    · rw [Function.update_of_ne e] at hj
      exact ⟨e, hj⟩
  -- a posted slot with this token is slot `i`
  have hsame : ∀ j, (s.slot j).state.posted = true → (s.slot j).tok = (s.slot i).tok →
      j = i := by
    intro j hp he
    rw [← h.index j hp, he, h.index i hposted]
  constructor
  case drawn => exact h.drawn
  case tokens => exact h.tokens
  case owners => exact h.owners
  case fits => exact h.fits
  case owned => exact h.owned
  case index => exact h.index
  case orphan => exact h.orphan
  case handed =>
    intro t ht
    rcases List.mem_append.mp ht with ht | ht
    · exact h.handed t ht
    · rw [List.mem_singleton.mp ht]
      exact h.posted_call hposted
  case once =>
    intro t ht j hj hp
    rcases List.mem_append.mp ht with ht | ht
    · exact h.once t ht j hj hp
    · have hj' := hsame j (by rw [hp]; rfl) (hj.trans (List.mem_singleton.mp ht))
      rw [hj'] at hp
      rw [hp] at hheld
      cases hheld
  case copies =>
    intro k' j hj
    obtain ⟨hne, hold⟩ := hcopy k' j hj
    obtain ⟨hh, hf⟩ := h.copies k' j hold
    refine ⟨hh, fun hmem => ?_⟩
    rcases List.mem_append.mp hmem with hmem | hmem
    · exact hf hmem
    · obtain rfl := hsame j (posted_of_held hh) (List.mem_singleton.mp hmem)
      exact hne (h.copiers k' k j hold hk)
  case copiers =>
    intro k₁ k₂ j h₁ h₂
    exact h.copiers k₁ k₂ j (hcopy k₁ j h₁).2 (hcopy k₂ j h₂).2
  case replying => exact fun r t ht => List.mem_append_left _ (h.replying r t ht)
  case repliers => exact h.repliers
  case replyFits => exact h.replyFits
  case okHanded => exact fun t v hv => List.mem_append_left _ (h.okHanded t v hv)
  case okOnce => exact h.okOnce
  case outcome => exact h.outcome

/-! ## Replies -/

theorem ok_of_setReply {reply : Nat → ReplyView Rsp} {r r' t : Nat} {v : ReplyView Rsp}
    {u : Rsp} (hnew : ∀ t u, v ≠ .ok t u) (h : Function.update reply r v r' = .ok t u) :
    reply r' = .ok t u := by
  by_cases e : r' = r
  · rw [e, Function.update_self] at h
    exact absurd h (hnew t u)
  · rwa [Function.update_of_ne e] at h

/-- A reply that was not accepted and is not being accepted changes nobody's
outcome. -/
theorem accepted_setReply {reply : Nat → ReplyView Rsp} {r : Nat} {v : ReplyView Rsp}
    (hold : ∀ t u, reply r ≠ .ok t u) (hnew : ∀ t u, v ≠ .ok t u) (t : Nat) (u : Rsp) :
    Accepted (Function.update reply r v) t u ↔ Accepted reply t u := by
  constructor
  · rintro ⟨r', hr'⟩
    exact ⟨r', ok_of_setReply hnew hr'⟩
  · rintro ⟨r', hr'⟩
    have e : r' ≠ r := by
      rintro rfl
      exact hold t u hr'
    exact ⟨r', by rw [Function.update_of_ne e]; exact hr'⟩

/-- Replies that only look, begin or give up. -/
theorem Inv.replyLook {s : Proto Rsp} (h : Inv s) {r : Nat} {v : ReplyView Rsp}
    (hold : ∀ t u, s.reply r ≠ .ok t u) (hnew : ∀ t u, v ≠ .ok t u)
    (htok : ∀ t, v.token? = some t →
      t ∈ s.taken ∧ ∀ r', r' ≠ r → (s.reply r').token? ≠ some t)
    (hfit : ReplyFits s.slot v) : Inv (s.setReply r v) := by
  have hrep : ∀ r', r' ≠ r → Function.update s.reply r v r' = s.reply r' :=
    fun r' hne => Function.update_of_ne hne _ _
  have hacc := accepted_setReply (r := r) hold hnew
  constructor
  case drawn => exact h.drawn
  case tokens => exact h.tokens
  case owners => exact h.owners
  case fits => exact h.fits
  case owned => exact h.owned
  case index => exact h.index
  case orphan => exact h.orphan
  case handed => exact h.handed
  case once => exact h.once
  case copies => exact h.copies
  case copiers => exact h.copiers
  case replying =>
    intro r' t ht
    simp only [setReply] at ht ⊢
    by_cases e : r' = r
    · rw [e, Function.update_self] at ht
      exact (htok t ht).1
    · rw [hrep r' e] at ht
      exact h.replying r' t ht
  case repliers =>
    intro r₁ r₂ t h₁ h₂
    simp only [setReply] at h₁ h₂
    by_cases e₁ : r₁ = r <;> by_cases e₂ : r₂ = r
    · rw [e₁, e₂]
    · rw [e₁, Function.update_self] at h₁
      rw [hrep r₂ e₂] at h₂
      exact absurd h₂ ((htok t h₁).2 r₂ e₂)
    · rw [e₂, Function.update_self] at h₂
      rw [hrep r₁ e₁] at h₁
      exact absurd h₁ ((htok t h₂).2 r₁ e₁)
    · rw [hrep r₁ e₁] at h₁
      rw [hrep r₂ e₂] at h₂
      exact h.repliers r₁ r₂ t h₁ h₂
  case replyFits =>
    intro r'
    simp only [setReply]
    by_cases e : r' = r
    · rw [e, Function.update_self]; exact hfit
    · rw [hrep r' e]; exact h.replyFits r'
  case okHanded => exact fun t u hu => h.okHanded t u ((hacc t u).mp hu)
  case okOnce =>
    exact fun r₁ r₂ t u₁ u₂ h₁ h₂ =>
      h.okOnce r₁ r₂ t u₁ u₂ (ok_of_setReply hnew h₁) (ok_of_setReply hnew h₂)
  case outcome => exact fun c => (h.outcome c).congr (fun _ _ => rfl) (fun t _ u => hacc t u)

/-- A reply that has matched its token against the slot, touching it. Nobody is
copying the slot, since its token has been handed out, and no other reply can
match it. -/
theorem Inv.answer {s : Proto Rsp} (h : Inv s) {r t : Nat} {core : Core Rsp}
    {v : ReplyView Rsp} (hr : (s.reply r).token? = some t)
    (htok : (s.slot (tokenIndex t)).tok = t)
    (hheld : (s.slot (tokenIndex t)).state.held = true) (hcore : core.tok = t)
    (hbusy : core.state.busy = true → (s.slot (tokenIndex t)).state.busy = true)
    (habs : core.state = .abandoned → (s.slot (tokenIndex t)).state = .abandoned)
    (hpend : core.state ≠ .pending)
    (hv : ∀ u, v.token? = some u → u = t)
    (hfit : ReplyFits (Function.update s.slot (tokenIndex t) core) v)
    (hmine : ∀ c, (s.call c).slot? = some (tokenIndex t) →
      CallFits (Function.update s.slot (tokenIndex t) core) (s.call c) ∧
      Outcome (Function.update s.slot (tokenIndex t) core)
        (Function.update s.reply r v) (s.call c))
    (hother : ∀ c, (s.call c).slot? ≠ some (tokenIndex t) →
      ∀ u, (s.call c).token? = some u →
        ∀ w, Accepted (Function.update s.reply r v) u w ↔ Accepted s.reply u w)
    (hok : ∀ u w, Accepted (Function.update s.reply r v) u w → u ∈ s.taken)
    (honce : ∀ r₁ r₂ u w₁ w₂, Function.update s.reply r v r₁ = .ok u w₁ →
      Function.update s.reply r v r₂ = .ok u w₂ → r₁ = r₂) :
    Inv ((s.setSlot (tokenIndex t) core).setReply r v) := by
  have hmem : t ∈ s.taken := h.replying r t hr
  have hslot : ∀ j, j ≠ tokenIndex t →
      Function.update s.slot (tokenIndex t) core j = s.slot j :=
    fun j hne => Function.update_of_ne hne _ _
  have hrep : ∀ r', r' ≠ r → Function.update s.reply r v r' = s.reply r' :=
    fun r' hne => Function.update_of_ne hne _ _
  have hrt : ∀ r' u, (Function.update s.reply r v r').token? = some u →
      (s.reply r').token? = some u := by
    intro r' u hu
    by_cases e : r' = r
    · rw [e, Function.update_self] at hu
      rw [e, hv u hu]
      exact hr
    · rwa [hrep r' e] at hu
  constructor
  case drawn => exact h.drawn
  case tokens => exact h.tokens
  case owners => exact h.owners
  case fits =>
    intro c
    simp only [setReply, setSlot]
    by_cases e : (s.call c).slot? = some (tokenIndex t)
    · exact (hmine c e).1
    · refine (h.fits c).congr fun j hj => hslot j ?_
      rintro rfl
      exact e hj
  case owned =>
    intro j hb
    simp only [setReply, setSlot] at hb
    by_cases e : j = tokenIndex t
    · rw [e, Function.update_self] at hb
      rw [e]
      exact h.owned _ (hbusy hb)
    · rw [hslot j e] at hb
      exact h.owned j hb
  case index =>
    intro j hp
    simp only [setReply, setSlot] at hp ⊢
    by_cases e : j = tokenIndex t
    · rw [e, Function.update_self, hcore]
    · rw [hslot j e] at hp ⊢
      exact h.index j hp
  case orphan =>
    intro j ha
    simp only [setReply, setSlot] at ha ⊢
    by_cases e : j = tokenIndex t
    · rw [e, Function.update_self] at ha ⊢
      rw [hcore, ← htok]
      exact h.orphan _ (habs ha)
    · rw [hslot j e] at ha ⊢
      exact h.orphan j ha
  case handed => exact h.handed
  case once =>
    intro u hu j hj
    simp only [setReply, setSlot] at hj ⊢
    by_cases e : j = tokenIndex t
    · rw [e, Function.update_self]; exact hpend
    · rw [hslot j e] at hj ⊢
      exact h.once u hu j hj
  case copies =>
    intro k j hk
    have hcp := h.copies k j hk
    have e : j ≠ tokenIndex t := by
      rintro rfl
      rw [htok] at hcp
      exact hcp.2 hmem
    simp only [setReply, setSlot]
    rw [hslot j e]
    exact hcp
  case copiers => exact h.copiers
  case replying => exact fun r' u hu => h.replying r' u (hrt r' u hu)
  case repliers => exact fun r₁ r₂ u h₁ h₂ => h.repliers r₁ r₂ u (hrt r₁ u h₁) (hrt r₂ u h₂)
  case replyFits =>
    -- another reply waits for another token, so its promise is about a
    -- mismatch, or it is at another slot
    intro r'
    simp only [setReply, setSlot]
    by_cases e : r' = r
    · rw [e, Function.update_self]; exact hfit
    · rw [hrep r' e]
      have hne : ∀ u, (s.reply r').token? = some u → u ≠ t := by
        rintro u hu rfl
        exact e (h.repliers r' r u hu hr)
      exact (h.replyFits r').of_other (hcore.trans htok.symm) (htok.symm ▸ hne)
  case okHanded => exact hok
  case okOnce => exact honce
  case outcome =>
    intro c
    simp only [setReply, setSlot]
    by_cases e : (s.call c).slot? = some (tokenIndex t)
    · exact (hmine c e).2
    · refine (h.outcome c).congr (fun j hj => hslot j ?_) (hother c e)
      rintro rfl
      exact e hj

end Xmmsg.Rpc
