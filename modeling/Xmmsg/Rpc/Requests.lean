import Xmmsg.Rpc.Custody

/-!
# What a server is handed

The request, its context and its stamp are plain memory. What protects them is the
order of the state transitions: a call writes them while the slot is claimed and
nobody else looks, and a server thread copies them out, field by field, while the
slot is taken or abandoned and no call can claim it. A call may give up while the
copy is being made; it leaves the slot abandoned, and only the reply to the copied
request frees it.

The run is recorded by the stamp each call wrote and by the calls whose deadline
CAS took a pending request back.
-/

namespace Xmmsg.Rpc

open Xmmsg.Sys Proto

variable {Req Rsp : Type}

structure Posted where
  stamp : Nat → Option Int := fun _ => none
  revoked : List Nat := []

def notePosted (w : World Req Rsp) (a : Act Req Rsp) (_ : World Req Rsp) (st : Posted) : Posted :=
  match a with
  | .call c (.go now) =>
      match w.calls c with
      | none => st
      | some ep =>
          match ep.pc with
          | .fillStamp _ _ => { st with stamp := Function.update st.stamp c (some now) }
          | .casPending i _ =>
              if (w.topic.slots i).state = .pending then { st with revoked := st.revoked ++ [c] }
              else st
          | _ => st
  | _ => st

/-- The machine with what its calls posted. -/
def recorded (req : Req) (rsp : Rsp) : Machine (World Req Rsp × Posted) (Act Req Rsp) :=
  (machine req rsp).withHistory {} notePosted

/-! ## What the fields of a slot are -/

/-- The plain fields a server copies. -/
def CallSlot.fields (s : CallSlot Req Rsp) : Nat × Envelope × Req :=
  (s.correlation, s.envelope, s.request)

/-- Some call with this token, whose request is out, has posted exactly this. -/
def Carries (w : World Req Rsp) (st : Posted) (tok : Nat) (v : Req) (ctx : Nat) (stamp : Int) :
    Prop :=
  ∃ c ep, w.calls c = some ep ∧ ep.pc.view.token? = some tok ∧ ep.pc.view.hidden = false ∧
    v = ep.request ∧ ctx = ep.context ∧ st.stamp c = some stamp

/-- How far a call has filled its slot. -/
def FillFits (h : RpcTopic Req Rsp) (stamp : Option Int) (ep : CallEp Req Rsp) : Prop :=
  match ep.pc with
  | .fillStamp i _ => (h.slots i).envelope.context = ep.context
  | .fillOrigin i _ _ | .fillHops i _ | .fillFlags i _ | .fillRequest i _ =>
      (h.slots i).envelope.context = ep.context ∧
        stamp = some (h.slots i).envelope.publishStampNs
  | .post i _ =>
      (h.slots i).envelope.context = ep.context ∧
        stamp = some (h.slots i).envelope.publishStampNs ∧ (h.slots i).request = ep.request
  | _ => True

/-- How far a server thread has copied its slot. -/
def CopyFits (h : RpcTopic Req Rsp) : TakePc Req → Prop
  | .copyContext i v => v = (h.slots i).request
  | .copyStamp i v ctx => v = (h.slots i).request ∧ ctx = (h.slots i).envelope.context
  | .copyCorrelation i v ctx stamp => v = (h.slots i).request ∧
      ctx = (h.slots i).envelope.context ∧ stamp = (h.slots i).envelope.publishStampNs
  | _ => True

structure ContentInv (w : World Req Rsp) (st : Posted) : Prop where
  fill : ∀ c ep, w.calls c = some ep → FillFits w.topic (st.stamp c) ep
  slots : ∀ i, (w.topic.slots i).state.posted = true →
    Carries w st (w.topic.slots i).correlation (w.topic.slots i).request
      (w.topic.slots i).envelope.context (w.topic.slots i).envelope.publishStampNs
  copies : ∀ k, CopyFits w.topic (w.takes k)
  handed : ∀ q ∈ w.requests, Carries w st q.correlation q.value q.context q.stamp

theorem CopyFits.congr {h h' : RpcTopic Req Rsp} {pc : TakePc Req}
    (hf : ∀ i, pc.view = some i → (h'.slots i).fields = (h.slots i).fields)
    (hc : CopyFits h pc) : CopyFits h' pc := by
  have hsame : ∀ i, pc.view = some i → (h'.slots i).request = (h.slots i).request ∧
      (h'.slots i).envelope = (h.slots i).envelope := by
    intro i hi
    have := hf i hi
    simp only [CallSlot.fields, Prod.mk.injEq] at this
    exact ⟨this.2.2, this.2.1⟩
  cases pc with
  | idle | scan | copyRequest => trivial
  | copyContext i v =>
      obtain ⟨h1, -⟩ := hsame i rfl
      simp only [CopyFits, h1] at hc ⊢
      exact hc
  | copyStamp i v ctx | copyCorrelation i v ctx stamp =>
      obtain ⟨h1, h2⟩ := hsame i rfl
      simp only [CopyFits, h1, h2] at hc ⊢
      exact hc

theorem FillFits.congr {h h' : RpcTopic Req Rsp} {stamp : Option Int} {ep : CallEp Req Rsp}
    (hf : ∀ i, ep.pc.view.slot? = some i → (h'.slots i).fields = (h.slots i).fields)
    (hc : FillFits h stamp ep) : FillFits h' stamp ep := by
  have hsame : ∀ i, ep.pc.view.slot? = some i → (h'.slots i).request = (h.slots i).request ∧
      (h'.slots i).envelope = (h.slots i).envelope := by
    intro i hi
    have := hf i hi
    simp only [CallSlot.fields, Prod.mk.injEq] at this
    exact ⟨this.2.2, this.2.1⟩
  unfold FillFits at hc ⊢
  cases hpc : ep.pc <;> simp only [hpc] at hc ⊢
  case fillStamp i t | fillOrigin i t n | fillHops i t | fillFlags i t | fillRequest i t
      | post i t =>
    obtain ⟨h1, h2⟩ := hsame i (by rw [hpc]; rfl)
    simp only [h1, h2]
    exact hc

/-- An access of a call writes the fields of a slot it is filling, and of no other,
and claims free slots only. -/
theorem callStep_fields {rsp : Rsp} {h h' : RpcTopic Req Rsp} {ep ep' : CallEp Req Rsp}
    {a : CallAct} (hs : callStep rsp h ep a = some (h', ep')) (i : Nat) :
    ((h'.slots i).fields = (h.slots i).fields ∨
      ∃ t, ep.pc.view = .drawn i t ∨ ep.pc.view = .filling i t) ∧
    ((h'.slots i).state = .claimed → (h.slots i).state = .claimed ∨ (h.slots i).state = .free) := by
  have hput : ∀ (j : Nat) (s : CallSlot Req Rsp),
      (s.fields = (h.slots j).fields ∨ ∃ t, ep.pc.view = .drawn j t ∨ ep.pc.view = .filling j t) →
      (s.state = .claimed → (h.slots j).state = .claimed ∨ (h.slots j).state = .free) →
      (((h.setSlot j s).slots i).fields = (h.slots i).fields ∨
        ∃ t, ep.pc.view = .drawn i t ∨ ep.pc.view = .filling i t) ∧
      (((h.setSlot j s).slots i).state = .claimed →
        (h.slots i).state = .claimed ∨ (h.slots i).state = .free) := by
    intro j s h1 h2
    by_cases e : i = j
    · subst e
      simp only [RpcTopic.setSlot, Function.update_self]
      exact ⟨h1, h2⟩
    · simp only [RpcTopic.setSlot, Function.update_of_ne e]
      exact ⟨.inl trivial, .inl⟩
  have hsame : ((h.slots i).fields = (h.slots i).fields ∨
        ∃ t, ep.pc.view = .drawn i t ∨ ep.pc.view = .filling i t) ∧
      ((h.slots i).state = .claimed → (h.slots i).state = .claimed ∨ (h.slots i).state = .free) :=
    ⟨.inl rfl, .inl⟩
  cases a with
  | expire =>
      cases hpc : ep.pc <;> simp only [callStep, hpc] at hs
      all_goals
        repeat' split at hs
        all_goals cases hs
        all_goals exact hpc ▸ hsame
  | go now =>
      cases hpc : ep.pc <;> simp only [callStep, hpc] at hs <;> rw [hpc] at hput hsame
      case fillCorrelation j t =>
        cases hs
        exact hput j _ (.inr ⟨t, .inl rfl⟩) .inl
      case fillContext j t | fillStamp j t | fillOrigin j t n | fillHops j t | fillFlags j t
          | fillRequest j t =>
        cases hs
        exact hput j _ (.inr ⟨t, .inr rfl⟩) .inl
      case scan waiting j =>
        split at hs
        · split at hs <;> cases hs
          · next hst => exact hput j _ (.inl rfl) fun _ => .inr hst
          · exact hsame
        · cases hs
          exact hsame
      case post j t | release j t v =>
        cases hs
        exact hput j _ (.inl rfl) fun h0 => (by cases h0)
      case casPending j t | casTaken j t =>
        split at hs <;> cases hs
        · exact hput j _ (.inl rfl) fun h0 => (by cases h0)
        · exact hsame
      all_goals
        repeat' split at hs
        all_goals cases hs
        all_goals exact hsame

theorem notePosted_other {w w' : World Req Rsp} {a : Act Req Rsp} {st : Posted} {c c' : Nat}
    {b : CallAct} (ha : a = .call c b) (hne : c' ≠ c) :
    (notePosted w a w' st).stamp c' = st.stamp c' := by
  subst ha
  cases b with
  | go now =>
      simp only [notePosted]
      repeat' split
      all_goals first | rfl | simp [hne]
  | expire => rfl

/-- A call whose request is out keeps its token, its request and its stamp. -/
theorem callStep_out {rsp : Rsp} {h h' : RpcTopic Req Rsp} {ep ep' : CallEp Req Rsp}
    {a : CallAct} (hs : callStep rsp h ep a = some (h', ep')) :
    ep'.request = ep.request ∧ ep'.context = ep.context ∧
      ∀ t, ep.pc.view.token? = some t → ep.pc.view.hidden = false →
        ep'.pc.view.token? = some t ∧ ep'.pc.view.hidden = false := by
  cases a <;> cases hpc : ep.pc <;> simp only [callStep, hpc] at hs <;>
    (try split at hs) <;> (try split at hs) <;> cases hs <;>
    refine ⟨rfl, rfl, fun t ht hh => ?_⟩ <;>
    first
      | (cases ht; done)
      | (cases hh; done)
      | (cases ht; exact ⟨rfl, rfl⟩)

theorem Carries.call {rsp : Rsp} {w : World Req Rsp} {st : Posted} {tok : Nat} {v : Req}
    {ctx : Nat} {stamp : Int} {c : Nat} {a : CallAct} {ep ep' : CallEp Req Rsp}
    {h' : RpcTopic Req Rsp} (hc : w.calls c = some ep)
    (hs : callStep rsp w.topic ep a = some (h', ep')) (w' : World Req Rsp)
    (hw' : w'.calls = Function.update w.calls c (some ep'))
    (h : Carries w st tok v ctx stamp) :
    Carries w' (notePosted w (.call c a) w' st) tok v ctx stamp := by
  obtain ⟨c₀, ep₀, h1, h2, h3, h4, h5, h6⟩ := h
  by_cases e : c₀ = c
  · subst e
    rw [hc] at h1
    cases h1
    obtain ⟨k1, k2, k3⟩ := callStep_out hs
    obtain ⟨k4, k5⟩ := k3 tok h2 h3
    refine ⟨c₀, ep', by rw [hw', Function.update_self], k4, k5, k1 ▸ h4, k2 ▸ h5, ?_⟩
    -- it has written its stamp long ago
    rw [← h6]
    cases a with
    | expire => rfl
    | go now =>
        simp only [notePosted, hc]
        cases hpc : ep.pc <;> simp only []
        case fillStamp => rw [hpc] at h3; cases h3
        case casPending => split <;> rfl
  · refine ⟨c₀, ep₀, by rw [hw', Function.update_of_ne e]; exact h1, h2, h3, h4, h5, ?_⟩
    rw [notePosted_other rfl e]
    exact h6

/-- Only `post` shows a slot to the servers. -/
theorem callStep_posted {rsp : Rsp} {h h' : RpcTopic Req Rsp} {ep ep' : CallEp Req Rsp}
    {a : CallAct} (hs : callStep rsp h ep a = some (h', ep')) {i : Nat}
    (hp : (h'.slots i).state.posted = true) :
    (h.slots i).state.posted = true ∨
      ∃ t, ep.pc = .post i t ∧ ep' = ep.at' (.await i t) ∧ h' = h.setState i .pending := by
  have hput : ∀ (j : Nat) (s : CallSlot Req Rsp), s.state.posted = (h.slots j).state.posted ∨
      s.state.posted = false → ((h.setSlot j s).slots i).state.posted = true →
      (h.slots i).state.posted = true := by
    intro j s h1 h2
    by_cases e : i = j
    · subst e
      simp only [RpcTopic.setSlot, Function.update_self] at h2
      rcases h1 with h0 | h0
      · exact h0 ▸ h2
      · rw [h0] at h2; cases h2
    · simpa only [RpcTopic.setSlot, Function.update_of_ne e] using h2
  cases a with
  | expire =>
      cases hpc : ep.pc <;> simp only [callStep, hpc] at hs
      all_goals
        repeat' split at hs
        all_goals cases hs
        all_goals exact .inl hp
  | go now =>
      cases hpc : ep.pc <;> simp only [callStep, hpc] at hs
      case post j t =>
        cases hs
        by_cases e : i = j
        · subst e
          exact .inr ⟨t, rfl, rfl, rfl⟩
        · left
          simpa only [RpcTopic.setState, RpcTopic.setSlot, Function.update_of_ne e] using hp
      case casTaken j t =>
        split at hs <;> cases hs
        · next hst => exact .inl (hput j _ (.inl (by rw [hst]; rfl)) hp)
        · exact .inl hp
      case fillCorrelation j t | fillContext j t | fillStamp j t | fillOrigin j t n
          | fillHops j t | fillFlags j t | fillRequest j t =>
        cases hs
        refine .inl (hput j _ ?_ hp)
        exact .inl rfl
      case scan waiting j =>
        repeat' split at hs
        all_goals cases hs
        · exact .inl (hput j _ (.inr rfl) hp)
        · exact .inl hp
        · exact .inl hp
      case casPending j t =>
        split at hs <;> cases hs
        · exact .inl (hput j _ (.inr rfl) hp)
        · exact .inl hp
      case release j t v =>
        cases hs
        exact .inl (hput j _ (.inr rfl) hp)
      all_goals
        repeat' split at hs
        all_goals cases hs
        all_goals exact .inl hp

/-- A call's own slot, filled one field further. -/
theorem callStep_fill {rsp : Rsp} {w : World Req Rsp} {st : Posted} {c : Nat} {a : CallAct}
    {ep ep' : CallEp Req Rsp} {h' : RpcTopic Req Rsp} (hc : w.calls c = some ep)
    (hfit : FillFits w.topic (st.stamp c) ep)
    (hs : callStep rsp w.topic ep a = some (h', ep')) (w' : World Req Rsp) :
    FillFits h' ((notePosted w (.call c a) w' st).stamp c) ep' := by
  cases a with
  | expire =>
      cases hpc : ep.pc <;> simp only [callStep, hpc] at hs
      all_goals
        repeat' split at hs
        all_goals cases hs
        all_goals trivial
  | go now =>
      cases hpc : ep.pc <;> simp only [callStep, hpc] at hs <;>
        simp only [FillFits, hpc] at hfit <;> simp only [notePosted, hc, hpc]
      case fillContext i t | fillStamp i t | fillOrigin i t n | fillHops i t | fillFlags i t
          | fillRequest i t =>
        cases hs
        simp [FillFits, CallEp.at', RpcTopic.setSlot, hfit]
      all_goals
        repeat' split at hs
        all_goals cases hs
        all_goals trivial

theorem contentInv_call {rsp : Rsp} {w : World Req Rsp} {st : Posted} (hinv : Inv w.proto)
    (h : ContentInv w st) {c : Nat} {a : CallAct} {ep ep' : CallEp Req Rsp}
    {h' : RpcTopic Req Rsp} (hc : w.calls c = some ep)
    (hs : callStep rsp w.topic ep a = some (h', ep')) (w' : World Req Rsp)
    (hw' : w' = { w with topic := h', calls := Function.update w.calls c (some ep') }) :
    ContentInv w' (notePosted w (.call c a) w' st) := by
  have hcalls : w'.calls = Function.update w.calls c (some ep') := by rw [hw']
  have htopic : w'.topic = h' := by rw [hw']
  have hview : w.proto.call c = ep.pc.view := by simp only [World.proto, hc]; rfl
  -- a slot being filled is claimed
  have hclaimed : ∀ i t, ep.pc.view = .drawn i t ∨ ep.pc.view = .filling i t →
      (w.topic.slots i).state = .claimed := by
    intro i t ht
    have hfit := hinv.fits c
    rw [hview] at hfit
    rcases ht with h0 | h0 <;> rw [h0] at hfit
    · exact hfit.2
    · exact hfit.2.2
  refine ⟨fun x e hx => ?_, fun i hi => ?_, fun k => ?_, fun q hq => ?_⟩
  · rw [hcalls] at hx
    rw [htopic]
    by_cases hxc : x = c
    · subst hxc
      rw [Function.update_self] at hx
      cases hx
      exact callStep_fill hc (h.fill x ep hc) hs w'
    · rw [Function.update_of_ne hxc] at hx
      rw [notePosted_other rfl hxc]
      refine (h.fill x e hx).congr fun i hi => ?_
      rcases (callStep_fields hs i).1 with h0 | ⟨t, h0⟩
      · exact h0
      · -- the slot has one owner
        refine absurd (hinv.owners x c i ?_ ?_) hxc
        · simp only [World.proto, hx]
          exact hi
        · rw [hview]
          rcases h0 with h0 | h0 <;> rw [h0] <;> rfl
  · rw [htopic] at hi ⊢
    rcases callStep_posted hs hi with h0 | ⟨t, hpc, rfl, rfl⟩
    · have hsame : (h'.slots i).fields = (w.topic.slots i).fields := by
        rcases (callStep_fields hs i).1 with h1 | ⟨t, h1⟩
        · exact h1
        · rw [hclaimed i t h1] at h0
          cases h0
      simp only [CallSlot.fields, Prod.mk.injEq] at hsame
      rw [hsame.1, hsame.2.1, hsame.2.2]
      exact (h.slots i h0).call hc hs w' hcalls
    · have hfill := h.fill c ep hc
      simp only [FillFits, hpc] at hfill
      have htok : (w.topic.slots i).correlation = t := by
        have hfit := hinv.fits c
        rw [hview, hpc] at hfit
        exact hfit.2.1
      refine ⟨c, ep.at' (.await i t), by rw [hcalls, Function.update_self], ?_, rfl, ?_, ?_, ?_⟩
      · simp [RpcTopic.setState, RpcTopic.setSlot, htok, CallEp.at', CallPc.view, CallView.token?]
      · simp [RpcTopic.setState, RpcTopic.setSlot, hfill, CallEp.at']
      · simp [RpcTopic.setState, RpcTopic.setSlot, hfill, CallEp.at']
      · cases a with
        | expire => simp [callStep, hpc] at hs
        | go now =>
            simp only [notePosted, hc, hpc]
            simp [RpcTopic.setState, RpcTopic.setSlot, hfill]
  · rw [htopic, hw']
    refine (h.copies k).congr fun i hi => ?_
    rcases (callStep_fields hs i).1 with h0 | ⟨t, h0⟩
    · exact h0
    · have hheld := (hinv.copies k i hi).1
      rw [show (w.proto.slot i).state = (w.topic.slots i).state from rfl, hclaimed i t h0] at hheld
      cases hheld
  · rw [hw'] at hq
    exact (h.handed q hq).call hc hs w' hcalls

/-! ## Steps of the others -/

theorem Carries.frame {w w' : World Req Rsp} {st : Posted} {tok : Nat} {v : Req} {ctx : Nat}
    {stamp : Int} (hc : ∀ c ep, w.calls c = some ep → w'.calls c = some ep)
    (h : Carries w st tok v ctx stamp) : Carries w' st tok v ctx stamp := by
  obtain ⟨c, ep, h1, h2⟩ := h
  exact ⟨c, ep, hc c ep h1, h2⟩

/-- A step that makes no call move and leaves the fields of the slots alone. -/
theorem ContentInv.frame {w w' : World Req Rsp} {st : Posted} (h : ContentInv w st)
    (hcalls : w'.calls = w.calls)
    (hfields : ∀ i, (w'.topic.slots i).fields = (w.topic.slots i).fields)
    (hposted : ∀ i, (w'.topic.slots i).state.posted = true →
      (w.topic.slots i).state.posted = true)
    (hcopies : ∀ k, CopyFits w.topic (w'.takes k))
    (hhanded : ∀ q ∈ w'.requests, q ∈ w.requests ∨ Carries w st q.correlation q.value q.context
      q.stamp) : ContentInv w' st := by
  have hkeep : ∀ c ep, w.calls c = some ep → w'.calls c = some ep :=
    fun c ep hc => by rw [hcalls]; exact hc
  refine ⟨fun c ep hc => ?_, fun i hi => ?_, fun k => ?_, fun q hq => ?_⟩
  · exact (h.fill c ep (hcalls ▸ hc)).congr fun i _ => hfields i
  · have hf := hfields i
    simp only [CallSlot.fields, Prod.mk.injEq] at hf
    rw [hf.1, hf.2.1, hf.2.2]
    exact (h.slots i (hposted i hi)).frame hkeep
  · exact (hcopies k).congr fun i _ => hfields i
  · rcases hhanded q hq with h0 | h0
    · exact (h.handed q h0).frame hkeep
    · exact h0.frame hkeep

theorem setState_fields (h : RpcTopic Req Rsp) (i : Nat) (st : CallSlotState) (j : Nat) :
    ((h.setState i st).slots j).fields = (h.slots j).fields := by
  by_cases e : j = i
  · subst e
    simp [RpcTopic.setState, RpcTopic.setSlot, CallSlot.fields]
  · simp [RpcTopic.setState, RpcTopic.setSlot, e]

theorem setState_posted {h : RpcTopic Req Rsp} {i : Nat} {st : CallSlotState} {j : Nat}
    (hst : st.posted = true → (h.slots i).state.posted = true)
    (hj : ((h.setState i st).slots j).state.posted = true) :
    (h.slots j).state.posted = true := by
  by_cases e : j = i
  · subst e
    simp only [RpcTopic.setState, RpcTopic.setSlot, Function.update_self] at hj
    exact hst hj
  · simpa [RpcTopic.setState, RpcTopic.setSlot, e] using hj

theorem contentInv_take {w : World Req Rsp} {st : Posted} (hinv : Inv w.proto)
    (h : ContentInv w st) {k : Nat} {h' : RpcTopic Req Rsp} {pc : TakePc Req}
    {q : Option (Request Req)} (hs : takeStep w.topic (w.takes k) = (h', pc, q)) :
    ContentInv { w with
      topic := h'
      takes := Function.update w.takes k pc
      requests := w.requests ++ q.toList } st := by
  have hcopy := h.copies k
  have hothers : CopyFits w.topic pc → ∀ k',
      CopyFits w.topic (Function.update w.takes k pc k') := by
    intro hpc k'
    by_cases e : k' = k
    · subst e
      rw [Function.update_self]
      exact hpc
    · rw [Function.update_of_ne e]
      exact h.copies k'
  have hnone : ∀ x ∈ w.requests ++ (none : Option (Request Req)).toList, x ∈ w.requests ∨
      Carries w st x.correlation x.value x.context x.stamp := by
    intro x hx
    simp only [Option.toList_none, List.append_nil] at hx
    exact .inl hx
  cases hpc : w.takes k with
  | idle =>
      simp only [hpc, takeStep] at hs
      cases hs
      exact h.frame rfl (fun _ => rfl) (fun _ h0 => h0) (hothers trivial) hnone
  | scan i =>
      simp only [hpc, takeStep] at hs
      repeat' split at hs
      all_goals cases hs
      · next hst =>
          exact h.frame rfl (setState_fields _ _ _)
            (fun j hj => setState_posted (fun _ => by rw [hst]; rfl) hj) (hothers trivial) hnone
      · exact h.frame rfl (fun _ => rfl) (fun _ h0 => h0) (hothers trivial) hnone
      · exact h.frame rfl (fun _ => rfl) (fun _ h0 => h0) (hothers trivial) hnone
  | copyRequest i =>
      simp only [hpc, takeStep] at hs
      cases hs
      exact h.frame rfl (fun _ => rfl) (fun _ h0 => h0) (hothers rfl) hnone
  | copyContext i v =>
      rw [hpc] at hcopy
      simp only [hpc, takeStep] at hs
      cases hs
      exact h.frame rfl (fun _ => rfl) (fun _ h0 => h0) (hothers ⟨hcopy, rfl⟩) hnone
  | copyStamp i v ctx =>
      rw [hpc] at hcopy
      simp only [hpc, takeStep] at hs
      cases hs
      exact h.frame rfl (fun _ => rfl) (fun _ h0 => h0)
        (hothers ⟨hcopy.1, hcopy.2, rfl⟩) hnone
  | copyCorrelation i v ctx stamp =>
      rw [hpc] at hcopy
      simp only [hpc, takeStep] at hs
      cases hs
      refine h.frame rfl (fun _ => rfl) (fun _ h0 => h0) (hothers trivial) fun x hx => ?_
      simp only [Option.toList_some, List.mem_append, List.mem_singleton] at hx
      rcases hx with h0 | rfl
      · exact .inl h0
      · obtain ⟨h1, h2, h3⟩ := hcopy
        subst h1 h2 h3
        refine .inr (h.slots i ?_)
        have hheld := (hinv.copies k i (by simp only [World.proto, hpc]; rfl)).1
        rcases held_cases hheld with h0 | h0
        · rw [show (w.topic.slots i).state = .taken from h0]; rfl
        · rw [show (w.topic.slots i).state = .abandoned from h0]; rfl

theorem contentInv_reply {w : World Req Rsp} {st : Posted} (h : ContentInv w st) {r : Nat}
    {h' : RpcTopic Req Rsp} {pc pc' : ReplyPc Rsp} (hs : replyStep w.topic pc = some (h', pc')) :
    ContentInv { w with topic := h', replies := Function.update w.replies r pc' } st := by
  have hsame : ContentInv { w with replies := Function.update w.replies r pc' } st :=
    h.frame rfl (fun _ => rfl) (fun _ h0 => h0) h.copies (fun _ h0 => .inl h0)
  cases pc with
  | idle | done => cases hs
  | write t v =>
      simp only [replyStep] at hs
      cases hs
      refine h.frame rfl (fun j => ?_) (fun j hj => ?_) h.copies (fun _ h0 => .inl h0)
      · by_cases e : j = tokenIndex t
        · subst e
          simp [RpcTopic.setSlot, CallSlot.fields]
        · simp [RpcTopic.setSlot, e]
      · by_cases e : j = tokenIndex t
        · subst e
          simpa [RpcTopic.setSlot] using hj
        · simpa [RpcTopic.setSlot, e] using hj
  | cas t v =>
      simp only [replyStep] at hs
      split at hs <;> cases hs
      · next hst =>
          exact h.frame rfl (setState_fields _ _ _)
            (fun j hj => setState_posted (fun _ => by rw [hst]; rfl) hj) h.copies
            (fun _ h0 => .inl h0)
      · exact hsame
  | reclaim t v =>
      simp only [replyStep] at hs
      cases hs
      exact h.frame rfl (setState_fields _ _ _)
        (fun j hj => setState_posted (by intro h0; cases h0) hj) h.copies (fun _ h0 => .inl h0)
  | load t v | compare t v | reload t v | recompare t v =>
      simp only [replyStep] at hs
      split at hs <;> cases hs <;> exact hsame

theorem contentInv_step {rsp : Rsp} {w w' : World Req Rsp} {st : Posted} {a : Act Req Rsp}
    (hinv : Inv w.proto) (h : ContentInv w st) (hs : w.step rsp a = some w') :
    ContentInv w' (notePosted w a w' st) := by
  cases a with
  | call c b =>
      simp only [World.step] at hs
      split at hs
      · cases hs
      · next ep hc =>
          split at hs
          · cases hs
          · next h' ep' hst =>
              cases hs
              exact contentInv_call hinv h hc hst _ rfl
  | take k =>
      cases hs
      exact contentInv_take hinv h rfl
  | reply r =>
      simp only [World.step] at hs
      split at hs
      · cases hs
      · next hst =>
          cases hs
          exact contentInv_reply h hst
  | newCall c request context =>
      simp only [World.step] at hs
      split at hs
      · next hc =>
          cases hs
          have hkeep : ∀ x ep, w.calls x = some ep →
              Function.update w.calls c (some ⟨request, context, .entry⟩) x = some ep := by
            intro x ep hx
            have hne : x ≠ c := by
              rintro rfl
              rw [hc] at hx
              cases hx
            rw [Function.update_of_ne hne]
            exact hx
          refine ⟨fun x ep hx => ?_, fun i hi => (h.slots i hi).frame hkeep, h.copies,
            fun q hq => (h.handed q hq).frame hkeep⟩
          by_cases e : x = c
          · subst e
            simp only [Function.update_self, Option.some.injEq] at hx
            subst hx
            trivial
          · simp only [Function.update_of_ne e] at hx
            exact h.fill x ep hx
      · cases hs
  | addServer | removeServer | newReply =>
      simp only [World.step] at hs
      repeat' split at hs
      all_goals cases hs
      all_goals exact h.frame rfl (fun _ => rfl) (fun _ h0 => h0) h.copies (fun _ h0 => .inl h0)

/-! ## Requests taken back -/

/-- Token `t` was not handed out, and no slot shows it to the servers. -/
def Proto.Gone (s : Proto Rsp) (t : Nat) : Prop :=
  t ∉ s.taken ∧ ¬ ((s.slot (tokenIndex t)).tok = t ∧ (s.slot (tokenIndex t)).state.posted = true)

theorem expired_move {s s' : Proto Rsp} (hm : Move s s') {c t : Nat} (hc : s.call c = .expired t) :
    s'.call c = .expired t := by
  have hkeep : ∀ c' v u, s'.call = Function.update s.call c' v → s.call c' = u →
      (∀ t, u ≠ .expired t) → s'.call c = .expired t := by
    intro c' v u hs hu hne
    have hcc : c ≠ c' := by
      rintro rfl
      exact hne t (hu.symm.trans hc)
    rw [hs, Function.update_of_ne hcc]
    exact hc
  cases hm with
  | claim c' i _ hc' | draw c' i hc' | sign c' i u hc' | post c' i u hc' | hear c' i u hc'
  | revoke c' i u hc' | miss c' i u hc' | abandon c' i u hc' | overtake c' i u hc'
  | read c' i u hc' | leave c' i u v hc' | fail c' hc' =>
      exact hkeep c' _ _ rfl hc' fun _ h0 => (nomatch h0)
  | _ => exact hc

theorem gone_move {s s' : Proto Rsp} (h : Inv s) (hm : Move s s') {c t : Nat}
    (hc : s.call c = .expired t) (hg : s.Gone t) : s'.Gone t := by
  obtain ⟨hnot, hno⟩ := hg
  have hupd : ∀ i core, s'.slot = Function.update s.slot i core → s'.taken = s.taken →
      (i = tokenIndex t → core.tok = t → core.state.posted = true →
        (s.slot i).tok = t ∧ (s.slot i).state.posted = true) → s'.Gone t := by
    intro i core hs ht hi
    refine ⟨ht ▸ hnot, fun ⟨h1, h2⟩ => ?_⟩
    rw [hs] at h1 h2
    by_cases e : tokenIndex t = i
    · subst e
      rw [Function.update_self] at h1 h2
      exact hno (hi rfl h1 h2)
    · rw [Function.update_of_ne e] at h1 h2
      exact hno ⟨h1, h2⟩
  have hfit := h.fits
  cases hm with
  | claim c' i | revoke c' i | leave c' i | reclaim r u v =>
      exact hupd _ _ rfl rfl fun _ _ h0 => (nomatch h0)
  | sign c' i u hc' =>
      have := hfit c'
      rw [hc'] at this
      refine hupd _ _ rfl rfl fun _ _ h0 => ?_
      simp only [this.2] at h0
      cases h0
  | post c' i u hc' =>
      have := hfit c'
      rw [hc'] at this
      refine hupd _ _ rfl rfl fun _ h0 _ => ?_
      -- the token now shown is another call's
      have hu : u = t := this.2.1.symm.trans h0
      have hcc := h.tokens c' c t (by rw [hc', hu]; rfl) (by rw [hc]; rfl)
      rw [hcc, hc] at hc'
      cases hc'
  | abandon c' i u hc' hst =>
      exact hupd _ _ rfl rfl fun _ h0 _ => ⟨h0, by rw [hst]; rfl⟩
  | accept k i _ hst => exact hupd _ _ rfl rfl fun _ h0 _ => ⟨h0, by rw [hst]; rfl⟩
  | hand k i hk =>
      obtain ⟨hheld, -⟩ := h.copies k i hk
      have hpost : (s.slot i).state.posted = true := by
        rcases held_cases hheld with h0 | h0 <;> rw [h0] <;> rfl
      refine ⟨fun hmem => ?_, hno⟩
      rcases List.mem_append.mp hmem with h0 | h0
      · exact hnot h0
      · have ht := List.mem_singleton.mp h0
        have hidx := h.index i hpost
        rw [← ht] at hidx
        exact hno ⟨by rw [hidx]; exact ht.symm, by rw [hidx]; exact hpost⟩
  | write r u v => exact hupd _ _ rfl rfl fun _ h0 h1 => ⟨h0, h1⟩
  | commit r u v _ hst => exact hupd _ _ rfl rfl fun _ h0 _ => ⟨h0, by rw [hst]; rfl⟩
  | _ => exact ⟨hnot, hno⟩

/-- The calls on record as revoked have expired, their requests unseen. -/
def RevokedInv (w : World Req Rsp) (st : Posted) : Prop :=
  ∀ c ∈ st.revoked, ∃ t, w.proto.call c = .expired t ∧ w.proto.Gone t

theorem notePosted_revoked {w w' : World Req Rsp} {a : Act Req Rsp} {st : Posted} {c : Nat}
    (h : c ∈ (notePosted w a w' st).revoked) : c ∈ st.revoked ∨
      ∃ now ep i t, a = .call c (.go now) ∧ w.calls c = some ep ∧ ep.pc = .casPending i t ∧
        (w.topic.slots i).state = .pending := by
  cases a with
  | call x b =>
      cases b with
      | expire => exact .inl h
      | go now =>
          cases hx : w.calls x with
          | none => simp only [notePosted, hx] at h; exact .inl h
          | some ep =>
              cases hpc : ep.pc <;> simp only [notePosted, hx, hpc] at h
              case casPending i t =>
                split at h
                · next hst =>
                    rcases List.mem_append.mp h with h0 | h0
                    · exact .inl h0
                    · rw [List.mem_singleton.mp h0]
                      exact .inr ⟨now, ep, i, t, rfl, hx, hpc, hst⟩
                · exact .inl h
              all_goals exact .inl h
  | _ => exact .inl h

theorem revokedInv_step {rsp : Rsp} {w w' : World Req Rsp} {st : Posted} {a : Act Req Rsp}
    (hinv : Inv w.proto) (h : RevokedInv w st) (hok : OneReplyEach w a)
    (hs : w.step rsp a = some w') : RevokedInv w' (notePosted w a w' st) := by
  intro c hc
  rcases notePosted_revoked hc with h0 | ⟨now, ep, i, t, rfl, hcall, hpc, hst⟩
  · obtain ⟨t, h1, h2⟩ := h c h0
    rcases step_move hok hs with hm | he
    · exact ⟨t, expired_move hm h1, gone_move hinv hm h1 h2⟩
    · rw [he]
      exact ⟨t, h1, h2⟩
  · have hfit := hinv.fits c
    simp only [World.proto, hcall, callView, hpc] at hfit
    obtain ⟨hidx, htok, -⟩ := hfit
    simp only [World.step, hcall, callStep, hpc, hst] at hs
    cases hs
    refine ⟨t, ?_, fun hmem => ?_, fun hout => ?_⟩
    · simp [World.proto, callView, CallEp.at', CallPc.view]
    · -- what is pending has not been handed out
      exact hinv.once t hmem i htok hst
    · obtain ⟨-, h1⟩ := hout
      rw [hidx] at h1
      simp [World.proto, RpcTopic.setState, RpcTopic.setSlot, CallSlot.core,
        CallSlotState.posted] at h1

section Reached

variable {req : Req} {rsp : Rsp}

theorem requests_reached {q : World Req Rsp × Posted}
    (hq : (recorded req rsp).Reached (fun q a => OneReplyEach q.1 a) q)
    (hn : q.1.topic.nextCorrelation < 2 ^ 60) : ContentInv q.1 q.2 ∧ RevokedInv q.1 q.2 := by
  revert hn
  refine hq.invariant (P := fun q => q.1.topic.nextCorrelation < 2 ^ 60 →
    ContentInv q.1 q.2 ∧ RevokedInv q.1 q.2) ?_ ?_
  · rintro ⟨w, st⟩ ⟨rfl, rfl⟩ -
    exact ⟨⟨fun c ep h0 => (nomatch h0), fun i h0 => (nomatch h0), fun k => trivial,
      fun q h0 => (nomatch h0)⟩, fun c h0 => (nomatch h0)⟩
  · rintro ⟨w, st⟩ a ⟨w', st'⟩ hr ih hok hst hn
    obtain ⟨hs, hn'⟩ := Machine.withHistory_step hst
    simp only at hs hn' hok ih hn
    subst hn'
    have hlt : w.topic.nextCorrelation < 2 ^ 60 := by
      rcases step_move hok hs with hm | he
      · exact Nat.lt_of_le_of_lt (move_next_le hm) hn
      · have hnext : w'.topic.nextCorrelation = w.topic.nextCorrelation :=
          congrArg Proto.next he
        exact hnext ▸ hn
    obtain ⟨h1, h2⟩ := ih hlt
    have hinv : Inv w.proto := inv_reached (Machine.reached_fst hr) hlt
    exact ⟨contentInv_step hinv h1 hs, revokedInv_step hinv h2 hok hs⟩

end Reached

/-! ## The result -/

structure ServedOnce (rsp : Rsp) (w : World Req Rsp) (st : Posted) : Prop where
  /-- A request handed out is exactly one call's, field by field. -/
  own : ∀ q ∈ w.requests, ∃! c, ∃ ep, w.calls c = some ep ∧
    w.tokenOf c = some q.correlation ∧ q.value = ep.request ∧ q.context = ep.context ∧
    st.stamp c = some q.stamp
  once : ∀ (c m n : Nat) (q q' : Request Req), w.requests[m]? = some q → w.requests[n]? = some q' →
    w.tokenOf c = some q.correlation → w.tokenOf c = some q'.correlation → m = n
  revoked : ∀ c ∈ st.revoked, ∀ q ∈ w.requests, w.tokenOf c ≠ some q.correlation
  /-- Nor is the request of a call that came back without posting one. -/
  unposted : ∀ c ep res, w.calls c = some ep → ep.pc = .done none res →
    ∀ q ∈ w.requests, w.tokenOf c ≠ some q.correlation
  /-- While a server thread copies a slot no call claims it or writes to it. -/
  copying : ∀ k i, (w.takes k).view = some i → ∀ c a w', w.step rsp (.call c a) = some w' →
    (w'.topic.slots i).fields = (w.topic.slots i).fields ∧
      (w'.topic.slots i).state ≠ .claimed

/-- Requests are served at most once and never crossed. -/
theorem served_once {req : Req} {rsp : Rsp} {w : World Req Rsp} {st : Posted}
    (hw : (recorded req rsp).Reached (fun q a => OneReplyEach q.1 a) (w, st))
    (calls : Finset Nat) (hcalls : ∀ c, w.calls c ≠ none → c ∈ calls)
    (hn : calls.card < 2 ^ 60 - 1) : ServedOnce rsp w st := by
  have hw₀ : (machine req rsp).Reached OneReplyEach w := Machine.reached_fst hw
  have hlt : w.topic.nextCorrelation < 2 ^ 60 := by
    have := draws_le_calls hw₀ hcalls
    omega
  have hinv := inv_reached hw₀ hlt
  obtain ⟨hcont, hrev⟩ := requests_reached hw hlt
  have hnodup := (custody_reached hw₀ hlt).1.nodup
  have hmem : ∀ q ∈ w.requests, q.correlation ∈ w.proto.taken :=
    fun q hq => List.mem_map.mpr ⟨q, hq, rfl⟩
  refine ⟨fun q hq => ?_, fun c m n q q' hm hn' h1 h2 => ?_, fun c hc q hq h0 => ?_,
    fun c ep res hc hpc q hq h0 => ?_, fun k i hk c a w' hs => ?_⟩
  · obtain ⟨c, ep, h1, h2, -, h3, h4, h5⟩ := hcont.handed q hq
    have htok : w.tokenOf c = some q.correlation := by
      rw [World.tokenOf, h1]
      exact h2
    refine ⟨c, ⟨ep, h1, htok, h3, h4, h5⟩, fun c' hc' => ?_⟩
    obtain ⟨-, -, h6, -⟩ := hc'
    exact hinv.tokens c' c _ h6 htok
  · have heq : (w.requests.map (·.correlation))[m]? = (w.requests.map (·.correlation))[n]? := by
      rw [List.getElem?_map, List.getElem?_map, hm, hn']
      rw [h1] at h2
      simpa using h2
    have hlt' : m < (w.requests.map (·.correlation)).length := by
      simpa using (List.getElem?_eq_some_iff.mp hm).1
    exact (List.getElem?_inj hlt' hnodup).mp heq
  · obtain ⟨t, h1, h2, -⟩ := hrev c hc
    have htok : w.tokenOf c = some t := by
      rw [World.tokenOf, show callView (w.calls c) = .expired t from h1]
      rfl
    rw [htok] at h0
    cases h0
    exact h2 (hmem q hq)
  · rw [World.tokenOf, hc, callView, hpc] at h0
    cases h0
  · have hheld := (hinv.copies k i hk).1
    simp only [World.step] at hs
    split at hs
    · cases hs
    · next ep hc =>
        split at hs
        · cases hs
        · next h' ep' hst =>
            cases hs
            have hnot : (w.topic.slots i).state ≠ .claimed ∧ (w.topic.slots i).state ≠ .free := by
              rcases held_cases hheld with h0 | h0
              · rw [show (w.topic.slots i).state = .taken from h0]
                exact ⟨by decide, by decide⟩
              · rw [show (w.topic.slots i).state = .abandoned from h0]
                exact ⟨by decide, by decide⟩
            obtain ⟨hf, hcl⟩ := callStep_fields hst i
            refine ⟨hf.resolve_right fun hown => hnot.1 ?_, fun h0 => ?_⟩
            · obtain ⟨t, ht⟩ := hown
              have hfit := hinv.fits c
              simp only [World.proto, hc, callView] at hfit
              rcases ht with h1 | h1 <;> rw [h1] at hfit
              · exact hfit.2
              · exact hfit.2.2
            · rcases hcl h0 with h1 | h1
              · exact hnot.1 h1
              · exact hnot.2 h1

def recordedCheck (q : World Nat Nat × Posted) (a : Act Nat Nat) : Bool := replyCheck q.1 a

/-- A call of request 5 is revoked at its deadline; one of request 6, stamped 3, gets its
slot and is taken by a server thread. -/
def served : List (Act Nat Nat) :=
  [Act.addServer, Act.newCall 0 5 7] ++ List.replicate 11 (Act.call 0 (.go 1)) ++
    [Act.call 0 (.go 1), Act.call 0 .expire, Act.call 0 (.go 2), Act.newCall 1 6 8] ++
    List.replicate 11 (Act.call 1 (.go 3)) ++ List.replicate 6 (Act.take 0)

theorem served_once_taken : ∃ (w : World Nat Nat) (st : Posted),
    (recorded 0 0).Reached (fun q a => OneReplyEach q.1 a) (w, st) ∧
      w.requests.map (fun q => (q.value, q.context, q.stamp)) = [(6, 8, 3)] ∧
      w.requests.map (fun q => tokenIndex q.correlation) = [0] ∧ st.revoked = [0] ∧
      ServedOnce 0 w st := by
  have hrun : ((recorded 0 0).execOk recordedCheck served (quietTopic, {})).map
      (fun q => (q.1.requests.map (fun q => (q.value, q.context, q.stamp)),
        q.1.requests.map (fun q => tokenIndex q.correlation), q.2.revoked)) =
      some ([(6, 8, 3)], [0], [0]) := by rfl
  obtain ⟨⟨w, st⟩, hw, hf⟩ := Option.map_eq_some_iff.mp hrun
  simp only [Prod.mk.injEq] at hf
  have hsmall : Small quietTopic := ⟨fun c hc => absurd rfl hc, fun r hr => absurd rfl hr⟩
  have hkeep : ∀ (s : World Nat Nat × Posted) a t, Small s.1 → recordedCheck s a = true →
      (recorded 0 0).step s a = some t → Small t.1 :=
    fun _ _ _ h hck hs => small_step h hck (Machine.withHistory_step hs).1
  have hsound : ∀ (s : World Nat Nat × Posted) a, Small s.1 → recordedCheck s a = true →
      OneReplyEach s.1 a := fun _ _ h hck => replyCheck_sound h hck
  have hstart : (recorded 0 0).Reached (fun q a => OneReplyEach q.1 a) (quietTopic, {}) :=
    .start ⟨rfl, rfl⟩
  have hr := Machine.reached_of_execOk hsound hkeep hsmall hstart hw
  have hend : Small w := Machine.execOk_keeps hkeep hsmall hw
  exact ⟨w, st, hr, hf.1, hf.2.1, hf.2.2, served_once hr (Finset.range 2)
    (fun c hc => Finset.mem_range.mpr (hend.calls c hc)) (by decide)⟩

end Xmmsg.Rpc
