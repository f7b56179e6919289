import Xmmsg.Rpc.Refine
import Mathlib.Data.Finset.Card

/-!
# Reply agreement

What a client sees and what the server sees of one request agree, whatever the
interleaving and wherever the deadline falls: the call came back with a response
exactly if one `Reply` for it was accepted, and with that reply's response.

Tokens repeat after `2 ^ 60 - 1` draws, so the bound on the number of calls is
needed. It enters through `draws_le_calls`: a call draws at most once.
-/

namespace Xmmsg.Rpc

open Xmmsg.Sys Proto

variable {Req Rsp : Type}

/-! ## Counting draws -/

/-- As many calls as draws have a token. -/
def Counted (s : Proto Rsp) : Prop :=
  ∃ S : Finset Nat, S.card = s.next ∧ ∀ c ∈ S, (s.call c).token? ≠ none

theorem Counted.setCall {s : Proto Rsp} (h : Counted s) {c : Nat} {v : CallView Rsp}
    (hv : (s.call c).token? ≠ none → v.token? ≠ none) : Counted (s.setCall c v) := by
  obtain ⟨S, hcard, hS⟩ := h
  refine ⟨S, hcard, fun c' hc' => ?_⟩
  simp only [Proto.setCall]
  by_cases e : c' = c
  · rw [e, Function.update_self]
    exact hv (hS c (e ▸ hc'))
  · rw [Function.update_of_ne e]
    exact hS c' hc'

theorem counted_move {s s' : Proto Rsp} (h : Counted s) (hm : Move s s') : Counted s' := by
  cases hm with
  | draw c i hc =>
      obtain ⟨S, hcard, hS⟩ := h
      have hnew : c ∉ S := by
        intro hmem
        have := hS c hmem
        rw [hc] at this
        exact this rfl
      refine ⟨insert c S, by rw [Finset.card_insert_of_notMem hnew, hcard]; rfl, ?_⟩
      intro c' hc'
      simp only [setCall]
      by_cases e : c' = c
      · rw [e, Function.update_self]
        exact fun h0 => by cases h0
      · rw [Function.update_of_ne e]
        exact hS c' (Finset.mem_of_mem_insert_of_ne hc' e)
  | claim c i _ hc | fail c hc =>
      exact h.setCall fun h0 => absurd (by rw [hc]; rfl) h0
  | sign c i t hc | post c i t hc | hear c i t hc | revoke c i t hc | miss c i t hc
  | abandon c i t hc | overtake c i t hc | read c i t hc | leave c i t v hc =>
      exact h.setCall fun _ h0 => by cases h0
  | accept | hand | begin | refuse | see | agree | write | commit | relook | seeAbandoned
  | agreeAbandoned | reclaim | giveUp => exact h

section Reached

variable {req : Req} {rsp : Rsp} {w : World Req Rsp}

theorem counted_reached (hw : (machine req rsp).Reached OneReplyEach w) :
    Counted w.proto := by
  refine hw.invariant (P := fun w => Counted w.proto) ?_ ?_
  · rintro w rfl
    exact ⟨∅, rfl, fun c hc => absurd hc (Finset.notMem_empty c)⟩
  · intro w a w' _ h hok hs
    rcases step_move hok hs with hm | he
    · exact counted_move h hm
    · rw [he]; exact h

theorem draws_le_calls (hw : (machine req rsp).Reached OneReplyEach w) {calls : Finset Nat}
    (hcalls : ∀ c, w.calls c ≠ none → c ∈ calls) :
    w.topic.nextCorrelation ≤ calls.card := by
  obtain ⟨S, hcard, hS⟩ := counted_reached hw
  rw [show w.topic.nextCorrelation = S.card from hcard.symm]
  refine Finset.card_le_card fun c hc => hcalls c fun h0 => hS c hc ?_
  simp only [World.proto, h0]
  rfl

theorem move_next_le {s s' : Proto Rsp} (hm : Move s s') : s.next ≤ s'.next := by
  cases hm <;> simp [setCall, setReply, setState, setSlot]

theorem inv_fresh : Inv (World.proto
    ({ topic := { slots := fun _ => { request := req, response := rsp } } } :
      World Req Rsp)) := by
  constructor <;>
    simp [World.proto, callView, CallView.token?, CallView.slot?, CallFits, CallSlot.core,
      CallSlotState.busy, CallSlotState.posted, ReplyPc.view, ReplyView.token?, TakePc.view,
      ReplyFits, Accepted, Outcome]

theorem inv_reached (hw : (machine req rsp).Reached OneReplyEach w)
    (hn : w.topic.nextCorrelation < 2 ^ 60) : Inv w.proto := by
  revert hn
  refine hw.invariant (P := fun w => w.topic.nextCorrelation < 2 ^ 60 → Inv w.proto) ?_ ?_
  · rintro w rfl -
    exact inv_fresh
  · intro w a w' _ ih hok hs hn
    rcases step_move hok hs with hm | he
    · exact inv_move (ih (Nat.lt_of_le_of_lt (move_next_le hm) hn)) hn hm
    · have hnext : w'.topic.nextCorrelation = w.topic.nextCorrelation :=
        congrArg Proto.next he
      rw [he]
      exact ih (hnext ▸ hn)

/-- Only a call that drew a token comes back with a response. -/
theorem callStep_unposted {h h' : RpcTopic Req Rsp} {ep ep' : CallEp Req Rsp} {a : CallAct}
    {res : Result Rsp} (hs : callStep rsp h ep a = some (h', ep'))
    (hpc' : ep'.pc = .done none res) : res.status ≠ .ok := by
  cases a <;> cases hpc : ep.pc <;> simp only [callStep, hpc] at hs <;>
    (try split at hs) <;> (try split at hs) <;> cases hs <;>
    first
      | (simp [CallEp.at'] at hpc'; done)
      | (simp only [CallEp.at', CallPc.done.injEq, true_and] at hpc'
         subst hpc'
         exact CallStatus.noConfusion)

/-- What every access that ends a call establishes holds of every call that has
ended. -/
theorem result_reached {P : Option Nat → Result Rsp → Prop}
    (hP : ∀ (h h' : RpcTopic Req Rsp) (ep ep' : CallEp Req Rsp) a t res,
      callStep rsp h ep a = some (h', ep') → ep'.pc = .done t res → P t res)
    (hw : (machine req rsp).Reached OneReplyEach w) :
    ∀ c ep t res, w.calls c = some ep → ep.pc = .done t res → P t res := by
  refine hw.invariant (P := fun w => ∀ c ep t res, w.calls c = some ep →
    ep.pc = .done t res → P t res) ?_ ?_
  · rintro w rfl c ep t res hc
    cases hc
  · intro w a w' _ ih _ hs c ep t res hc hpc
    cases a with
    | newCall c' request context =>
        simp only [machine, World.step] at hs
        split at hs
        · cases hs
          simp only at hc
          by_cases e : c = c'
          · rw [e, Function.update_self] at hc
            cases hc
            cases hpc
          · rw [Function.update_of_ne e] at hc
            exact ih c ep t res hc hpc
        · cases hs
    | call c' b =>
        simp only [machine, World.step] at hs
        split at hs
        · cases hs
        · split at hs
          · cases hs
          · next hst =>
              cases hs
              simp only at hc
              by_cases e : c = c'
              · rw [e, Function.update_self] at hc
                cases hc
                exact hP _ _ _ _ _ _ _ hst hpc
              · rw [Function.update_of_ne e] at hc
                exact ih c ep t res hc hpc
    | _ =>
        have hcalls : w'.calls = w.calls := by
          simp only [machine, World.step] at hs
          repeat' split at hs
          all_goals cases hs
          all_goals rfl
        exact ih c ep t res (hcalls ▸ hc) hpc

theorem unposted_reached (hw : (machine req rsp).Reached OneReplyEach w) :
    ∀ c ep res, w.calls c = some ep → ep.pc = .done none res → res.status ≠ .ok := by
  have hall := result_reached (P := fun t res => t = none → res.status ≠ .ok)
    (fun _ _ _ _ _ _ _ hs hpc ht => callStep_unposted hs (ht ▸ hpc)) hw
  exact fun c ep res hc hpc => hall c ep none res hc hpc rfl

end Reached

/-! ## The result -/

/-- The token of the request a call has posted or is about to post. -/
def World.tokenOf (w : World Req Rsp) (c : Nat) : Option Nat := (callView (w.calls c)).token?

/-- Both ends agree on every request. -/
structure ReplyAgreement (w : World Req Rsp) : Prop where
  /-- A call that posted its request comes back with `v` exactly if exactly one
  reply to its token was accepted and carried `v`. -/
  posted : ∀ c ep t res, w.calls c = some ep → ep.pc = .done (some t) res → ∀ v,
    (res.status = .ok ∧ res.value = v) ↔
      (∃! r, ∃ u, w.replies r = .done t u .ok) ∧ ∃ r, w.replies r = .done t v .ok
  /-- A call that never posted a request does not come back with a response. -/
  unposted : ∀ c ep res, w.calls c = some ep → ep.pc = .done none res → res.status ≠ .ok
  /-- Beside an accepted reply every other reply to the same token is expired. -/
  others : ∀ r r' t v u st, r ≠ r' → w.replies r = .done t v .ok →
    w.replies r' = .done t u st → st = .expired
  /-- A request handed to the application is one call's own, and no other's, so a
  late reply speaks of no later call on the same slot. -/
  own : ∀ q ∈ w.requests, ∃! c, w.tokenOf c = some q.correlation
  /-- An accepted reply was made for a request handed out. -/
  made : ∀ r t v, w.replies r = .done t v .ok → ∃ q ∈ w.requests, q.correlation = t
  /-- The response is read under `kReplied` only, in the fall-through too. -/
  read : ∀ c ep i t late, w.calls c = some ep → ep.pc = .readResponse i t late →
    (w.topic.slots i).state = .replied

theorem reply_agreement {req : Req} {rsp : Rsp} {w : World Req Rsp}
    (hw : (machine req rsp).Reached OneReplyEach w) (calls : Finset Nat)
    (hcalls : ∀ c, w.calls c ≠ none → c ∈ calls) (hn : calls.card < 2 ^ 60 - 1) :
    ReplyAgreement w := by
  have hinv : Inv w.proto := by
    refine inv_reached hw ?_
    have := draws_le_calls hw hcalls
    omega
  have hok : ∀ r t v, w.replies r = .done t v .ok → w.proto.reply r = .ok t v := by
    intro r t v hr
    simp only [World.proto, hr]
    rfl
  have hacc : ∀ r t v, w.proto.reply r = .ok t v → w.replies r = .done t v .ok := by
    intro r t v hr
    simp only [World.proto] at hr
    cases hpc : w.replies r with
    | done t' v' st =>
        cases st with
        | ok => rw [hpc] at hr; cases hr; rfl
        | expired => rw [hpc] at hr; cases hr
    | _ => rw [hpc] at hr; cases hr
  constructor
  · intro c ep t res hc hpc v
    have hout := hinv.outcome c
    simp only [World.proto, hc, callView, hpc, CallPc.view] at hout
    constructor
    · rintro ⟨hst, rfl⟩
      rw [if_pos hst] at hout
      obtain ⟨r, hr⟩ := hout
      refine ⟨⟨r, ⟨_, hacc r t _ hr⟩, ?_⟩, r, hacc r t _ hr⟩
      rintro r' ⟨u, hu⟩
      exact hinv.okOnce r' r t u _ (hok r' t u hu) hr
    · rintro ⟨-, r, hr⟩
      split at hout
      · next hst =>
          obtain ⟨r', hr'⟩ := hout
          obtain rfl := hinv.okOnce r' r t _ v hr' (hok r t v hr)
          refine ⟨hst, ?_⟩
          have := (show w.proto.reply r' = _ from hr').symm.trans (hok r' t v hr)
          injection this
      · exact absurd ⟨r, hok r t v hr⟩ (hout v)
  · exact fun c ep res hc hpc => unposted_reached hw c ep res hc hpc
  · intro r r' t v u st hne hr hr'
    cases st with
    | expired => rfl
    | ok => exact absurd (hinv.okOnce r r' t v u (hok r t v hr) (hok r' t u hr')) hne
  · intro q hq
    obtain ⟨c, hc, -⟩ := hinv.handed q.correlation (List.mem_map.mpr ⟨q, hq, rfl⟩)
    exact ⟨c, hc, fun c' hc' => hinv.tokens c' c _ hc' hc⟩
  · intro r t v hr
    exact List.mem_map.mp (hinv.okHanded t v ⟨r, hok r t v hr⟩)
  · intro c ep i t late hc hpc
    have hfit := hinv.fits c
    simp only [World.proto, hc, callView, hpc] at hfit
    exact hfit.2.2

/-! ## A conversation

One call, answered; then the server answers the same request again. -/

def callGo (c n : Nat) : List (Act Nat Nat) := List.replicate n (.call c (.go 0))

def answered : List (Act Nat Nat) :=
  [Act.addServer, Act.newCall 0 5 0] ++ callGo 0 11 ++ List.replicate 6 (Act.take 0) ++
    Act.newReply 0 (token 0 0) 7 :: List.replicate 4 (Act.reply 0) ++ callGo 0 3 ++
    [Act.newReply 1 (token 0 0) 9, Act.reply 1, Act.reply 1]

def quietTopic : World Nat Nat :=
  { topic := { slots := fun _ => { request := 0, response := 0 } } }

/-- Enough of the discipline where there are two calls and two replies. -/
def replyCheck (w : World Nat Nat) : Act Nat Nat → Bool
  | .newReply r t _ => decide (r < 2) && decide ((w.replies 0).view.token? ≠ some t) &&
      decide ((w.replies 1).view.token? ≠ some t)
  | .newCall c _ _ => decide (c < 2)
  | _ => true

structure Small (w : World Nat Nat) : Prop where
  calls : ∀ c, w.calls c ≠ none → c < 2
  replies : ∀ r, w.replies r ≠ .idle → r < 2

theorem small_step {w w' : World Nat Nat} {a : Act Nat Nat} (h : Small w)
    (hck : replyCheck w a = true) (hs : w.step 0 a = some w') : Small w' := by
  have hcall : ∀ c ep, (w.calls c ≠ none ∨ c < 2) →
      ∀ c', Function.update w.calls c ep c' ≠ none → c' < 2 := by
    intro c ep hc c' h'
    by_cases e : c' = c
    · rw [e]
      exact hc.elim (h.calls c) id
    · rw [Function.update_of_ne e] at h'
      exact h.calls c' h'
  have hreply : ∀ r pc, (w.replies r ≠ .idle ∨ r < 2) →
      ∀ r', Function.update w.replies r pc r' ≠ .idle → r' < 2 := by
    intro r pc hr r' h'
    by_cases e : r' = r
    · rw [e]
      exact hr.elim (h.replies r) id
    · rw [Function.update_of_ne e] at h'
      exact h.replies r' h'
  cases a with
  | newCall c request context =>
      simp only [World.step] at hs
      split at hs
      · cases hs
        exact ⟨hcall c _ (.inr (of_decide_eq_true hck)), h.replies⟩
      · cases hs
  | call c b =>
      simp only [World.step] at hs
      split at hs
      · cases hs
      · next hc =>
          split at hs
          · cases hs
          · cases hs
            exact ⟨hcall c _ (.inl (by rw [hc]; exact Option.some_ne_none _)), h.replies⟩
  | newReply r t v =>
      have hr : r < 2 := by
        simp only [replyCheck, Bool.and_eq_true, decide_eq_true_eq] at hck
        exact hck.1.1
      simp only [World.step] at hs
      repeat' split at hs
      all_goals cases hs
      all_goals exact ⟨h.calls, hreply r _ (.inr hr)⟩
  | reply r =>
      simp only [World.step] at hs
      split at hs
      · cases hs
      · next hst =>
          cases hs
          refine ⟨h.calls, hreply r _ (.inl fun h0 => ?_)⟩
          rw [h0] at hst
          cases hst
  | _ =>
      simp only [World.step] at hs
      repeat' split at hs
      all_goals cases hs
      all_goals exact ⟨h.calls, h.replies⟩

theorem replyCheck_sound {w : World Nat Nat} {a : Act Nat Nat} (h : Small w)
    (hck : replyCheck w a = true) : OneReplyEach w a := by
  cases a with
  | newReply r t v =>
      simp only [replyCheck, Bool.and_eq_true, decide_eq_true_eq] at hck
      intro r'
      by_cases h' : w.replies r' = .idle
      · rw [h']
        exact fun h0 => nomatch h0
      · have hr' := h.replies r' h'
        obtain rfl | rfl : r' = 0 ∨ r' = 1 := by omega
        · exact hck.1.2
        · exact hck.2
  | _ => trivial

theorem reached_of_replyCheck {as : List (Act Nat Nat)} {w : World Nat Nat}
    (hw : (machine 0 0).execOk replyCheck as quietTopic = some w) :
    (machine 0 0).Reached OneReplyEach w ∧ Small w := by
  have hsmall : Small quietTopic :=
    ⟨fun c hc => absurd rfl hc, fun r hr => absurd rfl hr⟩
  have hkeep : ∀ (s : World Nat Nat) a t, Small s → replyCheck s a = true →
      (machine 0 0).step s a = some t → Small t :=
    fun _ _ _ h hck hs => small_step h hck hs
  have hsound : ∀ (s : World Nat Nat) a, Small s → replyCheck s a = true →
      OneReplyEach s a := fun _ _ h hck => replyCheck_sound h hck
  exact ⟨Machine.reached_of_execOk hsound hkeep hsmall (.start rfl) hw,
    Machine.execOk_keeps hkeep hsmall hw⟩

/-- The first reply is accepted, the second is not, and the call has come back
with the first. -/
theorem reply_agreement_answered : ∃ w : World Nat Nat,
    (machine 0 0).Reached OneReplyEach w ∧
      w.replies 0 = .done (token 0 0) 7 .ok ∧ w.replies 1 = .done (token 0 0) 9 .expired ∧
      (w.calls 0).map (·.pc) = some (.done (some (token 0 0)) ⟨.ok, 7⟩) ∧
      ReplyAgreement w := by
  have hrun : ((machine 0 0).execOk replyCheck answered quietTopic).map
      (fun w => (w.replies 0, w.replies 1, (w.calls 0).map (·.pc))) =
      some (.done (token 0 0) 7 .ok, .done (token 0 0) 9 .expired,
        some (.done (some (token 0 0)) ⟨.ok, 7⟩)) := by rfl
  obtain ⟨w, hw, hf⟩ := Option.map_eq_some_iff.mp hrun
  simp only [Prod.mk.injEq] at hf
  have hr := reached_of_replyCheck hw
  refine ⟨w, hr.1, hf.1, hf.2.1, hf.2.2,
    reply_agreement hr.1 (Finset.range 2) (fun c hc => ?_) (by decide)⟩
  exact Finset.mem_range.mpr (hr.2.calls c hc)

end Xmmsg.Rpc
