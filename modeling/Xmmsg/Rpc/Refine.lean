import Xmmsg.Rpc.Moves

/-!
# The code's accesses are moves

`World.proto` forgets the envelope, the request value, the scans and the server
registration. Every step of the machine is then a move of the protocol or
changes nothing, provided the application keeps the one promise the protocol
asks for: it does not start a `Reply` for a request while another `Reply` for
the same request is still running.
-/

namespace Xmmsg.Rpc

open Xmmsg.Sys Proto

variable {Req Rsp : Type}

/-! ## Views -/

def CallPc.view : CallPc Rsp → CallView Rsp
  | .entry | .scan _ _ => .out
  | .draw i => .claimed i
  | .fillCorrelation i t => .drawn i t
  | .fillContext i t | .fillStamp i t | .fillOrigin i t _ | .fillHops i t | .fillFlags i t
  | .fillRequest i t | .post i t => .filling i t
  | .await i t | .unheard i t | .casPending i t => .waiting i t
  | .casTaken i t => .late i t
  | .readResponse i t _ => .reading i t
  | .release i t v => .leaving i t v
  | .done none _ => .failed
  | .done (some t) r => if r.status = .ok then .ok t r.value else .expired t

def callView : Option (CallEp Req Rsp) → CallView Rsp
  | none => .out
  | some c => c.pc.view

def TakePc.view : TakePc Req → Option Nat
  | .idle | .scan _ => none
  | .copyRequest i | .copyContext i _ | .copyStamp i _ _ | .copyCorrelation i _ _ _ => some i

def ReplyPc.view : ReplyPc Rsp → ReplyView Rsp
  | .idle => .idle
  | .load t v | .reload t v => .looking t v
  | .compare t v => .sawTaken t v
  | .write t v => .matched t v
  | .cas t v => .wrote t v
  | .recompare t v => .sawAbandoned t v
  | .reclaim t v => .reclaiming t v
  | .done t v .ok => .ok t v
  | .done t v .expired => .expired t v

def CallSlot.core (s : CallSlot Req Rsp) : Core Rsp := ⟨s.state, s.correlation, s.response⟩

def World.proto (w : World Req Rsp) : Proto Rsp where
  slot i := (w.topic.slots i).core
  next := w.topic.nextCorrelation
  call c := callView (w.calls c)
  copying k := (w.takes k).view
  taken := w.requests.map (·.correlation)
  reply r := (w.replies r).view

/-- No `Reply` is started for a request another `Reply` is working on. -/
def OneReplyEach (w : World Req Rsp) : Act Req Rsp → Prop
  | .newReply _ correlation _ => ∀ r, (w.replies r).view.token? ≠ some correlation
  | _ => True

/-! ## Updates seen through the views -/

def RpcTopic.cores (h : RpcTopic Req Rsp) : Nat → Core Rsp := fun i => (h.slots i).core

theorem cores_setSlot (h : RpcTopic Req Rsp) (i : Nat) (s : CallSlot Req Rsp) :
    (h.setSlot i s).cores = Function.update h.cores i s.core :=
  Function.comp_update CallSlot.core h.slots i s

/-- Filling in the envelope or the request is not seen. -/
theorem cores_setSlot_same {h : RpcTopic Req Rsp} {i : Nat} {s : CallSlot Req Rsp}
    (hs : s.core = (h.slots i).core) : (h.setSlot i s).cores = h.cores := by
  rw [cores_setSlot, hs]
  exact Function.update_eq_self i h.cores

theorem setCall_same {s : Proto Rsp} {c : Nat} {v : CallView Rsp} (h : s.call c = v) :
    s.setCall c v = s := by
  rw [setCall, ← h, Function.update_eq_self]

theorem proto_call (w : World Req Rsp) (h : RpcTopic Req Rsp) (c : Nat)
    (ep : CallEp Req Rsp) :
    World.proto { w with topic := h, calls := Function.update w.calls c (some ep) } =
      ({ w.proto with slot := h.cores, next := h.nextCorrelation } : Proto Rsp).setCall c
        ep.pc.view := by
  simp only [World.proto, setCall, Proto.mk.injEq, and_true, true_and]
  exact ⟨rfl, Function.comp_update callView w.calls c (some ep)⟩

theorem proto_reply (w : World Req Rsp) (h : RpcTopic Req Rsp) (r : Nat)
    (pc : ReplyPc Rsp) :
    World.proto { w with topic := h, replies := Function.update w.replies r pc } =
      ({ w.proto with slot := h.cores, next := h.nextCorrelation } : Proto Rsp).setReply r
        pc.view := by
  simp only [World.proto, setReply, Proto.mk.injEq, true_and]
  exact ⟨rfl, Function.comp_update ReplyPc.view w.replies r pc⟩

theorem proto_take (w : World Req Rsp) (h : RpcTopic Req Rsp) (k : Nat) (pc : TakePc Req)
    (q : List (Request Req)) :
    World.proto { w with
      topic := h
      takes := Function.update w.takes k pc
      requests := w.requests ++ q } =
      { w.proto with
        slot := h.cores
        next := h.nextCorrelation
        copying := Function.update w.proto.copying k pc.view
        taken := w.proto.taken ++ q.map (·.correlation) } := by
  simp only [World.proto, Proto.mk.injEq, List.map_append, and_true, true_and]
  exact ⟨rfl, Function.comp_update TakePc.view w.takes k pc⟩

/-! ## One access each -/

theorem call_move {rsp : Rsp} {w : World Req Rsp} {c : Nat} {ep ep' : CallEp Req Rsp}
    {a : CallAct} {h : RpcTopic Req Rsp} (hc : w.calls c = some ep)
    (hs : callStep rsp w.topic ep a = some (h, ep')) :
    Move w.proto (World.proto { w with
      topic := h, calls := Function.update w.calls c (some ep') }) ∨
    World.proto { w with
      topic := h, calls := Function.update w.calls c (some ep') } = w.proto := by
  have hv : w.proto.call c = ep.pc.view := by
    simp only [World.proto, hc, callView]
  rw [proto_call]
  -- the access changes nothing the protocol sees
  have hsame : h.cores = w.topic.cores → h.nextCorrelation = w.topic.nextCorrelation →
      ep'.pc.view = ep.pc.view →
      ({ w.proto with slot := h.cores, next := h.nextCorrelation } : Proto Rsp).setCall c
        ep'.pc.view = w.proto := by
    intro h1 h2 h3
    rw [h1, h2, h3]
    exact setCall_same hv
  cases a with
  | expire =>
      cases hpc : ep.pc with
      | scan waiting i =>
          rw [hpc] at hv
          cases waiting with
          | false => simp [callStep, hpc] at hs
          | true =>
              simp only [callStep, hpc] at hs
              split at hs
              · cases hs
              · cases hs
                exact .inl (.fail c hv)
      | unheard i t =>
          simp only [callStep, hpc] at hs
          cases hs
          exact .inr (hsame rfl rfl (by rw [hpc]; rfl))
      | _ => simp [callStep, hpc] at hs
  | go now =>
      cases hpc : ep.pc with
      | entry =>
          rw [hpc] at hv
          simp only [callStep, hpc] at hs
          split at hs
          · cases hs
            exact .inl (.fail c hv)
          · cases hs
            exact .inr (hsame rfl rfl (by rw [hpc]; rfl))
      | scan waiting i =>
          rw [hpc] at hv
          simp only [callStep, hpc] at hs
          split at hs
          · next hi =>
              split at hs
              · next hst =>
                  cases hs
                  rw [RpcTopic.setState, cores_setSlot]
                  exact .inl (.claim c i hi hv hst)
              · cases hs
                exact .inr (hsame rfl rfl (by rw [hpc]; rfl))
          · cases hs
            exact .inr (hsame rfl rfl (by rw [hpc]; rfl))
      | draw i =>
          rw [hpc] at hv
          simp only [callStep, hpc] at hs
          cases hs
          exact .inl (.draw c i hv)
      | fillCorrelation i t =>
          rw [hpc] at hv
          simp only [callStep, hpc] at hs
          cases hs
          rw [cores_setSlot]
          exact .inl (.sign c i t hv)
      | fillContext i t | fillStamp i t | fillOrigin i t n | fillHops i t | fillFlags i t
      | fillRequest i t =>
          simp only [callStep, hpc] at hs
          cases hs
          exact .inr (hsame (cores_setSlot_same rfl) rfl (by rw [hpc]; rfl))
      | post i t =>
          rw [hpc] at hv
          simp only [callStep, hpc] at hs
          cases hs
          rw [RpcTopic.setState, cores_setSlot]
          exact .inl (.post c i t hv)
      | await i t =>
          rw [hpc] at hv
          simp only [callStep, hpc] at hs
          split at hs
          · next hst =>
              cases hs
              exact .inl (.hear c i t hv hst)
          · cases hs
            exact .inr (hsame rfl rfl (by rw [hpc]; rfl))
      | unheard i t =>
          simp only [callStep, hpc] at hs
          cases hs
          exact .inr (hsame rfl rfl (by rw [hpc]; rfl))
      | casPending i t =>
          rw [hpc] at hv
          simp only [callStep, hpc] at hs
          split at hs
          · next hst =>
              cases hs
              rw [RpcTopic.setState, cores_setSlot]
              exact .inl (.revoke c i t hv hst)
          · next hst =>
              cases hs
              exact .inl (.miss c i t hv hst)
      | casTaken i t =>
          rw [hpc] at hv
          simp only [callStep, hpc] at hs
          split at hs
          · next hst =>
              cases hs
              rw [RpcTopic.setState, cores_setSlot]
              exact .inl (.abandon c i t hv hst)
          · next hst =>
              cases hs
              exact .inl (.overtake c i t hv hst)
      | readResponse i t late =>
          rw [hpc] at hv
          simp only [callStep, hpc] at hs
          cases hs
          exact .inl (.read c i t hv)
      | release i t v =>
          rw [hpc] at hv
          simp only [callStep, hpc] at hs
          cases hs
          rw [RpcTopic.setState, cores_setSlot]
          exact .inl (.leave c i t v hv)
      | done t r => simp [callStep, hpc] at hs

theorem take_move {w : World Req Rsp} {k : Nat} {h : RpcTopic Req Rsp} {pc : TakePc Req}
    {q : Option (Request Req)} (hs : takeStep w.topic (w.takes k) = (h, pc, q)) :
    Move w.proto (World.proto { w with
      topic := h
      takes := Function.update w.takes k pc
      requests := w.requests ++ q.toList }) ∨
    World.proto { w with
      topic := h
      takes := Function.update w.takes k pc
      requests := w.requests ++ q.toList } = w.proto := by
  have hv : w.proto.copying k = (w.takes k).view := rfl
  rw [proto_take]
  have hsame : pc.view = (w.takes k).view →
      ({ w.proto with
        slot := w.topic.cores
        next := w.topic.nextCorrelation
        copying := Function.update w.proto.copying k pc.view
        taken := w.proto.taken ++ [] } : Proto Rsp) = w.proto := by
    intro h1
    rw [h1, ← hv, Function.update_eq_self, List.append_nil]
    rfl
  cases hpc : w.takes k with
  | idle =>
      rw [hpc] at hs hsame
      cases hs
      exact .inr (hsame rfl)
  | scan i =>
      rw [hpc] at hs hsame hv
      simp only [takeStep] at hs
      split at hs
      · split at hs
        · next hst =>
            cases hs
            rw [RpcTopic.setState, cores_setSlot]
            simp only [Option.toList, List.map_nil, List.append_nil]
            exact .inl (.accept k i hv hst)
        · cases hs
          exact .inr (hsame rfl)
      · cases hs
        exact .inr (hsame rfl)
  | copyRequest i | copyContext i v | copyStamp i v ctx =>
      rw [hpc] at hs hsame
      cases hs
      exact .inr (hsame rfl)
  | copyCorrelation i v ctx stamp =>
      rw [hpc] at hs hv
      cases hs
      exact .inl (.hand k i hv)

theorem reply_move {w : World Req Rsp} {r : Nat} {h : RpcTopic Req Rsp} {pc : ReplyPc Rsp}
    (hs : replyStep w.topic (w.replies r) = some (h, pc)) :
    Move w.proto (World.proto { w with
      topic := h, replies := Function.update w.replies r pc }) := by
  have hv : w.proto.reply r = (w.replies r).view := rfl
  rw [proto_reply]
  cases hpc : w.replies r with
  | idle => rw [hpc] at hs; cases hs
  | load t v =>
      rw [hpc] at hs hv
      simp only [replyStep] at hs
      split at hs
      · next hst =>
          cases hs
          exact .see r t v hv hst
      · cases hs
        exact .relook r t v (.inl hv)
  | compare t v =>
      rw [hpc] at hs hv
      simp only [replyStep] at hs
      split at hs
      · next htok =>
          cases hs
          exact .agree r t v hv htok
      · cases hs
        exact .relook r t v (.inr (.inl hv))
  | write t v =>
      rw [hpc] at hs hv
      cases hs
      rw [cores_setSlot]
      exact .write r t v hv
  | cas t v =>
      rw [hpc] at hs hv
      simp only [replyStep] at hs
      split at hs
      · next hst =>
          cases hs
          rw [RpcTopic.setState, cores_setSlot]
          exact .commit r t v hv hst
      · cases hs
        exact .relook r t v (.inr (.inr hv))
  | reload t v =>
      rw [hpc] at hs hv
      simp only [replyStep] at hs
      split at hs
      · next hst =>
          cases hs
          exact .seeAbandoned r t v hv hst
      · cases hs
        exact .giveUp r t v (.inl hv)
  | recompare t v =>
      rw [hpc] at hs hv
      simp only [replyStep] at hs
      split at hs
      · next htok =>
          cases hs
          exact .agreeAbandoned r t v hv htok
      · cases hs
        exact .giveUp r t v (.inr hv)
  | reclaim t v =>
      rw [hpc] at hs hv
      cases hs
      rw [RpcTopic.setState, cores_setSlot]
      exact .reclaim r t v hv
  | done t v st => rw [hpc] at hs; cases hs

/-- Every step is a move, or is not seen. -/
theorem step_move {rsp : Rsp} {w w' : World Req Rsp} {a : Act Req Rsp}
    (hok : OneReplyEach w a) (hs : w.step rsp a = some w') :
    Move w.proto w'.proto ∨ w'.proto = w.proto := by
  cases a with
  | addServer =>
      simp only [World.step] at hs
      split at hs
      · cases hs
      · cases hs; exact .inr rfl
  | removeServer =>
      simp only [World.step] at hs
      split at hs
      · cases hs; exact .inr rfl
      · cases hs
  | newCall c request context =>
      simp only [World.step] at hs
      split at hs
      · next hc =>
          cases hs
          have := proto_call w w.topic c ⟨request, context, .entry⟩
          refine .inr (this.trans (setCall_same ?_))
          simp only [World.proto, hc]
          rfl
      · cases hs
  | call c b =>
      simp only [World.step] at hs
      split at hs
      · cases hs
      · next ep hc =>
          split at hs
          · cases hs
          · next h ep' hst =>
              cases hs
              exact call_move hc hst
  | take k =>
      cases hs
      exact take_move rfl
  | newReply r t v =>
      simp only [World.step] at hs
      split at hs
      · next hr =>
          have hv : w.proto.reply r = .idle := by
            simp only [World.proto, hr]
            rfl
          split at hs
          · cases hs
            have := proto_reply w w.topic r (.done t v .expired)
            exact .inl (this.symm ▸ .refuse r t v hv)
          · split at hs
            · next hmem =>
                cases hs
                have := proto_reply w w.topic r (.load t v)
                refine .inl (this.symm ▸ .begin r t v hv ?_ hok)
                obtain ⟨q, hq, he⟩ := List.any_eq_true.mp hmem
                exact List.mem_map.mpr ⟨q, hq, eq_of_beq he⟩
            · cases hs
      · cases hs
  | reply r =>
      simp only [World.step] at hs
      split at hs
      · cases hs
      · next h pc hst =>
          cases hs
          exact .inl (reply_move hst)

end Xmmsg.Rpc
