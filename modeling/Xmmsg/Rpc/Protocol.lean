import Xmmsg.Rpc.Steps
import Mathlib.Data.Nat.Bitwise
import Mathlib.Tactic.Common

/-!
# The reply protocol, without the bookkeeping

What makes replies agree is a conversation over three fields of a slot (state,
token, response) between calls, server threads and replies; the envelope, the
request value and the scans do not take part. `Proto` keeps only the
conversation: a call is out, filling a slot, waiting, late for its deadline,
reading, leaving or finished; a server thread is copying a slot or is not; a
reply is before, between or after its two looks at the slot. `Move` lists what
one party can do, and `Refine.lean` shows that every access of the code is a
move or changes nothing here.

The invariant is ownership plus tokens. A slot that is not free or abandoned has
exactly one call in progress, and from the moment the token is written the slot
carries that call's token; tokens are never drawn twice; a token once handed to
the application is never pending again. So a reply that found its own token
under `kTaken` holds the slot until it is done with it, and a reply with an old
token finds somebody else's.
-/

namespace Xmmsg.Rpc

/-- The part of a slot the protocol is about. -/
structure Core (Rsp : Type) where
  state : CallSlotState
  tok : Nat
  response : Rsp

/-- A call, as the others can tell. -/
inductive CallView (Rsp : Type) where
  | out                                     -- no slot yet
  | claimed (i : Nat)                       -- a slot, no token
  | drawn (i t : Nat)                       -- a token, not yet written
  | filling (i t : Nat)                     -- the slot carries the token
  | waiting (i t : Nat)                     -- posted
  | late (i t : Nat)                        -- found not pending after its deadline
  | reading (i t : Nat)
  | leaving (i t : Nat) (v : Rsp)
  | failed                                  -- came back without a token
  | expired (t : Nat)
  | ok (t : Nat) (v : Rsp)

inductive ReplyView (Rsp : Type) where
  | idle
  | looking (t : Nat) (v : Rsp)
  | sawTaken (t : Nat) (v : Rsp)
  | matched (t : Nat) (v : Rsp)
  | wrote (t : Nat) (v : Rsp)
  | sawAbandoned (t : Nat) (v : Rsp)
  | reclaiming (t : Nat) (v : Rsp)
  | expired (t : Nat) (v : Rsp)
  | ok (t : Nat) (v : Rsp)

structure Proto (Rsp : Type) where
  slot : Nat → Core Rsp
  next : Nat
  call : Nat → CallView Rsp
  copying : Nat → Option Nat
  taken : List Nat
  reply : Nat → ReplyView Rsp

/-- The slot a call in progress owns. -/
def CallView.slot? {Rsp : Type} : CallView Rsp → Option Nat
  | .claimed i | .drawn i _ | .filling i _ | .waiting i _ | .late i _ | .reading i _
  | .leaving i _ _ => some i
  | _ => none

/-- The token a call has drawn. -/
def CallView.token? {Rsp : Type} : CallView Rsp → Option Nat
  | .drawn _ t | .filling _ t | .waiting _ t | .late _ t | .reading _ t
  | .leaving _ t _ | .expired t | .ok t _ => some t
  | _ => none

/-- A call whose request is visible to nobody yet. -/
def CallView.hidden {Rsp : Type} : CallView Rsp → Bool
  | .drawn _ _ | .filling _ _ => true
  | _ => false

/-- The token of a reply in progress. -/
def ReplyView.token? {Rsp : Type} : ReplyView Rsp → Option Nat
  | .looking t _ | .sawTaken t _ | .matched t _ | .wrote t _ | .sawAbandoned t _
  | .reclaiming t _ => some t
  | _ => none

namespace Proto

variable {Rsp : Type}

def setSlot (s : Proto Rsp) (i : Nat) (c : Core Rsp) : Proto Rsp :=
  { s with slot := Function.update s.slot i c }

def setState (s : Proto Rsp) (i : Nat) (st : CallSlotState) : Proto Rsp :=
  s.setSlot i { s.slot i with state := st }

def setCall (s : Proto Rsp) (c : Nat) (v : CallView Rsp) : Proto Rsp :=
  { s with call := Function.update s.call c v }

def setReply (s : Proto Rsp) (r : Nat) (v : ReplyView Rsp) : Proto Rsp :=
  { s with reply := Function.update s.reply r v }

end Proto

open Proto

/-- What one party can do. The side condition of `begin` is the one thing asked
of the application: no two replies in progress for one request. -/
inductive Move {Rsp : Type} (s : Proto Rsp) : Proto Rsp → Prop
  -- calls
  | claim (c i : Nat) : i < kMaxInFlight → s.call c = .out →
      (s.slot i).state = .free → Move s ((s.setState i .claimed).setCall c (.claimed i))
  | draw (c i : Nat) : s.call c = .claimed i →
      Move s (({ s with next := s.next + 1 } : Proto Rsp).setCall c
        (.drawn i (token s.next i)))
  | sign (c i t : Nat) : s.call c = .drawn i t →
      Move s ((s.setSlot i { s.slot i with tok := t }).setCall c (.filling i t))
  | post (c i t : Nat) : s.call c = .filling i t →
      Move s ((s.setState i .pending).setCall c (.waiting i t))
  | hear (c i t : Nat) : s.call c = .waiting i t → (s.slot i).state = .replied →
      Move s (s.setCall c (.reading i t))
  | revoke (c i t : Nat) : s.call c = .waiting i t → (s.slot i).state = .pending →
      Move s ((s.setState i .free).setCall c (.expired t))
  | miss (c i t : Nat) : s.call c = .waiting i t → (s.slot i).state ≠ .pending →
      Move s (s.setCall c (.late i t))
  | abandon (c i t : Nat) : s.call c = .late i t → (s.slot i).state = .taken →
      Move s ((s.setState i .abandoned).setCall c (.expired t))
  | overtake (c i t : Nat) : s.call c = .late i t → (s.slot i).state ≠ .taken →
      Move s (s.setCall c (.reading i t))
  | read (c i t : Nat) : s.call c = .reading i t →
      Move s (s.setCall c (.leaving i t (s.slot i).response))
  | leave (c i t : Nat) (v : Rsp) : s.call c = .leaving i t v →
      Move s ((s.setState i .free).setCall c (.ok t v))
  | fail (c : Nat) : s.call c = .out → Move s (s.setCall c .failed)
  -- server threads
  | accept (k i : Nat) : s.copying k = none → (s.slot i).state = .pending →
      Move s { s.setState i .taken with copying := Function.update s.copying k (some i) }
  | hand (k i : Nat) : s.copying k = some i →
      Move s { s with
        copying := Function.update s.copying k none
        taken := s.taken ++ [(s.slot i).tok] }
  -- replies
  | begin (r t : Nat) (v : Rsp) : s.reply r = .idle → t ∈ s.taken →
      (∀ r', (s.reply r').token? ≠ some t) → Move s (s.setReply r (.looking t v))
  | refuse (r t : Nat) (v : Rsp) : s.reply r = .idle →
      Move s (s.setReply r (.expired t v))
  | see (r t : Nat) (v : Rsp) : s.reply r = .looking t v →
      (s.slot (tokenIndex t)).state = .taken → Move s (s.setReply r (.sawTaken t v))
  | agree (r t : Nat) (v : Rsp) : s.reply r = .sawTaken t v →
      (s.slot (tokenIndex t)).tok = t → Move s (s.setReply r (.matched t v))
  | write (r t : Nat) (v : Rsp) : s.reply r = .matched t v →
      Move s ((s.setSlot (tokenIndex t)
        { s.slot (tokenIndex t) with response := v }).setReply r (.wrote t v))
  | commit (r t : Nat) (v : Rsp) : s.reply r = .wrote t v →
      (s.slot (tokenIndex t)).state = .taken →
      Move s ((s.setState (tokenIndex t) .replied).setReply r (.ok t v))
  | relook (r t : Nat) (v : Rsp) :
      s.reply r = .looking t v ∨ s.reply r = .sawTaken t v ∨ s.reply r = .wrote t v →
      Move s (s.setReply r (.looking t v))
  | seeAbandoned (r t : Nat) (v : Rsp) : s.reply r = .looking t v →
      (s.slot (tokenIndex t)).state = .abandoned →
      Move s (s.setReply r (.sawAbandoned t v))
  | agreeAbandoned (r t : Nat) (v : Rsp) : s.reply r = .sawAbandoned t v →
      (s.slot (tokenIndex t)).tok = t → Move s (s.setReply r (.reclaiming t v))
  | reclaim (r t : Nat) (v : Rsp) : s.reply r = .reclaiming t v →
      Move s ((s.setState (tokenIndex t) .free).setReply r (.expired t v))
  | giveUp (r t : Nat) (v : Rsp) :
      s.reply r = .looking t v ∨ s.reply r = .sawAbandoned t v →
      Move s (s.setReply r (.expired t v))

/-! ## Tokens -/

theorem tokenIndex_eq_mod (t : Nat) : tokenIndex t = t % 16 := by
  have : (1 <<< kIndexBits - 1 : Nat) = 2 ^ 4 - 1 := by decide
  rw [tokenIndex, this, Nat.and_two_pow_sub_one_eq_mod]

theorem token_eq_add {n i : Nat} (hn : n < 2 ^ 60 - 1) (hi : i < kMaxInFlight) :
    token n i = (n + 1) * 16 + i := by
  have hi' : i < 2 ^ kIndexBits := Nat.lt_trans hi (by decide)
  have hshift : (n + 1) <<< kIndexBits = (n + 1) * 16 := by
    rw [Nat.shiftLeft_eq]; rfl
  have hlt : (n + 1) <<< kIndexBits < 2 ^ 64 := by
    rw [hshift]
    omega
  rw [token, Nat.mod_eq_of_lt hlt, ← Nat.shiftLeft_add_eq_or_of_lt hi', hshift]

theorem tokenIndex_token {n i : Nat} (hn : n < 2 ^ 60 - 1) (hi : i < kMaxInFlight) :
    tokenIndex (token n i) = i := by
  rw [tokenIndex_eq_mod, token_eq_add hn hi]
  have : i < 16 := Nat.lt_trans hi (by decide)
  omega

theorem token_inj {n n' i i' : Nat} (hn : n < 2 ^ 60 - 1) (hi : i < kMaxInFlight)
    (hn' : n' < 2 ^ 60 - 1) (hi' : i' < kMaxInFlight) (h : token n i = token n' i') :
    n = n' := by
  rw [token_eq_add hn hi, token_eq_add hn' hi'] at h
  have h1 : i < 16 := Nat.lt_trans hi (by decide)
  have h2 : i' < 16 := Nat.lt_trans hi' (by decide)
  omega

/-! ## The invariant -/

/-- Owned by a call in progress. -/
def CallSlotState.busy : CallSlotState → Bool
  | .claimed | .pending | .taken | .replied => true
  | _ => false

/-- Carrying a token somebody may still answer to. -/
def CallSlotState.posted : CallSlotState → Bool
  | .pending | .taken | .replied | .abandoned => true
  | _ => false

/-- In the server's hands. -/
def CallSlotState.held : CallSlotState → Bool
  | .taken | .abandoned => true
  | _ => false

variable {Rsp : Type}

/-- What a call in progress may rely on about its slot. -/
def CallFits (slot : Nat → Core Rsp) : CallView Rsp → Prop
  | .claimed i => i < kMaxInFlight ∧ (slot i).state = .claimed
  | .drawn i t => tokenIndex t = i ∧ (slot i).state = .claimed
  | .filling i t => tokenIndex t = i ∧ (slot i).tok = t ∧ (slot i).state = .claimed
  | .waiting i t => tokenIndex t = i ∧ (slot i).tok = t ∧
      ((slot i).state = .pending ∨ (slot i).state = .taken ∨ (slot i).state = .replied)
  | .late i t => tokenIndex t = i ∧ (slot i).tok = t ∧
      ((slot i).state = .taken ∨ (slot i).state = .replied)
  | .reading i t | .leaving i t _ =>
      tokenIndex t = i ∧ (slot i).tok = t ∧ (slot i).state = .replied
  | _ => True

/-- What a reply in progress may rely on. Before the token comparison it is
conditional: if the token turns out to be the reply's own, then the slot has been
the reply's since the look that saw `kTaken` or `kAbandoned`. -/
def ReplyFits (slot : Nat → Core Rsp) : ReplyView Rsp → Prop
  | .sawTaken t _ => (slot (tokenIndex t)).tok = t →
      (slot (tokenIndex t)).state.held = true
  | .matched t _ => (slot (tokenIndex t)).tok = t ∧
      (slot (tokenIndex t)).state.held = true
  | .wrote t v => (slot (tokenIndex t)).tok = t ∧
      (slot (tokenIndex t)).state.held = true ∧ (slot (tokenIndex t)).response = v
  | .sawAbandoned t _ => (slot (tokenIndex t)).tok = t →
      (slot (tokenIndex t)).state = .abandoned
  | .reclaiming t _ => (slot (tokenIndex t)).tok = t ∧
      (slot (tokenIndex t)).state = .abandoned
  | _ => True

/-- Some reply for token `t` was accepted, with response `v`. -/
def Accepted (reply : Nat → ReplyView Rsp) (t : Nat) (v : Rsp) : Prop :=
  ∃ r, reply r = .ok t v

/-- What a call's progress says about the replies made for it. -/
def Outcome (slot : Nat → Core Rsp) (reply : Nat → ReplyView Rsp) :
    CallView Rsp → Prop
  | .waiting i t | .late i t =>
      ((slot i).state = .replied → Accepted reply t (slot i).response) ∧
      ((slot i).state ≠ .replied → ∀ v, ¬ Accepted reply t v)
  | .reading i t => Accepted reply t (slot i).response
  | .leaving _ t v | .ok t v => Accepted reply t v
  | .expired t => ∀ v, ¬ Accepted reply t v
  | _ => True

structure Inv (s : Proto Rsp) : Prop where
  drawn : ∀ c t, (s.call c).token? = some t →
    ∃ n i, n < s.next ∧ i < kMaxInFlight ∧ t = token n i
  tokens : ∀ c c' t, (s.call c).token? = some t → (s.call c').token? = some t → c = c'
  owners : ∀ c c' i, (s.call c).slot? = some i → (s.call c').slot? = some i → c = c'
  fits : ∀ c, CallFits s.slot (s.call c)
  owned : ∀ i, (s.slot i).state.busy = true → ∃ c, (s.call c).slot? = some i
  index : ∀ i, (s.slot i).state.posted = true → tokenIndex (s.slot i).tok = i
  orphan : ∀ i, (s.slot i).state = .abandoned → ∃ c, s.call c = .expired (s.slot i).tok
  handed : ∀ t ∈ s.taken, ∃ c, (s.call c).token? = some t ∧ (s.call c).hidden = false
  once : ∀ t ∈ s.taken, ∀ i, (s.slot i).tok = t → (s.slot i).state ≠ .pending
  copies : ∀ k i, s.copying k = some i →
    (s.slot i).state.held = true ∧ (s.slot i).tok ∉ s.taken
  copiers : ∀ k k' i, s.copying k = some i → s.copying k' = some i → k = k'
  replying : ∀ r t, (s.reply r).token? = some t → t ∈ s.taken
  repliers : ∀ r r' t, (s.reply r).token? = some t → (s.reply r').token? = some t → r = r'
  replyFits : ∀ r, ReplyFits s.slot (s.reply r)
  okHanded : ∀ t v, Accepted s.reply t v → t ∈ s.taken
  okOnce : ∀ r r' t v v', s.reply r = .ok t v → s.reply r' = .ok t v' → r = r'
  outcome : ∀ c, Outcome s.slot s.reply (s.call c)

end Xmmsg.Rpc
