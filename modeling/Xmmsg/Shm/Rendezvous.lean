import Mathlib.Data.List.Nodup
import Xmmsg.Sys.Machine
import Xmmsg.Shm.Segment

/-!
# Rendezvous by name

`ShmMapping::OpenOrCreate` and `ShmTopicAttachment::Attach`, for any number of
callers of one segment name. The caller whose exclusive create succeeds sizes the
object, writes the identity fields one by one and publishes them all by one flag;
everyone else opens the object, polls its size and then the flag, and compares
each field with its own before using a byte of it.

A caller takes one system call or one memory access per step, so a peer meets
every partial header and every crash point. System calls may fail where the code
has a branch for it: the action says whether the call succeeds, and for the two
`shm_open` calls a failure is one the code has no retry for. Exclusive creation,
the size and the zero pages are the kernel's, and so are the object's identity
(the descriptor and the mapping follow the object, not the name) and the rule that
nobody but a failing creator unlinks.

`Trail` records beside the state what no word of it keeps: which callers were
given an object by the exclusive create, and which have counted a refusal on it.
-/

namespace Xmmsg.Shm

open Xmmsg.Sys

/-- `ShmAttachStatus`. -/
inductive ShmAttachStatus where
  | ok
  | typeMismatch
  | unavailable
  deriving DecidableEq, Repr

/-- The plain fields of `ShmSegmentHeader`, which only the creator writes. -/
inductive IdField where
  | magic
  | layoutVersion
  | envelopeVersion
  | schemaHash
  | payloadSize
  | payloadAlign
  | totalSize
  | maxSubscribers
  | ringCapacity
  | creatorHistoryKind
  | creatorQueueDepth
  deriving DecidableEq, Repr

/-- The creator's stores, in source order. -/
def headerFields : List IdField :=
  [.magic, .layoutVersion, .envelopeVersion, .schemaHash, .payloadSize, .payloadAlign,
    .totalSize, .maxSubscribers, .ringCapacity, .creatorHistoryKind, .creatorQueueDepth]

/-- The attacher's comparisons, in source order. -/
def gateFields : List IdField :=
  [.magic, .layoutVersion, .envelopeVersion, .schemaHash, .payloadSize, .payloadAlign,
    .totalSize, .maxSubscribers, .ringCapacity]

/-- The fields whose mismatch is a type mismatch; a mismatch of any other compared
field reports the segment as unavailable. -/
def IdField.typed : IdField → Bool
  | .schemaHash | .payloadSize | .payloadAlign => true
  | _ => false

def IdField.version : IdField → Bool
  | .magic | .layoutVersion | .envelopeVersion => true
  | _ => false

def kShmMagic : Nat := 0x31455347534D4D58
def kShmLayoutVersion : Nat := 3
def kShmEnvelopeVersion : Nat := 0

/-- `sizeof(ShmSegmentHeader)`. -/
def kHeaderBytes : Nat := 1032

/-- `kPolls`. -/
def kPolls : Nat := 2000

/-- The bound on `attempt`. -/
def kAttempts : Nat := 4

/-- What a caller passes: `schema_hash`, `sizeof(T)`, `alignof(T)`, `TotalBytes()`
and the parts of its QoS the header records; and its process id. -/
structure AttachArgs where
  schemaHash : Nat
  payloadSize : Nat
  payloadAlign : Nat
  totalSize : Nat
  historyKind : Nat
  queueDepth : Nat
  pid : Nat
  deriving DecidableEq, Repr

/-- The value a caller writes into a field as the creator, and the value it
compares the field with as an attacher. -/
def AttachArgs.field (a : AttachArgs) : IdField → Nat
  | .magic => kShmMagic
  | .layoutVersion => kShmLayoutVersion
  | .envelopeVersion => kShmEnvelopeVersion
  | .schemaHash => a.schemaHash
  | .payloadSize => a.payloadSize
  | .payloadAlign => a.payloadAlign
  | .totalSize => a.totalSize
  | .maxSubscribers => kShmMaxSubscribers
  | .ringCapacity => kShmRingCapacity
  | .creatorHistoryKind => a.historyKind
  | .creatorQueueDepth => a.queueDepth

/-- A shared-memory object: its size and the header words the rendezvous uses.
The defaults are the kernel's: size zero, pages that read as zero. -/
structure ShmObject where
  size : Nat := 0
  ident : IdField → Nat := fun _ => 0
  initState : Nat := 0
  refusalCount : UInt64 := 0
  refusedSchemaHash : Nat := 0
  refusedPayloadSize : Nat := 0
  refusedPid : Nat := 0

/-- The objects created so far and the one the name stands for. -/
structure ShmNamespace where
  objects : Nat → ShmObject := fun _ => {}
  created : Nat := 0
  name : Option Nat := none

/-- Replace one object. -/
def ShmNamespace.modify (k : ShmNamespace) (o : Nat) (f : ShmObject → ShmObject) :
    ShmNamespace :=
  { k with objects := Function.update k.objects o (f (k.objects o)) }

/-- Where a caller stands. The creator's half is `truncate` to `markReady`, the
attacher's `openName` to `mapAll`. -/
inductive OpenPc where
  | create (attempt : Nat)
  | truncate (o : Nat)
  | unlink
  | mapNew (o : Nat)
  | write (o : Nat) (rest : List IdField)
  | initPlane (o : Nat)
  | markReady (o : Nat)
  | openName (attempt : Nat)
  | sizePoll (o : Nat) (poll : Nat)
  | mapHead (o : Nat)
  | initPoll (o : Nat) (poll : Nat)
  | compare (o : Nat) (rest : List IdField)
  | refuseHash (o : Nat)
  | refuseSize (o : Nat)
  | refusePid (o : Nat)
  | refuseCount (o : Nat)
  | refuseExit (o : Nat)
  | mapAll (o : Nat)
  | done (status : ShmAttachStatus) (o : Option Nat) (created : Bool)
  deriving DecidableEq, Repr

/-- One system call or memory access of `Attach`. `ok` says whether a system call
succeeds; `EEXIST` and `ENOENT` are not failures in this sense, the namespace
decides them. -/
def attachStep (a : AttachArgs) (k : ShmNamespace) (ok : Bool) :
    OpenPc → Option (ShmNamespace × OpenPc)
  | .create attempt =>
      if attempt < kAttempts then
        match k.name with
        | none =>
            if ok then
              some ({ k with name := some k.created, created := k.created + 1 },
                .truncate k.created)
            else some (k, .done .unavailable none false)
        | some _ =>
            if ok then some (k, .openName attempt) else some (k, .done .unavailable none false)
      else some (k, .done .unavailable none false)
  | .truncate o =>
      if ok then some (k.modify o fun x => { x with size := a.totalSize }, .mapNew o)
      else some (k, .unlink)
  | .unlink => some ({ k with name := none }, .done .unavailable none false)
  | .mapNew o => if ok then some (k, .write o headerFields) else some (k, .unlink)
  | .write o (f :: rest) =>
      some (k.modify o fun x => { x with ident := Function.update x.ident f (a.field f) },
        .write o rest)
  | .write o [] => some (k, .initPlane o)
  | .initPlane o => some (k, .markReady o)
  | .markReady o => some (k.modify o fun x => { x with initState := 1 }, .done .ok (some o) true)
  | .openName attempt =>
      match k.name with
      | none => some (k, .create (attempt + 1))
      | some o =>
          if ok then some (k, .sizePoll o 0) else some (k, .done .unavailable none false)
  | .sizePoll o poll =>
      if poll < kPolls then
        if ok then
          if kHeaderBytes ≤ (k.objects o).size then some (k, .mapHead o)
          else some (k, .sizePoll o (poll + 1))
        else some (k, .done .unavailable (some o) false)
      else some (k, .done .unavailable (some o) false)
  | .mapHead o =>
      if ok then some (k, .initPoll o 0) else some (k, .done .unavailable (some o) false)
  | .initPoll o poll =>
      if poll < kPolls then
        if (k.objects o).initState = 1 then some (k, .compare o gateFields)
        else some (k, .initPoll o (poll + 1))
      else some (k, .done .unavailable (some o) false)
  | .compare o (f :: rest) =>
      if (k.objects o).ident f = a.field f then some (k, .compare o rest)
      else if f.typed then some (k, .refuseHash o)
      else some (k, .done .unavailable (some o) false)
  | .compare o [] => some (k, .mapAll o)
  | .refuseHash o =>
      some (k.modify o fun x => { x with refusedSchemaHash := a.schemaHash }, .refuseSize o)
  | .refuseSize o =>
      some (k.modify o fun x => { x with refusedPayloadSize := a.payloadSize }, .refusePid o)
  | .refusePid o =>
      some (k.modify o fun x => { x with refusedPid := a.pid }, .refuseCount o)
  | .refuseCount o =>
      some (k.modify o fun x => { x with refusalCount := x.refusalCount + 1 }, .refuseExit o)
  | .refuseExit o => some (k, .done .typeMismatch (some o) false)
  | .mapAll o =>
      if ok then some (k, .done .ok (some o) false)
      else some (k, .done .unavailable (some o) false)
  | .done _ _ _ => none

/-- One call of `Attach`. -/
structure Caller where
  args : AttachArgs
  pc : OpenPc := .create 0
  dead : Bool := false

structure Meeting where
  shm : ShmNamespace := {}
  callers : Nat → Caller

inductive MeetAct where
  | go (p : Nat) (ok : Bool)
  | die (p : Nat)
  deriving DecidableEq, Repr

def meetStep (w : Meeting) : MeetAct → Option Meeting
  | .go p ok =>
      if (w.callers p).dead then none
      else
        match attachStep (w.callers p).args w.shm ok (w.callers p).pc with
        | none => none
        | some (k, pc) =>
            some { shm := k, callers := Function.update w.callers p { w.callers p with pc := pc } }
  | .die p =>
      some { w with callers := Function.update w.callers p { w.callers p with dead := true } }

/-- Any callers with any arguments, the name free. -/
def meeting : Machine Meeting MeetAct where
  start w := w.shm = {} ∧ ∀ p, (w.callers p).pc = .create 0
  step := meetStep

/-- Per object: the callers the exclusive create gave it to, and the callers that
added to its `refusal_count`. -/
structure Trail where
  creators : Nat → List Nat := fun _ => []
  refusals : Nat → List Nat := fun _ => []

def trailNote (w : Meeting) (a : MeetAct) (w' : Meeting) (t : Trail) : Trail :=
  match a with
  | .die _ => t
  | .go p _ =>
      -- `truncate o` is entered by the exclusive create alone
      { creators := fun o =>
          if (w'.callers p).pc = .truncate o then p :: t.creators o else t.creators o
        refusals := fun o =>
          if (w.callers p).pc = .refuseCount o then p :: t.refusals o else t.refusals o }

def trailed : Machine (Meeting × Trail) MeetAct :=
  meeting.withHistory {} trailNote

/-! ## What one step of a caller does -/

/-- The object a caller created and has not given up. -/
def OpenPc.makes : OpenPc → Option Nat
  | .truncate o | .mapNew o | .write o _ | .initPlane o | .markReady o
  | .done .ok (some o) true => some o
  | _ => none

/-- The identity fields the creator has still to write. -/
def OpenPc.unwritten : OpenPc → List IdField
  | .truncate _ | .mapNew _ => headerFields
  | .write _ rest => rest
  | _ => []

/-- The object an attacher found ready, and the comparisons it has still to make. -/
def OpenPc.compares : OpenPc → Option (Nat × List IdField)
  | .compare o rest => some (o, rest)
  | .mapAll o | .done .ok (some o) false => some (o, [])
  | _ => none

/-- The object on which a caller has counted a refusal. -/
def OpenPc.refused : OpenPc → Option Nat
  | .refuseExit o | .done .typeMismatch (some o) _ => some o
  | _ => none

variable {a : AttachArgs} {k k' : ShmNamespace} {ok : Bool} {pc pc' : OpenPc}

@[simp] theorem modify_created (k : ShmNamespace) (o : Nat) (f : ShmObject → ShmObject) :
    (k.modify o f).created = k.created := rfl

theorem modify_objects (k : ShmNamespace) (o : Nat) (f : ShmObject → ShmObject) (x : Nat) :
    (k.modify o f).objects x = if x = o then f (k.objects o) else k.objects x := by
  unfold ShmNamespace.modify
  by_cases hx : x = o
  · subst hx
    simp
  · simp [hx]

/-- What a step does to an object: a creator writes one identity field, or marks the
object ready, or a refused attacher counts; and nothing else touches the identity,
the flag or the count. -/
theorem attachStep_object (h : attachStep a k ok pc = some (k', pc')) (o : Nat) :
    ((k'.objects o).ident = (k.objects o).ident ∧
        (k'.objects o).initState = (k.objects o).initState ∧
        (k'.objects o).refusalCount = (k.objects o).refusalCount ∧ pc ≠ .refuseCount o) ∨
      (∃ f rest, pc = .write o (f :: rest) ∧ pc' = .write o rest ∧
        (k'.objects o) = { k.objects o with
          ident := Function.update (k.objects o).ident f (a.field f) }) ∨
      (pc = .markReady o ∧ pc' = .done .ok (some o) true ∧
        (k'.objects o) = { k.objects o with initState := 1 }) ∨
      (pc = .refuseCount o ∧ pc' = .refuseExit o ∧
        (k'.objects o) = { k.objects o with
          refusalCount := (k.objects o).refusalCount + 1 }) := by
  cases pc with
  | write x rest =>
      cases rest with
      | nil =>
          cases h
          exact .inl ⟨rfl, rfl, rfl, by simp⟩
      | cons f rest =>
          cases h
          rw [modify_objects]
          split
          · next hx =>
              subst hx
              exact .inr (.inl ⟨f, rest, rfl, rfl, rfl⟩)
          · exact .inl ⟨rfl, rfl, rfl, by simp⟩
  | markReady x =>
      cases h
      rw [modify_objects]
      split
      · next hx =>
          subst hx
          exact .inr (.inr (.inl ⟨rfl, rfl, rfl⟩))
      · exact .inl ⟨rfl, rfl, rfl, by simp⟩
  | refuseCount x =>
      cases h
      rw [modify_objects]
      split
      · next hx =>
          subst hx
          exact .inr (.inr (.inr ⟨rfl, rfl, rfl⟩))
      · next hx => exact .inl ⟨rfl, rfl, rfl, fun h0 => hx (by cases h0; rfl)⟩
  | compare x rest =>
      left
      cases rest <;> simp only [attachStep] at h <;> (repeat' split at h) <;> cases h <;> simp
  | truncate x | refuseHash x | refuseSize x | refusePid x =>
      left
      simp only [attachStep] at h
      (repeat' split at h) <;> cases h <;> first | (rw [modify_objects]; split <;> simp_all) | simp
  | _ =>
      left
      simp only [attachStep] at h
      (repeat' split at h) <;> cases h <;> simp

/-- Who comes to own an object: the winner of the exclusive create, who gets a new
one, and otherwise only its owner, with fewer fields left to write. -/
theorem attachStep_makes (h : attachStep a k ok pc = some (k', pc')) {o : Nat}
    (hm : pc'.makes = some o) :
    ((∃ n, pc = .create n) ∧ pc' = .truncate o ∧ o = k.created ∧ k'.created = o + 1 ∧
        k'.objects = k.objects) ∨
      (pc.makes = some o ∧ pc' ≠ .truncate o ∧
        ∀ f, f ∉ pc'.unwritten → f ∉ pc.unwritten ∨ (k'.objects o).ident f = a.field f) := by
  cases pc with
  | create n =>
      left
      simp only [attachStep] at h
      (repeat' split at h) <;> cases h <;> cases hm
      exact ⟨⟨n, rfl⟩, rfl, rfl, rfl, rfl⟩
  | write x rest =>
      right
      cases rest with
      | nil =>
          cases h
          exact ⟨hm, by simp, fun f hf => .inl hf⟩
      | cons f rest =>
          cases h
          cases hm
          refine ⟨rfl, by simp, fun g hg => ?_⟩
          by_cases hgf : g = f
          · subst hgf
            right
            simp [modify_objects]
          · left
            simp only [OpenPc.unwritten] at hg ⊢
            simp [hgf, hg]
  | compare x rest =>
      cases rest <;> simp only [attachStep] at h <;> (repeat' split at h) <;> cases h <;> cases hm
  | _ =>
      right
      simp only [attachStep] at h
      (repeat' split at h) <;> cases h <;> cases hm <;>
        exact ⟨rfl, by simp, fun f hf => .inl hf⟩

theorem attachStep_created (h : attachStep a k ok pc = some (k', pc')) :
    k'.created = k.created ∨
      (k'.created = k.created + 1 ∧ (∃ n, pc = .create n) ∧ pc' = .truncate k.created) := by
  cases pc with
  | create n =>
      simp only [attachStep] at h
      (repeat' split at h) <;> cases h <;> first | exact .inl rfl | exact .inr ⟨rfl, ⟨n, rfl⟩, rfl⟩
  | write x rest | compare x rest =>
      left
      cases rest <;> simp only [attachStep] at h <;> (repeat' split at h) <;> cases h <;> rfl
  | _ =>
      left
      simp only [attachStep] at h
      (repeat' split at h) <;> cases h <;> rfl

/-- Who is comparing: an attacher that read the flag set and starts with all the
fields, or one whose last comparison agreed. -/
theorem attachStep_compares (h : attachStep a k ok pc = some (k', pc')) {o : Nat}
    {rest : List IdField} (hc : pc'.compares = some (o, rest)) :
    ((k.objects o).initState = 1 ∧ rest = gateFields) ∨
      pc.compares = some (o, rest) ∨
      ∃ f, pc.compares = some (o, f :: rest) ∧ (k.objects o).ident f = a.field f := by
  cases pc with
  | initPoll x n =>
      left
      simp only [attachStep] at h
      (repeat' split at h) <;> cases h <;> cases hc
      next hready => exact ⟨hready, rfl⟩
  | compare x fs =>
      right
      cases fs with
      | nil =>
          cases h
          exact .inl hc
      | cons f fs =>
          simp only [attachStep] at h
          (repeat' split at h) <;> cases h <;> cases hc
          next heq => exact .inr ⟨f, rfl, heq⟩
  | write x fs =>
      cases fs <;> cases h <;> cases hc
  | _ =>
      right
      left
      simp only [attachStep] at h
      (repeat' split at h) <;> cases h <;> first | exact hc | cases hc

theorem attachStep_refused (h : attachStep a k ok pc = some (k', pc')) (o : Nat) :
    pc'.refused = some o ↔ pc.refused = some o ∨ pc = .refuseCount o := by
  cases pc with
  | write x rest | compare x rest =>
      cases rest <;> simp only [attachStep] at h <;> (repeat' split at h) <;> cases h <;>
        simp [OpenPc.refused]
  | _ =>
      simp only [attachStep] at h
      (repeat' split at h) <;> cases h <;> simp [OpenPc.refused]

/-! ## The invariant -/

/-- What holds at every point of every run, crash points included. -/
structure MeetInv (w : Meeting) (t : Trail) : Prop where
  fresh : ∀ o, w.shm.created ≤ o → t.creators o = [] ∧ (w.shm.objects o).initState = 0
  sole : ∀ o, (t.creators o).length ≤ 1
  makes : ∀ p o, (w.callers p).pc.makes = some o → t.creators o = [p]
  written : ∀ p o, (w.callers p).pc.makes = some o → ∀ f, f ∉ (w.callers p).pc.unwritten →
    (w.shm.objects o).ident f = (w.callers p).args.field f
  ready : ∀ o, (w.shm.objects o).initState = 1 →
    ∃ p, (w.callers p).pc = .done .ok (some o) true
  compares : ∀ p o rest, (w.callers p).pc.compares = some (o, rest) →
    (w.shm.objects o).initState = 1 ∧ ∃ checked, gateFields = checked ++ rest ∧
      ∀ f ∈ checked, (w.shm.objects o).ident f = (w.callers p).args.field f
  counted : ∀ o, (w.shm.objects o).refusalCount = UInt64.ofNat (t.refusals o).length
  nodup : ∀ o, (t.refusals o).Nodup
  refusers : ∀ o p, p ∈ t.refusals o ↔ (w.callers p).pc.refused = some o

variable {w w' : Meeting} {t : Trail} {p : Nat}

/-- A step of the machine is a caller's step, or a death, which changes no program
counter. -/
theorem meetStep_cases {act : MeetAct} (h : meetStep w act = some w') :
    (∃ p, act = .die p ∧ w'.shm = w.shm ∧
        ∀ q, (w'.callers q).pc = (w.callers q).pc ∧ (w'.callers q).args = (w.callers q).args) ∨
      ∃ p ok pc', act = .go p ok ∧ (w.callers p).dead = false ∧
        attachStep (w.callers p).args w.shm ok (w.callers p).pc = some (w'.shm, pc') ∧
        w'.callers = Function.update w.callers p { w.callers p with pc := pc' } := by
  cases act with
  | die p =>
      cases h
      refine .inl ⟨p, rfl, rfl, fun q => ?_⟩
      by_cases hq : q = p
      · subst hq
        simp
      · simp [hq]
  | go p ok =>
      simp only [meetStep] at h
      split at h
      · cases h
      · next hd =>
          split at h
          · cases h
          · next k pc' hs =>
              cases h
              exact .inr ⟨p, ok, pc', rfl, by simpa using hd, hs, rfl⟩

/-- The state after a step of caller `p`. -/
structure Stepped (w w' : Meeting) (p : Nat) (ok : Bool) : Prop where
  step : attachStep (w.callers p).args w.shm ok (w.callers p).pc =
    some (w'.shm, (w'.callers p).pc)
  args : (w'.callers p).args = (w.callers p).args
  other : ∀ q, q ≠ p → w'.callers q = w.callers q

theorem stepped_of_meetStep (h : meetStep w (.go p ok) = some w') :
    (w.callers p).dead = false ∧ Stepped w w' p ok := by
  rcases meetStep_cases h with ⟨q, hq, -⟩ | ⟨q, b, pc', hq, hd, hs, hw⟩
  · cases hq
  · cases hq
    refine ⟨hd, ?_, ?_, ?_⟩
    · rw [hw, Function.update_self]
      exact hs
    · rw [hw, Function.update_self]
    · intro q hq
      rw [hw, Function.update_of_ne hq]

/-- A ready object is settled: whoever still writes is not its creator. -/
theorem Stepped.frozen (hw : Stepped w w' p ok) (hi : MeetInv w t) {o : Nat}
    (hr : (w.shm.objects o).initState = 1) :
    (w'.shm.objects o).ident = (w.shm.objects o).ident ∧ (w'.shm.objects o).initState = 1 := by
  rcases attachStep_object hw.step o with
    ⟨hid, hin, -⟩ | ⟨f, rest, hpc, -⟩ | ⟨-, -, ho⟩ | ⟨-, -, ho⟩
  · exact ⟨hid, hin.trans hr⟩
  · exfalso
    obtain ⟨q, hq⟩ := hi.ready o hr
    have h1 := hi.makes q o (by rw [hq]; rfl)
    have h2 := hi.makes p o (by rw [hpc]; rfl)
    rw [h1] at h2
    cases h2
    rw [hq] at hpc
    cases hpc
  · rw [ho]
    exact ⟨rfl, rfl⟩
  · rw [ho]
    exact ⟨rfl, hr⟩

/-- The exclusive create hands out objects nobody had. -/
theorem Stepped.entered (hw : Stepped w w' p ok) (hi : MeetInv w t) {o : Nat}
    (h0 : (w'.callers p).pc = .truncate o) :
    o = w.shm.created ∧ w'.shm.created = o + 1 ∧ t.creators o = [] := by
  rcases attachStep_makes hw.step (o := o) (by rw [h0]; rfl) with ⟨-, -, ho, hk, -⟩ | ⟨-, hne, -⟩
  · exact ⟨ho, hk, (hi.fresh o (by omega)).1⟩
  · exact absurd h0 hne

theorem Stepped.fresh (hw : Stepped w w' p ok) (hi : MeetInv w t) (o : Nat)
    (ho : w'.shm.created ≤ o) :
    (trailNote w (.go p ok) w' t).creators o = [] ∧ (w'.shm.objects o).initState = 0 := by
  have hle : w.shm.created ≤ o := by
    rcases attachStep_created hw.step with hc | ⟨hc, -⟩ <;> omega
  obtain ⟨hcr, hin⟩ := hi.fresh o hle
  constructor
  · simp only [trailNote]
    rw [if_neg, hcr]
    intro h0
    have := hw.entered hi h0
    omega
  · rcases attachStep_object hw.step o with ⟨-, h0, -⟩ | ⟨f, rest, -, -, h0⟩ | ⟨hpc, -⟩ | ⟨-, -, h0⟩
    · rw [h0, hin]
    · rw [h0]
      exact hin
    · have := hi.makes p o (by rw [hpc]; rfl)
      rw [this] at hcr
      cases hcr
    · rw [h0]
      exact hin

theorem Stepped.sole (hw : Stepped w w' p ok) (hi : MeetInv w t) (o : Nat) :
    ((trailNote w (.go p ok) w' t).creators o).length ≤ 1 := by
  simp only [trailNote]
  split
  · next h0 =>
      rw [(hw.entered hi h0).2.2]
      simp
  · exact hi.sole o

theorem Stepped.makes (hw : Stepped w w' p ok) (hi : MeetInv w t) (q o : Nat)
    (hm : (w'.callers q).pc.makes = some o) :
    (trailNote w (.go p ok) w' t).creators o = [q] := by
  simp only [trailNote]
  by_cases hq : q = p
  · subst hq
    rcases attachStep_makes hw.step hm with ⟨-, h0, -⟩ | ⟨hm0, hne, -⟩
    · rw [if_pos h0, (hw.entered hi h0).2.2]
    · rw [if_neg hne]
      exact hi.makes q o hm0
  · rw [hw.other q hq] at hm
    have hcr := hi.makes q o hm
    rw [if_neg, hcr]
    intro h0
    rw [(hw.entered hi h0).2.2] at hcr
    cases hcr

theorem Stepped.written (hw : Stepped w w' p ok) (hi : MeetInv w t) (q o : Nat)
    (hm : (w'.callers q).pc.makes = some o) (f : IdField)
    (hf : f ∉ (w'.callers q).pc.unwritten) :
    (w'.shm.objects o).ident f = (w'.callers q).args.field f := by
  by_cases hq : q = p
  · subst hq
    rw [hw.args]
    rcases attachStep_makes hw.step hm with ⟨-, h0, -⟩ | ⟨hm0, -, hwr⟩
    · rw [h0] at hf
      cases f <;> simp [OpenPc.unwritten, headerFields] at hf
    · rcases hwr f hf with hold | hnew
      · have hkept := hi.written q o hm0 f hold
        rcases attachStep_object hw.step o with
          ⟨h0, -⟩ | ⟨g, rest, -, -, h0⟩ | ⟨-, -, h0⟩ | ⟨-, -, h0⟩
        · rw [h0, hkept]
        · rw [h0]
          by_cases hg : f = g
          · subst hg
            simp
          · simp [hg, hkept]
        · rw [h0]
          exact hkept
        · rw [h0]
          exact hkept
      · exact hnew
  · rw [hw.other q hq] at hm hf ⊢
    have hkept := hi.written q o hm f hf
    rcases attachStep_object hw.step o with ⟨h0, -⟩ | ⟨g, rest, hpc, -⟩ | ⟨-, -, h0⟩ | ⟨-, -, h0⟩
    · rw [h0, hkept]
    · exfalso
      have h1 := hi.makes q o hm
      rw [hi.makes p o (by rw [hpc]; rfl)] at h1
      cases h1
      exact hq rfl
    · rw [h0]
      exact hkept
    · rw [h0]
      exact hkept

theorem Stepped.ready (hw : Stepped w w' p ok) (hi : MeetInv w t) (o : Nat)
    (hr : (w'.shm.objects o).initState = 1) :
    ∃ q, (w'.callers q).pc = .done .ok (some o) true := by
  have hold : (w.shm.objects o).initState = 1 →
      ∃ q, (w'.callers q).pc = .done .ok (some o) true := by
    intro h1
    obtain ⟨q, hq⟩ := hi.ready o h1
    refine ⟨q, ?_⟩
    by_cases hqp : q = p
    · subst hqp
      have hs := hw.step
      rw [hq] at hs
      cases hs
    · rw [hw.other q hqp, hq]
  rcases attachStep_object hw.step o with ⟨-, h0, -⟩ | ⟨f, rest, -, -, h0⟩ | ⟨-, h0, -⟩ | ⟨-, -, h0⟩
  · exact hold (h0 ▸ hr)
  · rw [h0] at hr
    exact hold hr
  · exact ⟨p, h0⟩
  · rw [h0] at hr
    exact hold hr

theorem Stepped.compares (hw : Stepped w w' p ok) (hi : MeetInv w t) (q o : Nat)
    (rest : List IdField) (hc : (w'.callers q).pc.compares = some (o, rest)) :
    (w'.shm.objects o).initState = 1 ∧ ∃ checked, gateFields = checked ++ rest ∧
      ∀ f ∈ checked, (w'.shm.objects o).ident f = (w'.callers q).args.field f := by
  by_cases hq : q = p
  · subst hq
    rw [hw.args]
    rcases attachStep_compares hw.step hc with ⟨hr, hrest⟩ | hsame | ⟨f, hf, hagree⟩
    · exact ⟨(hw.frozen hi hr).2, [], by simp [hrest], by simp⟩
    · obtain ⟨hr, cs, hcs, hag⟩ := hi.compares q o rest hsame
      obtain ⟨hid, hr'⟩ := hw.frozen hi hr
      rw [hid]
      exact ⟨hr', cs, hcs, hag⟩
    · obtain ⟨hr, cs, hcs, hag⟩ := hi.compares q o (f :: rest) hf
      obtain ⟨hid, hr'⟩ := hw.frozen hi hr
      rw [hid]
      refine ⟨hr', cs ++ [f], by simp [hcs], fun g hg => ?_⟩
      rcases List.mem_append.mp hg with hg | hg
      · exact hag g hg
      · rw [List.mem_singleton.mp hg]
        exact hagree
  · rw [hw.other q hq] at hc ⊢
    obtain ⟨hr, cs, hcs, hag⟩ := hi.compares q o rest hc
    obtain ⟨hid, hr'⟩ := hw.frozen hi hr
    rw [hid]
    exact ⟨hr', cs, hcs, hag⟩

theorem Stepped.refusers (hw : Stepped w w' p ok) (hi : MeetInv w t) (o q : Nat) :
    q ∈ (trailNote w (.go p ok) w' t).refusals o ↔ (w'.callers q).pc.refused = some o := by
  have hold := hi.refusers o q
  simp only [trailNote]
  by_cases hq : q = p
  · subst hq
    rw [attachStep_refused hw.step o]
    split
    · next h0 => simp [h0]
    · next h0 => simp [h0, hold]
  · rw [hw.other q hq]
    split
    · simp [hq, hold]
    · exact hold

theorem Stepped.nodup (hi : MeetInv w t) (o : Nat) :
    ((trailNote w (.go p ok) w' t).refusals o).Nodup := by
  simp only [trailNote]
  split
  · next h0 =>
      refine List.nodup_cons.mpr ⟨fun hmem => ?_, hi.nodup o⟩
      have := (hi.refusers o p).mp hmem
      rw [h0] at this
      cases this
  · exact hi.nodup o

theorem Stepped.counted (hw : Stepped w w' p ok) (hi : MeetInv w t) (o : Nat) :
    (w'.shm.objects o).refusalCount =
      UInt64.ofNat ((trailNote w (.go p ok) w' t).refusals o).length := by
  have hold := hi.counted o
  simp only [trailNote]
  rcases attachStep_object hw.step o with ⟨-, -, h0, hne⟩ | ⟨f, rest, hpc, -, h0⟩ | ⟨hpc, -, h0⟩ |
    ⟨hpc, -, h0⟩
  · rw [if_neg hne, h0, hold]
  · rw [h0, hpc]
    exact hold
  · rw [h0, hpc]
    exact hold
  · rw [if_pos hpc, h0, List.length_cons]
    simp only [hold]
    exact (UInt64.ofNat_add _ 1).symm

theorem meetInv_step {act : MeetAct} (h : meetStep w act = some w') (hi : MeetInv w t) :
    MeetInv w' (trailNote w act w' t) := by
  cases act with
  | die p =>
      rcases meetStep_cases h with ⟨q, -, hk, hpc⟩ | ⟨q, b, pc', hq, -⟩
      · simp only [trailNote]
        constructor
        · rw [hk]
          exact hi.fresh
        · exact hi.sole
        · intro p o hm
          rw [(hpc p).1] at hm
          exact hi.makes p o hm
        · intro p o hm f hf
          rw [(hpc p).1] at hm hf
          rw [hk, (hpc p).2]
          exact hi.written p o hm f hf
        · intro o hr
          rw [hk] at hr
          obtain ⟨p, hp⟩ := hi.ready o hr
          exact ⟨p, (hpc p).1.trans hp⟩
        · intro p o rest hc
          rw [(hpc p).1] at hc
          rw [hk, (hpc p).2]
          exact hi.compares p o rest hc
        · rw [hk]
          exact hi.counted
        · exact hi.nodup
        · intro o p
          rw [(hpc p).1]
          exact hi.refusers o p
      · cases hq
  | go p ok =>
      obtain ⟨-, hw⟩ := stepped_of_meetStep h
      exact ⟨hw.fresh hi, hw.sole hi, hw.makes hi, hw.written hi, hw.ready hi, hw.compares hi,
        hw.counted hi, Stepped.nodup hi, hw.refusers hi⟩

theorem meetInv_reached {s : Meeting × Trail} (h : trailed.Reached anyStep s) :
    MeetInv s.1 s.2 := by
  refine Machine.Reached.invariant (P := fun s => MeetInv s.1 s.2) ?_ ?_ h
  · rintro ⟨w, t⟩ ⟨⟨hk, hpc⟩, ht⟩
    simp only at hk hpc ht
    subst ht
    constructor <;> simp [hk, hpc, OpenPc.makes, OpenPc.compares, OpenPc.refused]
  · intro s act s' _ hi _ hs
    obtain ⟨hst, ht⟩ := Machine.withHistory_step hs
    rw [ht]
    exact meetInv_step hst hi

/-! ## Identity -/

/-- The object on which a caller was told `kOk`: by `Attach`, or by the
`OpenOrCreate` inside it when it is the creator. -/
def OpenPc.gotOk : OpenPc → Option Nat
  | .initPlane o | .markReady o | .done .ok (some o) _ => some o
  | _ => none

/-- Whoever was told `kOk` agrees with the object on every compared field. -/
theorem MeetInv.agrees (hi : MeetInv w t) {o : Nat} (hok : (w.callers p).pc.gotOk = some o)
    {f : IdField} (hf : f ∈ gateFields) :
    (w.shm.objects o).ident f = (w.callers p).args.field f := by
  have hmade : (w.callers p).pc.makes = some o → (w.callers p).pc.unwritten = [] →
      (w.shm.objects o).ident f = (w.callers p).args.field f := by
    intro hm hu
    exact hi.written p o hm f (by rw [hu]; simp)
  cases hpc : (w.callers p).pc with
  | initPlane x | markReady x =>
      rw [hpc] at hok hmade
      exact hmade hok rfl
  | done st x c =>
      rw [hpc] at hok hmade
      cases st <;> cases x <;> cases hok
      cases c with
      | true => exact hmade rfl rfl
      | false =>
          obtain ⟨-, checked, hcs, hag⟩ := hi.compares p o [] (by rw [hpc]; rfl)
          rw [List.append_nil] at hcs
          exact hag f (hcs ▸ hf)
  | _ =>
      rw [hpc] at hok
      cases hok

theorem meetStep_frozen {act : MeetAct} (h : meetStep w act = some w') (hi : MeetInv w t) {o : Nat}
    (hr : (w.shm.objects o).initState = 1) :
    (w'.shm.objects o).ident = (w.shm.objects o).ident ∧ (w'.shm.objects o).initState = 1 := by
  cases act with
  | die p =>
      cases h
      exact ⟨rfl, hr⟩
  | go p ok => exact (stepped_of_meetStep h).2.frozen hi hr

theorem exec_frozen {acts : List MeetAct} {w w' : Meeting} {t : Trail} {o : Nat}
    (hi : MeetInv w t) (hr : (w.shm.objects o).initState = 1)
    (h : meeting.exec acts w = some w') :
    (w'.shm.objects o).ident = (w.shm.objects o).ident ∧ (w'.shm.objects o).initState = 1 := by
  induction acts generalizing w t with
  | nil =>
      cases h
      exact ⟨rfl, hr⟩
  | cons act acts ih =>
      rw [Machine.exec] at h
      split at h
      · cases h
      · next w1 h1 =>
          obtain ⟨hid, hr1⟩ := meetStep_frozen h1 hi hr
          obtain ⟨hid', hr'⟩ := ih (meetInv_step h1 hi) hr1 h
          exact ⟨hid'.trans hid, hr'⟩

/-! ## Refusal -/

/-- Caller `p` is bound to be refused on object `o`: it is about to read the flag
set, or is comparing with a differing type field still ahead, or is past that. -/
def Meeting.Refusing (w : Meeting) (p o : Nat) : Prop :=
  (w.shm.objects o).initState = 1 ∧
    match (w.callers p).pc with
    | .initPoll x n => x = o ∧ n < kPolls ∧
        ∃ f ∈ gateFields, f.typed ∧ (w.shm.objects o).ident f ≠ (w.callers p).args.field f
    | .compare x rest => x = o ∧
        ∃ f ∈ rest, f.typed ∧ (w.shm.objects o).ident f ≠ (w.callers p).args.field f
    | .refuseHash x | .refuseSize x | .refusePid x | .refuseCount x | .refuseExit x => x = o
    | .done st x c => st = .typeMismatch ∧ x = some o ∧ c = false
    | _ => False

/-- How many more steps of its own the caller takes at most. -/
def OpenPc.toRefusal : OpenPc → Nat
  | .initPoll _ _ => 12
  | .compare _ rest => rest.length + 2
  | .refuseHash _ => 5
  | .refuseSize _ => 4
  | .refusePid _ => 3
  | .refuseCount _ => 2
  | .refuseExit _ => 1
  | _ => 0

def MeetAct.isStepOf (p : Nat) : MeetAct → Bool
  | .go q _ => q == p
  | .die _ => false

/-- A ready object carries the current version: its creator wrote it. -/
theorem MeetInv.current (hi : MeetInv w t) {o : Nat} (hr : (w.shm.objects o).initState = 1)
    {f : IdField} (hf : f.version = true) (a : AttachArgs) :
    (w.shm.objects o).ident f = a.field f := by
  obtain ⟨q, hq⟩ := hi.ready o hr
  have hw := hi.written q o (by rw [hq]; rfl) f (by rw [hq]; simp [OpenPc.unwritten])
  rw [hw]
  cases f <;> first | rfl | cases hf

/-- With a type field still ahead, the comparison at hand is of a version field or
of a type field. -/
theorem typed_ahead {checked rest : List IdField} {f g : IdField}
    (hcs : gateFields = checked ++ f :: rest) (hg : g ∈ f :: rest) (ht : g.typed = true) :
    (f.version = true ∨ f.typed = true) ∧ 3 < (f :: rest).length := by
  have hmem : f :: rest <:+ gateFields := ⟨checked, hcs.symm⟩
  simp only [gateFields, List.suffix_cons_iff, List.cons.injEq, List.suffix_nil, reduceCtorEq,
    or_false] at hmem
  rcases hmem with ⟨rfl, rfl⟩ | ⟨rfl, rfl⟩ | ⟨rfl, rfl⟩ | ⟨rfl, rfl⟩ | ⟨rfl, rfl⟩ | ⟨rfl, rfl⟩ |
    ⟨rfl, rfl⟩ | ⟨rfl, rfl⟩ | ⟨rfl, rfl⟩
  iterate 6 exact ⟨by decide, by decide⟩
  all_goals
    exfalso
    cases g <;> simp_all [IdField.typed]

/-- Nobody else's step, and no death, takes the caller off its way out. -/
theorem refusing_of_still {o : Nat} (hpc : (w'.callers p).pc = (w.callers p).pc)
    (hargs : (w'.callers p).args = (w.callers p).args)
    (hid : (w'.shm.objects o).ident = (w.shm.objects o).ident)
    (hr : (w'.shm.objects o).initState = 1) (h : w.Refusing p o) : w'.Refusing p o := by
  refine ⟨hr, ?_⟩
  rw [hpc, hargs, hid]
  exact h.2

theorem Stepped.refusing (hw : Stepped w w' p ok) (hi : MeetInv w t) {o : Nat}
    (h : w.Refusing p o) :
    w'.Refusing p o ∧ (w'.callers p).pc.toRefusal < (w.callers p).pc.toRefusal := by
  obtain ⟨hr, hpath⟩ := h
  obtain ⟨hid, hr'⟩ := hw.frozen hi hr
  have hs := hw.step
  unfold Meeting.Refusing
  rw [hw.args, hid]
  cases hpc : (w.callers p).pc with
  | initPoll x n =>
      rw [hpc] at hs hpath
      obtain ⟨rfl, hn, hdiff⟩ := hpath
      simp only [attachStep, if_pos hn, if_pos hr, Option.some.injEq, Prod.mk.injEq] at hs
      rw [← hs.2]
      exact ⟨⟨hr', rfl, hdiff⟩, by simp [OpenPc.toRefusal, gateFields]⟩
  | compare x rest =>
      rw [hpc] at hs hpath
      obtain ⟨rfl, g, hg, ht, hne⟩ := hpath
      obtain ⟨-, checked, hcs, -⟩ := hi.compares p x rest (by rw [hpc]; rfl)
      cases rest with
      | nil => cases hg
      | cons f rest =>
          obtain ⟨hf, hlen⟩ := typed_ahead hcs hg ht
          simp only [attachStep] at hs
          split at hs
          · next heq =>
              simp only [Option.some.injEq, Prod.mk.injEq] at hs
              rw [← hs.2]
              have hgr : g ∈ rest := by
                rcases List.mem_cons.mp hg with rfl | hgr
                · exact absurd heq hne
                · exact hgr
              exact ⟨⟨hr', rfl, g, hgr, ht, hne⟩, by simp [OpenPc.toRefusal]⟩
          · next hneq =>
              have hft : f.typed = true := by
                rcases hf with hv | hft
                · exact absurd (hi.current hr hv _) hneq
                · exact hft
              rw [if_pos hft] at hs
              simp only [Option.some.injEq, Prod.mk.injEq] at hs
              rw [← hs.2]
              refine ⟨⟨hr', rfl⟩, ?_⟩
              simp only [OpenPc.toRefusal]
              omega
  | refuseHash x | refuseSize x | refusePid x | refuseCount x | refuseExit x =>
      rw [hpc] at hs hpath
      simp only at hpath
      subst hpath
      simp only [attachStep, Option.some.injEq, Prod.mk.injEq] at hs
      rw [← hs.2]
      exact ⟨⟨hr', by simp⟩, by simp [OpenPc.toRefusal]⟩
  | done st x c =>
      rw [hpc] at hs
      cases hs
  | _ =>
      rw [hpc] at hpath
      exact hpath.elim

theorem meetStep_refusing {act : MeetAct} (h : meetStep w act = some w') (hi : MeetInv w t)
    {o : Nat} (hp : w.Refusing p o) :
    w'.Refusing p o ∧
      (w'.callers p).pc.toRefusal + (if act.isStepOf p then 1 else 0) ≤
        (w.callers p).pc.toRefusal := by
  cases act with
  | die q =>
      rcases meetStep_cases h with ⟨-, -, hk, hpc⟩ | ⟨q, b, pc', hq, -⟩
      · refine ⟨refusing_of_still (hpc p).1 (hpc p).2 (by rw [hk]) (by rw [hk]; exact hp.1) hp, ?_⟩
        rw [(hpc p).1]
        simp [MeetAct.isStepOf]
      · cases hq
  | go q ok =>
      obtain ⟨-, hw⟩ := stepped_of_meetStep h
      by_cases hq : q = p
      · subst hq
        obtain ⟨hp', hlt⟩ := hw.refusing hi hp
        refine ⟨hp', ?_⟩
        simp only [MeetAct.isStepOf, beq_self_eq_true, if_true]
        omega
      · obtain ⟨hid, hr'⟩ := hw.frozen hi hp.1
        have hsame := hw.other p (Ne.symm hq)
        refine ⟨refusing_of_still (by rw [hsame]) (by rw [hsame]) hid hr' hp, ?_⟩
        rw [hsame]
        simp [MeetAct.isStepOf, hq]

/-- A live caller on its way out can always move, and ends refused. -/
theorem Meeting.Refusing.moves {o : Nat} (hp : w.Refusing p o)
    (hd : (w.callers p).dead = false) :
    (w.callers p).pc = .done .typeMismatch (some o) false ∨
      (∀ st x c, (w.callers p).pc ≠ .done st x c) ∧
        ∀ ok, (meetStep w (.go p ok)).isSome := by
  obtain ⟨-, hpath⟩ := hp
  cases hpc : (w.callers p).pc with
  | done st x c =>
      rw [hpc] at hpath
      obtain ⟨rfl, rfl, rfl⟩ := hpath
      exact .inl rfl
  | compare x rest =>
      refine .inr ⟨by simp, fun ok => ?_⟩
      cases rest with
      | nil => simp [meetStep, hd, hpc, attachStep]
      | cons f rest =>
          simp only [meetStep, hd, hpc, attachStep]
          by_cases hf : (w.shm.objects x).ident f = (w.callers p).args.field f
          · simp [hf]
          · by_cases hft : f.typed <;> simp [hf, hft]
  | initPoll x n =>
      rw [hpc] at hpath
      obtain ⟨rfl, hn, -⟩ := hpath
      refine .inr ⟨by simp, fun ok => ?_⟩
      by_cases hr : (w.shm.objects x).initState = 1 <;>
        simp [meetStep, hd, hpc, attachStep, hn, hr]
  | refuseHash x | refuseSize x | refusePid x | refuseCount x | refuseExit x =>
      exact .inr ⟨by simp, fun ok => by simp [meetStep, hd, hpc, attachStep]⟩
  | _ =>
      rw [hpc] at hpath
      exact hpath.elim

theorem meetStep_dead {act : MeetAct} (h : meetStep w act = some w')
    (hd : (w.callers p).dead = false) (hne : act ≠ .die p) : (w'.callers p).dead = false := by
  cases act with
  | die q =>
      cases h
      have hq : p ≠ q := fun h0 => hne (by rw [h0])
      simp [hq, hd]
  | go q ok =>
      simp only [meetStep] at h
      split at h
      · cases h
      · split at h
        · cases h
        · next k pc' hs =>
            cases h
            by_cases hq : p = q
            · subst hq
              simp [hd]
            · simp [hq, hd]

/-- A run from a point where the caller is bound to be refused. -/
theorem exec_refusing {acts : List MeetAct} {s s' : Meeting × Trail} {o : Nat}
    (hi : MeetInv s.1 s.2) (hp : s.1.Refusing p o) (hd : (s.1.callers p).dead = false)
    (hlive : MeetAct.die p ∉ acts) (h : trailed.exec acts s = some s') :
    MeetInv s'.1 s'.2 ∧ s'.1.Refusing p o ∧ (s'.1.callers p).dead = false ∧
      (s'.1.callers p).pc.toRefusal + acts.countP (MeetAct.isStepOf p) ≤
        (s.1.callers p).pc.toRefusal := by
  induction acts generalizing s with
  | nil =>
      cases h
      exact ⟨hi, hp, hd, by simp⟩
  | cons act acts ih =>
      rw [Machine.exec] at h
      split at h
      · cases h
      · next s1 h1 =>
          obtain ⟨hst, ht⟩ := Machine.withHistory_step h1
          have hi1 : MeetInv s1.1 s1.2 := by
            rw [ht]
            exact meetInv_step hst hi
          obtain ⟨hp1, hle⟩ := meetStep_refusing hst hi hp
          have hd1 := meetStep_dead hst hd fun h0 => hlive (by rw [h0]; simp)
          obtain ⟨hi', hp', hd', hle'⟩ :=
            ih hi1 hp1 hd1 (fun h0 => hlive (List.mem_cons_of_mem _ h0)) h
          refine ⟨hi', hp', hd', ?_⟩
          rw [List.countP_cons]
          omega

/-! ## The rendezvous -/

/-- What every caller may rely on, at any point of any run. -/
structure RendezvousHolds (w : Meeting) (t : Trail) : Prop where
  oneCreator : ∀ o, (t.creators o).length ≤ 1
  readyByCreator : ∀ o, (w.shm.objects o).initState = 1 →
    ∃ p, t.creators o = [p] ∧ (w.callers p).pc = .done .ok (some o) true
  okAfterReady : ∀ p o, (w.callers p).pc = .done .ok (some o) false →
    (w.shm.objects o).initState = 1
  sameIdentity : ∀ o p q, (w.callers p).pc.gotOk = some o → (w.callers q).pc.gotOk = some o →
    (w.callers p).args.schemaHash = (w.callers q).args.schemaHash ∧
    (w.callers p).args.payloadSize = (w.callers q).args.payloadSize ∧
    (w.callers p).args.payloadAlign = (w.callers q).args.payloadAlign ∧
    (w.callers p).args.totalSize = (w.callers q).args.totalSize
  identityFrozen : ∀ o, (w.shm.objects o).initState = 1 →
    ∀ acts w', meeting.exec acts w = some w' →
      (w'.shm.objects o).ident = (w.shm.objects o).ident ∧ (w'.shm.objects o).initState = 1
  -- `refusal_count` counts the callers that added to it, each of them once
  refusalsCounted : ∀ o, (w.shm.objects o).refusalCount = UInt64.ofNat (t.refusals o).length ∧
    (t.refusals o).Nodup
  mismatchRefused : ∀ p o n, (w.callers p).dead = false → (w.callers p).pc = .initPoll o n →
    n < kPolls → (w.shm.objects o).initState = 1 →
    ((w.shm.objects o).ident .schemaHash ≠ (w.callers p).args.schemaHash ∨
      (w.shm.objects o).ident .payloadSize ≠ (w.callers p).args.payloadSize ∨
      (w.shm.objects o).ident .payloadAlign ≠ (w.callers p).args.payloadAlign) →
    p ∉ t.refusals o ∧
      ∀ acts w' t', trailed.exec acts (w, t) = some (w', t') → MeetAct.die p ∉ acts →
        acts.countP (MeetAct.isStepOf p) ≤ 12 ∧
          ((w'.callers p).pc = .done .typeMismatch (some o) false ∧ (t'.refusals o).count p = 1 ∨
            (∀ st x c, (w'.callers p).pc ≠ .done st x c) ∧
              ∀ ok, (meetStep w' (.go p ok)).isSome)

theorem MeetInv.mismatchRefused (hi : MeetInv w t) {o n : Nat}
    (hd : (w.callers p).dead = false) (hpc : (w.callers p).pc = .initPoll o n) (hn : n < kPolls)
    (hr : (w.shm.objects o).initState = 1)
    (hdiff : ∃ f ∈ gateFields, f.typed ∧
      (w.shm.objects o).ident f ≠ (w.callers p).args.field f)
    {acts : List MeetAct} {w' : Meeting} {t' : Trail}
    (h : trailed.exec acts (w, t) = some (w', t')) (hlive : MeetAct.die p ∉ acts) :
    acts.countP (MeetAct.isStepOf p) ≤ 12 ∧
      ((w'.callers p).pc = .done .typeMismatch (some o) false ∧ (t'.refusals o).count p = 1 ∨
        (∀ st x c, (w'.callers p).pc ≠ .done st x c) ∧
          ∀ ok, (meetStep w' (.go p ok)).isSome) := by
  have hp : w.Refusing p o := by
    refine ⟨hr, ?_⟩
    rw [hpc]
    exact ⟨rfl, hn, hdiff⟩
  obtain ⟨hi', hp', hd', hle⟩ := exec_refusing (s := (w, t)) hi hp hd hlive h
  constructor
  · rw [hpc] at hle
    simp only [OpenPc.toRefusal] at hle
    omega
  · rcases hp'.moves hd' with hdone | hmoves
    · refine .inl ⟨hdone, List.count_eq_one_of_mem (hi'.nodup o) ?_⟩
      rw [hi'.refusers o p, hdone]
      rfl
    · exact .inr hmoves

theorem rendezvous_agrees {w : Meeting} {t : Trail} (h : trailed.Reached anyStep (w, t)) :
    RendezvousHolds w t := by
  have hi := meetInv_reached h
  constructor
  · exact hi.sole
  · intro o hr
    obtain ⟨p, hp⟩ := hi.ready o hr
    exact ⟨p, hi.makes p o (by rw [hp]; rfl), hp⟩
  · intro p o hp
    exact (hi.compares p o [] (by rw [hp]; rfl)).1
  · intro o p q hp hq
    have hagree : ∀ f ∈ gateFields, (w.callers p).args.field f = (w.callers q).args.field f :=
      fun f hf => (hi.agrees hp hf).symm.trans (hi.agrees hq hf)
    exact ⟨hagree .schemaHash (by decide), hagree .payloadSize (by decide),
      hagree .payloadAlign (by decide), hagree .totalSize (by decide)⟩
  · intro o hr acts w' hex
    exact exec_frozen hi hr hex
  · intro o
    exact ⟨hi.counted o, hi.nodup o⟩
  · intro p o n hd hpc hn hr hdiff
    refine ⟨fun hmem => ?_, fun acts w' t' hex hlive => ?_⟩
    · have hrf := (hi.refusers o p).mp hmem
      rw [hpc] at hrf
      cases hrf
    · refine hi.mismatchRefused hd hpc hn hr ?_ hex hlive
      rcases hdiff with h1 | h1 | h1
      · exact ⟨.schemaHash, by decide, rfl, h1⟩
      · exact ⟨.payloadSize, by decide, rfl, h1⟩
      · exact ⟨.payloadAlign, by decide, rfl, h1⟩

/-- Three callers of one name, the second with another schema hash. -/
def threeCallers : Meeting where
  callers p :=
    { args :=
        { schemaHash := if p = 1 then 8 else 7, payloadSize := 40, payloadAlign := 8,
          totalSize := 4096, historyKind := 0, queueDepth := 1, pid := 100 + p } }

/-- The first creates the segment while the others poll. -/
def meetingUp : List MeetAct :=
  [MeetAct.go 0 true, MeetAct.go 1 true, MeetAct.go 2 true] ++
    List.replicate 5 (MeetAct.go 0 true) ++ List.replicate 4 (MeetAct.go 1 true) ++
    List.replicate 2 (MeetAct.go 2 true) ++ List.replicate 11 (MeetAct.go 0 true) ++
    List.replicate 2 (MeetAct.go 2 true)

/-- The second finds the segment ready with another hash, and ten steps of its own
later has counted itself; the third agrees. -/
theorem rendezvous_agrees_mixed :
    ∃ w t w' t', trailed.Reached anyStep (w, t) ∧ (w.callers 1).pc = .initPoll 0 1 ∧
      (w.shm.objects 0).ident .schemaHash = 7 ∧
      trailed.exec (List.replicate 10 (.go 1 true) ++ List.replicate 11 (.go 2 true)) (w, t) =
        some (w', t') ∧
      (w'.callers 1).pc = .done .typeMismatch (some 0) false ∧
      (w'.callers 2).pc = .done .ok (some 0) false ∧ (w'.shm.objects 0).refusalCount = 1 ∧
      RendezvousHolds w t ∧ RendezvousHolds w' t' := by
  have h0 : trailed.Reached anyStep (threeCallers, {}) := .start ⟨⟨rfl, fun _ => rfl⟩, rfl⟩
  have hrun : ((trailed.exec meetingUp (threeCallers, {})).bind fun s =>
      (trailed.exec (List.replicate 10 (.go 1 true) ++ List.replicate 11 (.go 2 true)) s).map
        fun s' => ((s.1.callers 1).pc, (s.1.shm.objects 0).ident .schemaHash,
          (s'.1.callers 1).pc, (s'.1.callers 2).pc, (s'.1.shm.objects 0).refusalCount)) =
      some (.initPoll 0 1, 7, .done .typeMismatch (some 0) false, .done .ok (some 0) false, 1) := by
    decide +kernel
  obtain ⟨⟨w, t⟩, hw, hrun'⟩ := Option.bind_eq_some_iff.mp hrun
  obtain ⟨⟨w', t'⟩, hw', hf⟩ := Option.map_eq_some_iff.mp hrun'
  simp only [Prod.mk.injEq] at hf
  have hr := Machine.reached_of_exec h0 hw
  exact ⟨w, t, w', t', hr, hf.1, hf.2.1, hw', hf.2.2.1, hf.2.2.2.1, hf.2.2.2.2,
    rendezvous_agrees hr, rendezvous_agrees (Machine.reached_of_exec hr hw')⟩

end Xmmsg.Shm
