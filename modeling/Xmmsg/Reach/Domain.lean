import Xmmsg.Reach.Topic
import Xmmsg.Shm.Names
import Xmmsg.Shm.Reliability
import Xmmsg.Shm.Rendezvous

/-!
# One domain on two reaches

`Domain::Advertise` and `Domain::Subscribe` route a wiring call to a reach, and the
handle they return routes every later call there. A reach keeps its topics somewhere,
the in-process registry by name and the shm reach in segments named after the topic;
the first wiring of a topic creates the entry with the identity of its payload type,
later ones are compared with it. A wiring call may be refused before the topic is
touched, or by the comparison, and its handle then serves nothing.

`Backend` is what the two reaches have in common, and `Backend.step` a domain with one
program calling it. `domain_agrees` lifts a simulation of single topics to domains;
`reaches_agree` is that for the two reaches.
-/

namespace Xmmsg.Reach

open Xmmsg.Sys

/-! ## Domains -/

/-- What the code asks of a payload type. `totalBytes` is the size of the segment
layout. -/
structure Payloads (τ : Type) where
  schemaHashOf : τ → UInt64
  size : τ → Nat
  align : τ → Nat
  totalBytes : τ → Nat
  triviallyCopyable : τ → Bool

inductive Handle where
  | pub (p : Nat)
  | sub (k : Nat)
  deriving DecidableEq, Repr

/-- The arguments a handle is wired with. -/
structure Declaration (τ : Type) where
  topic : List Char
  type : τ
  qos : Qos

/-- A handle that a wiring call has refused is held until it is destroyed. -/
inductive Held where
  | served
  | refused
  | gone
  deriving DecidableEq, Repr

inductive Refusal where
  | typeMismatch
  | unsupportedReach
  deriving DecidableEq, Repr

section Calls

variable {T : Type}

def handleOf : Op T → Handle
  | .advertise p | .publish p _ _ _ | .publishDerived p _ _ _ _ | .publishCount p
  | .publisherMatched p | .destroyPublisher p => .pub p
  | .subscribe k | .takeLatest k _ | .tryTake k _ | .count k _ | .subscriberMatched k
  | .destroySubscriber k => .sub k

def wires : Op T → Bool
  | .advertise _ | .subscribe _ => true
  | _ => false

def destroys : Op T → Bool
  | .destroyPublisher _ | .destroySubscriber _ => true
  | _ => false

variable [Inhabited T]

/-- The status a refused wiring call leaves on its handle. -/
def refusedAnswer (r : Refusal) : Op T → Answer T
  | .advertise _ => .advertised (match r with
      | .typeMismatch => .typeMismatch
      | .unsupportedReach => .unsupportedReach)
  | .subscribe _ => .subscribed (match r with
      | .typeMismatch => .typeMismatch
      | .unsupportedReach => .unsupportedReach)
  | _ => .done

/-- What a handle that serves nothing answers. -/
def idleAnswer : Op T → Option (Answer T)
  | .publish _ _ _ _ | .publishDerived _ _ _ _ _ => some (.published .ok)
  | .publishCount _ | .publisherMatched _ | .count _ _ | .subscriberMatched _ => some (.number 0)
  | .takeLatest _ _ | .tryTake _ _ => some (.sample {})
  | .destroyPublisher _ | .destroySubscriber _ => some .done
  | .advertise _ | .subscribe _ => none

end Calls

/-- One reach: the state of a topic nobody has touched, where topics are kept, their
identity and its comparison, the refusals that read declarations only, and the
calls. -/
structure Backend (τ T W K I : Type) [Inhabited T] where
  fresh : W
  key : List Char → K
  ident : Declaration τ → I
  refuses : Handle → Declaration τ → Bool
  gate : I → I → Option Refusal
  call : τ → W → Op T → Option (Answer T × W)

structure Topics (W K I : Type) where
  entry : K → Option (I × W) := fun _ => none
  held : Handle → Held := fun _ => .served

namespace Topics

variable {W K I : Type} [DecidableEq K]

def put (s : Topics W K I) (n : K) (y : I × W) : Topics W K I :=
  { s with entry := Function.update s.entry n (some y) }

def hold (s : Topics W K I) (x : Handle) (h : Held) : Topics W K I :=
  { s with held := Function.update s.held x h }

end Topics

namespace Backend

variable {τ T W K I : Type} [Inhabited T] [DecidableEq K]

/-- A call reaches the topic `y` kept for it. -/
def run (B : Backend τ T W K I) (e : Declaration τ) (s : Topics W K I) (y : I × W)
    (c : Op T) : Option (Answer T × Topics W K I) :=
  match B.call e.type y.2 c with
  | some (a, w) => some (a, s.put (B.key e.topic) (y.1, w))
  | none => none

/-- A wiring call that was not refused: find or create the topic, compare, wire. -/
def wire (B : Backend τ T W K I) (e : Declaration τ) (s : Topics W K I) (c : Op T) :
    Option (Answer T × Topics W K I) :=
  let y := (s.entry (B.key e.topic)).getD (B.ident e, B.fresh)
  match B.gate y.1 (B.ident e) with
  | some r => some (refusedAnswer r c, (s.put (B.key e.topic) y).hold (handleOf c) .refused)
  | none => B.run e s y c

def step (B : Backend τ T W K I) (d : Handle → Declaration τ) (s : Topics W K I) (c : Op T) :
    Option (Answer T × Topics W K I) :=
  let x := handleOf c
  let e := d x
  match s.held x with
  | .gone => none
  | .refused =>
      match idleAnswer c with
      | some a => some (a, if destroys c then s.hold x .gone else s)
      | none => none
  | .served =>
      if wires c then
        if B.refuses x e then some (refusedAnswer .unsupportedReach c, s.hold x .refused)
        else B.wire e s c
      else
        match s.entry (B.key e.topic) with
        | some y => B.run e s y c
        | none => none

end Backend

/-! ## The two reaches -/

section Reaches

variable {τ T : Type} [Inhabited T]

def inProcessGate [DecidableEq τ] (i j : UInt64 × τ) : Option Refusal :=
  if i.1 ≠ j.1 ∨ i.2 ≠ j.2 then some .typeMismatch else none

/-- The in-process reach: `topics_` by name. -/
def inProcess [DecidableEq τ] (P : Payloads τ) (d : Handle → Declaration τ) :
    Backend τ T (InProc.World T) (List Char) (UInt64 × τ) where
  fresh := {
    subs := fun k => { qos := (d (.sub k)).qos }
    pubs := fun p => { qos := (d (.pub p)).qos } }
  key n := n
  ident e := (P.schemaHashOf e.type, e.type)
  refuses _ _ := false
  gate := inProcessGate
  call t w c := w.call (P.size t) c

/-- The arguments of `Attach`. -/
def attachArgs (P : Payloads τ) (me : Nat) (e : Declaration τ) : Shm.AttachArgs where
  schemaHash := (P.schemaHashOf e.type).toNat
  payloadSize := P.size e.type
  payloadAlign := P.align e.type
  totalSize := P.totalBytes e.type
  historyKind := if e.qos.history.isLatest then 0 else 1
  queueDepth := e.qos.history.depth
  pid := me

/-- The comparison of an attacher with the header of the segment. -/
def shmGate (i j : Shm.IdField → Nat) : Option Refusal :=
  (Shm.gateFields.find? fun f => decide (i f ≠ j f)).map fun f =>
    if f.typed then .typeMismatch else .unsupportedReach

/-- The POSIX-shm reach of process `me`, under isolation key `key`: the payload floor
and the wiring gates, then a segment by name. -/
def posixShm (P : Payloads τ) (d : Handle → Declaration τ) (key : List Char) (me : Nat) :
    Backend τ T (Shm.World T) (List Char) (Shm.IdField → Nat) where
  fresh := {
    subs := fun k => {
      pid := me, history := (d (.sub k)).qos.history, deadline := (d (.sub k)).qos.deadline }
    pubs := fun _ => { pid := me } }
  key n := Shm.shmSegmentName key n
  ident e := (attachArgs P me e).field
  refuses x e := !P.triviallyCopyable e.type ||
    (match x with
    | .pub _ => Shm.advertiseRefused e.qos
    | .sub _ => Shm.subscribeRefused e.qos)
  gate := shmGate
  call t w c := w.call (P.size t) c

end Reaches

/-! ## From topics to domains -/

section Lift

variable {τ T W₁ W₂ K₁ K₂ I₁ I₂ : Type}

/-- The subscribers wired to topic `n`. -/
def liveOn (d : Handle → Declaration τ) (n : List Char) (live : List Nat) : List Nat :=
  live.filter fun k => decide ((d (.sub k)).topic = n)

theorem liveOn_note {d : Handle → Declaration τ} {c : Op T} (live : List Nat) :
    liveOn d (d (handleOf c)).topic (c.note live) =
      c.note (liveOn d (d (handleOf c)).topic live) := by
  cases c with
  | subscribe k => exact List.filter_cons_of_pos (by simp [handleOf])
  | destroySubscriber k => exact List.erase_filter.symm
  | _ => rfl

theorem liveOn_note_other {d : Handle → Declaration τ} {c : Op T} {n : List Char}
    (hn : (d (handleOf c)).topic ≠ n) (live : List Nat) :
    liveOn d n (c.note live) = liveOn d n live := by
  cases c with
  | subscribe k => exact List.filter_cons_of_neg (by simpa [handleOf] using hn)
  | destroySubscriber k =>
      have hmem : k ∉ live.filter fun k => decide ((d (.sub k)).topic = n) := by
        intro h0
        exact hn (of_decide_eq_true (List.mem_filter.mp h0).2)
      exact List.erase_filter.symm.trans (List.erase_of_not_mem hmem)
  | _ => rfl

variable [Inhabited T]

/-- What two backends keep for one topic: nothing, or related states, both created by
a handle of that topic. -/
inductive EntryRel (B₁ : Backend τ T W₁ K₁ I₁) (B₂ : Backend τ T W₂ K₂ I₂)
    (d : Handle → Declaration τ) (R : List Nat → W₁ → W₂ → Prop) (n : List Char) :
    List Nat → Option (I₁ × W₁) → Option (I₂ × W₂) → Prop
  | absent : EntryRel B₁ B₂ d R n [] none none
  | present {live : List Nat} {w : W₁} {v : W₂} (x y : Handle) : (d x).topic = n →
      (d y).topic = n → R live w v →
      EntryRel B₁ B₂ d R n live (some (B₁.ident (d x), w)) (some (B₂.ident (d y), v))

structure DomainRel (B₁ : Backend τ T W₁ K₁ I₁) (B₂ : Backend τ T W₂ K₂ I₂)
    (d : Handle → Declaration τ) (R : List Nat → W₁ → W₂ → Prop) (live : List Nat)
    (s₁ : Topics W₁ K₁ I₁) (s₂ : Topics W₂ K₂ I₂) : Prop where
  served₁ : ∀ x, s₁.held x = .served
  served₂ : ∀ x, s₂.held x = .served
  entry : ∀ x, EntryRel B₁ B₂ d R (d x).topic (liveOn d (d x).topic live)
    (s₁.entry (B₁.key (d x).topic)) (s₂.entry (B₂.key (d x).topic))

variable [DecidableEq K₁] [DecidableEq K₂] {B₁ : Backend τ T W₁ K₁ I₁}
  {B₂ : Backend τ T W₂ K₂ I₂} {d : Handle → Declaration τ} {R : List Nat → W₁ → W₂ → Prop}

/-- Writing back the topic a call went to leaves all other topics as they were. -/
theorem DomainRel.put {live : List Nat} {s₁ : Topics W₁ K₁ I₁} {s₂ : Topics W₂ K₂ I₂} {c : Op T}
    {x y : Handle} {w : W₁} {v : W₂} (hr : DomainRel B₁ B₂ d R live s₁ s₂)
    (hkey₁ : ∀ x y, B₁.key (d x).topic = B₁.key (d y).topic → (d x).topic = (d y).topic)
    (hkey₂ : ∀ x y, B₂.key (d x).topic = B₂.key (d y).topic → (d x).topic = (d y).topic)
    (hx : (d x).topic = (d (handleOf c)).topic) (hy : (d y).topic = (d (handleOf c)).topic)
    (hwv : R (c.note (liveOn d (d (handleOf c)).topic live)) w v) :
    DomainRel B₁ B₂ d R (c.note live)
      (s₁.put (B₁.key (d (handleOf c)).topic) (B₁.ident (d x), w))
      (s₂.put (B₂.key (d (handleOf c)).topic) (B₂.ident (d y), v)) := by
  refine ⟨hr.served₁, hr.served₂, fun z => ?_⟩
  by_cases hz : (d z).topic = (d (handleOf c)).topic
  · rw [hz, liveOn_note]
    simp only [Topics.put, Function.update_self]
    exact .present x y hx hy hwv
  · have hz₁ : B₁.key (d z).topic ≠ B₁.key (d (handleOf c)).topic := fun h0 => hz (hkey₁ _ _ h0)
    have hz₂ : B₂.key (d z).topic ≠ B₂.key (d (handleOf c)).topic := fun h0 => hz (hkey₂ _ _ h0)
    rw [liveOn_note_other (Ne.symm hz)]
    simp only [Topics.put, Function.update_of_ne hz₁, Function.update_of_ne hz₂]
    exact hr.entry z

/-- Two backends that keep topics apart, refuse nothing the program declares, and
whose topics simulate each other, answer alike. -/
theorem domain_agrees (bound : Nat)
    (hkey₁ : ∀ x y, B₁.key (d x).topic = B₁.key (d y).topic → (d x).topic = (d y).topic)
    (hkey₂ : ∀ x y, B₂.key (d x).topic = B₂.key (d y).topic → (d x).topic = (d y).topic)
    (href₁ : ∀ x, B₁.refuses x (d x) = false) (href₂ : ∀ x, B₂.refuses x (d x) = false)
    (hgate₁ : ∀ x y, (d x).topic = (d y).topic → B₁.gate (B₁.ident (d x)) (B₁.ident (d y)) = none)
    (hgate₂ : ∀ x y, (d x).topic = (d y).topic → B₂.gate (B₂.ident (d x)) (B₂.ident (d y)) = none)
    (hfresh : R [] B₁.fresh B₂.fresh)
    (hcall : ∀ live w v x c, R live w v → (c.note live).length ≤ bound →
      Agree (R (c.note live)) (B₁.call (d x).type w c) (B₂.call (d x).type v c))
    {calls : List (Op T)}
    (hlive : Within Op.note (fun live => ∀ n, (liveOn d n live).length ≤ bound) [] calls) :
    (script (B₁.step d) calls {}).map Prod.fst = (script (B₂.step d) calls {}).map Prod.fst := by
  refine script_agrees (R := DomainRel B₁ B₂ d R) ?_ hlive
    ⟨fun _ => rfl, fun _ => rfl, fun _ => .absent⟩
  intro live s₁ s₂ c hfits hr
  have hroom : (c.note (liveOn d (d (handleOf c)).topic live)).length ≤ bound := by
    rw [← liveOn_note]
    exact hfits _
  -- a call that reaches its topic on both sides
  have hrun : ∀ x y w v, (d x).topic = (d (handleOf c)).topic →
      (d y).topic = (d (handleOf c)).topic → R (liveOn d (d (handleOf c)).topic live) w v →
      Agree (DomainRel B₁ B₂ d R (c.note live))
        (B₁.run (d (handleOf c)) s₁ (B₁.ident (d x), w) c)
        (B₂.run (d (handleOf c)) s₂ (B₂.ident (d y), v) c) := by
    intro x y w v hx hy hwv
    have hag := hcall _ w v (handleOf c) c hwv hroom
    simp only [Backend.run]
    generalize B₁.call (d (handleOf c)).type w c = o₁ at hag
    generalize B₂.call (d (handleOf c)).type v c = o₂ at hag
    cases hag with
    | refused => exact .refused
    | answered hwv' => exact .answered (hr.put hkey₁ hkey₂ hx hy hwv')
  simp only [Backend.step, hr.served₁, hr.served₂, href₁, href₂, Bool.false_eq_true, if_false]
  have hentry := hr.entry (handleOf c)
  generalize hs₁ : s₁.entry (B₁.key (d (handleOf c)).topic) = e₁ at hentry
  generalize hs₂ : s₂.entry (B₂.key (d (handleOf c)).topic) = e₂ at hentry
  generalize hl : liveOn d (d (handleOf c)).topic live = l at hentry
  by_cases hw : wires c = true
  · simp only [hw, if_true, Backend.wire, hs₁, hs₂]
    cases hentry with
    | absent =>
        simp only [Option.getD_none, hgate₁ _ _ rfl, hgate₂ _ _ rfl]
        exact hrun _ _ _ _ rfl rfl (hl ▸ hfresh)
    | present x y hx hy hwv =>
        simp only [Option.getD_some, hgate₁ _ _ hx, hgate₂ _ _ hy]
        exact hrun _ _ _ _ hx hy (hl ▸ hwv)
  · simp only [hw]
    cases hentry with
    | absent => exact .refused
    | present x y hx hy hwv => exact hrun _ _ _ _ hx hy (hl ▸ hwv)

end Lift

/-! ## The two reaches agree -/

section Agreement

variable {τ T : Type}

/-- What a program may declare to be the same on both reaches: exclusive best-effort
publishers, mailboxes or queues of one to sixteen, and topic names of the grammar
that fit into a segment name. -/
structure Portable (key : List Char) (d : Handle → Declaration τ) : Prop where
  bestEffort : ∀ p, (d (.pub p)).qos.reliability = .bestEffort
  exclusive : ∀ p, (d (.pub p)).qos.ownership = .exclusive
  history : ∀ k, (d (.sub k)).qos.history = .latestOnly ∨
    ∃ n, (d (.sub k)).qos.history = .queue n ∧ 1 ≤ n ∧ n ≤ 16
  topic : ∀ x, Shm.isTopicName (d x).topic = true
  short : ∀ x, (Shm.readableName key (d x).topic).length ≤ Shm.kNameBound
  oneType : ∀ x y, (d x).topic = (d y).topic → (d x).type = (d y).type

variable {P : Payloads τ} {d : Handle → Declaration τ} {key : List Char} {me : Nat}

theorem Portable.depth (hd : Portable key d) (k : Nat) :
    (d (.sub k)).qos.history.depth ≠ 0 := by
  rcases hd.history k with h | ⟨n, h, h1, -⟩
  · rw [h]
    exact Nat.one_ne_zero
  · rw [h]
    exact Nat.ne_of_gt h1

theorem Portable.advertised (hd : Portable key d) (p : Nat) :
    Shm.advertiseRefused (d (.pub p)).qos = false := by
  simp [Shm.advertiseRefused, hd.bestEffort p, hd.exclusive p]

theorem Portable.subscribed (hd : Portable key d) (k : Nat) :
    Shm.subscribeRefused (d (.sub k)).qos = false := by
  rcases hd.history k with h | ⟨n, h, -, h16⟩
  · simp [Shm.subscribeRefused, h, History.isLatest]
  · simp [Shm.subscribeRefused, h, History.depth, Shm.kShmRingCapacity, h16]

/-- An attacher of the same payload type passes the comparison. -/
theorem shmGate_same {e e' : Declaration τ} (h : e.type = e'.type) :
    shmGate (attachArgs P me e).field (attachArgs P me e').field = none := by
  have hsame : ∀ f ∈ Shm.gateFields,
      (attachArgs P me e).field f = (attachArgs P me e').field f := by
    intro f hf
    cases f <;> simp [Shm.gateFields] at hf <;> simp [Shm.AttachArgs.field, attachArgs, h]
  have hnone : Shm.gateFields.find? (fun f =>
      decide ((attachArgs P me e).field f ≠ (attachArgs P me e').field f)) = none := by
    rw [List.find?_eq_none]
    intro f hf
    simp [hsame f hf]
  rw [shmGate, hnone]
  rfl

variable [DecidableEq τ] [Inhabited T]

/-- A topic nobody has touched. -/
theorem sim_fresh (hd : Portable key d) :
    Sim me [] (inProcess P d : Backend τ T _ _ _).fresh
      (posixShm P d key me : Backend τ T _ _ _).fresh := by
  refine ⟨⟨InProc.tabled_empty, fun k => ?_, fun k => ⟨rfl, rfl, rfl, hd.depth k⟩,
    fun k _ => .inl ⟨rfl, rfl, rfl, rfl⟩, fun k hk => (nomatch hk), fun i _ => .inl rfl,
    fun k k' i h => ?_, ?_⟩, ⟨fun p => ?_, rfl, .inl ⟨rfl, rfl, fun p h => ?_⟩⟩, fun _ => rfl,
    rfl, rfl⟩
  · exact ⟨fun h => (nomatch h), fun h => (nomatch h)⟩
  · cases h
  · simp [posixShm]
  · exact ⟨.unwired, rfl, rfl, fun _ => rfl, hd.bestEffort p, hd.exclusive p⟩
  · cases h

/-- Portable programs with payloads that may cross a process boundary, and at most
sixteen subscribers a topic at any time, get the same answers on both reaches. -/
theorem reaches_agree (hd : Portable key d) (hme : me ≠ 0)
    (hcopy : ∀ x, P.triviallyCopyable (d x).type = true) {calls : List (Op T)}
    (hlive : Within Op.note (fun live => ∀ n, (liveOn d n live).length ≤ 16) [] calls) :
    (script ((inProcess P d).step d) calls {}).map Prod.fst =
      (script ((posixShm P d key me).step d) calls {}).map Prod.fst := by
  refine domain_agrees (R := Sim me) 16 (fun x y h => h) (fun x y h => ?_) (fun _ => rfl)
    (fun x => ?_) (fun x y h => ?_) (fun x y h => ?_) (sim_fresh hd)
    (fun live w v x c hs hroom => sim_call hs hme hroom) hlive
  · exact Shm.shmSegmentName_inj (hd.topic x) (hd.topic y) (hd.short x) (hd.short y) h
  · cases x with
    | pub p => simp [posixShm, hcopy, hd.advertised p]
    | sub k => simp [posixShm, hcopy, hd.subscribed k]
  · simp [inProcess, inProcessGate, hd.oneType x y h]
  · exact shmGate_same (hd.oneType x y h)

end Agreement

/-- One payload type, copyable or not. -/
def onePayload (copyable : Bool) : Payloads Unit where
  schemaHashOf _ := 7
  size _ := 8
  align _ := 8
  totalBytes _ := 4096
  triviallyCopyable _ := copyable

def headTopic : List Char := ['m', '1', '.', 'h']

def tailTopic : List Char := ['m', '1', '.', 't']

def defaultKey : List Char := ['u', '0', '.', 'd']

/-- Handle 1 of either kind is on a topic of its own; subscriber 2 declares a queue. -/
def twoTopics : Handle → Declaration Unit
  | .pub p => ⟨if p = 1 then tailTopic else headTopic, (), {}⟩
  | .sub k => ⟨if k = 1 then tailTopic else headTopic, (),
      { history := if k = 2 then .queue 1 else .latestOnly }⟩

theorem twoTopics_topic (x : Handle) :
    (twoTopics x).topic = tailTopic ∨ (twoTopics x).topic = headTopic := by
  cases x with
  | pub p =>
      by_cases hp : p = 1
      · exact .inl (if_pos hp)
      · exact .inr (if_neg hp)
  | sub k =>
      by_cases hk : k = 1
      · exact .inl (if_pos hk)
      · exact .inr (if_neg hk)

theorem twoTopics_portable : Portable defaultKey twoTopics := by
  refine ⟨fun _ => rfl, fun _ => rfl, fun k => ?_, fun x => ?_, fun x => ?_, fun _ _ _ => rfl⟩
  · by_cases hk : k = 2
    · exact .inr ⟨1, if_pos hk, by decide, by decide⟩
    · exact .inl (if_neg hk)
  · rcases twoTopics_topic x with h | h <;> rw [h] <;> decide
  · rcases twoTopics_topic x with h | h <;> rw [h] <;> decide +kernel

def twoTopicCalls : List (Op Nat) :=
  [.subscribe 2, .advertise 0, .advertise 1, .advertise 2, .publish 0 7 0 1, .publish 0 8 0 2,
    .subscribe 0, .publish 1 9 0 3, .takeLatest 0 4, .tryTake 2 5, .count 2 .drop,
    .publisherMatched 0, .destroySubscriber 2, .subscriberMatched 0]

theorem reaches_agree_two :
    ∃ answers, (script ((inProcess (onePayload true) twoTopics).step twoTopics) twoTopicCalls
        {}).map Prod.fst = some answers ∧
      (script ((posixShm (onePayload true) twoTopics defaultKey 1).step twoTopics)
        twoTopicCalls {}).map Prod.fst = some answers := by
  have hsome : ((script ((inProcess (onePayload true) twoTopics).step twoTopics) twoTopicCalls
      {}).map Prod.fst).isSome = true := by
    decide +kernel
  obtain ⟨answers, hrun⟩ := Option.isSome_iff_exists.mp hsome
  have hle : ∀ live : List Nat, live.length ≤ 16 →
      ∀ n, (liveOn twoTopics n live).length ≤ 16 :=
    fun live h n => Nat.le_trans (List.length_filter_le _ _) h
  have hlive : Within Op.note (fun live => ∀ n, (liveOn twoTopics n live).length ≤ 16) []
      twoTopicCalls := by
    simp only [Within, twoTopicCalls, Op.note]
    refine ⟨?_, ?_, ?_, ?_, ?_, ?_, ?_, ?_, ?_, ?_, ?_, ?_, ?_, ?_, ?_⟩ <;> exact hle _ (by decide)
  have hagree := reaches_agree (P := onePayload true) twoTopics_portable Nat.one_ne_zero
    (fun _ => rfl) hlive
  exact ⟨answers, hrun, hagree.symm.trans hrun⟩

/-- Without the payload floor: a payload that is not trivially copyable is refused by
the shm reach and served in-process. -/
theorem reaches_differ_floor :
    ¬ ∀ (P : Payloads Unit) (d : Handle → Declaration Unit) (key : List Char) (me : Nat)
      (calls : List (Op Nat)), Portable key d → me ≠ 0 →
      Within Op.note (fun live => ∀ n, (liveOn d n live).length ≤ 16) [] calls →
      (script ((inProcess P d).step d) calls {}).map Prod.fst =
        (script ((posixShm P d key me).step d) calls {}).map Prod.fst := by
  intro hall
  have h0 := hall (onePayload false) twoTopics defaultKey 1 [.advertise 0]
    twoTopics_portable Nat.one_ne_zero ⟨fun _ => Nat.zero_le 16, fun _ => Nat.zero_le 16⟩
  have h1 : (script ((inProcess (onePayload false) twoTopics).step twoTopics)
      [(.advertise 0 : Op Nat)] {}).map Prod.fst =
      some [(.advertise 0, .advertised .ok)] := by decide +kernel
  have h2 : (script ((posixShm (onePayload false) twoTopics defaultKey 1).step twoTopics)
      [(.advertise 0 : Op Nat)] {}).map Prod.fst =
      some [(.advertise 0, .advertised .unsupportedReach)] := by decide +kernel
  rw [h1, h2] at h0
  cases h0

end Xmmsg.Reach
