import Xmmsg.InProc.Carry
import Xmmsg.Lineage
import Xmmsg.Sys.Derivation

/-!
# Lineage over a pipeline

Any number of topics, each with its own payload type, each the machine of
`InProc/Steps.lean`, under one clock that does not go back. A program takes samples
anywhere, keeps those that hold a value, and publishes from them with `PublishDerived`
anywhere. Every access of every endpoint is a step, so publishes, fan-outs, joins and
takes of all topics interleave.

A record is named by its topic and ordinal. The run is recorded beside the state: for
every record drawn, its envelope and the records whose samples its publish was given.
That is the derivation graph the claims about lineage speak of; the envelope folds only
one edge at a time, and `Sys/Derivation.lean` says what the folds add up to.

The invariant has two halves. Per topic, every record that is anywhere is in the log
under its name with its envelope (`step_holds`), and a publish in progress intends what
its samples said. Over the log, every entry is folded from older ones.
-/

namespace Xmmsg.InProc

open Xmmsg.Sys

/-! ## What one step of a topic does to the publishes in progress -/

section Topic

variable {T : Type} {size : Nat} {w w' : World T} {a : Act T}

theorem WriteMove.message {h h' : Topic T} {pc pc' : PubPc T} {b : PubAct T}
    (hw : WriteMove h pc b h' pc') {m : Message T} (hm : pc'.message? = some m) :
    (pc.message? = some m ∧ ∀ m', b ≠ .publish m') ∨ b = .publish m := by
  cases hw with
  | publish _ hnew =>
      rw [hnew] at hm
      cases hm
      exact .inr rfl
  | quiet hno _ _ _ _ _ _ hold => exact .inl ⟨hold m hm, hno⟩
  | clock | draw | master | store => cases hm

theorem WriteMove.drawing {h h' : Topic T} {pc pc' : PubPc T} {b : PubAct T}
    (hw : WriteMove h pc b h' pc') {m : Message T} (hm : pc' = .draw m) :
    ∃ now m₀, b = .go now ∧ pc = .clock m₀ ∧ m = { m₀ with now := now } := by
  cases hw with
  | publish _ _ _ hno => exact absurd hm (hno m)
  | clock hpc =>
      cases hm
      exact ⟨_, _, rfl, hpc, rfl⟩
  | quiet _ _ _ _ _ _ _ _ hno => exact absurd hm (hno m)
  | draw | master | store => cases hm

theorem WriteMove.accepted {h h' : Topic T} {pc pc' : PubPc T} {b : PubAct T}
    (hw : WriteMove h pc b h' pc') :
    (∃ now m, b = .go now ∧ pc = .draw m ∧ h'.acceptedOrdinal = h.acceptedOrdinal + 1) ∨
      (∀ m, pc ≠ .draw m) ∧ h'.acceptedOrdinal = h.acceptedOrdinal := by
  cases hw with
  | draw hpc => exact .inl ⟨_, _, rfl, hpc, rfl⟩
  | quiet _ _ hno _ _ hacc => exact .inr ⟨hno, hacc⟩
  | publish hpc | clock hpc | master hpc | store hpc =>
      exact .inr ⟨fun m h0 => (by rw [hpc] at h0; cases h0), rfl⟩

/-- A publish in progress before its clock reading was in progress, or begins now. -/
theorem step_message (hs : w.step size a = some w') {p : Nat} {m : Message T}
    (hm : (w'.pubs p).pc.message? = some m) :
    ((w.pubs p).pc.message? = some m ∧ ∀ m', a ≠ .pub p (.publish m')) ∨
      a = .pub p (.publish m) := by
  rcases step_cases hs with ⟨k, b, h', ep', rfl, -, rfl⟩ | ⟨q, b, h', ep', rfl, hpub, rfl⟩
  · exact .inl ⟨hm, fun m' h0 => nomatch h0⟩
  · by_cases hq : p = q
    · subst hq
      rw [World.putPub_self] at hm
      rcases (pubStep_writeMove hpub).message hm with ⟨h0, hno⟩ | rfl
      · exact .inl ⟨h0, fun m' h1 => hno m' (by cases h1; rfl)⟩
      · exact .inr rfl
    · rw [World.putPub_ne _ _ _ _ hq] at hm
      exact .inl ⟨hm, fun m' h0 => hq (by cases h0; rfl)⟩

/-- One about to draw its ordinal was, or reads the clock now. -/
theorem step_drawing (hs : w.step size a = some w') {p : Nat} {m : Message T}
    (hm : (w'.pubs p).pc = .draw m) :
    ((w.pubs p).pc = .draw m ∧ ∀ b, a ≠ .pub p b) ∨
      ∃ now m₀, a = .pub p (.go now) ∧ (w.pubs p).pc = .clock m₀ ∧ m = { m₀ with now := now } := by
  rcases step_cases hs with ⟨k, b, h', ep', rfl, -, rfl⟩ | ⟨q, b, h', ep', rfl, hpub, rfl⟩
  · exact .inl ⟨hm, fun b h0 => nomatch h0⟩
  · by_cases hq : p = q
    · subst hq
      rw [World.putPub_self] at hm
      obtain ⟨now, m₀, rfl, hpc, hm₀⟩ := (pubStep_writeMove hpub).drawing hm
      exact .inr ⟨now, m₀, rfl, hpc, hm₀⟩
    · rw [World.putPub_ne _ _ _ _ hq] at hm
      exact .inl ⟨hm, fun b h0 => hq (by cases h0; rfl)⟩

/-- The record a step draws, with the publisher that does. -/
def World.drawn (w : World T) : Act T → Option (Nat × MailRecord T)
  | .pub p (.go _) =>
      match (w.pubs p).pc with
      | .draw m => some (p, m.record (w.topic.acceptedOrdinal + 1))
      | _ => none
  | _ => none

theorem drawn_some {p : Nat} {r : MailRecord T} (h : w.drawn a = some (p, r)) :
    ∃ now m, a = .pub p (.go now) ∧ (w.pubs p).pc = .draw m ∧
      r = m.record (w.topic.acceptedOrdinal + 1) := by
  cases a with
  | sub k b => cases h
  | pub q b =>
      cases b with
      | go now =>
          simp only [World.drawn] at h
          split at h
          · next m hm =>
            cases h
            exact ⟨now, m, rfl, hm, rfl⟩
          · cases h
      | _ => cases h

theorem drawn_of {p : Nat} {now : Int} {m : Message T} (ha : a = .pub p (.go now))
    (hpc : (w.pubs p).pc = .draw m) :
    w.drawn a = some (p, m.record (w.topic.acceptedOrdinal + 1)) := by
  simp only [ha, World.drawn, hpc]

theorem step_accepted (hs : w.step size a = some w') :
    w'.topic.acceptedOrdinal =
      w.topic.acceptedOrdinal + if (w.drawn a).isSome then 1 else 0 := by
  rcases step_cases hs with ⟨k, b, h', ep', rfl, hsub, rfl⟩ | ⟨p, b, h', ep', rfl, hpub, rfl⟩
  · exact (subStep_others hsub).2.1
  · rcases (pubStep_writeMove hpub).accepted with ⟨now, m, rfl, hpc, hacc⟩ | ⟨hno, hacc⟩
    · rw [drawn_of rfl hpc]
      exact hacc
    · cases hd : w.drawn (.pub p b) with
      | none => exact hacc
      | some pr =>
          obtain ⟨now, m, h0, hpc, -⟩ := drawn_some hd
          cases h0
          exact absurd hpc (hno m)

end Topic

/-! ## The pipeline -/

variable {τ : Type} {T : τ → Type}

/-- A record that a take handed back, with its deadline verdict. -/
structure Got (T : τ → Type) where
  topic : τ
  record : MailRecord (T topic)
  stale : Bool

def Got.sample [∀ t, Inhabited (T t)] (g : Got T) : Sample (T g.topic) :=
  sampleOf (some (g.record, g.stale))

/-- What `PublishDerived` reads of a sample. -/
def Got.lineage [∀ t, Inhabited (T t)] (g : Got T) : Int × Nat :=
  (g.sample.originStamp, g.sample.hopCount)

def Got.name (g : Got T) : τ × Nat := (g.topic, g.record.ordinal)

/-- `samples` are those the takes have handed back so far and that hold a value. -/
structure Pipeline (T : τ → Type) where
  topics : (t : τ) → World (T t)
  samples : List (Got T) := []
  clock : Int := 0

inductive PipeAct (T : τ → Type) where
  | publish (t : τ) (p : Nat) (value : T t) (context : Nat)
  /-- `upstream` says which of the samples are passed, in which order. -/
  | publishDerived (t : τ) (p : Nat) (value : T t) (upstream : List Nat) (context : Nat)
  /-- Any access that does not begin a publish. -/
  | access (t : τ) (a : Act (T t))

/-- What the clock reads at this access. -/
def Act.time {T : Type} (clock : Int) : Act T → Int
  | .sub _ (.go now) | .pub _ (.go now) => now
  | _ => clock

def Act.publishes {T : Type} : Act T → Bool
  | .pub _ (.publish _) => true
  | _ => false

/-- The sample a take hands back at this access, if it does and the sample holds a
value. -/
def World.handed {T : Type} (w : World T) : Act T → Option (MailRecord T × Bool)
  | .sub k (.go _) =>
      match (w.subs k).pc with
      | .wired (.ret got) => got
      | _ => none
  | _ => none

namespace Pipeline

def Fresh (s : Pipeline T) : Prop := (∀ t, (s.topics t).Fresh) ∧ s.samples = []

def pick (s : Pipeline T) (upstream : List Nat) : List (Got T) :=
  upstream.filterMap fun i => s.samples[i]?

variable [DecidableEq τ]

def put (s : Pipeline T) (t : τ) (w : World (T t)) : Pipeline T :=
  { s with topics := Function.update s.topics t w }

def on (size : τ → Nat) (s : Pipeline T) (t : τ) (a : Act (T t)) : Option (Pipeline T) :=
  match (s.topics t).step (size t) a with
  | some w => some (s.put t w)
  | none => none

def step [∀ t, Inhabited (T t)] (size : τ → Nat) (s : Pipeline T) : PipeAct T → Option (Pipeline T)
  | .publish t p value context =>
      s.on size t (.pub p (.publish { value := value, context := context }))
  | .publishDerived t p value upstream context =>
      s.on size t (.pub p (.publish
        { value := value, derived := derivedInfo ((s.pick upstream).map Got.lineage),
          context := context }))
  | .access t a =>
      if a.publishes = false ∧ s.clock ≤ a.time s.clock then
        on size
          { s with
            samples := s.samples ++ ((s.topics t).handed a).toList.map fun g => ⟨t, g.1, g.2⟩
            clock := a.time s.clock }
          t a
      else none

section Access

variable (s : Pipeline T) {t t' : τ} (w : World (T t))

@[simp] theorem put_self : (s.put t w).topics t = w := by
  simp only [put, Function.update_self]

theorem put_ne (h : t' ≠ t) : (s.put t w).topics t' = s.topics t' := by
  simp only [put, Function.update_of_ne h]

@[simp] theorem put_samples : (s.put t w).samples = s.samples := rfl
@[simp] theorem put_clock : (s.put t w).clock = s.clock := rfl

end Access

theorem on_some {size : τ → Nat} {s s' : Pipeline T} {t : τ} {a : Act (T t)}
    (h : s.on size t a = some s') :
    ∃ w, (s.topics t).step (size t) a = some w ∧ s' = s.put t w := by
  rw [on] at h
  split at h
  · next w hw =>
    cases h
    exact ⟨w, hw, rfl⟩
  · cases h

end Pipeline

/-! ## The record of a run -/

/-- A record drawn: its envelope, the records it was published from, and how many
were drawn before it. -/
structure Entry (τ : Type) where
  envelope : Envelope
  ups : List (τ × Nat)
  seq : Nat

/-- `pending` is what the publish in progress was given. -/
structure Log (τ : Type) where
  drawn : Nat := 0
  entry : τ × Nat → Option (Entry τ) := fun _ => none
  pending : τ → Nat → List (τ × Nat) := fun _ _ => []

namespace Log

def envelope (l : Log τ) (i : τ × Nat) : Envelope := ((l.entry i).map Entry.envelope).getD {}

def ups (l : Log τ) (i : τ × Nat) : List (τ × Nat) := ((l.entry i).map Entry.ups).getD []

def stamp (l : Log τ) (i : τ × Nat) : Int := (l.envelope i).publishStampNs

def lineage (l : Log τ) (i : τ × Nat) : Int × Nat :=
  ((l.envelope i).originStampNs, (l.envelope i).hopCount)

variable [DecidableEq τ]

def intend (l : Log τ) (t : τ) (p : Nat) (is : List (τ × Nat)) : Log τ :=
  { l with pending := Function.update l.pending t (Function.update (l.pending t) p is) }

def add (l : Log τ) (t : τ) (p ordinal : Nat) (env : Envelope) : Log τ :=
  { l with
    drawn := l.drawn + 1
    entry := Function.update l.entry (t, ordinal)
      (some { envelope := env, ups := l.pending t p, seq := l.drawn }) }

/-- The record an access draws is entered. -/
def after (l : Log τ) (t : τ) (w : World (T t)) (a : Act (T t)) : Log τ :=
  match w.drawn a with
  | some (p, r) => l.add t p r.ordinal r.envelope
  | none => l

def note (s : Pipeline T) (a : PipeAct T) (_ : Pipeline T) (l : Log τ) : Log τ :=
  match a with
  | .publish t p _ _ => l.intend t p []
  | .publishDerived t p _ upstream _ => l.intend t p ((s.pick upstream).map Got.name)
  | .access t a => l.after t (s.topics t) a

end Log

section Machine

variable [DecidableEq τ] [∀ t, Inhabited (T t)]

def pipeline (T : τ → Type) [∀ t, Inhabited (T t)] (size : τ → Nat) :
    Machine (Pipeline T) (PipeAct T) where
  start := Pipeline.Fresh
  step := Pipeline.step size

def recordedPipeline (T : τ → Type) [∀ t, Inhabited (T t)] (size : τ → Nat) :
    Machine (Pipeline T × Log τ) (PipeAct T) :=
  (pipeline T size).withHistory {} Log.note

end Machine

/-! ## Invariants -/

/-- The entry is folded from older ones, and from the clock. -/
structure Entry.Sound (l : Log τ) (clock : Int) (e : Entry τ) : Prop where
  seq_lt : e.seq < l.drawn
  older : ∀ j ∈ e.ups, ∃ e', l.entry j = some e' ∧ e'.seq < e.seq
  origin : e.envelope.originStampNs =
    ((derivedInfo (e.ups.map l.lineage)).map DerivedInfo.originNs).getD e.envelope.publishStampNs
  hops : e.envelope.hopCount = ((derivedInfo (e.ups.map l.lineage)).map DerivedInfo.hops).getD 0
  origin_le : e.envelope.originStampNs ≤ e.envelope.publishStampNs
  past : e.envelope.publishStampNs ≤ clock

/-- The lineage is what the records passed to the publish of `p` carry. -/
structure Log.Given (l : Log τ) (t : τ) (p : Nat) (d : Option DerivedInfo) : Prop where
  known : ∀ i ∈ l.pending t p, ∃ e, l.entry i = some e
  folded : d = derivedInfo ((l.pending t p).map l.lineage)

/-- What one topic holds is in the log, and what its publishers are about to put there
follows from it. -/
structure Traced (l : Log τ) (clock : Int) (t : τ) (w : World (T t)) : Prop where
  held : ∀ r, w.Holds r → ∃ e, l.entry (t, r.ordinal) = some e ∧ e.envelope = r.envelope
  below : ∀ n e, l.entry (t, n) = some e → n ≤ w.topic.acceptedOrdinal
  calling : ∀ p m, (w.pubs p).pc.message? = some m → l.Given t p m.derived
  drawing : ∀ p m, (w.pubs p).pc = .draw m → l.Given t p m.derived ∧ m.now ≤ clock ∧
    ∀ i ∈ l.pending t p, (l.envelope i).originStampNs ≤ m.now

structure Recorded (s : Pipeline T) (l : Log τ) : Prop where
  traced : ∀ t, Traced l s.clock t (s.topics t)
  taken : ∀ g ∈ s.samples, ∃ e, l.entry g.name = some e ∧ e.envelope = g.record.envelope
  sound : ∀ i e, l.entry i = some e → e.Sound l s.clock

/-! ## The log only grows -/

def Log.Grows (l l' : Log τ) : Prop := ∀ i e, l.entry i = some e → l'.entry i = some e

section Growth

variable {l l' : Log τ} {clock clock' : Int}

theorem Log.envelope_of {i : τ × Nat} {e : Entry τ} (h : l.entry i = some e) :
    l.envelope i = e.envelope := by
  simp only [Log.envelope, h, Option.map_some, Option.getD_some]

theorem Log.ups_of {i : τ × Nat} {e : Entry τ} (h : l.entry i = some e) : l.ups i = e.ups := by
  simp only [Log.ups, h, Option.map_some, Option.getD_some]

theorem Log.Grows.envelope (hg : l.Grows l') {i : τ × Nat} (h : ∃ e, l.entry i = some e) :
    l'.envelope i = l.envelope i := by
  obtain ⟨e, he⟩ := h
  rw [Log.envelope_of he, Log.envelope_of (hg i e he)]

theorem Log.Grows.lineages (hg : l.Grows l') {is : List (τ × Nat)}
    (h : ∀ i ∈ is, ∃ e, l.entry i = some e) : is.map l'.lineage = is.map l.lineage := by
  apply List.map_congr_left
  intro i hi
  simp only [Log.lineage, hg.envelope (h i hi)]

theorem Entry.Sound.mono {e : Entry τ} (h : e.Sound l clock) (hg : l.Grows l')
    (hd : l.drawn ≤ l'.drawn) (hc : clock ≤ clock') : e.Sound l' clock' where
  seq_lt := Nat.lt_of_lt_of_le h.seq_lt hd
  older j hj := by
    obtain ⟨e', he', hlt⟩ := h.older j hj
    exact ⟨e', hg j e' he', hlt⟩
  origin := by
    rw [hg.lineages fun j hj => (h.older j hj).imp fun _ h0 => h0.1]
    exact h.origin
  hops := by
    rw [hg.lineages fun j hj => (h.older j hj).imp fun _ h0 => h0.1]
    exact h.hops
  origin_le := h.origin_le
  past := le_trans h.past hc

theorem Log.Given.mono {t : τ} {p : Nat} {d : Option DerivedInfo} (h : l.Given t p d)
    (hg : l.Grows l') (hp : l'.pending t p = l.pending t p) : l'.Given t p d where
  known i hi := by
    rw [hp] at hi
    obtain ⟨e, he⟩ := h.known i hi
    exact ⟨e, hg i e he⟩
  folded := by
    rw [hp, hg.lineages h.known]
    exact h.folded

/-- What is true of a topic stays true while the log grows and the topic rests. -/
theorem Traced.mono {t : τ} {w : World (T t)} (h : Traced l clock t w) (hg : l.Grows l')
    (hp : l'.pending t = l.pending t) (hc : clock ≤ clock')
    (hb : ∀ n e, l'.entry (t, n) = some e → n ≤ w.topic.acceptedOrdinal) :
    Traced l' clock' t w where
  held r hr := by
    obtain ⟨e, he, henv⟩ := h.held r hr
    exact ⟨e, hg _ e he, henv⟩
  below := hb
  calling p m hm := (h.calling p m hm).mono hg (congrFun hp p)
  drawing p m hm := by
    obtain ⟨hgiven, hnow, hold⟩ := h.drawing p m hm
    refine ⟨hgiven.mono hg (congrFun hp p), le_trans hnow hc, fun i hi => ?_⟩
    rw [hp] at hi
    rw [hg.envelope (hgiven.known i hi)]
    exact hold i hi

end Growth

section Preservation

variable [∀ t, Inhabited (T t)]

/-- The log agrees with the samples it names. -/
theorem Recorded.lineages {s : Pipeline T} {l : Log τ} (h : Recorded s l) {gs : List (Got T)}
    (hgs : ∀ g ∈ gs, g ∈ s.samples) :
    (gs.map Got.name).map l.lineage = gs.map Got.lineage := by
  rw [List.map_map]
  apply List.map_congr_left
  intro g hg
  obtain ⟨e, he, henv⟩ := h.taken g (hgs g hg)
  simp only [Function.comp_apply, Log.lineage, Log.envelope_of he, henv]
  rfl

variable [DecidableEq τ] {size : τ → Nat}

theorem Log.intend_self (l : Log τ) (t : τ) (p : Nat) (is : List (τ × Nat)) :
    (l.intend t p is).pending t p = is := by
  simp only [Log.intend, Function.update_self]

theorem Log.intend_ne (l : Log τ) (t : τ) {p q : Nat} (is : List (τ × Nat)) (h : q ≠ p) :
    (l.intend t p is).pending t q = l.pending t q := by
  simp only [Log.intend, Function.update_self, Function.update_of_ne h]

theorem Log.intend_other (l : Log τ) {t t' : τ} (p : Nat) (is : List (τ × Nat)) (h : t' ≠ t) :
    (l.intend t p is).pending t' = l.pending t' := by
  simp only [Log.intend, Function.update_of_ne h]

/-! ## A publish begins -/

theorem Traced.call {s : Pipeline T} {l : Log τ} (h : Recorded s l) {t : τ} {p : Nat}
    {m : Message (T t)} {gs : List (Got T)} (hgs : ∀ g ∈ gs, g ∈ s.samples)
    (hm : m.derived = derivedInfo (gs.map Got.lineage)) {w : World (T t)}
    (hs : (s.topics t).step (size t) (.pub p (.publish m)) = some w) :
    Traced (l.intend t p (gs.map Got.name)) s.clock t w where
  held r hr := by
    rcases step_holds hs hr with h0 | ⟨_, _, _, h0, -⟩
    · exact (h.traced t).held r h0
    · cases h0
  below n e he := by
    rw [step_accepted hs]
    exact Nat.le_add_right_of_le ((h.traced t).below n e he)
  calling q m' hq := by
    rcases step_message hs hq with ⟨hold, hno⟩ | heq
    · have hne : q ≠ p := fun h0 => hno m (by rw [h0])
      exact ((h.traced t).calling q m' hold).mono (fun _ _ h0 => h0) (l.intend_ne t _ hne)
    · cases heq
      refine ⟨fun i hi => ?_, ?_⟩
      · rw [Log.intend_self] at hi
        obtain ⟨g, hg, rfl⟩ := List.mem_map.mp hi
        exact (h.taken g (hgs g hg)).imp fun _ h0 => h0.1
      · rw [Log.intend_self, hm]
        exact congrArg derivedInfo (h.lineages hgs).symm
  drawing q m' hq := by
    rcases step_drawing hs hq with ⟨hold, hno⟩ | ⟨now, m₀, h0, -⟩
    · have hne : q ≠ p := fun h0 => hno (.publish m) (by rw [h0])
      obtain ⟨hgiven, hnow, hle⟩ := (h.traced t).drawing q m' hold
      refine ⟨hgiven.mono (fun _ _ h0 => h0) (l.intend_ne t _ hne), hnow, fun i hi => ?_⟩
      rw [l.intend_ne t _ hne] at hi
      exact hle i hi
    · cases h0

theorem Recorded.call {s s' : Pipeline T} {l : Log τ} (h : Recorded s l) {t : τ} {p : Nat}
    {m : Message (T t)} {gs : List (Got T)} (hgs : ∀ g ∈ gs, g ∈ s.samples)
    (hm : m.derived = derivedInfo (gs.map Got.lineage))
    (hs : s.on size t (.pub p (.publish m)) = some s') :
    Recorded s' (l.intend t p (gs.map Got.name)) := by
  obtain ⟨w, hw, rfl⟩ := Pipeline.on_some hs
  refine ⟨fun t' => ?_, h.taken, fun i e he => ?_⟩
  · by_cases ht : t' = t
    · subst ht
      rw [Pipeline.put_self]
      exact Traced.call h hgs hm hw
    · rw [Pipeline.put_ne _ _ ht]
      exact (h.traced t').mono (fun _ _ h0 => h0) (l.intend_other p _ ht) (le_refl _)
        (h.traced t').below
  · exact (h.sound i e he).mono (fun _ _ h0 => h0) (Nat.le_refl _) (le_refl _)

end Preservation

/-! ## Any other access -/

section Access

variable [DecidableEq τ] {size : τ → Nat}

theorem Message.record_origin {T : Type} (m : Message T) (n : Nat) :
    (m.record n).envelope.originStampNs =
      (m.derived.map DerivedInfo.originNs).getD (m.record n).envelope.publishStampNs := by
  cases hd : m.derived <;> simp only [Message.record, hd] <;> rfl

theorem Message.record_hops {T : Type} (m : Message T) (n : Nat) :
    (m.record n).envelope.hopCount = (m.derived.map DerivedInfo.hops).getD 0 := by
  cases hd : m.derived <;> simp only [Message.record, hd] <;> rfl

theorem Log.after_pending (l : Log τ) (t : τ) (w : World (T t)) (a : Act (T t)) :
    (l.after t w a).pending = l.pending := by
  rw [Log.after]
  split <;> rfl

theorem Log.after_drawn (l : Log τ) (t : τ) (w : World (T t)) (a : Act (T t)) :
    l.drawn ≤ (l.after t w a).drawn := by
  rw [Log.after]
  split
  · exact Nat.le_succ _
  · exact Nat.le_refl _

/-- Its entries are the old ones and the one of the record drawn. -/
theorem Log.after_entry {l : Log τ} {t : τ} {w : World (T t)} {a : Act (T t)} {i : τ × Nat}
    {e : Entry τ} (h : (l.after t w a).entry i = some e) :
    l.entry i = some e ∨ ∃ p r, w.drawn a = some (p, r) ∧ i = (t, r.ordinal) ∧
      e = { envelope := r.envelope, ups := l.pending t p, seq := l.drawn } := by
  rw [Log.after] at h
  split at h
  · next p r hd =>
    by_cases hi : i = (t, r.ordinal)
    · subst hi
      simp only [Log.add, Function.update_self, Option.some.injEq] at h
      exact .inr ⟨p, r, hd, rfl, h.symm⟩
    · simp only [Log.add, Function.update_of_ne hi] at h
      exact .inl h
  · exact .inl h

theorem Traced.grows {l : Log τ} {clock : Int} {t : τ} {w : World (T t)}
    (h : Traced l clock t w) (a : Act (T t)) : l.Grows (l.after t w a) := by
  intro i e he
  rw [Log.after]
  split
  · next p r hd =>
    have hi : i ≠ (t, r.ordinal) := by
      rintro rfl
      obtain ⟨_, _, -, -, rfl⟩ := drawn_some hd
      have := h.below _ e he
      rw [Message.record_ordinal] at this
      omega
    simp only [Log.add, Function.update_of_ne hi]
    exact he
  · exact he

/-- The entry of a record drawn now. -/
theorem Traced.drawn_sound {l : Log τ} {clock : Int} {t : τ} {w : World (T t)}
    (h : Traced l clock t w) {a : Act (T t)} {p : Nat} {r : MailRecord (T t)}
    (hd : w.drawn a = some (p, r)) (hold : ∀ i e, l.entry i = some e → e.Sound l clock) :
    ({ envelope := r.envelope, ups := l.pending t p, seq := l.drawn } : Entry τ).Sound
      (l.after t w a) clock := by
  obtain ⟨now, m, rfl, hpc, rfl⟩ := drawn_some hd
  obtain ⟨hgiven, hnow, hle⟩ := h.drawing p m hpc
  have hg := h.grows (.pub p (.go now))
  have hcount : (l.after t w (.pub p (.go now))).drawn = l.drawn + 1 := by
    rw [Log.after, hd]
    rfl
  have hfold := congrArg derivedInfo (hg.lineages hgiven.known)
  rw [← hgiven.folded] at hfold
  refine ⟨by rw [hcount]; exact Nat.lt_succ_self _, fun j hj => ?_, ?_, ?_, ?_, hnow⟩
  · obtain ⟨e, he⟩ := hgiven.known j hj
    exact ⟨e, hg j e he, (hold j e he).seq_lt⟩
  · rw [hfold]
    exact Message.record_origin m (w.topic.acceptedOrdinal + 1)
  · rw [hfold]
    exact Message.record_hops m (w.topic.acceptedOrdinal + 1)
  · -- the oldest of what it was given, or its own stamp
    rw [Message.record_origin]
    by_cases hnil : l.pending t p = []
    · rw [hgiven.folded, hnil]
      exact le_refl _
    · obtain ⟨d, hdi, ⟨⟨i, hi, hd⟩, -⟩, -⟩ := derivedInfo_map (f := l.lineage) hnil
      rw [hgiven.folded, hdi]
      show d.originNs ≤ m.now
      rw [← hd]
      exact hle i hi

theorem Traced.access {s : Pipeline T} {l : Log τ} (h : Recorded s l) {t : τ} {a : Act (T t)}
    (ha : a.publishes = false) (hc : s.clock ≤ a.time s.clock) {w : World (T t)}
    (hs : (s.topics t).step (size t) a = some w) :
    Traced (l.after t (s.topics t) a) (a.time s.clock) t w where
  held r hr := by
    rcases step_holds hs hr with h0 | ⟨p, now, m, rfl, hpc, rfl⟩
    · obtain ⟨e, he, henv⟩ := (h.traced t).held r h0
      exact ⟨e, (h.traced t).grows a _ e he, henv⟩
    · have hd := @drawn_of _ (s.topics t) _ p now m rfl hpc
      refine ⟨⟨(m.record ((s.topics t).topic.acceptedOrdinal + 1)).envelope, l.pending t p,
        l.drawn⟩, ?_, rfl⟩
      rw [Log.after, hd]
      exact Function.update_self ..
  below n e he := by
    rw [step_accepted hs]
    rcases Log.after_entry he with h0 | ⟨p, r, hd, hi, -⟩
    · exact Nat.le_add_right_of_le ((h.traced t).below n e h0)
    · rw [hd]
      obtain ⟨_, m, -, -, rfl⟩ := drawn_some hd
      cases hi
      exact Nat.le_refl _
  calling q m hq := by
    rcases step_message hs hq with ⟨hold, -⟩ | rfl
    · exact ((h.traced t).calling q m hold).mono ((h.traced t).grows a)
        (by rw [Log.after_pending])
    · cases ha
  drawing q m hq := by
    have hg := (h.traced t).grows a
    have hp : (l.after t (s.topics t) a).pending t q = l.pending t q := by rw [Log.after_pending]
    rcases step_drawing hs hq with ⟨hold, -⟩ | ⟨now, m₀, rfl, hclock, rfl⟩
    · obtain ⟨hgiven, hnow, hle⟩ := (h.traced t).drawing q m hold
      refine ⟨hgiven.mono hg hp, le_trans hnow hc, fun i hi => ?_⟩
      rw [hp] at hi
      rw [hg.envelope (hgiven.known i hi)]
      exact hle i hi
    · have hgiven := (h.traced t).calling q m₀ (by rw [hclock]; rfl)
      refine ⟨hgiven.mono hg hp, le_refl _, fun i hi => ?_⟩
      rw [hp] at hi
      obtain ⟨e, he⟩ := hgiven.known i hi
      rw [hg.envelope ⟨e, he⟩, Log.envelope_of he]
      have hsound := h.sound i e he
      exact le_trans hsound.origin_le (le_trans hsound.past hc)

theorem handed_holds {T : Type} {w : World T} {a : Act T} {g : MailRecord T × Bool}
    (h : w.handed a = some g) : w.Holds g.1 := by
  cases a with
  | pub p b => cases h
  | sub k b =>
      cases b with
      | go now =>
          simp only [World.handed] at h
          split at h
          · next got hpc =>
            subst h
            exact .inr (.inr (.inr ⟨k, by rw [hpc]; rfl⟩))
          · cases h
      | _ => cases h

theorem Recorded.access {s s' : Pipeline T} {l : Log τ} (h : Recorded s l) {t : τ}
    {a : Act (T t)} (ha : a.publishes = false) (hc : s.clock ≤ a.time s.clock)
    (hs : Pipeline.on size
      { s with
        samples := s.samples ++ ((s.topics t).handed a).toList.map fun g => ⟨t, g.1, g.2⟩
        clock := a.time s.clock } t a = some s') :
    Recorded s' (l.after t (s.topics t) a) := by
  obtain ⟨w, hw, rfl⟩ := Pipeline.on_some hs
  have hg := (h.traced t).grows a
  refine ⟨fun t' => ?_, fun g hmem => ?_, fun i e he => ?_⟩
  · by_cases ht : t' = t
    · subst ht
      rw [Pipeline.put_self]
      exact Traced.access h ha hc hw
    · rw [Pipeline.put_ne _ _ ht]
      refine (h.traced t').mono hg (by rw [Log.after_pending]) hc fun n e he => ?_
      rcases Log.after_entry he with h0 | ⟨_, _, -, hi, -⟩
      · exact (h.traced t').below n e h0
      · exact absurd (congrArg Prod.fst hi) ht
  · rcases List.mem_append.mp hmem with hold | hnew
    · obtain ⟨e, he, henv⟩ := h.taken g hold
      exact ⟨e, hg _ e he, henv⟩
    · obtain ⟨got, hgot, rfl⟩ := List.mem_map.mp hnew
      obtain ⟨e, he, henv⟩ :=
        (h.traced t).held got.1 (handed_holds (Option.mem_toList.mp hgot))
      exact ⟨e, hg _ e he, henv⟩
  · rcases Log.after_entry he with h0 | ⟨p, r, hd, -, rfl⟩
    · exact (h.sound i e h0).mono hg (l.after_drawn t (s.topics t) a) hc
    · exact ((h.traced t).drawn_sound hd h.sound).mono (fun _ _ h0 => h0) (Nat.le_refl _) hc

end Access

/-! ## Every run -/

theorem pick_mem {s : Pipeline T} {upstream : List Nat} {g : Got T}
    (h : g ∈ s.pick upstream) : g ∈ s.samples := by
  obtain ⟨i, -, hi⟩ := List.mem_filterMap.mp h
  exact List.mem_of_getElem? hi

theorem recorded_start {s : Pipeline T} (h : s.Fresh) : Recorded s {} := by
  refine ⟨fun t => ?_, fun g hg => ?_, fun i e he => nomatch he⟩
  · obtain ⟨htopic, hsubs, hpubs⟩ := h.1 t
    refine ⟨fun r hr => ?_, fun n e he => (nomatch he), fun p m hm => ?_, fun p m hm => ?_⟩
    · rcases hr with hr | ⟨k, hr⟩ | ⟨p, hr⟩ | ⟨k, hr⟩
      · rw [htopic] at hr
        cases hr
      · rw [htopic] at hr
        cases hr
      · rw [(hpubs p).1] at hr
        cases hr
      · rw [hsubs k] at hr
        cases hr
    · rw [(hpubs p).1] at hm
      cases hm
    · rw [(hpubs p).1] at hm
      cases hm
  · rw [h.2] at hg
    cases hg

section Runs

variable [DecidableEq τ] [∀ t, Inhabited (T t)] {size : τ → Nat}

theorem Recorded.publish {s s' : Pipeline T} {l : Log τ} (h : Recorded s l) {t : τ} {p : Nat}
    {m : Message (T t)} (hm : m.derived = none)
    (hs : s.on size t (.pub p (.publish m)) = some s') : Recorded s' (l.intend t p []) :=
  @Recorded.call _ _ _ _ _ _ _ _ h _ _ _ [] (fun _ hg => nomatch hg) hm hs

theorem recorded_step {s s' : Pipeline T} {l : Log τ} {a : PipeAct T} (h : Recorded s l)
    (hs : s.step size a = some s') : Recorded s' (l.note s a s') := by
  cases a with
  | publish t p value context => exact h.publish rfl hs
  | publishDerived t p value upstream context => exact h.call (fun g => pick_mem) rfl hs
  | access t a =>
      simp only [Pipeline.step] at hs
      split at hs
      · next hok => exact h.access hok.1 hok.2 hs
      · cases hs

theorem recorded_reached {s : Pipeline T} {l : Log τ}
    (h : (recordedPipeline T size).Reached anyStep (s, l)) : Recorded s l := by
  refine Machine.Reached.invariant (P := fun x => Recorded x.1 x.2) ?_ ?_ h
  · rintro ⟨s, l⟩ ⟨hs, rfl⟩
    exact recorded_start hs
  · rintro ⟨s, l⟩ a ⟨s', l'⟩ - hp - hst
    obtain ⟨hst, hnote⟩ := Machine.withHistory_step hst
    show Recorded s' l'
    rw [show l' = l.note s a s' from hnote]
    exact recorded_step hp hst

end Runs

/-! ## What the folds add up to -/

section Graph

variable {l : Log τ} {clock : Int} (hl : ∀ i e, l.entry i = some e → e.Sound l clock)
include hl

theorem derives_wf : WellFounded fun j i => j ∈ l.ups i := by
  refine Subrelation.wf (r := InvImage (· < ·) fun i => (l.entry i).elim 0 (·.seq + 1)) ?_
    (InvImage.wf _ Nat.lt_wfRel.wf)
  intro j i hj
  cases he : l.entry i with
  | none =>
      simp only [Log.ups, he] at hj
      cases hj
  | some e =>
      rw [Log.ups_of he] at hj
      obtain ⟨e', he', hlt⟩ := (hl i e he).older j hj
      simp only [InvImage, he, he']
      exact Nat.succ_lt_succ hlt

theorem lineage_first {i : τ × Nat} (h : l.ups i = []) :
    (l.envelope i).originStampNs = l.stamp i ∧ (l.envelope i).hopCount = 0 := by
  cases he : l.entry i with
  | none =>
      simp only [Log.stamp, Log.envelope, he]
      exact ⟨rfl, rfl⟩
  | some e =>
      rw [Log.ups_of he] at h
      have hs := hl i e he
      have horigin := hs.origin
      have hhops := hs.hops
      rw [h] at horigin hhops
      simp only [Log.stamp, Log.envelope_of he]
      exact ⟨horigin, hhops⟩

/-- A derived record carries the least origin of those it was derived from, and one hop
more than the most. -/
theorem lineage_next {i : τ × Nat} (h : l.ups i ≠ []) :
    IsLeast { s | ∃ j ∈ l.ups i, (l.envelope j).originStampNs = s } (l.envelope i).originStampNs ∧
      ∃ m, IsGreatest { n | ∃ j ∈ l.ups i, (l.envelope j).hopCount = n } m ∧
        (l.envelope i).hopCount = min 65535 (m + 1) := by
  cases he : l.entry i with
  | none => exact absurd (by simp only [Log.ups, he, Option.map_none, Option.getD_none]) h
  | some e =>
      rw [Log.ups_of he] at h ⊢
      obtain ⟨d, hd, hleast, m, hm, hhops⟩ := derivedInfo_map (f := l.lineage) h
      have horigin := (hl i e he).origin
      have hcount := (hl i e he).hops
      rw [hd] at horigin hcount
      rw [Log.envelope_of he, horigin, hcount]
      exact ⟨hleast, m, hm, hhops⟩

end Graph

/-- The lineage of everything published and taken. -/
structure Lineage [∀ t, Inhabited (T t)] (s : Pipeline T) (l : Log τ) : Prop where
  origin : ∀ i e, l.entry i = some e →
    IsLeast (firstStamps l.ups l.stamp i) e.envelope.originStampNs
  hops : ∀ i e, l.entry i = some e →
    ∃ n, IsGreatest { n | Chain l.ups i n } n ∧ e.envelope.hopCount = min 65535 n
  past : ∀ i e, l.entry i = some e → e.envelope.originStampNs ≤ e.envelope.publishStampNs
  held : ∀ t r, (s.topics t).Holds r →
    ∃ e, l.entry (t, r.ordinal) = some e ∧ e.envelope = r.envelope
  taken : ∀ g ∈ s.samples, ∃ e, l.entry g.name = some e ∧
    g.sample.stamp = e.envelope.publishStampNs ∧
    g.sample.originStamp = e.envelope.originStampNs ∧ g.sample.hopCount = e.envelope.hopCount

/-- In every run, the origin stamp of a record is the oldest stamp among the first-hop
records it goes back to, its hop count the longest chain behind it, and every record
held and every sample taken says so. -/
theorem pipeline_lineage [DecidableEq τ] [∀ t, Inhabited (T t)] {size : τ → Nat} {s : Pipeline T}
    {l : Log τ} (hr : (recordedPipeline T size).Reached anyStep (s, l)) : Lineage s l := by
  have h := recorded_reached hr
  have hwf := derives_wf h.sound
  refine ⟨fun i e he => ?_, fun i e he => ?_, fun i e he => (h.sound i e he).origin_le,
    fun t => (h.traced t).held, fun g hg => ?_⟩
  · rw [← Log.envelope_of he]
    exact isLeast_of_local hwf (fun j hj => (lineage_first h.sound hj).1)
      (fun j hj => (lineage_next h.sound hj).1) i
  · rw [← Log.envelope_of he]
    exact hops_of_local hwf (fun j hj => (lineage_first h.sound hj).2)
      (fun j hj => (lineage_next h.sound hj).2) i
  · obtain ⟨e, he, henv⟩ := h.taken g hg
    refine ⟨e, he, ?_⟩
    rw [henv]
    exact ⟨rfl, rfl, rfl⟩

/-- A value taken from one topic and published on to another. -/
theorem pipeline_lineage_relay : ∃ (s : Pipeline fun _ : Bool => Nat) (l : Log Bool),
    (recordedPipeline (fun _ : Bool => Nat) fun _ => 8).Reached anyStep (s, l) ∧
      l.ups (true, 1) = [(false, 1)] ∧
      l.envelope (true, 1) = { publishStampNs := 200, originStampNs := 100, hopCount := 1 } ∧
      s.samples.length = 1 ∧ Lineage s l := by
  have hrun : ((recordedPipeline (fun _ : Bool => Nat) fun _ => 8).exec
      (List.flatten [
        [.access false (.pub 0 .advertise), .access true (.pub 0 .advertise),
          .access false (.sub 0 .subscribe)],
        List.replicate 6 (.access false (.sub 0 (.go 0))), [.publish false 0 7 0],
        List.replicate 7 (.access false (.pub 0 (.go 100))), [.access false (.sub 0 .takeLatest)],
        List.replicate 7 (.access false (.sub 0 (.go 150))), [.publishDerived true 0 8 [0] 0],
        List.replicate 2 (.access true (.pub 0 (.go 200)))])
      ({ topics := fun _ => { subs := fun _ => {}, pubs := fun _ => {} } }, {})).map
        (fun q => (q.2.ups (true, 1), q.2.envelope (true, 1), q.1.samples.length)) =
      some ([(false, 1)], { publishStampNs := 200, originStampNs := 100, hopCount := 1 }, 1) := by
    decide +kernel
  obtain ⟨⟨s, l⟩, hs, hf⟩ := Option.map_eq_some_iff.mp hrun
  simp only [Prod.mk.injEq] at hf
  have hstart : (recordedPipeline (fun _ : Bool => Nat) fun _ => 8).Reached anyStep
      ({ topics := fun _ => { subs := fun _ => {}, pubs := fun _ => {} } }, {}) :=
    .start ⟨⟨fun _ => ⟨rfl, fun _ => rfl, fun _ => ⟨rfl, rfl, rfl, rfl⟩⟩, rfl⟩, rfl⟩
  have hr := Machine.reached_of_exec hstart hs
  exact ⟨s, l, hr, hf.1, hf.2.1, hf.2.2, pipeline_lineage hr⟩

end Xmmsg.InProc
