import Mathlib.Algebra.Group.Nat.Defs
import Xmmsg.Shm.Introspect
import Xmmsg.Shm.Owner
import Xmmsg.Sys.Seqlock

/-!
# The external observer's master-slot read

`IntrospectReader::ReadMasterEnvelope` of `introspect_reader.hpp` against the
publishers of a segment, generation after generation, with the master cell a
sequence word and record words. The observer copies the seven words of envelope
and ordinal, word by word, and accepts the copy if the sequence still is what it
was.

The sequence of a live publisher only grows. A publisher killed inside a store
leaves it odd, the next one resets it to zero and counts up again, and so the
value an observer started from can come back with another record under it.
`NoReuse` is the condition under which it does not; a run whose resets all fall
outside the observers' attempts meets it (`steady_noReuse`).

The segment model knows of the master cell only what a load makes of it. `master_words`
is the way from there to the words: every run of the segment's participants is a run of
publishers on the words, and what the segment has is what the words amount to.
-/

namespace Xmmsg.Shm

open Xmmsg.Sys

variable {T : Type}

/-! ## The record in the cell -/

/-- `align64(sizeof(ShmSegmentHeader))`. -/
def kMasterOffset : Nat := (1032 + 63) / 64 * 64

/-- The sequence and the write index come before the record. -/
def kCellPrefixWords : Nat := 2

def kEnvelopeWords : Nat := 7

def kPublishStampWord : Nat := 3

def kOriginStampWord : Nat := 4

def kOrdinalWord : Nat := 6

def kIntrospectRetryBudget : Nat := 4096

/-- The words of a record: 24 context bytes, two stamps, hop count and flags, the
ordinal, and from word seven on the payload. -/
def recordWord (payload : T → Nat → UInt64) (r : MailRecord T) : Nat → UInt64
  | 0 => .ofNat r.envelope.context
  | 1 => .ofNat (r.envelope.context / 2 ^ 64)
  | 2 => .ofNat (r.envelope.context / 2 ^ 128)
  | 3 => (Int64.ofInt r.envelope.publishStampNs).toUInt64
  | 4 => (Int64.ofInt r.envelope.originStampNs).toUInt64
  | 5 => .ofNat (r.envelope.hopCount % 2 ^ 32 + r.envelope.flags % 2 ^ 32 * 2 ^ 32)
  | 6 => .ofNat r.ordinal
  | i + 7 => payload r.payload i

/-! ## The observer -/

/-- Where an observer stands. Of the snapshot it fills in the last publish. -/
inductive ObserverPc where
  | idle
  | load (attempt : Nat)                                    -- (R1)
  | copy (attempt s1 : Nat) (staged : List UInt64)          -- the next word, or (R2)
  | ret (out : IntrospectSnapshot)
  deriving DecidableEq

/-- `continue`, while there is budget. -/
def ObserverPc.retry (attempt : Nat) : ObserverPc :=
  if attempt < kIntrospectRetryBudget then .load (attempt + 1) else .ret { master := .stalled }

/-- One access of `ReadMasterEnvelope` in a mapping of `size` bytes. -/
def readMasterEnvelope (size : Nat) (c : Seqlock.Cell UInt64) : ObserverPc → ObserverPc
  | .idle =>
      if kMasterOffset + (kCellPrefixWords + kEnvelopeWords) * 8 > size then
        .ret { master := .empty }
      else .load 0
  | .load attempt =>
      if c.seq = 0 then .ret { master := .empty }
      else if c.seq % 2 = 1 then .retry attempt
      else .copy attempt c.seq []
  | .copy attempt s1 staged =>
      if staged.length < kEnvelopeWords then
        .copy attempt s1 (staged ++ [c.words staged.length])
      else if c.seq = s1 then
        .ret {
          master := .value
          lastPublishStampNs := (staged.getD kPublishStampWord 0).toInt64
          lastOriginStampNs := (staged.getD kOriginStampWord 0).toInt64
          lastOrdinal := staged.getD kOrdinalWord 0 }
      else .retry attempt
  | .ret _ => .idle

/-! ## Publishers and observers -/

structure Slate (T : Type) where
  cell : Seqlock.Cell UInt64 := { words := fun _ => 0 }
  writer : Seqlock.Writer (MailRecord T) := .absent
  observers : Nat → ObserverPc := fun _ => .idle

inductive SlateAct (T : Type) where
  | writer (a : Seqlock.WriterAct (MailRecord T))
  | observer (o : Nat)

section Slate

variable (payload : T → Nat → UInt64) (payloadWords size : Nat)

def Slate.step (w : Slate T) : SlateAct T → Option (Slate T)
  | .writer a =>
      match Seqlock.writerStep (recordWord payload) (kEnvelopeWords + payloadWords) w.cell
          w.writer a with
      | some (c, wr) => some { w with cell := c, writer := wr }
      | none => none
  | .observer o =>
      some { w with observers :=
        Function.update w.observers o (readMasterEnvelope size w.cell (w.observers o)) }

/-- The records whose store has been completed. -/
def notePublished (w : Slate T) (a : SlateAct T) (_ : Slate T) (done : List (MailRecord T)) :
    List (MailRecord T) :=
  match a with
  | .writer b =>
      done ++ (Seqlock.completes (kEnvelopeWords + payloadWords) w.writer b).toList
  | .observer _ => done

/-- A fresh master cell, its publishers and its observers, with the list of what
has been published. -/
def slate : Machine (Slate T × List (MailRecord T)) (SlateAct T) :=
  Machine.withHistory ⟨fun w => w = {}, Slate.step payload payloadWords size⟩ []
    (notePublished payloadWords)

/-- No store completes on the sequence value that an observer started from, once that has
copied a word it reports. -/
def NoReuse (w : Slate T) : SlateAct T → Prop
  | .writer a =>
      (Seqlock.completes (kEnvelopeWords + payloadWords) w.writer a).isSome →
        ∀ o attempt s1 staged, w.observers o = .copy attempt s1 staged →
          kPublishStampWord < staged.length → w.cell.seq + 1 ≠ s1
  | .observer _ => True

/-- No reset falls into an attempt. -/
def NoReset (w : Slate T) : SlateAct T → Prop
  | .writer a => Seqlock.resets w.cell w.writer a = true →
      ∀ o attempt s1 staged, w.observers o ≠ .copy attempt s1 staged
  | .observer _ => True

/-- The snapshot was filled from `r`. -/
def FilledFrom (out : IntrospectSnapshot) (r : MailRecord T) : Prop :=
  out.lastPublishStampNs = Int64.ofInt r.envelope.publishStampNs ∧
    out.lastOriginStampNs = Int64.ofInt r.envelope.originStampNs ∧
    out.lastOrdinal = UInt64.ofNat r.ordinal

structure ObserverInv (w : Slate T) (done : List (MailRecord T)) : Prop where
  cell : Seqlock.CellInv (recordWord payload) (kEnvelopeWords + payloadWords) w.cell w.writer done
  copy : ∀ o attempt s1 staged, w.observers o = .copy attempt s1 staged →
    s1 % 2 = 0 ∧ s1 ≠ 0 ∧ staged.length ≤ kEnvelopeWords ∧
      Seqlock.Copied w.cell s1 kPublishStampWord staged
  ret : ∀ o out, w.observers o = .ret out → out.master = .value →
    ∃ r ∈ done, FilledFrom out r

end Slate

variable {payload : T → Nat → UInt64} {payloadWords size : Nat}

theorem slate_step_cases {q q' : Slate T × List (MailRecord T)} {a : SlateAct T}
    (hs : (slate payload payloadWords size).step q a = some q') :
    (∃ b c wr, a = .writer b ∧
      Seqlock.writerStep (recordWord payload) (kEnvelopeWords + payloadWords) q.1.cell q.1.writer
        b = some (c, wr) ∧
      q' = ({ q.1 with cell := c, writer := wr },
        q.2 ++ (Seqlock.completes (kEnvelopeWords + payloadWords) q.1.writer b).toList)) ∨
    (∃ o, a = .observer o ∧
      q' = ({ q.1 with observers :=
        Function.update q.1.observers o (readMasterEnvelope size q.1.cell (q.1.observers o)) },
        q.2)) := by
  obtain ⟨h1, h2⟩ := Machine.withHistory_step hs
  obtain ⟨w', done'⟩ := q'
  cases a with
  | writer b =>
      simp only [Slate.step] at h1
      split at h1
      · next c wr hw =>
        cases h1
        exact .inl ⟨b, c, wr, rfl, hw, congrArg (Prod.mk _) h2⟩
      · cases h1
  | observer o =>
      simp only [Slate.step] at h1
      cases h1
      exact .inr ⟨o, rfl, congrArg (Prod.mk _) h2⟩

/-- What an access of the observer leads to. -/
theorem readMasterEnvelope_cases (size : Nat) (c : Seqlock.Cell UInt64) (pc : ObserverPc) :
    (∀ attempt s1 staged, readMasterEnvelope size c pc ≠ .copy attempt s1 staged) ∧
      (∀ out, readMasterEnvelope size c pc = .ret out → out.master ≠ .value) ∨
    (∃ attempt, readMasterEnvelope size c pc = .copy attempt c.seq [] ∧ c.seq % 2 = 0 ∧
      c.seq ≠ 0) ∨
    (∃ attempt s1 staged, pc = .copy attempt s1 staged ∧ staged.length < kEnvelopeWords ∧
      readMasterEnvelope size c pc = .copy attempt s1 (staged ++ [c.words staged.length])) ∨
    (∃ attempt s1 staged, pc = .copy attempt s1 staged ∧ ¬ staged.length < kEnvelopeWords ∧
      c.seq = s1 ∧ readMasterEnvelope size c pc = .ret {
        master := .value
        lastPublishStampNs := (staged.getD kPublishStampWord 0).toInt64
        lastOriginStampNs := (staged.getD kOriginStampWord 0).toInt64
        lastOrdinal := staged.getD kOrdinalWord 0 }) := by
  have hretry : ∀ attempt, (∀ a s1 staged, ObserverPc.retry attempt ≠ .copy a s1 staged) ∧
      ∀ out, ObserverPc.retry attempt = .ret out → out.master ≠ .value := by
    intro attempt
    simp only [ObserverPc.retry]
    split
    · exact ⟨fun _ _ _ h0 => (nomatch h0), fun _ h0 => (nomatch h0)⟩
    · refine ⟨fun _ _ _ h0 => (nomatch h0), fun out h0 => ?_⟩
      cases h0
      exact fun h1 => nomatch h1
  cases pc with
  | idle =>
      refine .inl ?_
      simp only [readMasterEnvelope]
      split
      · refine ⟨fun _ _ _ h0 => (nomatch h0), fun out h0 => ?_⟩
        cases h0
        exact fun h1 => nomatch h1
      · exact ⟨fun _ _ _ h0 => (nomatch h0), fun _ h0 => (nomatch h0)⟩
  | load attempt =>
      simp only [readMasterEnvelope]
      split
      · refine .inl ⟨fun _ _ _ h0 => (nomatch h0), fun out h0 => ?_⟩
        cases h0
        exact fun h1 => nomatch h1
      · split
        · exact .inl (hretry attempt)
        · next hz ho => exact .inr (.inl ⟨attempt, rfl, by omega, hz⟩)
  | copy attempt s1 staged =>
      simp only [readMasterEnvelope]
      split
      · next hlt => exact .inr (.inr (.inl ⟨attempt, s1, staged, rfl, hlt, rfl⟩))
      · next hge =>
        split
        · next hs => exact .inr (.inr (.inr ⟨attempt, s1, staged, rfl, hge, hs, rfl⟩))
        · exact .inl (hretry attempt)
  | ret out => exact .inl ⟨fun _ _ _ h0 => (nomatch h0), fun _ h0 => (nomatch h0)⟩

/-- A copy with both stamps and the ordinal of one record reports it. -/
theorem filledFrom_words {staged : List UInt64} {r : MailRecord T}
    (hst : ∀ j, kPublishStampWord ≤ j → j < kEnvelopeWords →
      staged[j]? = some (recordWord payload r j)) :
    FilledFrom {
      master := .value
      lastPublishStampNs := (staged.getD kPublishStampWord 0).toInt64
      lastOriginStampNs := (staged.getD kOriginStampWord 0).toInt64
      lastOrdinal := staged.getD kOrdinalWord 0 } r := by
  have hword : ∀ j, kPublishStampWord ≤ j → j < kEnvelopeWords →
      staged.getD j 0 = recordWord payload r j := by
    intro j hk hj
    rw [List.getD_eq_getElem?_getD, hst j hk hj, Option.getD_some]
  rw [FilledFrom, hword _ (by decide) (by decide), hword _ (by decide) (by decide),
    hword _ (by decide) (by decide)]
  exact ⟨Int64.toInt64_toUInt64 _, Int64.toInt64_toUInt64 _, rfl⟩

theorem observerInv_writer {w : Slate T} {done : List (MailRecord T)}
    {a : Seqlock.WriterAct (MailRecord T)} {c : Seqlock.Cell UInt64}
    {wr : Seqlock.Writer (MailRecord T)} (h : ObserverInv payload payloadWords w done)
    (hok : NoReuse payloadWords w (.writer a))
    (hs : Seqlock.writerStep (recordWord payload) (kEnvelopeWords + payloadWords) w.cell w.writer
      a = some (c, wr)) :
    ObserverInv payload payloadWords { w with cell := c, writer := wr }
      (done ++ (Seqlock.completes (kEnvelopeWords + payloadWords) w.writer a).toList) := by
  refine ⟨h.cell.step hs, fun o attempt s1 staged ho => ?_, fun o out ho hv => ?_⟩
  · obtain ⟨he, hz, hlen, hc⟩ := h.copy o attempt s1 staged ho
    exact ⟨he, hz, hlen, hc.step h.cell he hz hs fun hd hk =>
      hok hd o attempt s1 staged ho hk⟩
  · obtain ⟨r, hr, hf⟩ := h.ret o out ho hv
    exact ⟨r, List.mem_append_left _ hr, hf⟩

theorem observerInv_observer {w : Slate T} {done : List (MailRecord T)}
    (h : ObserverInv payload payloadWords w done) (o : Nat) :
    ObserverInv payload payloadWords
      { w with observers :=
        Function.update w.observers o (readMasterEnvelope size w.cell (w.observers o)) } done := by
  have hcases := readMasterEnvelope_cases size w.cell (w.observers o)
  refine ⟨h.cell, fun o' attempt s1 staged ho => ?_, fun o' out ho hv => ?_⟩
  · by_cases e : o' = o
    · subst e
      simp only [Function.update_self] at ho
      rcases hcases with ⟨h0, -⟩ | ⟨a', h0, he, hz⟩ | ⟨a', s', st', h1, hlt, h0⟩ |
        ⟨a', s', st', -, -, -, h0⟩
      · exact absurd ho (h0 attempt s1 staged)
      · rw [h0] at ho
        cases ho
        exact ⟨he, hz, Nat.zero_le _, .start _ _ _⟩
      · rw [h0] at ho
        cases ho
        obtain ⟨he, hz, -, hc⟩ := h.copy o' attempt s1 st' h1
        exact ⟨he, hz, by rw [List.length_append]; exact hlt, hc.word⟩
      · rw [h0] at ho
        cases ho
    · simp only [Function.update_of_ne e] at ho
      exact h.copy o' attempt s1 staged ho
  · by_cases e : o' = o
    · subst e
      simp only [Function.update_self] at ho
      rcases hcases with ⟨-, h0⟩ | ⟨a', h0, -⟩ | ⟨a', s', st', -, -, h0⟩ |
        ⟨a', s', st', h1, hge, hseq, h0⟩
      · exact absurd hv (h0 out ho)
      · rw [h0] at ho
        cases ho
      · rw [h0] at ho
        cases ho
      · -- the sequence still stands: what is reported is of one record
        obtain ⟨he, hz, hle, hc⟩ := h.copy o' a' s' st' h1
        have hlen : st'.length = kEnvelopeWords := by omega
        obtain ⟨r, hr, hst⟩ := hc.whole h.cell he hz hseq (by omega)
        rw [h0] at ho
        cases ho
        rw [hlen] at hst
        exact ⟨r, hr, filledFrom_words hst⟩
    · simp only [Function.update_of_ne e] at ho
      exact h.ret o' out ho hv

theorem observerInv_reached {q : Slate T × List (MailRecord T)}
    (hq : (slate payload payloadWords size).Reached (fun q a => NoReuse payloadWords q.1 a) q) :
    ObserverInv payload payloadWords q.1 q.2 := by
  refine hq.invariant (P := fun q => ObserverInv payload payloadWords q.1 q.2) ?_ ?_
  · rintro ⟨w, done⟩ ⟨rfl, rfl⟩
    refine ⟨⟨fun h0 => (nomatch h0), fun _ _ h0 => (nomatch h0), fun _ h0 => absurd rfl h0⟩,
      fun _ _ _ _ h0 => (nomatch h0), fun _ _ h0 => (nomatch h0)⟩
  · rintro q a q' - h hok hs
    rcases slate_step_cases hs with ⟨b, c, wr, rfl, hw, rfl⟩ | ⟨o, rfl, rfl⟩
    · exact observerInv_writer h hok hw
    · exact observerInv_observer h o

/-- In every run in which no sequence value is reused under an observer that is
copying, a snapshot that says it has a value was filled from one published
record. -/
theorem observer_untorn {w : Slate T} {done : List (MailRecord T)}
    (hw : (slate payload payloadWords size).Reached (fun q a => NoReuse payloadWords q.1 a)
      (w, done)) {o : Nat} {out : IntrospectSnapshot} (ho : w.observers o = .ret out)
    (hv : out.master = .value) : ∃ r ∈ done, FilledFrom out r :=
  (observerInv_reached hw).ret o out ho hv

/-- Where no reset falls into an attempt, the sequence has only grown since an
observer loaded it, and no value comes back. -/
theorem steady_noReuse {q : Slate T × List (MailRecord T)}
    (hq : (slate payload payloadWords size).Reached (fun q a => NoReset q.1 a) q) :
    (slate payload payloadWords size).Reached (fun q a => NoReuse payloadWords q.1 a) q := by
  refine (hq.invariant (P := fun q =>
    (slate payload payloadWords size).Reached (fun q a => NoReuse payloadWords q.1 a) q ∧
      ∀ o attempt s1 staged, q.1.observers o = .copy attempt s1 staged → s1 ≤ q.1.cell.seq)
    ?_ ?_).1
  · rintro ⟨w, done⟩ ⟨rfl, rfl⟩
    exact ⟨.start ⟨rfl, rfl⟩, fun _ _ _ _ h0 => nomatch h0⟩
  · rintro q a q' - ⟨hr, hle⟩ hok hs
    have hnew : NoReuse payloadWords q.1 a := by
      cases a with
      | writer b =>
          intro _ o attempt s1 staged ho
          have := hle o attempt s1 staged ho
          omega
      | observer o => trivial
    refine ⟨hr.next hnew hs, ?_⟩
    rcases slate_step_cases hs with ⟨b, c, wr, rfl, hw, rfl⟩ | ⟨o, rfl, rfl⟩
    · intro o attempt s1 staged ho
      have hb : Seqlock.resets q.1.cell q.1.writer b = false := by
        by_contra h0
        exact hok (by simpa using h0) o attempt s1 staged ho
      exact Nat.le_trans (hle o attempt s1 staged ho) (Seqlock.writerStep_grows hw hb)
    · intro o' attempt s1 staged ho
      by_cases e : o' = o
      · subst e
        simp only [Function.update_self] at ho
        rcases readMasterEnvelope_cases size q.1.cell (q.1.observers o') with ⟨h0, -⟩ |
          ⟨a', h0, -⟩ | ⟨a', s', st', h1, -, h0⟩ | ⟨a', s', st', -, -, -, h0⟩
        · exact absurd ho (h0 attempt s1 staged)
        · rw [h0] at ho
          cases ho
          exact Nat.le_refl _
        · rw [h0] at ho
          cases ho
          exact hle o' attempt s1 st' h1
        · rw [h0] at ho
          cases ho
      · simp only [Function.update_of_ne e] at ho
        exact hle o' attempt s1 staged ho

/-! ## The cell of the segment model -/

/-- What the segment model keeps of a cell. -/
def Views (payload : T → Nat → UInt64) (n : Nat) (c : Seqlock.Cell UInt64) : Cell T → Prop
  | .empty => c.seq = 0
  | .full r => c.seq % 2 = 0 ∧ c.seq ≠ 0 ∧ c.Holds (recordWord payload) n r
  | .torn => c.seq % 2 = 1

/-- The same access there: a repair, and a store in two steps. -/
def Cell.access (n : Nat) (v : Cell T) : Seqlock.Writer (MailRecord T) →
    Seqlock.WriterAct (MailRecord T) → Cell T
  | .claimed, .go => v.repair
  | .ready, .store _ => .torn
  | .storing r i, .go => if i < n then v else .full r
  | _, _ => v

/-- Words and sequence do what the segment model's cell does. -/
theorem Views.step {n : Nat} {c c' : Seqlock.Cell UInt64}
    {wr wr' : Seqlock.Writer (MailRecord T)} {a : Seqlock.WriterAct (MailRecord T)}
    {done : List (MailRecord T)} {v : Cell T} (h : Views payload n c v)
    (hc : Seqlock.CellInv (recordWord payload) n c wr done)
    (hs : Seqlock.writerStep (recordWord payload) n c wr a = some (c', wr')) :
    Views payload n c' (v.access n wr a) := by
  cases a with
  | claim | leave | kill =>
      cases wr <;> cases hs
      all_goals exact h
  | store r =>
      cases wr <;> cases hs
      have := hc.ready rfl
      simp only [Cell.access, Views]
      omega
  | go =>
      cases wr with
      | absent | ready => cases hs
      | claimed =>
          simp only [Seqlock.writerStep, Option.some.injEq, Prod.mk.injEq] at hs
          rw [← hs.1]
          cases v with
          | torn =>
              have hodd : c.seq % 2 = 1 := h
              rw [if_pos hodd]
              rfl
          | empty =>
              rw [if_neg (by rw [h]; decide)]
              exact h
          | full r =>
              rw [if_neg (by rw [h.1]; decide)]
              exact h
      | storing r i =>
          obtain ⟨ho, hin, hw⟩ := hc.storing r i rfl
          simp only [Seqlock.writerStep] at hs
          simp only [Cell.access]
          split at hs
          · next hi =>
            cases hs
            rw [if_pos hi]
            cases v with
            | torn => exact h
            | empty => rw [h] at ho; cases ho
            | full r' => rw [h.1] at ho; cases ho
          · next hi =>
            cases hs
            rw [if_neg hi]
            refine ⟨by simp only; omega, by simp only; omega, fun j hj => hw j (by omega)⟩

/-- At the end of some run of the publishers `wr` is the writer, and the words amount to
`v`. -/
def Shows (payload : T → Nat → UInt64) (payloadWords size : Nat) (v : Cell T)
    (wr : Seqlock.Writer (MailRecord T)) : Prop :=
  ∃ q, (slate payload payloadWords size).Reached anyStep q ∧ q.1.writer = wr ∧
    Views payload (kEnvelopeWords + payloadWords) q.1.cell v

theorem cellInv_reached {ok : Slate T × List (MailRecord T) → SlateAct T → Prop}
    {q : Slate T × List (MailRecord T)}
    (hq : (slate payload payloadWords size).Reached ok q) :
    Seqlock.CellInv (recordWord payload) (kEnvelopeWords + payloadWords) q.1.cell q.1.writer
      q.2 := by
  refine hq.invariant (P := fun q => Seqlock.CellInv (recordWord payload)
    (kEnvelopeWords + payloadWords) q.1.cell q.1.writer q.2) ?_ ?_
  · rintro ⟨w, done⟩ ⟨rfl, rfl⟩
    exact ⟨fun h0 => (nomatch h0), fun _ _ h0 => (nomatch h0), fun _ h0 => absurd rfl h0⟩
  · rintro q a q' - h - hs
    rcases slate_step_cases hs with ⟨b, c, wr, rfl, hw, rfl⟩ | ⟨o, rfl, rfl⟩
    · exact h.step hw
    · exact h

theorem shows_start : Shows payload payloadWords size .empty .absent :=
  ⟨({}, []), .start ⟨rfl, rfl⟩, rfl, rfl⟩

/-- The writer takes its next step, the same whatever the words are. -/
theorem Shows.step {v : Cell T} {wr wr' : Seqlock.Writer (MailRecord T)}
    (h : Shows payload payloadWords size v wr) (a : Seqlock.WriterAct (MailRecord T))
    (ha : ∀ c, ∃ c', Seqlock.writerStep (recordWord payload) (kEnvelopeWords + payloadWords) c wr
      a = some (c', wr')) :
    Shows payload payloadWords size (v.access (kEnvelopeWords + payloadWords) wr a) wr' := by
  obtain ⟨q, hq, rfl, hv⟩ := h
  obtain ⟨c', hc⟩ := ha q.1.cell
  have hnext : (slate payload payloadWords size).step q (.writer a) = some
      ({ q.1 with cell := c', writer := wr' },
        q.2 ++ (Seqlock.completes (kEnvelopeWords + payloadWords) q.1.writer a).toList) := by
    simp only [slate, Machine.withHistory, Slate.step, hc, Option.map_some, notePublished]
  exact ⟨_, hq.next trivial hnext, rfl, hv.step (cellInv_reached hq) hc⟩

/-- The rest of a store. -/
theorem Shows.stored {r : MailRecord T} : ∀ {n i : Nat}, i + n = kEnvelopeWords + payloadWords →
    Shows payload payloadWords size .torn (.storing r i) →
    Shows payload payloadWords size (.full r) .ready := by
  intro n
  induction n with
  | zero =>
      intro i hi h
      have hlast : ¬ i < kEnvelopeWords + payloadWords := by omega
      have hdone := h.step .go fun c => ⟨{ c with seq := c.seq + 1 }, if_neg hlast⟩
      rwa [Cell.access, if_neg hlast] at hdone
  | succ n ih =>
      intro i hi h
      have hlt : i < kEnvelopeWords + payloadWords := by omega
      have hword := h.step .go fun c =>
        ⟨{ c with words := Function.update c.words i (recordWord payload r i) }, if_pos hlt⟩
      rw [Cell.access, if_pos hlt] at hword
      exact ih (by omega) hword

/-- Where an owner of the publisher slot stands with the master cell. -/
def PubPc.writer : PubPc T → Seqlock.Writer (MailRecord T)
  | .unwired | .casZero | .probeOwner _ | .casOwner _ | .refused | .gone => .absent
  | .bumpEpoch | .repairMaster => .claimed
  | .masterEnd r => .storing r 0
  | _ => .ready

theorem writer_owning {pc : PubPc T} : pc.writer = .absent ↔ pc.owning = false := by
  cases pc <;> simp [PubPc.writer, PubPc.owning]

/-- What an access of a publisher means for the cell. -/
inductive MasterMove (v : Cell T) : Seqlock.Writer (MailRecord T) → Cell T →
    Seqlock.Writer (MailRecord T) → Prop
  | quiet (wr : Seqlock.Writer (MailRecord T)) : MasterMove v wr v wr
  | claim : MasterMove v .absent v .claimed
  | repair : MasterMove v .claimed v.repair .ready
  | opens (r : MailRecord T) : MasterMove v .ready .torn (.storing r 0)
  | closes (r : MailRecord T) : MasterMove v (.storing r 0) (.full r) .ready
  | leave : MasterMove v .ready v .absent

theorem pubStep_masterMove {alive : Nat → Bool} {h h' : Segment T} {ep ep' : PubEp T} {a : PubAct T}
    {bytes : Nat} (hs : pubStep bytes alive h ep a = some (h', ep')) :
    MasterMove h.master ep.pc.writer h'.master ep'.pc.writer := by
  cases a with
  | publish m | destroy =>
      simp only [pubStep] at hs
      cases hpc : ep.pc <;> simp only [hpc] at hs <;> cases hs <;> exact .quiet _
  | go =>
      simp only [pubStep] at hs
      cases hpc : ep.pc <;> simp only [hpc] at hs
      case repairMaster =>
        cases hs
        exact .repair
      case masterBegin r =>
        cases hs
        exact .opens r
      case masterEnd r =>
        cases hs
        exact .closes r
      case casRelease =>
        cases hs
        have hsame : (if h.pubPid = ep.pid then { h with pubPid := 0 } else h).master =
            h.master := by
          split <;> rfl
        rw [hsame]
        exact .leave
      all_goals
        repeat' split at hs
        all_goals
          first
            | (cases hs; done)
            | (cases hs; exact .quiet _)
            | (cases hs; exact .claim)

theorem MasterMove.absent {v v' : Cell T} (hm : MasterMove v .absent v' .absent) : v' = v := by
  cases hm
  rfl

theorem MasterMove.shows {v v' : Cell T} {wr wr' : Seqlock.Writer (MailRecord T)}
    (hm : MasterMove v wr v' wr') (h : Shows payload payloadWords size v wr) :
    Shows payload payloadWords size v' wr' := by
  cases hm with
  | quiet => exact h
  | claim => exact h.step .claim fun c => ⟨c, rfl⟩
  | repair => exact h.step .go fun c => ⟨_, rfl⟩
  | opens r => exact h.step (.store r) fun c => ⟨_, rfl⟩
  | closes r =>
      -- inside a store the sequence is odd, so the cell is torn
      obtain ⟨q, hq, hwr, hv⟩ := h
      have hodd := ((cellInv_reached hq).storing r 0 hwr).1
      have htorn : v = .torn := by
        cases v with
        | empty =>
            have hzero : q.1.cell.seq = 0 := hv
            omega
        | full r' =>
            have heven : q.1.cell.seq % 2 = 0 := hv.1
            omega
        | torn => rfl
      subst htorn
      exact Shows.stored (Nat.zero_add _) ⟨q, hq, hwr, hv⟩
  | leave => exact h.step .leave fun c => ⟨c, rfl⟩

/-- The writer is the live owner of the slot, where there is one. -/
structure Writes (w : World T) (wr : Seqlock.Writer (MailRecord T)) : Prop where
  owner : ∀ p, w.livePub p → (w.pubs p).pc.owning = true → (w.pubs p).pc.writer = wr
  nobody : (∀ p, w.livePub p → (w.pubs p).pc.owning = false) → wr = .absent

theorem Writes.die {w : World T} {wr : Seqlock.Writer (MailRecord T)} (h : Writes w wr)
    (hinv : OwnerInv w) (pid : Nat) (hs : Shows payload payloadWords size w.seg.master wr) :
    ∃ wr', Writes (w.kill pid) wr' ∧
      Shows payload payloadWords size (w.kill pid).seg.master wr' := by
  by_cases hown : ∃ p, w.livePub p ∧ (w.pubs p).pc.owning = true ∧ (w.pubs p).pid = pid
  · -- the owner is gone, and whatever it has left stays
    obtain ⟨p, hl, ho, rfl⟩ := hown
    refine ⟨.absent, ⟨fun q hq hoq => ?_, fun _ => rfl⟩, ?_⟩
    · obtain rfl := hinv.unique q p (World.alive_of_kill w _ hq) hl hoq ho
      simp [World.livePub, World.alive, World.kill] at hq
    · rw [← h.owner p hl ho] at hs
      have hpresent : ∀ c, ∃ c', Seqlock.writerStep (recordWord payload)
          (kEnvelopeWords + payloadWords) c (w.pubs p).pc.writer .kill = some (c', .absent) := by
        intro c
        cases hwr : (w.pubs p).pc.writer with
        | absent =>
            rw [writer_owning, ho] at hwr
            cases hwr
        | claimed | ready | storing => exact ⟨c, rfl⟩
      have hleft := hs.step .kill hpresent
      have hsame : w.seg.master.access (kEnvelopeWords + payloadWords) (w.pubs p).pc.writer
          .kill = w.seg.master := by
        cases (w.pubs p).pc.writer <;> rfl
      rwa [hsame] at hleft
  · refine ⟨wr, ⟨fun p hp ho => h.owner p (World.alive_of_kill w pid hp) ho, fun hno => ?_⟩, hs⟩
    refine h.nobody fun p hp => Bool.eq_false_iff.mpr fun ho => ?_
    have hne : (w.pubs p).pid ≠ pid := fun h0 => hown ⟨p, hp, ho, h0⟩
    have hstays : (w.kill pid).livePub p := by
      simpa [World.livePub, World.alive, World.kill, hne] using hp
    have hnone : (w.pubs p).pc.owning = false := hno p hstays
    rw [ho] at hnone
    cases hnone

/-- A publisher's access, with nobody but itself in the slot before and after. -/
theorem Writes.put {w : World T} {wr : Seqlock.Writer (MailRecord T)} (h : Writes w wr)
    (hinv : OwnerInv w) {p : Nat} {h' : Segment T} {ep' : PubEp T}
    (hinv' : OwnerInv (w.putPub p h' ep')) (hal : w.livePub p)
    (hpid : ep'.pid = (w.pubs p).pid)
    (hmove : MasterMove w.seg.master (w.pubs p).pc.writer h'.master ep'.pc.writer)
    (hs : Shows payload payloadWords size w.seg.master wr) :
    ∃ wr', Writes (w.putPub p h' ep') wr' ∧
      Shows payload payloadWords size (w.putPub p h' ep').seg.master wr' := by
  have hal' : (w.putPub p h' ep').livePub p := by
    rw [World.livePub, World.putPub_self, hpid]
    exact hal
  by_cases hown : (w.pubs p).pc.owning = true ∨ ep'.pc.owning = true
  · -- the mover is the writer, before or from now on
    have hwr : (w.pubs p).pc.writer = wr := by
      cases ho : (w.pubs p).pc.owning with
      | true => exact h.owner p hal ho
      | false =>
          rw [writer_owning.mpr ho]
          refine (h.nobody fun q hq => Bool.eq_false_iff.mpr fun hoq => ?_).symm
          have hqp : q ≠ p := by
            rintro rfl
            rw [ho] at hoq
            cases hoq
          refine hqp (hinv'.unique q p ?_ hal' ?_ ?_)
          · rw [World.livePub, World.putPub_ne _ _ _ _ hqp]
            exact hq
          · rw [World.putPub_ne _ _ _ _ hqp]
            exact hoq
          · rw [World.putPub_self]
            exact hown.resolve_left fun h0 => by rw [ho] at h0; cases h0
    rw [← hwr] at hs
    refine ⟨ep'.pc.writer, ⟨fun q hq hoq => ?_, fun hno => ?_⟩, hmove.shows hs⟩
    · by_cases hqp : q = p
      · rw [hqp, World.putPub_self]
      · rw [World.livePub, World.putPub_ne _ _ _ _ hqp] at hq
        rw [World.putPub_ne _ _ _ _ hqp] at hoq
        rcases hown with ho | ho
        · exact absurd (hinv.unique q p hq hal hoq ho) hqp
        · refine absurd (hinv'.unique q p ?_ hal' ?_ ?_) hqp
          · rw [World.livePub, World.putPub_ne _ _ _ _ hqp]
            exact hq
          · rw [World.putPub_ne _ _ _ _ hqp]
            exact hoq
          · rw [World.putPub_self]
            exact ho
    · have := hno p hal'
      rw [World.putPub_self] at this
      exact writer_owning.mpr this
  · -- a publisher without the slot leaves the cell alone
    obtain ⟨ho, ho'⟩ := not_or.mp hown
    have hold := writer_owning.mpr (Bool.eq_false_iff.mpr ho)
    have hnew := writer_owning.mpr (Bool.eq_false_iff.mpr ho')
    have hmas : h'.master = w.seg.master := by
      rw [hold, hnew] at hmove
      exact hmove.absent
    rw [World.putPub_seg, hmas]
    refine ⟨wr, ⟨fun q hq hoq => ?_, fun hno => h.nobody fun q hq => ?_⟩, hs⟩
    · by_cases hqp : q = p
      · rw [hqp, World.putPub_self] at hoq
        exact absurd hoq ho'
      · rw [World.livePub, World.putPub_ne _ _ _ _ hqp] at hq
        rw [World.putPub_ne _ _ _ _ hqp] at hoq ⊢
        exact h.owner q hq hoq
    · by_cases hqp : q = p
      · rw [hqp]
        exact Bool.eq_false_iff.mpr ho
      · have := hno q (by rw [World.livePub, World.putPub_ne _ _ _ _ hqp]; exact hq)
        rwa [World.putPub_ne _ _ _ _ hqp] at this

/-- Every run of the participants of a segment is one of publishers on the words of its
master cell, whoever is killed and wherever. -/
theorem master_words {bytes : Nat} {w : World T} (hw : (machine T bytes).Reached anyStep w) :
    ∃ wr, Writes w wr ∧ Shows payload payloadWords size w.seg.master wr := by
  induction hw with
  | start hfresh =>
      obtain ⟨hseg, -, -, hpub⟩ := hfresh
      refine ⟨.absent, ⟨fun p _ ho => ?_, fun _ => rfl⟩, ?_⟩
      · rw [(hpub p).2.1] at ho
        cases ho
      · rw [hseg]
        exact shows_start
  | @next w a w' hr _ hs ih =>
      obtain ⟨wr, hwrites, hshows⟩ := ih
      have hinv := ownerInv_reached hr
      rcases step_cases hs with ⟨pid, rfl, rfl⟩ | ⟨e, b, h', ep', rfl, -, hsub, rfl⟩ |
        ⟨p, b, h', ep', rfl, hal, hpub, rfl⟩
      · exact hwrites.die hinv pid hshows
      · have hmas : h'.master = w.seg.master := (subStep_header hsub).2.2
        rw [World.putSub_seg, hmas]
        exact ⟨wr, ⟨hwrites.owner, hwrites.nobody⟩, hshows⟩
      · have hmove := pubStep_masterMove hpub
        have hpid := pubStep_pid hpub
        exact hwrites.put hinv (ownerInv_reached (hr.next trivial hs)) hal hpid hmove hshows

/-! ## Runs -/

/-- A record all of whose reported fields are `n`. -/
def plainRecord (n : Nat) : MailRecord Unit :=
  { envelope := { publishStampNs := n, originStampNs := n }, ordinal := n, payload := () }

/-- Store `r` into a cell of payload-free records. -/
def storeAll (r : MailRecord Unit) : List (SlateAct Unit) :=
  .writer (.store r) :: List.replicate 8 (.writer .go)

def reported (stamp origin : Int64) (ordinal : UInt64) : IntrospectSnapshot where
  master := .value
  lastPublishStampNs := stamp
  lastOriginStampNs := origin
  lastOrdinal := ordinal

def observe (n : Nat) : List (SlateAct Unit) := List.replicate n (.observer 0)

/-- A generation takes over and repairs. -/
def takeOver : List (SlateAct Unit) := [.writer .claim, .writer .go]

theorem slate_start {ok : Slate Unit × List (MailRecord Unit) → SlateAct Unit → Prop} :
    (slate (fun _ _ => 0) 0 4096).Reached ok ({}, []) := .start ⟨rfl, rfl⟩

/-- The discipline, for runs with one observer. -/
def reuseCheck (q : Slate Unit × List (MailRecord Unit)) : SlateAct Unit → Bool
  | .writer a =>
      (Seqlock.completes (kEnvelopeWords + 0) q.1.writer a).isNone ||
        match q.1.observers 0 with
        | .copy _ s1 staged =>
            decide (staged.length ≤ kPublishStampWord) || q.1.cell.seq + 1 != s1
        | _ => true
  | .observer o => o == 0

/-- The others have not begun. -/
def Lone (q : Slate Unit × List (MailRecord Unit)) : Prop := ∀ o, o ≠ 0 → q.1.observers o = .idle

theorem reuseCheck_sound (q : Slate Unit × List (MailRecord Unit)) (a : SlateAct Unit)
    (hj : Lone q) (h : reuseCheck q a = true) : NoReuse 0 q.1 a := by
  cases a with
  | writer b =>
      intro hdone o attempt s1 staged ho hlen
      have ho0 : o = 0 := by
        refine Decidable.byContradiction fun h0 => ?_
        rw [hj o h0] at ho
        cases ho
      subst ho0
      have hnot : ¬ staged.length ≤ kPublishStampWord := Nat.not_le.mpr hlen
      simp only [reuseCheck, ho, Option.isNone_eq_false_iff.mpr hdone, Bool.false_or,
        decide_eq_false hnot] at h
      exact bne_iff_ne.mp h
  | observer o => trivial

theorem reuseCheck_keeps {q q' : Slate Unit × List (MailRecord Unit)} {a : SlateAct Unit}
    (hj : Lone q) (h : reuseCheck q a = true)
    (hs : (slate (fun _ _ => 0) 0 4096).step q a = some q') : Lone q' := by
  rcases slate_step_cases hs with ⟨b, c, wr, rfl, -, rfl⟩ | ⟨o, rfl, rfl⟩
  · exact hj
  · intro x hx
    have ho : o = 0 := eq_of_beq h
    exact (Function.update_of_ne (fun h0 => hx (h0.trans ho)) ..).trans (hj x hx)

/-- An observer has copied two words of record 1 when the publisher is killed inside the
store of record 2 and the next one, with the sequence back at 2, has stored record 3. It
copies on and reports record 3. -/
theorem observer_untorn_crash : ∃ (w : Slate Unit) (done : List (MailRecord Unit))
    (out : IntrospectSnapshot),
    (slate (fun _ _ => 0) 0 4096).Reached (fun q a => NoReuse 0 q.1 a) (w, done) ∧
      w.observers 0 = .ret out ∧ out.master = .value ∧ out.lastOrdinal = 3 ∧
      ∃ r ∈ done, FilledFrom out r := by
  have hrun : ((slate (fun _ _ => 0) 0 4096).execOk reuseCheck
      (takeOver ++ storeAll (plainRecord 1) ++ observe 4 ++
        [.writer (.store (plainRecord 2)), .writer .go, .writer .kill] ++ takeOver ++
        storeAll (plainRecord 3) ++ observe 6) ({}, [])).map
        (fun q => match q.1.observers 0 with
          | .ret out => some out
          | _ => none) =
      some (some (reported 3 3 3)) := by decide
  obtain ⟨⟨w, done⟩, hw, hf⟩ := Option.map_eq_some_iff.mp hrun
  have hr : (slate (fun _ _ => 0) 0 4096).Reached (fun q a => NoReuse 0 q.1 a) (w, done) :=
    Machine.reached_of_execOk (J := Lone) reuseCheck_sound
      (fun _ _ _ hj h hs => reuseCheck_keeps hj h hs) (fun _ _ => rfl) slate_start hw
  have ho : w.observers 0 = .ret (reported 3 3 3) := by
    split at hf
    · next out ho =>
      rw [ho, Option.some.inj hf]
    · cases hf
  exact ⟨w, done, _, hr, ho, rfl, rfl, observer_untorn hr ho rfl⟩

/-- The observer copies four words of record 1; the publisher is killed inside the
store of record 2; the next one resets the sequence and stores record 3, which
leaves the sequence at 2 again; the observer copies the rest and validates. -/
theorem observer_torn :
    ¬ ∀ (w : Slate Unit) (done : List (MailRecord Unit)),
      (slate (fun _ _ => 0) 0 4096).Reached anyStep (w, done) → ∀ o out,
        w.observers o = .ret out → out.master = .value → ∃ r ∈ done, FilledFrom out r := by
  intro hall
  have hrun : ((slate (fun _ _ => 0) 0 4096).exec
      (takeOver ++ storeAll (plainRecord 1) ++ observe 6 ++
        [.writer (.store (plainRecord 2)), .writer .kill] ++ takeOver ++
        storeAll (plainRecord 3) ++ observe 4) ({}, [])).map
        (fun q => (match q.1.observers 0 with
          | .ret out => some out
          | _ => none, q.2)) =
      some (some (reported 1 3 3), [plainRecord 1, plainRecord 3]) := by decide
  obtain ⟨⟨w, done⟩, hw, hf⟩ := Option.map_eq_some_iff.mp hrun
  simp only [Prod.mk.injEq] at hf
  have ho : w.observers 0 = .ret (reported 1 3 3) := by
    have h1 := hf.1
    split at h1
    · next out ho =>
      rw [ho, Option.some.inj h1]
    · cases h1
  obtain ⟨r, hr, h1, h2, -⟩ := hall w done (Machine.reached_of_exec slate_start hw) 0 _ ho rfl
  rw [hf.2] at hr
  rcases List.mem_cons.mp hr with rfl | hr
  · exact absurd h2 (by decide)
  · rw [List.mem_singleton.mp hr] at h1
    exact absurd h1 (by decide)

end Xmmsg.Shm
