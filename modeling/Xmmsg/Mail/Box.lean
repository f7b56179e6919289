import Xmmsg.Record
import Xmmsg.Sys.Machine

/-!
# One latest-only mailbox, whatever carries it

Both reaches give a latest-only subscriber the same thing: a cell that the
publish in flight overwrites and the subscriber reads, an ordinal baseline that
the first delivery stamps and later takes advance, and a counter the take adds
ordinal gaps to. `Box` is that, with the publish in flight reduced to how far it
has come with respect to this mailbox, and with a record of the run beside it:
the ordinals delivered here, handed back by takes, and charged as overwritten.

A publish is `coming` from its ordinal draw until it looks at the mailbox, then
`here`, `stamped` once the baseline is certain to be set, and `passed` after the
store. `tear` and `crash` are the shm reach's: a store in progress leaves the
cell unreadable, and a publisher may die anywhere.
-/

namespace Xmmsg.Mail

open Xmmsg.Sys

inductive Flight (T : Type) where
  | quiet
  | coming (r : MailRecord T)
  | here (r : MailRecord T)
  | stamped (r : MailRecord T)
  | passed (r : MailRecord T)

/-- A take, from the load of the cell to the return. -/
inductive Taking (T : Type) where
  | idle
  | got (r : MailRecord T)
  | charging (r : MailRecord T) (last : Nat)
  | storing (r : MailRecord T)
  | returning (r : MailRecord T)

structure Box (T : Type) where
  accepted : Nat := 0
  newest : Option (MailRecord T) := none
  flight : Flight T := .quiet
  joined : Bool := false
  cell : Option (MailRecord T) := none
  cached : Option (MailRecord T) := none
  base : Option Nat := none
  overwrites : Nat := 0
  taking : Taking T := .idle
  -- the record of the run
  origin : Option Nat := none
  stored : List Nat := []
  returned : List Nat := []
  charged : List Nat := []

inductive Event (T : Type) where
  | draw (r : MailRecord T)
  | reach
  | stamp
  | tear
  | store
  | finish
  | crash
  | seed (r : MailRecord T)
  | join (late : Bool)
  | leave
  | load (r : MailRecord T)
  | compare
  | charge
  | advance
  | ret

variable {T : Type}

/-- The events no discipline has anything to say about. -/
def Event.benign : Event T → Bool
  | .compare | .crash | .join _ => false
  | _ => true

def Flight.record : Flight T → Option (MailRecord T)
  | .quiet => none
  | .coming r | .here r | .stamped r | .passed r => some r

def Taking.record : Taking T → Option (MailRecord T)
  | .idle => none
  | .got r | .charging r _ | .storing r | .returning r => some r

namespace Box

/-- The publish this mailbox is still to receive. Before the subscriber has
joined, the publish in flight is nobody's business. -/
def awaited (m : Box T) : Option (MailRecord T) :=
  match m.flight with
  | .coming r => if m.joined then some r else none
  | .here r | .stamped r => some r
  | _ => none

/-- Handed back by a take, or about to be. -/
def Got (m : Box T) (o : Nat) : Prop :=
  o ∈ m.returned ∨ ∃ r, m.taking = .returning r ∧ r.ordinal = o

/-- A load reads the cell, or falls back on the last record read when the cell
is unreadable. -/
def Readable (m : Box T) (r : MailRecord T) : Prop :=
  m.cell = some r ∨ m.cell = none ∧ m.cached = some r

/-- What one event does. After `leave` the publishes in flight are nobody's
business again. -/
inductive Step (m : Box T) : Event T → Box T → Prop
  | draw (r : MailRecord T) : m.flight = .quiet → r.ordinal = m.accepted + 1 →
      Step m (.draw r)
        { m with accepted := m.accepted + 1, newest := some r, flight := .coming r }
  | reach (r : MailRecord T) : m.flight = .coming r → m.joined = true →
      Step m .reach { m with flight := .here r }
  | stamp (r : MailRecord T) : m.flight = .here r → m.base = none →
      Step m .stamp { m with
        base := some (r.ordinal - 1), origin := some (r.ordinal - 1), flight := .stamped r }
  | stampSet (r : MailRecord T) : m.flight = .here r → m.base ≠ none →
      Step m .stamp { m with flight := .stamped r }
  | tear (r : MailRecord T) : m.flight = .stamped r → Step m .tear { m with cell := none }
  | store (r : MailRecord T) (f : Flight T) : m.flight = .stamped r →
      f = .passed r ∨ m.joined = false ∧ f = .coming r →
      Step m .store { m with
        cell := some r, stored := m.stored ++ [r.ordinal], flight := f }
  | finish : m.awaited = none → Step m .finish { m with flight := .quiet }
  | crash : Step m .crash { m with flight := .quiet }
  | seed (r : MailRecord T) : m.joined = false → m.base = none → m.cached = none →
      r.ordinal ≤ m.accepted → Step m (.seed r) { m with cell := some r }
  | join : m.base = none → m.cached = none →
      Step m (.join false) { m with joined := true }
  | joinLate (r : MailRecord T) : m.base = none → m.cached = none →
      m.flight = .coming r → Step m (.join true) { m with joined := true, flight := .passed r }
  | leave (f : Flight T) : f = m.flight ∨ (∃ r, m.flight = .passed r ∧ f = .coming r) →
      Step m .leave { m with joined := false, flight := f }
  | load (r : MailRecord T) : m.taking = .idle → m.Readable r →
      Step m (.load r) { m with taking := .got r, cached := some r }
  | compareUnset (r : MailRecord T) : m.taking = .got r → m.base = none →
      Step m .compare { m with taking := .returning r }
  | compareOld (r : MailRecord T) (b : Nat) : m.taking = .got r → m.base = some b →
      r.ordinal ≤ b → Step m .compare { m with taking := .returning r }
  | compareNew (r : MailRecord T) (b : Nat) : m.taking = .got r → m.base = some b →
      b < r.ordinal → Step m .compare { m with taking := .charging r b }
  | charge (r : MailRecord T) (last : Nat) : m.taking = .charging r last →
      Step m .charge { m with
        overwrites := m.overwrites + (r.ordinal - last - 1)
        charged := m.charged ++ List.range' (last + 1) (r.ordinal - last - 1)
        taking := .storing r }
  | advance (r : MailRecord T) : m.taking = .storing r →
      Step m .advance { m with base := some r.ordinal, taking := .returning r }
  | ret (r : MailRecord T) : m.taking = .returning r →
      Step m .ret { m with returned := m.returned ++ [r.ordinal], taking := .idle }

/-! ## Two facts that ask nothing of the run -/

/-- The publish in flight carries the newest record and the highest ordinal. -/
def Flying (m : Box T) : Prop :=
  ∀ r, m.flight.record = some r → r.ordinal = m.accepted ∧ m.newest = some r

theorem flying_step {m m' : Box T} {e : Event T} (h : m.Flying) (hs : m.Step e m') :
    m'.Flying := by
  intro x hx
  cases hs with
  | draw r hq ho =>
      cases hx
      exact ⟨ho, rfl⟩
  | reach r hf | stamp r hf | stampSet r hf | joinLate r _ _ hf =>
      exact h x (by rw [hf]; exact hx)
  | store r f hf hf' =>
      rcases hf' with rfl | ⟨-, rfl⟩ <;> exact h x (by rw [hf]; exact hx)
  | finish | crash => cases hx
  | leave f hf =>
      rcases hf with rfl | ⟨r, hr, rfl⟩
      · exact h x hx
      · exact h x (by rw [hr]; exact hx)
  | _ => exact h x hx

/-- The newest record has the highest accepted ordinal. -/
def Named (m : Box T) : Prop :=
  (m.newest = none → m.accepted = 0) ∧ ∀ r, m.newest = some r → r.ordinal = m.accepted

theorem named_step {m m' : Box T} {e : Event T} (h : m.Named) (hs : m.Step e m') :
    m'.Named := by
  cases hs with
  | draw r hq ho =>
      refine ⟨fun h0 => (nomatch h0), fun x hx => ?_⟩
      cases hx
      exact ho
  | _ => exact h

/-! ## Nothing newer is lost

A joined mailbox holds the newest record, or the publish that carries it is still
on its way. The one event that can break this is the join itself, when the
publish in flight is already past the mailbox, or has come and gone since the seed
was read. -/

def Prompt (m : Box T) : Event T → Prop
  | .join late => m.accepted = 0 ∨ (late = false ∧ ∃ r, m.flight = .coming r) ∨
      m.cell = m.newest
  | .crash => False
  | _ => True

theorem prompt_of_benign {m : Box T} {e : Event T} (h : e.benign = true) : m.Prompt e := by
  cases e <;> trivial

def Current (m : Box T) : Prop :=
  m.joined = true → m.accepted = 0 ∨ m.awaited ≠ none ∨ m.cell = m.newest

theorem current_step {m m' : Box T} {e : Event T} (h : m.Current) (hfly : m.Flying)
    (hok : m.Prompt e) (hs : m.Step e m') : m'.Current := by
  intro hj
  cases hs with
  | draw r hq ho =>
      simp only at hj
      exact .inr (.inl (by simp [awaited, hj]))
  | reach r | stamp r | stampSet r => exact .inr (.inl (by simp [awaited]))
  | tear r hf => exact .inr (.inl (by simp [awaited, hf]))
  | store r f hf =>
      exact .inr (.inr (hfly r (by rw [hf]; rfl)).2.symm)
  | finish ha => exact (h hj).imp_right fun h0 => .inr (h0.resolve_left fun h1 => h1 ha)
  | crash => exact hok.elim
  | seed r hn =>
      simp only at hj
      rw [hn] at hj
      cases hj
  | join hb hc =>
      rcases hok with h0 | ⟨-, r, hr⟩ | h0
      · exact .inl h0
      · exact .inr (.inl (by simp [awaited, hr]))
      · exact .inr (.inr h0)
  | joinLate r =>
      rcases hok with h0 | ⟨h0, -⟩ | h0
      · exact .inl h0
      · cases h0
      · exact .inr (.inr h0)
  | leave => cases hj
  | _ => exact h hj

/-- With something accepted and nothing on its way, a joined mailbox holds the
newest record. -/
theorem Current.holds {m : Box T} (h : m.Current) (hn : m.Named) (hj : m.joined = true)
    (hpos : 0 < m.accepted) (hgo : m.awaited = none) :
    ∃ r, (m.newest = some r ∧ r.ordinal = m.accepted) ∧ m.cell = some r := by
  have hcell : m.cell = m.newest := by
    rcases h hj with h0 | h0 | h0
    · omega
    · exact absurd hgo h0
    · exact h0
  cases hr : m.newest with
  | none =>
      have := hn.1 hr
      omega
  | some r => exact ⟨r, ⟨rfl, hn.2 r hr⟩, hcell.trans hr⟩

end Box

/-! ## Whose flight it is

A topic has many publishers, and at most one of them in flight. -/

/-- Of the publishers' flights `F`, `f` is the one that is not quiet, if any. -/
def Aloft (F : Nat → Flight T) (f : Flight T) : Prop :=
  (∀ p, F p = .quiet ∨ F p = f) ∧ (f ≠ .quiet → ∃ p, F p = f)

theorem Aloft.alone {F : Nat → Flight T} {p : Nat} (h : ∀ q, q ≠ p → F q = .quiet) :
    Aloft F (F p) := by
  refine ⟨fun q => ?_, fun _ => ⟨p, rfl⟩⟩
  by_cases e : q = p
  · rw [e]
    exact .inr rfl
  · exact .inl (h q e)

theorem Aloft.eq_of_alone {F : Nat → Flight T} {f : Flight T} {p : Nat} (h : Aloft F f)
    (ho : ∀ q, q ≠ p → F q = .quiet) : f = F p := by
  by_cases hf : f = .quiet
  · rcases h.1 p with h1 | h1
    · rw [h1, hf]
    · exact h1.symm
  · obtain ⟨q, hq⟩ := h.2 hf
    obtain rfl : q = p := by
      by_contra hne
      exact hf (hq.symm.trans (ho q hne))
    exact hq.symm

theorem Aloft.congr {F F' : Nat → Flight T} {f : Flight T} (h : Aloft F f)
    (hF : ∀ p, F' p = F p) : Aloft F' f := by
  have : F' = F := funext hF
  exact this ▸ h

/-! ## The record of a run -/

/-- The records accepted so far, and per mailbox the ordinals stored into it,
handed back by its takes, and charged to its overwrite count, and the baseline as
stamped. -/
structure Trace (T : Type) where
  log : List (MailRecord T) := []
  stored : Nat → List Nat := fun _ => []
  returned : Nat → List Nat := fun _ => []
  charged : Nat → List Nat := fun _ => []
  origin : Nat → Option Nat := fun _ => none

/-- Add to one mailbox's list. -/
def extend {α : Type} (f : Nat → List α) (k : Nat) (os : List α) : Nat → List α :=
  Function.update f k (f k ++ os)

@[simp] theorem extend_self {α : Type} (f : Nat → List α) (k : Nat) (os : List α) :
    extend f k os k = f k ++ os := by simp [extend]

theorem extend_ne {α : Type} (f : Nat → List α) {k k' : Nat} (os : List α) (h : k' ≠ k) :
    extend f k os k' = f k' := by simp [extend, h]

end Xmmsg.Mail
