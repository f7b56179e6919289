import Mathlib.Logic.Function.Basic
import Mathlib.Data.List.Range

/-!
# Seqlock cells, word by word

A sequence word and the words of a record. A store makes the sequence odd, writes
the words one at a time and makes it even again; readers copy words and accept the
copy if the sequence did not change under them. The cell has one owner at a time,
who may die between any two accesses; the next owner finds an odd sequence then
and resets it to zero, which readers take for a cell never written.

What a reader relies on is that the sequence it started from does not come back
with other words under it. It starts from an even value other than zero, and only
the last access of a store writes one: `Copied.step` is the rule, and its side
condition is that this access does not write the value the reader holds.
-/

namespace Xmmsg.Sys.Seqlock

variable {R W : Type}

structure Cell (W : Type) where
  seq : Nat := 0
  words : Nat → W

/-- The owner of a cell: none, one that has still to repair it, one between
stores, or one with the words of `r` below `i` written. -/
inductive Writer (R : Type) where
  | absent
  | claimed
  | ready
  | storing (r : R) (i : Nat)

inductive WriterAct (R : Type) where
  | claim
  | go
  | store (r : R)
  | leave
  | kill

/-- One access of the owner to the cell of `n`-word records; `enc r` are the words
of `r`. -/
def writerStep (enc : R → Nat → W) (n : Nat) (c : Cell W) (wr : Writer R) :
    WriterAct R → Option (Cell W × Writer R)
  | .claim =>
      match wr with
      | .absent => some (c, .claimed)
      | _ => none
  | .store r =>
      match wr with
      | .ready => some ({ c with seq := c.seq + 1 }, .storing r 0)
      | _ => none
  | .go =>
      match wr with
      | .claimed => some (if c.seq % 2 = 1 then { c with seq := 0 } else c, .ready)
      | .storing r i =>
          if i < n then
            some ({ c with words := Function.update c.words i (enc r i) }, .storing r (i + 1))
          else some ({ c with seq := c.seq + 1 }, .ready)
      | _ => none
  | .leave =>
      match wr with
      | .ready => some (c, .absent)
      | _ => none
  | .kill =>
      match wr with
      | .absent => none
      | _ => some (c, .absent)

/-- The record a store completes with this access. -/
def completes (n : Nat) : Writer R → WriterAct R → Option R
  | .storing r i, .go => if i < n then none else some r
  | _, _ => none

/-- This access resets an odd sequence. -/
def resets (c : Cell W) : Writer R → WriterAct R → Bool
  | .claimed, .go => decide (c.seq % 2 = 1)
  | _, _ => false

section Inv

variable (enc : R → Nat → W) (n : Nat)

/-- The cell holds the words of `r`. -/
def Cell.Holds (c : Cell W) (r : R) : Prop := ∀ j, j < n → c.words j = enc r j

/-- Even and not zero, the sequence stands over the words of a completed store. -/
structure CellInv (c : Cell W) (wr : Writer R) (done : List R) : Prop where
  ready : wr = .ready → c.seq % 2 = 0
  storing : ∀ r i, wr = .storing r i →
    c.seq % 2 = 1 ∧ i ≤ n ∧ ∀ j, j < i → c.words j = enc r j
  even : c.seq % 2 = 0 → c.seq ≠ 0 → ∃ r ∈ done, c.Holds enc n r

variable {enc n}

/-- What an access of the owner does to the cell. -/
theorem writerStep_cases {c c' : Cell W} {wr wr' : Writer R} {a : WriterAct R}
    (hs : writerStep enc n c wr a = some (c', wr')) :
    (c' = c ∧ completes n wr a = none ∧ resets c wr a = false ∧
      (wr' = .absent ∨ wr' = .claimed ∨ wr' = .ready ∧ c.seq % 2 = 0)) ∨
    (wr = .claimed ∧ wr' = .ready ∧ c.seq % 2 = 1 ∧ c' = { c with seq := 0 } ∧
      completes n wr a = none ∧ resets c wr a = true) ∨
    (∃ r, wr = .ready ∧ wr' = .storing r 0 ∧ c' = { c with seq := c.seq + 1 } ∧
      completes n wr a = none ∧ resets c wr a = false) ∨
    (∃ r i, wr = .storing r i ∧ i < n ∧ wr' = .storing r (i + 1) ∧
      c' = { c with words := Function.update c.words i (enc r i) } ∧
      completes n wr a = none ∧ resets c wr a = false) ∨
    (∃ r i, wr = .storing r i ∧ ¬ i < n ∧ wr' = .ready ∧ c' = { c with seq := c.seq + 1 } ∧
      completes n wr a = some r ∧ resets c wr a = false) := by
  cases a with
  | claim | leave =>
      cases wr <;> cases hs
      exact .inl ⟨rfl, rfl, rfl, by simp⟩
  | kill =>
      cases wr <;> cases hs
      all_goals exact .inl ⟨rfl, rfl, rfl, .inl rfl⟩
  | store r =>
      cases wr <;> cases hs
      exact .inr (.inr (.inl ⟨r, rfl, rfl, rfl, rfl, rfl⟩))
  | go =>
      cases wr with
      | absent | ready => cases hs
      | claimed =>
          simp only [writerStep] at hs
          split at hs <;> cases hs
          · next hodd => exact .inr (.inl ⟨rfl, rfl, hodd, rfl, rfl, by simp [resets, hodd]⟩)
          · next heven =>
            refine .inl ⟨rfl, rfl, by simp [resets, heven], .inr (.inr ⟨rfl, ?_⟩)⟩
            omega
      | storing r i =>
          simp only [writerStep] at hs
          split at hs <;> cases hs
          · next hi =>
            exact .inr (.inr (.inr (.inl ⟨r, i, rfl, hi, rfl, rfl, by simp [completes, hi], rfl⟩)))
          · next hi =>
            exact .inr (.inr (.inr (.inr ⟨r, i, rfl, hi, rfl, rfl, by simp [completes, hi], rfl⟩)))

theorem CellInv.step {c c' : Cell W} {wr wr' : Writer R} {a : WriterAct R} {done : List R}
    (h : CellInv enc n c wr done) (hs : writerStep enc n c wr a = some (c', wr')) :
    CellInv enc n c' wr' (done ++ (completes n wr a).toList) := by
  rcases writerStep_cases hs with ⟨rfl, h1, -, h2⟩ | ⟨rfl, rfl, h0, rfl, h1, -⟩ |
    ⟨r, rfl, rfl, rfl, h1, -⟩ | ⟨r, i, rfl, hi, rfl, rfl, h1, -⟩ | ⟨r, i, rfl, hi, rfl, rfl, h1, -⟩
  all_goals rw [h1]
  · refine ⟨fun hr => ?_, fun r i hr => ?_, fun he hz => ?_⟩
    · rcases h2 with h2 | h2 | h2
      · rw [h2] at hr; cases hr
      · rw [h2] at hr; cases hr
      · exact h2.2
    · rcases h2 with h2 | h2 | ⟨h2, -⟩ <;> rw [h2] at hr <;> cases hr
    · obtain ⟨r, hr, hw⟩ := h.even he hz
      exact ⟨r, by simpa using hr, hw⟩
  · exact ⟨fun _ => rfl, fun r i hr => (nomatch hr), fun _ hz => absurd rfl hz⟩
  · have he := h.ready rfl
    refine ⟨fun hr => (nomatch hr), fun r' i hr => ?_, fun ho => ?_⟩
    · cases hr
      exact ⟨by simp only; omega, Nat.zero_le n, fun j hj => absurd hj (Nat.not_lt_zero j)⟩
    · simp only at ho
      omega
  · obtain ⟨ho, -, hw⟩ := h.storing r i rfl
    refine ⟨fun hr => (nomatch hr), fun r' i' hr => ?_, fun he => ?_⟩
    · cases hr
      refine ⟨ho, hi, fun j hj => ?_⟩
      by_cases e : j = i
      · subst e
        simp
      · simp only [Function.update_of_ne e]
        exact hw j (by omega)
    · simp only at he
      omega
  · obtain ⟨ho, hin, hw⟩ := h.storing r i rfl
    refine ⟨fun _ => by simp only; omega, fun r' i' hr => (nomatch hr), fun _ _ => ?_⟩
    exact ⟨r, by simp, fun j hj => hw j (by omega)⟩

end Inv

/-! ## Readers -/

/-- A copy in progress, of which the words before the `k`-th do not matter: if the sequence
is what it was at the start, the words copied are the words that stand there. -/
def Copied (c : Cell W) (s k : Nat) (staged : List W) : Prop :=
  c.seq = s → ∀ j, k ≤ j → j < staged.length → staged[j]? = some (c.words j)

theorem Copied.start (c : Cell W) (s k : Nat) : Copied c s k [] :=
  fun _ j _ hj => absurd hj (Nat.not_lt_zero j)

theorem Copied.word {c : Cell W} {s k : Nat} {staged : List W} (h : Copied c s k staged) :
    Copied c s k (staged ++ [c.words staged.length]) := by
  intro hs j hk hj
  rw [List.length_append, List.length_singleton] at hj
  rcases Nat.lt_or_eq_of_le (Nat.le_of_lt_succ hj) with hlt | rfl
  · rw [List.getElem?_append_left hlt]
    exact h hs j hk hlt
  · exact List.getElem?_concat_length

/-- Accesses of the owner keep a copy honest, unless a store completes on the very
value the copy started from, when words that matter have been copied. -/
theorem Copied.step {enc : R → Nat → W} {n : Nat} {c c' : Cell W} {wr wr' : Writer R}
    {a : WriterAct R} {done : List R} {s k : Nat} {staged : List W} (h : Copied c s k staged)
    (hc : CellInv enc n c wr done) (he : s % 2 = 0) (hz : s ≠ 0)
    (hs : writerStep enc n c wr a = some (c', wr'))
    (hnew : (completes n wr a).isSome → k < staged.length → c.seq + 1 ≠ s) :
    Copied c' s k staged := by
  rcases writerStep_cases hs with ⟨rfl, -⟩ | ⟨-, -, -, rfl, -⟩ | ⟨r, rfl, -, rfl, -⟩ |
    ⟨r, i, rfl, -, -, rfl, -⟩ | ⟨r, i, -, -, -, rfl, h1, -⟩
  · exact h
  · exact fun h0 => absurd h0.symm hz
  · intro h0
    have := hc.ready rfl
    simp only at h0
    omega
  · intro h0
    have := (hc.storing r i rfl).1
    simp only at h0
    omega
  · intro h0 j hk hj
    exact absurd h0 (hnew (by rw [h1]; rfl) (Nat.lt_of_le_of_lt hk hj))

/-- A copy whose sequence still stands has its words from one completed store. -/
theorem Copied.whole {enc : R → Nat → W} {n : Nat} {c : Cell W} {wr : Writer R}
    {done : List R} {s k : Nat} {staged : List W} (h : Copied c s k staged)
    (hc : CellInv enc n c wr done) (he : s % 2 = 0) (hz : s ≠ 0) (hseq : c.seq = s)
    (hlen : staged.length ≤ n) :
    ∃ r ∈ done, ∀ j, k ≤ j → j < staged.length → staged[j]? = some (enc r j) := by
  subst hseq
  obtain ⟨r, hr, hw⟩ := hc.even he hz
  refine ⟨r, hr, fun j hk hj => ?_⟩
  rw [h rfl j hk hj, hw j (Nat.lt_of_lt_of_le hj hlen)]

/-- Between resets the sequence only grows. -/
theorem writerStep_grows {enc : R → Nat → W} {n : Nat} {c c' : Cell W} {wr wr' : Writer R}
    {a : WriterAct R} (hs : writerStep enc n c wr a = some (c', wr'))
    (hr : resets c wr a = false) : c.seq ≤ c'.seq := by
  rcases writerStep_cases hs with ⟨rfl, -⟩ | ⟨-, -, -, -, -, h1⟩ | ⟨r, -, -, rfl, -⟩ |
    ⟨r, i, -, -, -, rfl, -⟩ | ⟨r, i, -, -, -, rfl, -⟩
  · exact Nat.le_refl _
  · rw [hr] at h1; cases h1
  · exact Nat.le_succ _
  · exact Nat.le_refl _
  · exact Nat.le_succ _

end Xmmsg.Sys.Seqlock
