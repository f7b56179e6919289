import Mathlib.Logic.Function.Basic

/-!
# Bounded FIFO queues

The specification of a single-producer single-consumer queue of a declared
depth, as its two sides see it: a push fails exactly when the queue holds
`depth` values, a pop fails exactly when it holds none, and neither ever
reorders or displaces a value. The depth bound is part of the type, so no
operation can build a queue that overflowed.
-/

namespace Xmmsg.Sys

/-- A FIFO with its declared depth, oldest value first. -/
structure Fifo (α : Type) where
  depth : Nat
  items : List α
  bounded : items.length ≤ depth

namespace Fifo

variable {α : Type}

/-- A freshly initialised queue. -/
def empty (depth : Nat) : Fifo α := ⟨depth, [], Nat.zero_le _⟩

/-- The producer's capacity test. -/
def full (q : Fifo α) : Bool := decide (q.items.length = q.depth)

/-- Append a value, or refuse it when the queue is full. -/
def tryPush (q : Fifo α) (a : α) : Option (Fifo α) :=
  if h : q.items.length < q.depth then
    some ⟨q.depth, q.items ++ [a], by rw [List.length_append]; exact h⟩
  else none

/-- Remove the oldest value. -/
def tryPop (q : Fifo α) : Option (α × Fifo α) :=
  match hq : q.items with
  | [] => none
  | a :: rest =>
      some (a, ⟨q.depth, rest, by
        have := q.bounded
        rw [hq, List.length_cons] at this
        omega⟩)

@[simp] theorem empty_items (depth : Nat) : (empty depth : Fifo α).items = [] := rfl

@[simp] theorem empty_depth (depth : Nat) : (empty depth : Fifo α).depth = depth :=
  rfl

theorem full_iff {q : Fifo α} : q.full = true ↔ q.items.length = q.depth := by
  simp [full]

theorem not_full_iff {q : Fifo α} : q.full = false ↔ q.items.length < q.depth := by
  have := q.bounded
  simp only [full, decide_eq_false_iff_not]
  omega

theorem tryPush_some {q q' : Fifo α} {a : α} (h : q.tryPush a = some q') :
    q'.items = q.items ++ [a] ∧ q'.depth = q.depth ∧ q.full = false := by
  unfold tryPush at h
  split at h
  · next hlt =>
      cases h
      exact ⟨rfl, rfl, not_full_iff.mpr hlt⟩
  · cases h

theorem tryPush_none {q : Fifo α} {a : α} : q.tryPush a = none ↔ q.full = true := by
  have := q.bounded
  rw [full_iff, tryPush]
  split
  · next hlt => simp; omega
  · next hlt => simp; omega

theorem tryPop_some {q q' : Fifo α} {a : α} (h : q.tryPop = some (a, q')) :
    q.items = a :: q'.items ∧ q'.depth = q.depth := by
  unfold tryPop at h
  split at h
  · cases h
  · next b rest hq =>
      cases h
      exact ⟨hq, rfl⟩

theorem tryPop_cons {q : Fifo α} {a : α} {as : List α} (h : q.items = a :: as) :
    ∃ q', q.tryPop = some (a, q') ∧ q'.items = as := by
  cases hp : q.tryPop with
  | none =>
      unfold tryPop at hp
      split at hp
      · next hnil => rw [h] at hnil; cases hnil
      · cases hp
  | some x =>
      obtain ⟨b, q'⟩ := x
      have hitems := (tryPop_some hp).1
      rw [h] at hitems
      cases hitems
      exact ⟨q', rfl, rfl⟩

/-! ## What has left a queue and what is still in it

A value never comes back, so what was taken out, followed by what is in, only grows at
the end; emptying the queue shortens it. A relation that holds between each value pushed
and all that went before therefore holds all along. -/

section Order

variable {R : α → α → Prop} {out : List α} {q q' : Fifo α} {a : α}

/-- Any two values are related, the earlier to the later. -/
def Rising (R : α → α → Prop) (out : List α) (q : Fifo α) : Prop := (out ++ q.items).Pairwise R

theorem Rising.push (h : q.Rising R out) (hp : q.tryPush a = some q')
    (hnew : ∀ b ∈ out ++ q.items, R b a) : q'.Rising R out := by
  rw [Rising, (tryPush_some hp).1, ← List.append_assoc]
  refine List.pairwise_append.mpr ⟨h, List.pairwise_singleton R a, fun b hb c hc => ?_⟩
  rw [List.mem_singleton.mp hc]
  exact hnew b hb

theorem Rising.pop (h : q.Rising R out) (hp : q.tryPop = some (a, q')) :
    q'.Rising R (out ++ [a]) := by
  rw [Rising, List.append_assoc]
  rw [Rising, (tryPop_some hp).1] at h
  exact h

theorem Rising.clear (h : q.Rising R out) (depth : Nat) : (Fifo.empty depth).Rising R out := by
  rw [Rising, empty_items, List.append_nil]
  exact (List.pairwise_append.mp h).1

theorem mem_push (hp : q.tryPush a = some q') {b : α} :
    b ∈ out ++ q'.items ↔ b ∈ out ++ q.items ∨ b = a := by
  rw [(tryPush_some hp).1, ← List.append_assoc, List.mem_append, List.mem_singleton]

theorem mem_pop (hp : q.tryPop = some (a, q')) {b : α} :
    b ∈ (out ++ [a]) ++ q'.items ↔ b ∈ out ++ q.items := by
  rw [(tryPop_some hp).1, List.append_assoc]
  rfl

end Order

end Fifo

end Xmmsg.Sys
