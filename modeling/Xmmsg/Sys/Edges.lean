import Mathlib.Data.List.Basic

/-!
# Counting the rising edges of a signal

An alarm that must ring once for an episode, and not once for each sample in it, latches:
it keeps the last reading and counts only the readings that turn it on. What such a counter
has counted is a fact about the readings alone, the number of places where the signal goes
from off to on.
-/

namespace Xmmsg.Sys

/-- How often a signal that stood at `b` turns on. -/
def risesFrom (b : Bool) : List Bool → Nat
  | [] => 0
  | x :: xs => (if x && !b then 1 else 0) + risesFrom x xs

/-- How often a signal turns on, off at first. -/
def rises (xs : List Bool) : Nat := risesFrom false xs

/-- The latch and its counter. -/
structure EdgeCounter where
  latched : Bool := false
  count : Nat := 0

namespace EdgeCounter

def see (e : EdgeCounter) (x : Bool) : EdgeCounter where
  latched := x
  count := if x && !e.latched then e.count + 1 else e.count

/-- The counter after a sequence of readings. -/
def after (xs : List Bool) : EdgeCounter := xs.foldl see {}

theorem foldl_see (e : EdgeCounter) (xs : List Bool) :
    (xs.foldl see e).count = e.count + risesFrom e.latched xs := by
  induction xs generalizing e with
  | nil => rfl
  | cons x xs ih =>
      rw [List.foldl_cons, ih, risesFrom, see]
      cases x <;> cases e.latched <;> simp only [Bool.and_false, Bool.and_true, Bool.not_false,
        Bool.not_true, if_true, if_false, Bool.false_eq_true] <;> omega

theorem after_count (xs : List Bool) : (after xs).count = rises xs := by
  rw [after, foldl_see, rises, Nat.zero_add]

theorem after_concat (xs : List Bool) (x : Bool) : after (xs ++ [x]) = (after xs).see x := by
  rw [after, after, List.foldl_append, List.foldl_cons, List.foldl_nil]

end EdgeCounter

end Xmmsg.Sys
