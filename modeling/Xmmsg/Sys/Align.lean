import Mathlib.Algebra.BigOperators.Group.Finset.Basic
import Mathlib.Algebra.BigOperators.Ring.Finset
import Mathlib.Algebra.Order.BigOperators.Group.Finset

/-!
# Rounding up and laying end to end

Memory is carved by two operations: a length is rounded up to a multiple of an
alignment, and lengths are laid end to end. The part with number `k` then starts at
the sum of the lengths before it. Parts so placed do not overlap (`parts_apart`), they stay
below the start of any later part (`part_stop_le`), and where every length is a multiple
of an alignment every start is one too (`dvd_partStart`).
-/

namespace Xmmsg.Sys

/-! ## Rounding up -/

/-- The least multiple of `a` that is at least `v`. -/
def roundUp (a v : Nat) : Nat := (v + (a - 1)) / a * a

theorem dvd_roundUp (a v : Nat) : a ∣ roundUp a v := Nat.dvd_mul_left _ _

theorem roundUp_lt {a : Nat} (h : 0 < a) (v : Nat) : roundUp a v < v + a := by
  have hle : (v + (a - 1)) / a * a ≤ v + (a - 1) := Nat.div_mul_le_self _ _
  rw [roundUp]
  omega

theorem le_roundUp {a : Nat} (h : 0 < a) (v : Nat) : v ≤ roundUp a v := by
  have hlt : v + (a - 1) < (v + (a - 1)) / a * a + a := Nat.lt_div_mul_add h
  rw [roundUp]
  omega

/-! ## Laying end to end -/

/-- Where part `k` starts. -/
def partStart (len : Nat → Nat) (k : Nat) : Nat := ∑ j ∈ Finset.range k, len j

theorem partStart_zero (len : Nat → Nat) : partStart len 0 = 0 := Finset.sum_range_zero _

theorem partStart_succ (len : Nat → Nat) (k : Nat) :
    partStart len (k + 1) = partStart len k + len k :=
  Finset.sum_range_succ _ _

theorem part_stop_le (len : Nat → Nat) {j k : Nat} (h : j < k) :
    partStart len j + len j ≤ partStart len k := by
  rw [← partStart_succ]
  exact Finset.sum_le_sum_of_subset (Finset.range_mono h)

theorem parts_apart (len : Nat → Nat) {j k : Nat} (h : j ≠ k) :
    partStart len j + len j ≤ partStart len k ∨ partStart len k + len k ≤ partStart len j :=
  (Nat.lt_or_gt_of_ne h).imp (part_stop_le len) (part_stop_le len)

theorem dvd_partStart {a : Nat} {len : Nat → Nat} (h : ∀ j, a ∣ len j) (k : Nat) :
    a ∣ partStart len k := Finset.dvd_sum fun j _ => h j

end Xmmsg.Sys
