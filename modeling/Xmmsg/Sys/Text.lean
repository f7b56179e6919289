import Mathlib.Data.List.TakeWhile

/-!
# Reading back what was written in pieces

A text made of pieces can be read back if every piece tells where it ends.
`splice_inj` is that argument once: of two texts that begin with a run of allowed
symbols and go on with a symbol that is not, the runs are equal and so is what
follows. `cut_inj` is the case of a separator the pieces do not contain.

`decimal` is `std::to_string` of an unsigned number, and its text gives the number
back (`decimal_inj`).
-/

namespace Xmmsg.Sys

section Splice

variable {α : Type}

/-- A text goes on with a symbol outside `p`, or ends. -/
def Stops (p : α → Bool) (x : List α) : Prop := ∀ c, x.head? = some c → p c = false

theorem stops_cons {p : α → Bool} {c : α} {x : List α} (h : p c = false) :
    Stops p (c :: x) := by
  intro d hd
  cases hd
  exact h

theorem takeWhile_of_stops {p : α → Bool} {a x : List α} (ha : ∀ c ∈ a, p c = true)
    (hx : Stops p x) : (a ++ x).takeWhile p = a := by
  rw [List.takeWhile_append_of_pos ha]
  cases x with
  | nil => exact List.append_nil a
  | cons c cs =>
      rw [List.takeWhile_cons_of_neg (by simp [hx c rfl]), List.append_nil]

theorem splice_inj {p : α → Bool} {a b x y : List α} (ha : ∀ c ∈ a, p c = true)
    (hb : ∀ c ∈ b, p c = true) (hx : Stops p x) (hy : Stops p y) (h : a ++ x = b ++ y) :
    a = b ∧ x = y := by
  have hab : a = b := by
    rw [← takeWhile_of_stops ha hx, h, takeWhile_of_stops hb hy]
  subst hab
  exact ⟨rfl, List.append_cancel_left h⟩

variable [DecidableEq α]

theorem cut_inj {s : α} {a b x y : List α} (ha : s ∉ a) (hb : s ∉ b)
    (h : a ++ s :: x = b ++ s :: y) : a = b ∧ x = y := by
  have hfree : ∀ {l : List α}, s ∉ l → ∀ c ∈ l, decide (c ≠ s) = true := by
    intro l hl c hc
    refine decide_eq_true ?_
    rintro rfl
    exact hl hc
  have hstop : ∀ l : List α, Stops (fun c => decide (c ≠ s)) (s :: l) :=
    fun l => stops_cons (by simp)
  obtain ⟨hab, hxy⟩ := splice_inj (hfree ha) (hfree hb) (hstop x) (hstop y) h
  exact ⟨hab, (List.cons.inj hxy).2⟩

end Splice

/-! ## Decimal numbers -/

/-- `std::to_string`. -/
def decimal (n : Nat) : List Char := Nat.toDigits 10 n

theorem isDigit_of_mem_decimal {n : Nat} {c : Char} (h : c ∈ decimal n) : c.isDigit = true :=
  Nat.isDigit_of_mem_toDigits (by decide) (by decide) h

theorem decimal_inj {m n : Nat} (h : decimal m = decimal n) : m = n := by
  have hm : Nat.ofDigitChars 10 (decimal m) 0 = m := Nat.ofDigitChars_ten_toDigits
  have hn : Nat.ofDigitChars 10 (decimal n) 0 = n := Nat.ofDigitChars_ten_toDigits
  rw [← hm, h, hn]

/-- A symbol that is no digit is not in a number. -/
theorem not_mem_decimal {n : Nat} {c : Char} (hc : c.isDigit = false) : c ∉ decimal n := by
  intro h
  rw [isDigit_of_mem_decimal h] at hc
  cases hc

end Xmmsg.Sys
