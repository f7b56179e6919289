import Mathlib.Logic.Equiv.Basic
import Mathlib.Logic.ExistsUnique

/-!
# Cells with one owner

Cells are handed out, passed on and given back; somewhere it is recorded which are
taken. `Exclusive` says that the record is right and that no cell has two owners. Three
things can happen to it: an owner passes what it has to one that has nothing (`move`),
an owner that has nothing gets a cell that is not taken (`take`), an owner gives its
cell back (`drop`). What a component does to a cell is a sequence of these.
-/

namespace Xmmsg.Sys

/-- Each owner has at most one cell, each taken cell has exactly one owner, and no
other cell has any. -/
structure Exclusive {ω κ : Type} (owns : ω → Option κ) (taken : κ → Prop) : Prop where
  taken_iff : ∀ c, taken c ↔ ∃ o, owns o = some c
  once : ∀ o o' c, owns o = some c → owns o' = some c → o = o'

namespace Exclusive

variable {ω κ : Type} {owns : ω → Option κ} {taken taken' : κ → Prop} {a b : ω} {c : κ}

theorem existsUnique (h : Exclusive owns taken) (c : κ) : taken c ↔ ∃! o, owns o = some c := by
  rw [h.taken_iff c]
  constructor
  · rintro ⟨o, ho⟩
    exact ⟨o, ho, fun o' ho' => h.once o' o c ho' ho⟩
  · exact ExistsUnique.exists

variable [DecidableEq ω]

theorem move (h : Exclusive owns taken) (hb : owns b = none) :
    Exclusive (Function.update (Function.update owns a none) b (owns a)) taken := by
  -- the two owners have changed places
  have hswap : Function.update (Function.update owns a none) b (owns a)
      = fun o => owns (Equiv.swap a b o) := by
    funext o
    by_cases hob : o = b
    · rw [hob, Function.update_self, Equiv.swap_apply_right]
    · rw [Function.update_of_ne hob]
      by_cases hoa : o = a
      · rw [hoa, Function.update_self, Equiv.swap_apply_left, hb]
      · rw [Function.update_of_ne hoa, Equiv.swap_apply_of_ne_of_ne hoa hob]
  rw [hswap]
  refine ⟨fun c => (h.taken_iff c).trans ⟨?_, ?_⟩, fun o o' c ho ho' => ?_⟩
  · rintro ⟨o, ho⟩
    exact ⟨Equiv.swap a b o, by rw [Equiv.swap_apply_self, ho]⟩
  · rintro ⟨o, ho⟩
    exact ⟨Equiv.swap a b o, ho⟩
  · exact (Equiv.swap a b).injective (h.once _ _ c ho ho')

theorem take (h : Exclusive owns taken) (ha : owns a = none) (hc : ¬ taken c)
    (htaken : ∀ d, taken' d ↔ taken d ∨ d = c) :
    Exclusive (Function.update owns a (some c)) taken' := by
  have hother : ∀ o d, Function.update owns a (some c) o = some d →
      o = a ∧ d = c ∨ o ≠ a ∧ owns o = some d := by
    intro o d hd
    by_cases ho : o = a
    · rw [ho, Function.update_self] at hd
      exact .inl ⟨ho, (Option.some.inj hd).symm⟩
    · rw [Function.update_of_ne ho] at hd
      exact .inr ⟨ho, hd⟩
  refine ⟨fun d => ?_, fun o o' d ho ho' => ?_⟩
  · rw [htaken d, h.taken_iff d]
    constructor
    · rintro (⟨o, ho⟩ | rfl)
      · have hoa : o ≠ a := by
          rintro rfl
          rw [ha] at ho
          cases ho
        exact ⟨o, by rw [Function.update_of_ne hoa, ho]⟩
      · exact ⟨a, Function.update_self _ _ _⟩
    · rintro ⟨o, ho⟩
      rcases hother o d ho with ⟨-, hd⟩ | ⟨-, hd⟩
      · exact .inr hd
      · exact .inl ⟨o, hd⟩
  · have hnone : ∀ o, owns o ≠ some c := fun o hd => hc ((h.taken_iff c).mpr ⟨o, hd⟩)
    rcases hother o d ho with ⟨hoa, rfl⟩ | ⟨-, hd⟩
    · rcases hother o' d ho' with ⟨hoa', -⟩ | ⟨-, hd'⟩
      · rw [hoa, hoa']
      · exact absurd hd' (hnone o')
    · rcases hother o' d ho' with ⟨-, rfl⟩ | ⟨-, hd'⟩
      · exact absurd hd (hnone o)
      · exact h.once o o' d hd hd'

theorem drop (h : Exclusive owns taken) (ha : owns a = some c)
    (htaken : ∀ d, taken' d ↔ taken d ∧ d ≠ c) :
    Exclusive (Function.update owns a none) taken' := by
  have hold : ∀ o d, Function.update owns a none o = some d → o ≠ a ∧ owns o = some d := by
    intro o d hd
    by_cases ho : o = a
    · rw [ho, Function.update_self] at hd
      cases hd
    · rw [Function.update_of_ne ho] at hd
      exact ⟨ho, hd⟩
  refine ⟨fun d => ?_, fun o o' d ho ho' => h.once o o' d (hold o d ho).2 (hold o' d ho').2⟩
  rw [htaken d, h.taken_iff d]
  constructor
  · rintro ⟨⟨o, ho⟩, hne⟩
    have hoa : o ≠ a := by
      rintro rfl
      rw [ha] at ho
      exact hne (Option.some.inj ho).symm
    exact ⟨o, by rw [Function.update_of_ne hoa, ho]⟩
  · rintro ⟨o, ho⟩
    obtain ⟨hoa, hd⟩ := hold o d ho
    refine ⟨⟨o, hd⟩, ?_⟩
    rintro rfl
    exact hoa (h.once o a d hd ha)

end Exclusive

end Xmmsg.Sys
