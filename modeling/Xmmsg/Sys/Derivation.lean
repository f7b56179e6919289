import Mathlib.Logic.Relation
import Mathlib.Order.Bounds.Basic

/-!
# What is folded along a derivation graph

Things are derived from earlier things: `ups i` are those `i` was made from, none if
it was made from nothing. Each carries two numbers computed from its immediate inputs
alone, a least and a capped length, and the question is what they say about the whole
graph behind it.

`isLeast_of_local`: if a first thing carries its own stamp and any other the least
among its inputs, everything carries the least stamp of the first things it goes back
to. `hops_of_local`: if a first thing counts zero and any other one more than the
largest among its inputs, up to a cap, everything counts its longest chain, up to the
cap.
-/

namespace Xmmsg.Sys

variable {ι : Type} (ups : ι → List ι)

/-- `j` is `i`, or something `i` goes back to. -/
def Ancestor (i j : ι) : Prop := Relation.ReflTransGen (fun i j => j ∈ ups i) i j

/-- The stamps of the first things behind `i`. -/
def firstStamps {β : Type} (stamp : ι → β) (i : ι) : Set β :=
  { s | ∃ j, Ancestor ups i j ∧ ups j = [] ∧ stamp j = s }

/-- A chain of `n` derivations ends in `i`. -/
inductive Chain : ι → Nat → Prop
  | first {i : ι} : Chain i 0
  | next {i j : ι} {n : Nat} : j ∈ ups i → Chain j n → Chain i (n + 1)

variable {ups}

theorem ancestor_cases {i j : ι} (h : Ancestor ups i j) :
    i = j ∨ ∃ k ∈ ups i, Ancestor ups k j := by
  rcases Relation.ReflTransGen.cases_head h with heq | ⟨k, hk, hrest⟩
  · exact .inl heq
  · exact .inr ⟨k, hk, hrest⟩

/-- Behind a derived thing are the first things behind its inputs. -/
theorem firstStamps_derived {β : Type} {stamp : ι → β} {i : ι} (h : ups i ≠ []) :
    firstStamps ups stamp i = { s | ∃ j ∈ ups i, s ∈ firstStamps ups stamp j } := by
  ext s
  constructor
  · rintro ⟨j, hj, hfirst, hs⟩
    rcases ancestor_cases hj with rfl | ⟨k, hk, hkj⟩
    · exact absurd hfirst h
    · exact ⟨k, hk, j, hkj, hfirst, hs⟩
  · rintro ⟨k, hk, j, hkj, hfirst, hs⟩
    exact ⟨j, Relation.ReflTransGen.head hk hkj, hfirst, hs⟩

theorem firstStamps_first {β : Type} {stamp : ι → β} {i : ι} (h : ups i = []) :
    firstStamps ups stamp i = {stamp i} := by
  ext s
  constructor
  · rintro ⟨j, hj, -, hs⟩
    rcases ancestor_cases hj with rfl | ⟨k, hk, -⟩
    · exact hs.symm
    · rw [h] at hk
      cases hk
  · rintro rfl
    exact ⟨i, .refl, h, rfl⟩

theorem isLeast_of_local {β : Type} [LinearOrder β] {stamp origin : ι → β}
    (hwf : WellFounded fun j i => j ∈ ups i) (hfirst : ∀ i, ups i = [] → origin i = stamp i)
    (hnext : ∀ i, ups i ≠ [] → IsLeast { s | ∃ j ∈ ups i, origin j = s } (origin i)) (i : ι) :
    IsLeast (firstStamps ups stamp i) (origin i) := by
  induction i using hwf.induction with
  | _ i ih =>
      by_cases h : ups i = []
      · rw [firstStamps_first h, hfirst i h]
        exact isLeast_singleton
      · obtain ⟨⟨j, hj, hjo⟩, hlow⟩ := hnext i h
        rw [firstStamps_derived h]
        refine ⟨⟨j, hj, hjo ▸ (ih j hj).1⟩, ?_⟩
        rintro s ⟨k, hk, hs⟩
        exact le_trans (hlow ⟨k, hk, rfl⟩) ((ih k hk).2 hs)

/-- Of finitely many sets with a greatest element, one has the greatest of all. -/
theorem exists_greatest {S : ι → Set Nat} {l : List ι} (hne : l ≠ [])
    (h : ∀ j ∈ l, ∃ n, IsGreatest (S j) n) :
    ∃ k ∈ l, ∃ n, IsGreatest (S k) n ∧ ∀ j ∈ l, ∀ x ∈ S j, x ≤ n := by
  induction l with
  | nil => exact absurd rfl hne
  | cons a l ih =>
      obtain ⟨n, hn⟩ := h a List.mem_cons_self
      by_cases hl : l = []
      · subst hl
        refine ⟨a, List.mem_cons_self, n, hn, fun j hj x hx => ?_⟩
        rw [List.mem_singleton.mp hj] at hx
        exact hn.2 hx
      · obtain ⟨k, hk, m, hm, hall⟩ := ih hl fun j hj => h j (List.mem_cons_of_mem _ hj)
        rcases Nat.le_total m n with hmn | hnm
        · refine ⟨a, List.mem_cons_self, n, hn, fun j hj x hx => ?_⟩
          rcases List.mem_cons.mp hj with rfl | hj'
          · exact hn.2 hx
          · exact Nat.le_trans (hall j hj' x hx) hmn
        · refine ⟨k, List.mem_cons_of_mem _ hk, m, hm, fun j hj x hx => ?_⟩
          rcases List.mem_cons.mp hj with rfl | hj'
          · exact Nat.le_trans (hn.2 hx) hnm
          · exact hall j hj' x hx

theorem hops_of_local {cap : Nat} {hops : ι → Nat} (hwf : WellFounded fun j i => j ∈ ups i)
    (hfirst : ∀ i, ups i = [] → hops i = 0)
    (hnext : ∀ i, ups i ≠ [] →
      ∃ m, IsGreatest { n | ∃ j ∈ ups i, hops j = n } m ∧ hops i = min cap (m + 1)) (i : ι) :
    ∃ m, IsGreatest { n | Chain ups i n } m ∧ hops i = min cap m := by
  induction i using hwf.induction with
  | _ i ih =>
      by_cases h : ups i = []
      · refine ⟨0, ⟨.first, ?_⟩, by rw [hfirst i h, Nat.min_zero]⟩
        rintro n hn
        cases hn with
        | first => exact Nat.le_refl 0
        | next hj _ =>
            rw [h] at hj
            cases hj
      · have hgreat : ∀ j ∈ ups i, ∃ n, IsGreatest { n | Chain ups j n } n :=
          fun j hj => (ih j hj).imp fun _ hn => hn.1
        obtain ⟨k, hk, n, hn, hall⟩ := exists_greatest h hgreat
        have hcapped : ∀ j ∈ ups i, hops j ≤ min cap n := by
          intro j hj
          obtain ⟨m, hm, hmj⟩ := ih j hj
          have := hall j hj m hm.1
          omega
        have hk' : hops k = min cap n := by
          obtain ⟨m, hm, hmk⟩ := ih k hk
          rw [hmk, hm.unique hn]
        obtain ⟨m, ⟨⟨j, hj, hjm⟩, hup⟩, hi⟩ := hnext i h
        have hmn : m = min cap n := by
          have h1 := hcapped j hj
          have h2 : hops k ≤ m := hup ⟨k, hk, rfl⟩
          omega
        refine ⟨n + 1, ⟨.next hk hn.1, ?_⟩, by omega⟩
        rintro x hx
        cases hx with
        | first => exact Nat.zero_le _
        | next hj' hx' => exact Nat.succ_le_succ (hall _ hj' _ hx')

end Xmmsg.Sys
