import Mathlib.Data.List.Count
import Mathlib.Data.List.Perm.Basic
import Mathlib.Logic.Function.Basic

/-!
# Shared blocks found again by key

A process keeps a table of weak references. Whoever asks for a key gets the block of
that key if somebody still holds it, and a new block otherwise; a block counts the
references to it and is gone when the count is back at zero. The table is never
cleaned, so an entry may be of a block that is gone.

`Counts P held` says that the counts are right for the references in `held`, listed in
any order, and that the table leads to every block that is held. The operations keep
it. So at any moment there is at most one block of a key, and a block is gone exactly
when nobody holds it.
-/

namespace Xmmsg.Sys

/-- One block: the key it was made for, the number of references to it, and what it
holds. The count is an integer, so that a release too many would show. -/
structure SharedBlock (κ β : Type) where
  key : κ
  refs : Int := 0
  body : β

/-- The blocks by address, the first `made` of them in use at some time, and the table
of weak references. -/
structure Pool (κ β : Type) where
  table : κ → Option Nat := fun _ => none
  blocks : Nat → SharedBlock κ β
  made : Nat := 0

namespace Pool

variable {κ β : Type}

def put (P : Pool κ β) (s : Nat) (b : SharedBlock κ β) : Pool κ β :=
  { P with blocks := Function.update P.blocks s b }

/-- Another reference to a block. -/
def share (P : Pool κ β) (s : Nat) : Pool κ β :=
  P.put s { P.blocks s with refs := (P.blocks s).refs + 1 }

/-- One reference less. -/
def release (P : Pool κ β) (s : Nat) : Pool κ β :=
  P.put s { P.blocks s with refs := (P.blocks s).refs - 1 }

/-- What is in a block changes. -/
def modify (P : Pool κ β) (s : Nat) (f : β → β) : Pool κ β :=
  P.put s { P.blocks s with body := f (P.blocks s).body }

/-- The block the table has for a key, if it is not gone. -/
def lock (P : Pool κ β) (k : κ) : Option Nat :=
  (P.table k).filter fun s => 0 < (P.blocks s).refs

@[simp] theorem put_self (P : Pool κ β) (s : Nat) (b : SharedBlock κ β) :
    (P.put s b).blocks s = b := by
  simp [put]

theorem put_ne (P : Pool κ β) {s t : Nat} (b : SharedBlock κ β) (h : t ≠ s) :
    (P.put s b).blocks t = P.blocks t := by
  simp [put, h]

@[simp] theorem share_key (P : Pool κ β) (s t : Nat) :
    ((P.share s).blocks t).key = (P.blocks t).key := by
  by_cases h : t = s
  · rw [h, share, put_self]
  · rw [share, put_ne P _ h]

@[simp] theorem release_key (P : Pool κ β) (s t : Nat) :
    ((P.release s).blocks t).key = (P.blocks t).key := by
  by_cases h : t = s
  · rw [h, release, put_self]
  · rw [release, put_ne P _ h]

@[simp] theorem modify_key (P : Pool κ β) (s t : Nat) (f : β → β) :
    ((P.modify s f).blocks t).key = (P.blocks t).key := by
  by_cases h : t = s
  · rw [h, modify, put_self]
  · rw [modify, put_ne P _ h]

@[simp] theorem modify_refs (P : Pool κ β) (s t : Nat) (f : β → β) :
    ((P.modify s f).blocks t).refs = (P.blocks t).refs := by
  by_cases h : t = s
  · rw [h, modify, put_self]
  · rw [modify, put_ne P _ h]

/-- The counts are those of the references held, and every block held is in the table.
Addresses not made yet are of nobody. -/
structure Counts (P : Pool κ β) (held : List Nat) : Prop where
  refs : ∀ s, (P.blocks s).refs = held.count s
  table : ∀ s ∈ held, P.table (P.blocks s).key = some s
  made : ∀ s ∈ held, s < P.made
  entries : ∀ k s, P.table k = some s → s < P.made ∧ (P.blocks s).key = k

namespace Counts

variable {P : Pool κ β} {held held' : List Nat} {s t : Nat} {k : κ}

theorem perm (h : P.Counts held) (hp : held.Perm held') : P.Counts held' where
  refs s := by rw [h.refs s, hp.count_eq]
  table s hs := h.table s (hp.mem_iff.mpr hs)
  made s hs := h.made s (hp.mem_iff.mpr hs)
  entries := h.entries

theorem pos_iff (h : P.Counts held) : 0 < (P.blocks s).refs ↔ s ∈ held := by
  rw [h.refs s, Int.natCast_pos, List.count_pos_iff]

/-- One block for each key. -/
theorem eq_of_key (h : P.Counts held) (hs : s ∈ held) (ht : t ∈ held)
    (hk : (P.blocks s).key = (P.blocks t).key) : s = t := by
  have hst := h.table s hs
  rw [hk, h.table t ht] at hst
  exact (Option.some.inj hst).symm

theorem lock_iff (h : P.Counts held) : P.lock k = some s ↔ s ∈ held ∧ (P.blocks s).key = k := by
  simp only [lock, Option.filter_eq_some_iff, decide_eq_true_eq, h.pos_iff]
  constructor
  · rintro ⟨ht, hs⟩
    exact ⟨hs, (h.entries k s ht).2⟩
  · rintro ⟨hs, rfl⟩
    exact ⟨h.table s hs, hs⟩

theorem share (h : P.Counts held) (hs : s ∈ held) : (P.share s).Counts (s :: held) := by
  refine ⟨fun t => ?_, fun t ht => ?_, fun t ht => ?_, fun k t ht => ?_⟩
  · by_cases hts : t = s
    · rw [hts, Pool.share, put_self, h.refs s, List.count_cons_self]
      rfl
    · rw [Pool.share, put_ne P _ hts, h.refs t, List.count_cons_of_ne (Ne.symm hts)]
  · rw [share_key]
    rcases List.mem_cons.mp ht with rfl | ht
    · exact h.table t hs
    · exact h.table t ht
  · rcases List.mem_cons.mp ht with rfl | ht
    · exact h.made t hs
    · exact h.made t ht
  · rw [share_key]
    exact h.entries k t ht

theorem release (h : P.Counts (s :: held)) : (P.release s).Counts held := by
  refine ⟨fun t => ?_, fun t ht => ?_, fun t ht => ?_, fun k t ht => ?_⟩
  · by_cases hts : t = s
    · have hrefs := h.refs s
      rw [List.count_cons_self] at hrefs
      rw [hts, Pool.release, put_self]
      show (P.blocks s).refs - 1 = held.count s
      omega
    · rw [Pool.release, put_ne P _ hts, h.refs t, List.count_cons_of_ne (Ne.symm hts)]
  · rw [release_key]
    exact h.table t (List.mem_cons_of_mem s ht)
  · exact h.made t (List.mem_cons_of_mem s ht)
  · rw [release_key]
    exact h.entries k t ht

theorem modify (h : P.Counts held) (f : β → β) : (P.modify s f).Counts held := by
  refine ⟨fun t => ?_, fun t ht => ?_, h.made, fun k t ht => ?_⟩
  · rw [modify_refs]
    exact h.refs t
  · rw [modify_key]
    exact h.table t ht
  · rw [modify_key]
    exact h.entries k t ht

end Counts

/-- Counting references leaves what is in the blocks alone. -/
@[simp] theorem share_body (P : Pool κ β) (s t : Nat) :
    ((P.share s).blocks t).body = (P.blocks t).body := by
  by_cases h : t = s
  · rw [h, share, put_self]
  · rw [share, put_ne P _ h]

@[simp] theorem release_body (P : Pool κ β) (s t : Nat) :
    ((P.release s).blocks t).body = (P.blocks t).body := by
  by_cases h : t = s
  · rw [h, release, put_self]
  · rw [release, put_ne P _ h]

@[simp] theorem modify_body_self (P : Pool κ β) (s : Nat) (f : β → β) :
    ((P.modify s f).blocks s).body = f (P.blocks s).body := by
  rw [modify, put_self]

theorem modify_body_ne (P : Pool κ β) {s t : Nat} (f : β → β) (h : t ≠ s) :
    ((P.modify s f).blocks t).body = (P.blocks t).body := by
  rw [modify, put_ne P _ h]

/-! ## Giving out a block -/

variable [DecidableEq κ]

/-- A reference to the block of a key, made if there is none. -/
def acquire (P : Pool κ β) (k : κ) (fresh : β) : Pool κ β × Nat :=
  match P.lock k with
  | some s => (P.share s, s)
  | none =>
      ({ P.put P.made { key := k, refs := 1, body := fresh } with
          table := Function.update P.table k (some P.made), made := P.made + 1 }, P.made)

namespace Counts

variable {P : Pool κ β} {held : List Nat} {s : Nat} {k : κ} {fresh : β}

/-- What is given out for a key. -/
theorem acquire (h : P.Counts held) :
    (P.acquire k fresh).1.Counts ((P.acquire k fresh).2 :: held) := by
  rw [Pool.acquire]
  split
  · next s hs => exact h.share (h.lock_iff.mp hs).1
  · next hnone =>
      have hnot : P.made ∉ held := fun hm => Nat.lt_irrefl _ (h.made _ hm)
      -- nobody holds a block of this key, or the table would have it
      have hkey : ∀ t ∈ held, (P.blocks t).key ≠ k := by
        intro t ht hk
        rw [h.lock_iff.mpr ⟨ht, hk⟩] at hnone
        cases hnone
      have hne : ∀ {t : Nat}, t < P.made → t ≠ P.made := fun ht => Nat.ne_of_lt ht
      refine ⟨fun t => ?_, fun t ht => ?_, fun t ht => ?_, fun k' t ht => ?_⟩
      · by_cases ht : t = P.made
        · simp [ht, put, List.count_eq_zero.mpr hnot]
        · simp only [put, Function.update_of_ne ht, List.count_cons_of_ne (Ne.symm ht)]
          exact h.refs t
      · rcases List.mem_cons.mp ht with rfl | ht
        · simp [put]
        · simp only [put, Function.update_of_ne (hne (h.made t ht)),
            Function.update_of_ne (hkey t ht)]
          exact h.table t ht
      · rcases List.mem_cons.mp ht with rfl | ht
        · exact Nat.lt_succ_self _
        · exact Nat.lt_succ_of_lt (h.made t ht)
      · by_cases hk : k' = k
        · simp only [hk, Function.update_self] at ht
          cases ht
          exact ⟨Nat.lt_succ_self _, by simp [put, hk]⟩
        · simp only [Function.update_of_ne hk] at ht
          obtain ⟨hlt, hkey'⟩ := h.entries k' t ht
          simp only [put, Function.update_of_ne (hne hlt)]
          exact ⟨Nat.lt_succ_of_lt hlt, hkey'⟩

/-- A key that is held leads to the block held. -/
theorem acquire_held (h : P.Counts held) (hs : s ∈ held) (hk : (P.blocks s).key = k) :
    P.acquire k fresh = (P.share s, s) := by
  rw [Pool.acquire, h.lock_iff.mpr ⟨hs, hk⟩]

/-- A key nobody holds leads to a new block. -/
theorem acquire_free (h : P.Counts held) (fresh : β) (hk : ∀ s ∈ held, (P.blocks s).key ≠ k) :
    (P.acquire k fresh).2 = P.made ∧
      (P.acquire k fresh).1.blocks P.made = { key := k, refs := 1, body := fresh } := by
  have hnone : P.lock k = none := by
    refine Option.eq_none_iff_forall_ne_some.mpr fun s hs => ?_
    obtain ⟨hmem, hkey⟩ := h.lock_iff.mp hs
    exact hk s hmem hkey
  rw [Pool.acquire, hnone]
  exact ⟨rfl, put_self P P.made _⟩

end Counts

/-- A block keeps its key, whoever asks for whatever. -/
theorem acquire_key (P : Pool κ β) {k : κ} {fresh : β} {t : Nat} (h : t ≠ P.made) :
    ((P.acquire k fresh).1.blocks t).key = (P.blocks t).key := by
  rw [acquire]
  split
  · exact share_key P _ t
  · simp [put, h]

theorem made_le_acquire (P : Pool κ β) (k : κ) (fresh : β) :
    P.made ≤ (P.acquire k fresh).1.made := by
  rw [acquire]
  split
  · exact Nat.le_refl _
  · exact Nat.le_succ _

/-- Giving out a block changes none, but for the one it makes. -/
theorem acquire_body (P : Pool κ β) {k : κ} {fresh : β} {t : Nat}
    (h : t = P.made → (P.blocks t).body = fresh) :
    ((P.acquire k fresh).1.blocks t).body = (P.blocks t).body := by
  rw [acquire]
  split
  · exact share_body P _ t
  · by_cases ht : t = P.made
    · simp [put, ht, ← h ht]
    · simp [put, ht]

end Pool

end Xmmsg.Sys
