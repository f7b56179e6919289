import Mathlib.Data.List.Basic
import Xmmsg.Sys.Machine

/-!
# Participants nobody can hold up

A participant of a machine is singled out by the actions that are its own. It makes
progress at its own pace when each of its steps brings it nearer to rest and no step of
anybody else takes it further away: then the distance it starts at bounds the number of
its own steps it needs, in whatever order they are mixed with the others'. Nothing here
asks for fairness; that its steps are possible at all is a separate fact about the
machine.

Where a step stands for more than one operation the steps have a cost each, and what
bounds their total is a rank that every own step lowers by its cost (`Metered`).
-/

namespace Xmmsg.Sys

variable {σ α : Type}

namespace Machine

/-- The runs from one state to another with the list of their actions, every step of
which met the discipline. -/
inductive Run (M : Machine σ α) (ok : σ → α → Prop) : σ → List α → σ → Prop
  | nil (s : σ) : Run M ok s [] s
  | cons {s t u : σ} {a : α} {as : List α} : ok s a → M.step s a = some t →
      Run M ok t as u → Run M ok s (a :: as) u

variable {M : Machine σ α} {ok : σ → α → Prop}

/-- Actions that meet the discipline wherever they are taken make a disciplined run. -/
theorem run_of_exec : ∀ {as : List α} {s t : σ}, (∀ a ∈ as, ∀ s, ok s a) →
    M.exec as s = some t → M.Run ok s as t := by
  intro as
  induction as with
  | nil =>
      intro s t _ h
      rw [exec] at h
      cases h
      exact .nil _
  | cons a as ih =>
      intro s t hok h
      rw [exec] at h
      split at h
      · cases h
      · next u hu =>
          have hrest := ih (fun b hb => hok b (List.mem_cons_of_mem a hb)) h
          exact .cons (hok a List.mem_cons_self s) hu hrest

theorem Run.append {as bs : List α} {s t u : σ} (h : M.Run ok s as t) (h' : M.Run ok t bs u) :
    M.Run ok s (as ++ bs) u := by
  induction h with
  | nil => exact h'
  | cons hok hst _ ih => exact .cons hok hst (ih h')

/-- A run extends what is reached. -/
theorem Reached.run {as : List α} {s t : σ} (hs : M.Reached ok s) (h : M.Run ok s as t) :
    M.Reached ok t := by
  induction h with
  | nil => exact hs
  | cons hok hst _ ih => exact ih (hs.next hok hst)

/-- Own steps lower the rank of a busy participant, the others' do not raise it, and a
busy participant has some rank left. -/
structure Paced (M : Machine σ α) (ok : σ → α → Prop) (own : α → Bool) (busy : σ → Prop)
    (rank : σ → Nat) : Prop where
  left : ∀ {s}, busy s → 0 < rank s
  mine : ∀ {s a t}, busy s → own a = true → ok s a → M.step s a = some t → rank t < rank s
  theirs : ∀ {s a t}, busy s → own a = false → ok s a → M.step s a = some t →
    rank t ≤ rank s

/-- Every run with `n` own steps in it has passed through `P`. -/
def Within (M : Machine σ α) (ok : σ → α → Prop) (own : α → Bool) (n : Nat) (s : σ)
    (P : σ → Prop) : Prop :=
  ∀ as t, M.Run ok s as t → n ≤ as.countP own → ∃ pre u, pre <+: as ∧ M.Run ok s pre u ∧ P u

theorem Within.imp {own : α → Bool} {n : Nat} {s : σ} {P Q : σ → Prop}
    (h : M.Within ok own n s P) (hs : M.Reached ok s) (hPQ : ∀ u, M.Reached ok u → P u → Q u) :
    M.Within ok own n s Q := by
  intro as t hrun hn
  obtain ⟨pre, u, hpre, hu, hp⟩ := h as t hrun hn
  exact ⟨pre, u, hpre, hu, hPQ u (hs.run hu) hp⟩

/-- As many own steps as the rank bring the participant to rest somewhere on the way. -/
theorem Paced.rests {own : α → Bool} {busy : σ → Prop} {rank : σ → Nat}
    (h : M.Paced ok own busy rank) {n : Nat} {s : σ} (hs : rank s ≤ n) :
    M.Within ok own n s (fun u => ¬ busy u) := by
  intro as t hrun hn
  replace hn : rank s ≤ as.countP own := Nat.le_trans hs hn
  clear hs
  induction hrun with
  | nil s =>
      refine ⟨[], s, List.prefix_refl _, .nil _, fun hb => ?_⟩
      have := h.left hb
      simp only [List.countP_nil] at hn
      omega
  | @cons s t u a as hok hst _ ih =>
      by_cases hb : busy s
      · have hle : rank t ≤ as.countP own := by
          cases ha : own a with
          | true =>
              have hlt := h.mine hb ha hok hst
              rw [List.countP_cons_of_pos ha] at hn
              omega
          | false =>
              have hle := h.theirs hb ha hok hst
              rw [List.countP_cons_of_neg (by simp [ha])] at hn
              omega
        obtain ⟨pre, v, hpre, hv, hrest⟩ := ih hle
        exact ⟨a :: pre, v, (List.prefix_cons_inj a).mpr hpre, .cons hok hst hv, hrest⟩
      · exact ⟨[], s, List.nil_prefix, .nil _, hb⟩

/-- A run and what its own steps come to. -/
inductive Spent (M : Machine σ α) (ok : σ → α → Prop) (own : α → Bool) (cost : σ → Nat) :
    σ → List α → Nat → σ → Prop
  | nil (s : σ) : Spent M ok own cost s [] 0 s
  | mine {s t u : σ} {a : α} {as : List α} {n : Nat} : own a = true → ok s a →
      M.step s a = some t → Spent M ok own cost t as n u →
      Spent M ok own cost s (a :: as) (cost s + n) u
  | theirs {s t u : σ} {a : α} {as : List α} {n : Nat} : own a = false → ok s a →
      M.step s a = some t → Spent M ok own cost t as n u → Spent M ok own cost s (a :: as) n u

/-- Own steps lower the rank of a busy participant by what they cost, the others' do not
raise it. -/
structure Metered (M : Machine σ α) (ok : σ → α → Prop) (own : α → Bool) (busy : σ → Prop)
    (rank cost : σ → Nat) : Prop where
  left : ∀ {s}, busy s → 0 < rank s
  mine : ∀ {s a t}, busy s → own a = true → ok s a → M.step s a = some t →
    rank t + cost s ≤ rank s
  theirs : ∀ {s a t}, busy s → own a = false → ok s a → M.step s a = some t →
    rank t ≤ rank s

/-- A run that has spent the rank has brought the participant to rest on the way. -/
theorem Metered.rests {own : α → Bool} {busy : σ → Prop} {rank cost : σ → Nat}
    (h : M.Metered ok own busy rank cost) {as : List α} {n : Nat} {s t : σ}
    (hrun : M.Spent ok own cost s as n t) (hn : rank s ≤ n) :
    ∃ pre u, pre <+: as ∧ M.Run ok s pre u ∧ ¬ busy u := by
  induction hrun with
  | nil s =>
      refine ⟨[], s, List.prefix_refl _, .nil _, fun hb => ?_⟩
      have := h.left hb
      omega
  | @mine s t u a as n ha hok hst _ ih =>
      by_cases hb : busy s
      · have hle := h.mine hb ha hok hst
        obtain ⟨pre, v, hpre, hv, hrest⟩ := ih (by omega)
        exact ⟨a :: pre, v, (List.prefix_cons_inj a).mpr hpre, .cons hok hst hv, hrest⟩
      · exact ⟨[], s, List.nil_prefix, .nil _, hb⟩
  | @theirs s t u a as n ha hok hst _ ih =>
      by_cases hb : busy s
      · have hle := h.theirs hb ha hok hst
        obtain ⟨pre, v, hpre, hv, hrest⟩ := ih (by omega)
        exact ⟨a :: pre, v, (List.prefix_cons_inj a).mpr hpre, .cons hok hst hv, hrest⟩
      · exact ⟨[], s, List.nil_prefix, .nil _, hb⟩

/-- Where an own step is always possible, the participant can come to rest alone, the
others stopped for good. -/
theorem Paced.alone {own : α → Bool} {busy : σ → Prop} {rank : σ → Nat}
    (h : M.Paced ok own busy rank)
    (hgo : ∀ s, busy s → ∃ a t, own a = true ∧ ok s a ∧ M.step s a = some t) :
    ∀ {n : Nat} {s : σ}, rank s ≤ n → ∃ as t, M.Run ok s as t ∧ as.length ≤ n ∧
      (∀ a ∈ as, own a = true) ∧ ¬ busy t := by
  intro n
  induction n with
  | zero =>
      intro s hs
      refine ⟨[], s, .nil _, Nat.le_refl _, fun a ha => ?_, fun hb => ?_⟩
      · cases ha
      · have := h.left hb
        omega
  | succ n ih =>
      intro s hs
      by_cases hb : busy s
      · obtain ⟨a, t, ha, hok, hst⟩ := hgo s hb
        have hlt := h.mine hb ha hok hst
        obtain ⟨as, u, hrun, hlen, hown, hrest⟩ := ih (s := t) (by omega)
        refine ⟨a :: as, u, .cons hok hst hrun, Nat.succ_le_succ hlen, fun b hb => ?_, hrest⟩
        rcases List.mem_cons.mp hb with rfl | hb
        · exact ha
        · exact hown b hb
      · refine ⟨[], s, .nil _, Nat.zero_le _, fun a ha => ?_, hb⟩
        cases ha

end Machine

end Xmmsg.Sys
