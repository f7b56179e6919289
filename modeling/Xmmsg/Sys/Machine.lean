import Mathlib.Logic.Function.Basic
import Mathlib.Logic.Relation

/-!
# Labelled machines, disciplined runs, and history variables

Every concurrent component of the library is modelled the same way: a state,
an action alphabet (which thread moves next, and the inputs that move reads
from outside), and a partial step function. Interleaving is the choice of the
next action, so "for every interleaving" is "for every list of actions the
step function accepts".

Some properties hold only of runs that stay out of a particular window. The
reachability judgment therefore carries a discipline, a predicate on the state
before a step and the action taken there: `Reached ok s` says `s` is reached by
a run every step of which met `ok`. The unrestricted judgment is the one whose
discipline is `anyStep`.

A property about a whole run usually needs to speak of what has happened so
far, which the state does not record. `withHistory` adds that record beside the
state without touching the step function, and `reached_fst` says the addition
is invisible: dropping the record gives back a run of the original machine.
-/

namespace Xmmsg.Sys

variable {σ α η : Type}

/-- A labelled transition system with a computable, partial step function. -/
structure Machine (σ α : Type) where
  start : σ → Prop
  step : σ → α → Option σ

/-- The discipline that allows every step. -/
def anyStep (_ : σ) (_ : α) : Prop := True

namespace Machine

/-- Run a list of actions, stopping at the first one the state refuses. -/
def exec (M : Machine σ α) : List α → σ → Option σ
  | [], s => some s
  | a :: as, s =>
      match M.step s a with
      | none => none
      | some t => M.exec as t

/-- The states reached by runs all of whose steps met the discipline. -/
inductive Reached (M : Machine σ α) (ok : σ → α → Prop) : σ → Prop
  | start {s : σ} : M.start s → Reached M ok s
  | next {s t : σ} {a : α} : Reached M ok s → ok s a → M.step s a = some t →
      Reached M ok t

variable {M : Machine σ α} {ok ok' : σ → α → Prop}

/-- The invariant rule. The step case may use that its source is itself
reached, so an invariant already proved is available to the next one. -/
theorem Reached.invariant {P : σ → Prop} (h0 : ∀ s, M.start s → P s)
    (hstep : ∀ s a t, M.Reached ok s → P s → ok s a → M.step s a = some t → P t)
    {s : σ} (h : M.Reached ok s) : P s := by
  induction h with
  | start hs => exact h0 _ hs
  | next hr hok ht ih => exact hstep _ _ _ hr ih hok ht

/-- A weaker discipline reaches at least as much. -/
theorem Reached.weaken (hw : ∀ s a, ok s a → ok' s a) {s : σ}
    (h : M.Reached ok s) : M.Reached ok' s := by
  induction h with
  | start hs => exact .start hs
  | next _ hok ht ih => exact .next ih (hw _ _ hok) ht

/-- Run a list of actions under a check that decides enough of the discipline
at every step. -/
def execOk (M : Machine σ α) (check : σ → α → Bool) : List α → σ → Option σ
  | [], s => some s
  | a :: as, s =>
      if check s a then
        match M.step s a with
        | none => none
        | some t => M.execOk check as t
      else none

/-- A checked run is a disciplined one. The check may lean on a property of the
states met, provided checked steps keep it. -/
theorem reached_of_execOk {check : σ → α → Bool} {J : σ → Prop}
    (hc : ∀ s a, J s → check s a = true → ok s a)
    (hJ : ∀ s a t, J s → check s a = true → M.step s a = some t → J t) :
    ∀ {as : List α} {s t : σ}, J s → M.Reached ok s → M.execOk check as s = some t →
      M.Reached ok t := by
  intro as
  induction as with
  | nil =>
      intro s t _ hs h
      rw [execOk] at h
      cases h
      exact hs
  | cons a as ih =>
      intro s t hj hs h
      rw [execOk] at h
      split at h
      · next hck =>
          split at h
          · cases h
          · next u hu =>
              exact ih (hJ _ _ _ hj hck hu) (hs.next (hc _ _ hj hck) hu) h
      · cases h

/-- What checked steps keep, a checked run keeps. -/
theorem execOk_keeps {check : σ → α → Bool} {J : σ → Prop}
    (hJ : ∀ s a t, J s → check s a = true → M.step s a = some t → J t) :
    ∀ {as : List α} {s t : σ}, J s → M.execOk check as s = some t → J t := by
  intro as
  induction as with
  | nil =>
      intro s t hj h
      rw [execOk] at h
      cases h
      exact hj
  | cons a as ih =>
      intro s t hj h
      rw [execOk] at h
      split at h
      · next hck =>
          split at h
          · cases h
          · next u hu => exact ih (hJ _ _ _ hj hck hu) h
      · cases h

theorem reached_of_exec :
    ∀ {as : List α} {s t : σ}, M.Reached anyStep s → M.exec as s = some t →
      M.Reached anyStep t := by
  intro as
  induction as with
  | nil =>
      intro s t hs h
      rw [exec] at h
      cases h
      exact hs
  | cons a as ih =>
      intro s t hs h
      rw [exec] at h
      split at h
      · cases h
      · next u hu => exact ih (hs.next trivial hu) h

/-- One action again and again leads from one state to another: what a participant
does while nobody else moves. -/
def Runs (M : Machine σ α) (a : α) : σ → σ → Prop :=
  Relation.ReflTransGen fun s t => M.step s a = some t

/-- Two of them are pieces of one. -/
theorem Runs.total {a : α} {s t u : σ} (ht : M.Runs a s t) (hu : M.Runs a s u) :
    M.Runs a t u ∨ M.Runs a u t := by
  have hfun : Relator.RightUnique fun s t => M.step s a = some t := by
    intro x y z hy hz
    exact Option.some.inj (hy.symm.trans hz)
  exact Relation.ReflTransGen.total_of_right_unique hfun ht hu

/-- It cannot end in two ways. -/
theorem Runs.unique {a : α} {s t u : σ} (ht : M.Runs a s t) (hu : M.Runs a s u)
    (hend : M.step t a = none) (hend' : M.step u a = none) : t = u := by
  rcases ht.total hu with htu | hut
  · rcases htu.cases_head with heq | ⟨v, hv, -⟩
    · exact heq
    · rw [hend] at hv
      cases hv
  · rcases hut.cases_head with heq | ⟨v, hv, -⟩
    · exact heq.symm
    · rw [hend'] at hv
      cases hv

/-! ## Simulation -/

/-- Forward simulation with stuttering, in the form an invariant of the abstract
side travels down: every reached state has an abstract counterpart that satisfies
it. The step case may use the invariant and that its source is reached. -/
theorem Reached.simulate {τ : Type} (R : σ → τ → Prop) (Q : τ → Prop)
    (next : τ → τ → Prop) (hQ : ∀ t t', Q t → next t t' → Q t')
    (h0 : ∀ s, M.start s → ∃ t, Q t ∧ R s t)
    (hstep : ∀ s a s' t, M.Reached ok s → ok s a → M.step s a = some s' → Q t → R s t →
      R s' t ∨ ∃ t', next t t' ∧ R s' t')
    {s : σ} (h : M.Reached ok s) : ∃ t, Q t ∧ R s t := by
  induction h with
  | start hs => exact h0 _ hs
  | next hs hok hst ih =>
      obtain ⟨t, hq, hr⟩ := ih
      rcases hstep _ _ _ t hs hok hst hq hr with hr' | ⟨t', ht', hr'⟩
      · exact ⟨t, hq, hr'⟩
      · exact ⟨t', hQ t t' hq ht', hr'⟩

/-! ## History variables -/

/-- The machine with a record of the run kept beside its state. `note` sees the
state before the step, the action and the state after it. -/
def withHistory (M : Machine σ α) (h0 : η) (note : σ → α → σ → η → η) :
    Machine (σ × η) α where
  start p := M.start p.1 ∧ p.2 = h0
  step p a := (M.step p.1 a).map fun t => (t, note p.1 a t p.2)

theorem withHistory_step {h0 : η} {note : σ → α → σ → η → η} {p q : σ × η}
    {a : α} (h : (M.withHistory h0 note).step p a = some q) :
    M.step p.1 a = some q.1 ∧ q.2 = note p.1 a q.1 p.2 := by
  obtain ⟨t, ht, hq⟩ := Option.map_eq_some_iff.mp h
  subst hq
  exact ⟨ht, rfl⟩

/-- Forgetting the record gives back a run of the machine itself, so whatever
is proved of the recorded runs is proved of every run. -/
theorem reached_fst {h0 : η} {note : σ → α → σ → η → η} {p : σ × η}
    (h : (M.withHistory h0 note).Reached (fun q a => ok q.1 a) p) :
    M.Reached ok p.1 := by
  induction h with
  | start hs => exact .start hs.1
  | next _ hok ht ih => exact .next ih hok (withHistory_step ht).1

/-- And every run can be recorded. -/
theorem Reached.recorded (h0 : η) (note : σ → α → σ → η → η) {s : σ} (h : M.Reached ok s) :
    ∃ x, (M.withHistory h0 note).Reached (fun q a => ok q.1 a) (s, x) := by
  induction h with
  | start hs => exact ⟨h0, .start ⟨hs, rfl⟩⟩
  | @next s t a _ hok ht ih =>
      obtain ⟨x, hx⟩ := ih
      refine ⟨note s a t x, hx.next hok ?_⟩
      simp [withHistory, ht]

theorem reached_any {h0 : η} {note : σ → α → σ → η → η} {p : σ × η}
    (h : (M.withHistory h0 note).Reached anyStep p) : M.Reached anyStep p.1 :=
  reached_fst (h.weaken fun _ _ _ => trivial)

end Machine

end Xmmsg.Sys
