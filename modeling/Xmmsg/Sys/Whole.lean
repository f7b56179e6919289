import Xmmsg.Sys.Machine
import Xmmsg.Sys.Script

/-!
# Whole calls and the accesses they are made of

A component is often described twice: call by call, as a function from the state to an
answer and the state after it, and access by access, as a machine on which the calls of
several participants interleave. `Verbs` says how a call is made on the machine: which
action it starts with, which one it goes on with until that is refused, and where its
answer is read. A call whose first action is refused, or that has none, makes no access.

So a call leaves the machine no choice (`Serves.unique`), and the first description is
right when its calls and those of the machine are the same: `script_iff_played` carries
that from one call to programs of any length. `Played.reached` says that whatever such a
program sees is a reachable state of the machine.
-/

namespace Xmmsg.Sys

variable {σ α ι o : Type}

/-- How the calls `ι` with answers `o` are made. -/
structure Verbs (σ α ι o : Type) where
  /-- The first action, in a state in which the call can start. -/
  entry : ι → σ → Option α
  /-- Every later one. -/
  go : ι → α
  /-- The answer, in a state on the way. -/
  said : ι → o → σ → Prop
  /-- The answer of a call that makes no access. -/
  still : ι → o → σ → Prop

namespace Machine

/-- Call `i` leads from `s` to `t` with answer `a`. -/
def Serves (M : Machine σ α) (V : Verbs σ α ι o) (i : ι) (a : o) (s t : σ) : Prop :=
  match (V.entry i s).bind (M.step s) with
  | none => V.still i a s ∧ t = s
  | some u => ∃ v, M.Runs (V.go i) u v ∧ V.said i a v ∧ M.Runs (V.go i) v t ∧
      M.step t (V.go i) = none

/-- A conversation, one call after the other. -/
inductive Played (M : Machine σ α) (V : Verbs σ α ι o) : σ → List (ι × o) → σ → Prop
  | nil (s : σ) : Played M V s [] s
  | cons {s t u : σ} {i : ι} {a : o} {as : List (ι × o)} : M.Serves V i a s t →
      Played M V t as u → Played M V s ((i, a) :: as) u

/-- No state holds two answers, and once the call is past its answer it holds none. -/
structure Definite (M : Machine σ α) (V : Verbs σ α ι o) : Prop where
  said : ∀ {i a b s}, V.said i a s → V.said i b s → a = b
  still : ∀ {i a b s}, V.still i a s → V.still i b s → a = b
  last : ∀ {i a s t}, V.said i a s → M.step s (V.go i) = some t →
    M.step t (V.go i) = none ∧ ∀ b, ¬ V.said i b t

variable {M : Machine σ α} {V : Verbs σ α ι o}

theorem Runs.reached {a : α} {s t : σ} (h : M.Runs a s t) (hs : M.Reached anyStep s) :
    M.Reached anyStep t := by
  induction h with
  | refl => exact hs
  | tail _ hstep ih => exact ih.next trivial hstep

/-! ## One call -/

section Call

variable {i : ι} {a : o} {s t u v : σ} {e : α}

/-- From the first action by way of the answer to the end. -/
theorem serves_entered (he : V.entry i s = some e) (hs : M.step s e = some u)
    (huv : M.Runs (V.go i) u v) (hv : V.said i a v) (hvt : M.Runs (V.go i) v t)
    (hend : M.step t (V.go i) = none) : M.Serves V i a s t := by
  rw [Serves, he, Option.bind_some, hs]
  exact ⟨v, huv, hv, hvt, hend⟩

/-- The answer is there when the call ends. -/
theorem serves_ended (he : V.entry i s = some e) (hs : M.step s e = some u)
    (hut : M.Runs (V.go i) u t) (ht : V.said i a t) (hend : M.step t (V.go i) = none) :
    M.Serves V i a s t :=
  serves_entered he hs hut ht .refl hend

/-- A call that starts as it goes on. -/
theorem serves_runs (he : V.entry i s = some (V.go i)) (hgo : (M.step s (V.go i)).isSome = true)
    (hst : M.Runs (V.go i) s t) (ht : V.said i a t) (hend : M.step t (V.go i) = none) :
    M.Serves V i a s t := by
  rcases Relation.ReflTransGen.cases_head hst with rfl | ⟨u, hs, hut⟩
  · rw [hend] at hgo
    cases hgo
  · exact serves_ended he hs hut ht hend

/-- A call that makes no access. -/
theorem serves_still (hno : ∀ e, V.entry i s = some e → M.step s e = none)
    (hs : V.still i a s) : M.Serves V i a s s := by
  have hnone : (V.entry i s).bind (M.step s) = none := Option.bind_eq_none_iff.mpr hno
  rw [Serves, hnone]
  exact ⟨hs, rfl⟩

/-- A call either makes its first access or makes none. -/
theorem Serves.cases (h : M.Serves V i a s t) :
    (∃ e u, V.entry i s = some e ∧ M.step s e = some u) ∨ V.still i a s := by
  unfold Serves at h
  split at h
  · exact .inr h.1
  · next u hu =>
      obtain ⟨e, he, hs⟩ := Option.bind_eq_some_iff.mp hu
      exact .inl ⟨e, u, he, hs⟩

theorem Serves.reached (h : M.Serves V i a s t) (hs : M.Reached anyStep s) :
    M.Reached anyStep t := by
  unfold Serves at h
  split at h
  · obtain ⟨-, rfl⟩ := h
    exact hs
  · next u hu =>
      obtain ⟨e, -, hstep⟩ := Option.bind_eq_some_iff.mp hu
      obtain ⟨v, huv, -, hvt, -⟩ := h
      exact hvt.reached (huv.reached (hs.next trivial hstep))

/-- The answer on a run is the only one. -/
theorem Definite.said_runs (hV : Definite M V) {b : o} (h : M.Runs (V.go i) s t)
    (ha : V.said i a s) (hb : V.said i b t) : a = b := by
  rcases Relation.ReflTransGen.cases_head h with rfl | ⟨u, hs, hut⟩
  · exact hV.said ha hb
  · obtain ⟨hend, hno⟩ := hV.last ha hs
    rcases Relation.ReflTransGen.cases_head hut with rfl | ⟨x, hx, -⟩
    · exact absurd hb (hno b)
    · rw [hend] at hx
      cases hx

theorem Serves.unique (hV : Definite M V) {b : o} (h : M.Serves V i a s t)
    (h' : M.Serves V i b s u) : a = b ∧ t = u := by
  unfold Serves at h h'
  split at h
  · next hn =>
      rw [hn] at h'
      exact ⟨hV.still h.1 h'.1, h.2.trans h'.2.symm⟩
  · next x hx =>
      rw [hx] at h'
      obtain ⟨v, hxv, hv, hvt, hend⟩ := h
      obtain ⟨v', hxv', hv', hvu, hend'⟩ := h'
      refine ⟨?_, Runs.unique (hxv.trans hvt) (hxv'.trans hvu) hend hend'⟩
      rcases hxv.total hxv' with hr | hr
      · exact hV.said_runs hr hv hv'
      · exact (hV.said_runs hr hv' hv).symm

end Call

/-! ## Programs of calls -/

theorem Played.reached {s t : σ} {as : List (ι × o)} (h : M.Played V s as t)
    (hs : M.Reached anyStep s) : M.Reached anyStep t := by
  induction h with
  | nil => exact hs
  | cons hcall _ ih => exact ih (hcall.reached hs)

section Script

variable {call : σ → ι → Option (o × σ)} {rest : ι → σ → Prop}

/-- A program that makes one call at a time, run on the machine. What a call asks of the
state it is made in, no other call may take away. -/
theorem script_played
    (hcall : ∀ s i a t, rest i s → call s i = some (a, t) →
      M.Serves V i a s t ∧ ∀ j, rest j s → rest j t) :
    ∀ {is : List ι} {s t : σ} {as : List (ι × o)}, (∀ i ∈ is, rest i s) →
      script call is s = some (as, t) → M.Played V s as t := by
  intro is
  induction is with
  | nil =>
      intro s t as _ h
      rw [script] at h
      cases h
      exact .nil _
  | cons i is ih =>
      intro s t as hs h
      obtain ⟨a, u, bs, hi, hrest, rfl⟩ := script_cons h
      obtain ⟨hserves, hkeep⟩ := hcall s i a u (hs i List.mem_cons_self) hi
      exact .cons hserves (ih (fun j hj => hkeep j (hs j (List.mem_cons_of_mem i hj))) hrest)

/-- And the machine plays no other conversation: whatever it answers to these calls, the
functions answer. -/
theorem script_iff_played (hV : Definite M V)
    (hcall : ∀ s i a t, rest i s → call s i = some (a, t) →
      M.Serves V i a s t ∧ ∀ j, rest j s → rest j t)
    (hmade : ∀ s i a t, rest i s → M.Serves V i a s t → (call s i).isSome = true)
    {s t : σ} {as : List (ι × o)} (hs : ∀ x ∈ as, rest x.1 s) :
    script call (as.map Prod.fst) s = some (as, t) ↔ M.Played V s as t := by
  constructor
  · refine script_played hcall fun i hi => ?_
    obtain ⟨x, hx, rfl⟩ := List.mem_map.mp hi
    exact hs x hx
  · intro h
    induction h with
    | nil => rfl
    | @cons s u t i a as hserves _ ih =>
        have hi : rest i s := hs (i, a) List.mem_cons_self
        obtain ⟨⟨b, v⟩, hb⟩ := Option.isSome_iff_exists.mp (hmade s i a u hi hserves)
        obtain ⟨hserves', hkeep⟩ := hcall s i b v hi hb
        obtain ⟨rfl, rfl⟩ := hserves'.unique hV hserves
        have hrest := ih fun x hx => hkeep x.1 (hs x (List.mem_cons_of_mem _ hx))
        rw [List.map_cons, script, hb]
        simp only [hrest]

end Script

end Machine

end Xmmsg.Sys
