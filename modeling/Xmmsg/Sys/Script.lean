import Mathlib.Data.List.Basic

/-!
# Scripts: machines that answer, and two of them side by side

A component used by one caller at a time is a step function from a state and an
input to an answer and a state. A script is a list of inputs; running it collects
the answers, and stops at the first input the state refuses.

Two rules compare runs. `script_simulates` is the simulation rule: if related states
answer alike and stay related, each run of the one is matched by a run of the other;
then two implementations cannot be told apart (`script_agrees`).
`script_purge` is the rule for deleting inputs: if the inputs outside `keep` change
nothing the relation sees, the run without them gives the same answers wherever
`seen` looks.

Both are relative to a ghost that follows the inputs, and to a bound on it that the
script respects throughout (`Within`).

The last section has the two things the loops over a fixed table need: the loop
invariant rule and how a count changes with one entry.
-/

namespace Xmmsg.Sys

variable {σ τ ι o γ : Type}

/-- Run a script and pair every input with its answer. -/
def script (step : σ → ι → Option (o × σ)) : List ι → σ → Option (List (ι × o) × σ)
  | [], s => some ([], s)
  | i :: is, s =>
      match step s i with
      | none => none
      | some (a, t) =>
          match script step is t with
          | none => none
          | some (as, u) => some ((i, a) :: as, u)

/-- The ghost stays within bounds before and after every input. -/
def Within (note : γ → ι → γ) (fits : γ → Prop) : γ → List ι → Prop
  | g, [] => fits g
  | g, i :: is => fits g ∧ Within note fits (note g i) is

theorem Within.head {note : γ → ι → γ} {fits : γ → Prop} {g : γ} {is : List ι}
    (h : Within note fits g is) : fits g := by
  cases is with
  | nil => exact h
  | cons i is => exact h.1

/-- The bound at every point of the script. -/
theorem within_iff_upto {note : γ → ι → γ} {fits : γ → Prop} {is : List ι} {g : γ} :
    Within note fits g is ↔ ∀ js, js <+: is → fits (js.foldl note g) := by
  induction is generalizing g with
  | nil =>
      constructor
      · intro h js hjs
        rw [List.prefix_nil.mp hjs]
        exact h
      · exact fun h => h [] (List.prefix_refl _)
  | cons i is ih =>
      constructor
      · intro h js hjs
        rcases List.prefix_cons_iff.mp hjs with rfl | ⟨ks, rfl, hks⟩
        · exact h.1
        · exact ih.mp h.2 ks hks
      · intro h
        refine ⟨h [] ⟨i :: is, rfl⟩, ih.mpr fun js hjs => ?_⟩
        exact h (i :: js) (List.cons_prefix_cons.mpr ⟨rfl, hjs⟩)

/-- The ghost that knows only the last input. -/
theorem within_of_forall {ok : ι → Prop} {is : List ι} (h : ∀ i ∈ is, ok i) :
    Within (fun _ i => ok i) (fun g => g) True is := by
  have hany : ∀ {is : List ι} {g : Prop}, g → (∀ i ∈ is, ok i) →
      Within (fun _ i => ok i) (fun g => g) g is := by
    intro is
    induction is with
    | nil => exact fun hg _ => hg
    | cons i is ih =>
        exact fun hg h =>
          ⟨hg, ih (h i List.mem_cons_self) fun j hj => h j (List.mem_cons_of_mem _ hj)⟩
  exact hany trivial h

section Runs

variable {step : σ → ι → Option (o × σ)}

theorem script_cons {i : ι} {is : List ι} {s u : σ} {as : List (ι × o)}
    (h : script step (i :: is) s = some (as, u)) :
    ∃ a t bs, step s i = some (a, t) ∧ script step is t = some (bs, u) ∧ as = (i, a) :: bs := by
  rw [script] at h
  split at h
  · cases h
  · next a t hs =>
    split at h
    · cases h
    · next bs v hv =>
      cases h
      exact ⟨a, t, bs, hs, hv, rfl⟩

/-- The invariant rule for scripts. -/
theorem script_keeps {note : γ → ι → γ} {fits : γ → Prop} {P : γ → σ → Prop}
    (hstep : ∀ g s i a t, fits (note g i) → P g s → step s i = some (a, t) → P (note g i) t) :
    ∀ {is : List ι} {g : γ} {s u : σ} {as : List (ι × o)}, Within note fits g is → P g s →
      script step is s = some (as, u) → P (is.foldl note g) u := by
  intro is
  induction is with
  | nil =>
      intro g s u as _ hp h
      rw [script] at h
      cases h
      exact hp
  | cons i is ih =>
      intro g s u as hin hp h
      obtain ⟨a, t, bs, hs, hrest, -⟩ := script_cons h
      exact ih hin.2 (hstep g s i a t hin.2.head hp hs) hrest

/-- The invariant rule without a ghost. -/
theorem script_invariant {P : σ → Prop}
    (hstep : ∀ s i a t, P s → step s i = some (a, t) → P t) {is : List ι} {s u : σ}
    {as : List (ι × o)} (hs : P s) (h : script step is s = some (as, u)) : P u :=
  have hin : Within (fun _ _ => True) (fun g => g) True is := within_of_forall fun _ _ => trivial
  script_keeps (P := fun _ => P) (fun _ s i a t _ => hstep s i a t) hin hs h

theorem script_append {is js : List ι} {s t u : σ} {as bs : List (ι × o)}
    (h : script step is s = some (as, t)) (h' : script step js t = some (bs, u)) :
    script step (is ++ js) s = some (as ++ bs, u) := by
  induction is generalizing s as with
  | nil =>
      cases h
      exact h'
  | cons i is ih =>
      obtain ⟨a, r, cs, hi, hrest, rfl⟩ := script_cons h
      rw [List.cons_append, script, hi]
      simp only [ih hrest]
      rfl

/-- What runs, runs up to any point. -/
theorem script_upto : ∀ {js is : List ι} {s : σ}, js <+: is → (script step is s).isSome →
    ∃ as u, script step js s = some (as, u) := by
  intro js
  induction js with
  | nil => exact fun {_ s} _ _ => ⟨[], s, rfl⟩
  | cons j js ih =>
      intro is s hjs hrun
      cases is with
      | nil => exact absurd (List.prefix_nil.mp hjs) (List.cons_ne_nil _ _)
      | cons i is =>
          obtain ⟨rfl, hrest⟩ := List.cons_prefix_cons.mp hjs
          obtain ⟨⟨as, u⟩, hall⟩ := Option.isSome_iff_exists.mp hrun
          obtain ⟨a, t, bs, hs, htail, -⟩ := script_cons hall
          obtain ⟨cs, v, hv⟩ := ih hrest (by rw [htail]; rfl)
          exact ⟨(j, a) :: cs, v, by simp only [script, hs, hv]⟩

end Runs

section Compare

variable {note : γ → ι → γ} {fits : γ → Prop}

/-- Two steps from related states: both refuse, or both answer the same and stay
related. -/
inductive Agree (R : σ → τ → Prop) : Option (o × σ) → Option (o × τ) → Prop
  | refused : Agree R none none
  | answered {a : o} {s : σ} {t : τ} : R s t → Agree R (some (a, s)) (some (a, t))

/-- The simulation rule: two scripts of the same inputs are like one step. -/
theorem script_simulates {step₁ : σ → ι → Option (o × σ)} {step₂ : τ → ι → Option (o × τ)}
    {R : γ → σ → τ → Prop}
    (hstep : ∀ g s t i, fits (note g i) → R g s t →
      Agree (R (note g i)) (step₁ s i) (step₂ t i)) :
    ∀ {is : List ι} {g : γ} {s : σ} {t : τ}, Within note fits g is → R g s t →
      Agree (R (is.foldl note g)) (script step₁ is s) (script step₂ is t) := by
  intro is
  induction is with
  | nil => exact fun _ hr => .answered hr
  | cons i is ih =>
      intro g s t hin hr
      have hi := hstep g s t i hin.2.head hr
      simp only [script]
      generalize step₁ s i = x at hi
      generalize step₂ t i = y at hi
      cases hi with
      | refused => exact .refused
      | @answered a s' t' hr' =>
          have hrest := ih hin.2 hr'
          simp only []
          generalize script step₁ is s' = x at hrest
          generalize script step₂ is t' = y at hrest
          cases hrest with
          | refused => exact .refused
          | answered hr'' => exact .answered hr''

/-- What a caller sees of it. -/
theorem script_agrees {step₁ : σ → ι → Option (o × σ)} {step₂ : τ → ι → Option (o × τ)}
    {R : γ → σ → τ → Prop}
    (hstep : ∀ g s t i, fits (note g i) → R g s t →
      Agree (R (note g i)) (step₁ s i) (step₂ t i))
    {is : List ι} {g : γ} {s : σ} {t : τ} (hin : Within note fits g is) (hr : R g s t) :
    (script step₁ is s).map Prod.fst = (script step₂ is t).map Prod.fst := by
  have h := script_simulates hstep hin hr
  generalize script step₁ is s = x at h
  generalize script step₂ is t = y at h
  cases h with
  | refused => rfl
  | answered _ => rfl

/-- The rule for deleted inputs. -/
theorem script_purge {step : σ → ι → Option (o × σ)} (keep seen : ι → Bool)
    {R : γ → σ → σ → Prop}
    (hkeep : ∀ g s t i a s', fits (note g i) → R g s t → keep i = true →
      step s i = some (a, s') →
      ∃ b t', step t i = some (b, t') ∧ (seen i = true → b = a) ∧ R (note g i) s' t')
    (hpurge : ∀ g s t i a s', fits (note g i) → R g s t → keep i = false →
      step s i = some (a, s') → seen i = false ∧ R (note g i) s' t) :
    ∀ {is : List ι} {g : γ} {s s' t : σ} {as : List (ι × o)},
      Within note fits g is → R g s t → script step is s = some (as, s') →
      ∃ bs t', script step (is.filter keep) t = some (bs, t') ∧
        (bs.filter fun x => seen x.1) = (as.filter fun x => seen x.1) ∧
        R (is.foldl note g) s' t' := by
  intro is
  induction is with
  | nil =>
      intro g s s' t as _ hr hs
      rw [script] at hs
      cases hs
      exact ⟨[], t, rfl, rfl, hr⟩
  | cons i is ih =>
      intro g s s' t as hin hr hs
      rw [script] at hs
      cases hst : step s i with
      | none =>
          rw [hst] at hs
          cases hs
      | some x =>
          obtain ⟨a, u⟩ := x
          simp only [hst] at hs
          cases hsc : script step is u with
          | none =>
              rw [hsc] at hs
              cases hs
          | some y =>
              obtain ⟨cs, u'⟩ := y
              rw [hsc] at hs
              cases hs
              cases hki : keep i with
              | true =>
                  obtain ⟨b, t', ht, hb, hr'⟩ := hkeep g s t i a u hin.2.head hr hki hst
                  obtain ⟨bs, v, hv, hbs, hrv⟩ := ih hin.2 hr' hsc
                  refine ⟨(i, b) :: bs, v, ?_, ?_, hrv⟩
                  · rw [List.filter_cons_of_pos hki, script, ht]
                    simp only [hv]
                  · cases hsi : seen i with
                    | true =>
                        rw [List.filter_cons_of_pos (by simpa using hsi),
                          List.filter_cons_of_pos (by simpa using hsi), hbs, hb hsi]
                    | false =>
                        rw [List.filter_cons_of_neg (by simp [hsi]),
                          List.filter_cons_of_neg (by simp [hsi]), hbs]
              | false =>
                  obtain ⟨hsi, hr'⟩ := hpurge g s t i a u hin.2.head hr hki hst
                  obtain ⟨bs, v, hv, hbs, hrv⟩ := ih hin.2 hr' hsc
                  refine ⟨bs, v, ?_, ?_, hrv⟩
                  · rw [List.filter_cons_of_neg (by simp [hki])]
                    exact hv
                  · rw [List.filter_cons_of_neg (by simp [hsi]), hbs]

end Compare

/-! ## Loops over a fixed table -/

/-- The loop invariant rule: `P i` holds when the loop has done the entries
below `i`. -/
theorem foldl_range_invariant {f : σ → Nat → σ} {P : Nat → σ → Prop} {s : σ} (h0 : P 0 s) :
    ∀ n, (∀ i t, i < n → P i t → P (i + 1) (f t i)) → P n ((List.range n).foldl f s) := by
  intro n
  induction n with
  | zero => exact fun _ => h0
  | succ n ih =>
      intro hstep
      rw [List.range_succ, List.foldl_append]
      exact hstep n _ (Nat.lt_succ_self n) (ih fun i t hi => hstep i t (by omega))

/-- One more entry counts. -/
theorem countP_range_insert {p q : Nat → Bool} {i n : Nat} (hi : i < n) (hp : p i = false)
    (hq : q i = true) (hne : ∀ j, j ≠ i → q j = p j) :
    (List.range n).countP q = (List.range n).countP p + 1 := by
  induction n with
  | zero => omega
  | succ n ih =>
      rw [List.range_succ, List.countP_append, List.countP_append]
      by_cases hin : i = n
      · subst hin
        have hsame : (List.range i).countP q = (List.range i).countP p :=
          List.countP_congr fun j hj => by
            rw [hne j (Nat.ne_of_lt (List.mem_range.mp hj))]
        simp [hsame, hp, hq]
      · have hlast : q n = p n := hne n (Ne.symm hin)
        have := ih (by omega)
        simp only [List.countP_singleton, hlast]
        omega

/-- An entry below `n` does not count if fewer than `n` do. -/
theorem exists_of_countP_range_lt {p : Nat → Bool} {n : Nat} (h : (List.range n).countP p < n) :
    ∃ i, i < n ∧ p i = false := by
  by_contra hcon
  have hall : ∀ i ∈ List.range n, p i = true := by
    intro i hi
    by_contra hp
    exact hcon ⟨i, List.mem_range.mp hi, by simpa using hp⟩
  rw [List.countP_eq_length.mpr hall, List.length_range] at h
  omega

end Xmmsg.Sys
