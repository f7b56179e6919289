import Xmmsg.Calls
import Mathlib.Order.Bounds.Basic
import Mathlib.Order.OrderDual

/-!
# One derivation

What `PublishDerived` folds out of the samples it is given: `derivedInfo_spec` says it
in terms of the samples, the least origin and one hop more than the most, which is all
that the graph of derivations needs to know (`InProc/Pipeline.lean`).

The fold does not ask whether a sample holds a value. The sample of a take that found
nothing carries the defaults, origin zero and no hops, and takes part as if it had been
consumed: origin zero is older than anything a running clock stamps. `derived_eq_iff`
says when that makes no difference.
-/

namespace Xmmsg

section Fold

variable {α β : Type} [LinearOrder β]

/-- The running minimum of a loop that starts at its first element. -/
theorem foldl_isLeast (f : α → β) (l : List α) (b : β) :
    IsLeast { s | s = b ∨ ∃ u ∈ l, f u = s }
      (l.foldl (fun o v => if f v < o then f v else o) b) := by
  induction l generalizing b with
  | nil =>
      refine ⟨.inl rfl, ?_⟩
      rintro s (rfl | ⟨u, hu, -⟩)
      · exact le_refl _
      · cases hu
  | cons a l ih =>
      rw [List.foldl_cons]
      obtain ⟨hmem, hlow⟩ := ih (if f a < b then f a else b)
      have hle : (if f a < b then f a else b) ≤ b ∧ (if f a < b then f a else b) ≤ f a := by
        split
        · next h => exact ⟨le_of_lt h, le_refl _⟩
        · next h => exact ⟨le_refl _, not_lt.mp h⟩
      constructor
      · rcases hmem with heq | ⟨u, hu, heq⟩
        · rw [heq]
          split
          · exact .inr ⟨a, List.mem_cons_self, rfl⟩
          · exact .inl rfl
        · exact .inr ⟨u, List.mem_cons_of_mem _ hu, heq⟩
      · rintro s (rfl | ⟨u, hu, rfl⟩)
        · exact le_trans (hlow (.inl rfl)) hle.1
        · rcases List.mem_cons.mp hu with rfl | hu'
          · exact le_trans (hlow (.inl rfl)) hle.2
          · exact hlow (.inr ⟨u, hu', rfl⟩)

theorem foldl_isGreatest (f : α → β) (l : List α) (b : β) :
    IsGreatest { s | s = b ∨ ∃ u ∈ l, f u = s }
      (l.foldl (fun o v => if f v > o then f v else o) b) :=
  foldl_isLeast (β := βᵒᵈ) f l b

end Fold

theorem derivedInfo_spec {us : Upstream} (h : us ≠ []) :
    ∃ d, derivedInfo us = some d ∧ IsLeast { s | ∃ u ∈ us, u.1 = s } d.originNs ∧
      ∃ m, IsGreatest { n | ∃ u ∈ us, u.2 = n } m ∧ d.hops = min 65535 (m + 1) := by
  cases us with
  | nil => exact absurd rfl h
  | cons u us =>
      have hset : ∀ {β : Type} (f : Int × Nat → β),
          { s | s = f u ∨ ∃ v ∈ us, f v = s } = { s | ∃ v ∈ u :: us, f v = s } := by
        intro β f
        ext s
        constructor
        · rintro (rfl | ⟨v, hv, hs⟩)
          · exact ⟨u, List.mem_cons_self, rfl⟩
          · exact ⟨v, List.mem_cons_of_mem _ hv, hs⟩
        · rintro ⟨v, hv, rfl⟩
          rcases List.mem_cons.mp hv with rfl | hv'
          · exact .inl rfl
          · exact .inr ⟨v, hv', rfl⟩
      refine ⟨_, rfl, ?_, us.foldl (fun m v => if v.2 > m then v.2 else m) u.2, ?_, ?_⟩
      · rw [← hset]
        exact foldl_isLeast Prod.fst us u.1
      · rw [← hset]
        exact foldl_isGreatest Prod.snd us u.2
      · show (if us.foldl (fun m v => if v.2 > m then v.2 else m) u.2 ≥ 65535 then 65535
          else us.foldl (fun m v => if v.2 > m then v.2 else m) u.2 + 1) = _
        split <;> omega

/-- The same of a lineage read off things. -/
theorem derivedInfo_map {α : Type*} {f : α → Int × Nat} {l : List α} (h : l ≠ []) :
    ∃ d, derivedInfo (l.map f) = some d ∧ IsLeast { s | ∃ a ∈ l, (f a).1 = s } d.originNs ∧
      ∃ m, IsGreatest { n | ∃ a ∈ l, (f a).2 = n } m ∧ d.hops = min 65535 (m + 1) := by
  have hset : ∀ {β : Type} (g : Int × Nat → β),
      { s | ∃ v ∈ l.map f, g v = s } = { s | ∃ a ∈ l, g (f a) = s } := by
    intro β g
    ext s
    constructor
    · rintro ⟨v, hv, hs⟩
      obtain ⟨a, ha, rfl⟩ := List.mem_map.mp hv
      exact ⟨a, ha, hs⟩
    · rintro ⟨a, ha, hs⟩
      exact ⟨f a, List.mem_map_of_mem ha, hs⟩
  obtain ⟨d, hd, hleast, m, hm, hhops⟩ :=
    @derivedInfo_spec (l.map f) (fun h0 => h (List.map_eq_nil_iff.mp h0))
  rw [hset] at hleast hm
  exact ⟨d, hd, hleast, m, hm, hhops⟩

/-! ## Samples that hold nothing -/

/-- What one take verb handed back, whatever it is a sample of: a record with its
deadline verdict, or nothing. -/
structure Taken where
  T : Type
  [zero : Inhabited T]
  got : Option (MailRecord T × Bool)

namespace Taken

instance (u : Taken) : Inhabited u.T := u.zero

def sample (u : Taken) : Sample u.T := sampleOf u.got

/-- `freshness() != Freshness::kNone`. -/
def holds (u : Taken) : Bool := u.sample.freshness != .none

/-- What `PublishDerived` reads of it. -/
def lineage (u : Taken) : Int × Nat := (u.sample.originStamp, u.sample.hopCount)

theorem lineage_of_not_holds {u : Taken} (h : u.holds = false) : u.lineage = (0, 0) := by
  obtain ⟨T, got⟩ := u
  cases got with
  | none => rfl
  | some g =>
      obtain ⟨r, stale⟩ := g
      cases stale <;> cases h

end Taken

/-- The record an accepted `PublishDerived` puts on its topic. -/
def derivedRecord {T : Type} (value : T) (ups : List Taken) (context : Nat) (now : Int)
    (ordinal : Nat) : MailRecord T :=
  ({ value := value, derived := derivedInfo (ups.map Taken.lineage), context := context,
     now := now } : Message T).record ordinal

section

variable {T : Type} (value : T) (context : Nat) (now : Int) (ordinal : Nat)

theorem derivedRecord_none {ups : List Taken} (h : ups = []) :
    (derivedRecord value ups context now ordinal).envelope =
      ⟨context, now, now, 0, 0⟩ := by
  subst h
  rfl

theorem derivedRecord_some {ups : List Taken} {d : DerivedInfo}
    (h : derivedInfo (ups.map Taken.lineage) = some d) :
    (derivedRecord value ups context now ordinal).envelope =
      ⟨context, now, d.originNs, d.hops, 0⟩ := by
  simp only [derivedRecord, Message.record, h]

end

/-- Leaving out the samples that hold nothing does not change the fold once one that
holds a value is at least as old as their defaults. -/
theorem derivedInfo_filter {ups : List Taken} {u : Taken} (hu : u ∈ ups) (hold : u.holds = true)
    (hage : u.sample.originStamp ≤ 0) :
    derivedInfo (ups.map Taken.lineage) =
      derivedInfo ((ups.filter Taken.holds).map Taken.lineage) := by
  have hu' : u ∈ ups.filter Taken.holds := List.mem_filter.mpr ⟨hu, hold⟩
  obtain ⟨d, hd, hleast, m, hm, hhops⟩ :=
    derivedInfo_map (f := Taken.lineage) (List.ne_nil_of_mem hu)
  obtain ⟨d', hd', hleast', m', hm', hhops'⟩ :=
    derivedInfo_map (f := Taken.lineage) (List.ne_nil_of_mem hu')
  have horigin : d.originNs = d'.originNs := by
    refine hleast.unique ⟨?_, ?_⟩
    · obtain ⟨v, hv, hs⟩ := hleast'.1
      exact ⟨v, (List.mem_filter.mp hv).1, hs⟩
    · rintro s ⟨v, hv, rfl⟩
      cases hvh : v.holds with
      | true => exact hleast'.2 ⟨v, List.mem_filter.mpr ⟨hv, hvh⟩, rfl⟩
      | false =>
          rw [Taken.lineage_of_not_holds hvh]
          exact le_trans (hleast'.2 ⟨u, hu', rfl⟩) hage
  have hmost : m = m' := by
    refine hm.unique ⟨?_, ?_⟩
    · obtain ⟨v, hv, hs⟩ := hm'.1
      exact ⟨v, (List.mem_filter.mp hv).1, hs⟩
    · rintro n ⟨v, hv, rfl⟩
      cases hvh : v.holds with
      | true => exact hm'.2 ⟨v, List.mem_filter.mpr ⟨hv, hvh⟩, rfl⟩
      | false =>
          rw [Taken.lineage_of_not_holds hvh]
          exact Nat.zero_le _
  have hsame : d.hops = d'.hops := by rw [hhops, hhops', hmost]
  rw [hd, hd']
  cases d
  cases d'
  rw [Option.some.injEq, DerivedInfo.mk.injEq]
  exact ⟨horigin, hsame⟩

/-- The envelope is the one the samples that hold a value give, exactly when every
sample does or one of those that do is at least as old as the epoch of the clock. -/
theorem derived_eq_iff {T : Type} (value : T) (ups : List Taken) (context : Nat) (now : Int)
    (ordinal : Nat) :
    (derivedRecord value ups context now ordinal).envelope =
        (derivedRecord value (ups.filter Taken.holds) context now ordinal).envelope ↔
      (∀ u ∈ ups, u.holds = true) ∨ ∃ u ∈ ups, u.holds = true ∧ u.sample.originStamp ≤ 0 := by
  constructor
  · intro heq
    by_contra hno
    obtain ⟨hall, hage⟩ := not_or.mp hno
    push Not at hall
    obtain ⟨v, hv, hvh⟩ := hall
    have hzero := Taken.lineage_of_not_holds (Bool.eq_false_iff.mpr hvh)
    obtain ⟨d, hd, hleast, m, -, hhops⟩ :=
      derivedInfo_map (f := Taken.lineage) (List.ne_nil_of_mem hv)
    rw [derivedRecord_some _ _ _ _ hd] at heq
    by_cases hnil : ups.filter Taken.holds = []
    · -- none holds a value: a hop is counted all the same
      rw [derivedRecord_none _ _ _ _ hnil, Envelope.mk.injEq] at heq
      have := heq.2.2.2.1
      omega
    · obtain ⟨d', hd', hleast', -⟩ := derivedInfo_map (f := Taken.lineage) hnil
      rw [derivedRecord_some _ _ _ _ hd', Envelope.mk.injEq] at heq
      obtain ⟨u, hu, hus⟩ := hleast'.1
      have hlow : d.originNs ≤ 0 := hleast.2 ⟨v, hv, congrArg Prod.fst hzero⟩
      refine hage ⟨u, (List.mem_filter.mp hu).1, (List.mem_filter.mp hu).2, ?_⟩
      calc u.sample.originStamp = d'.originNs := hus
        _ = d.originNs := heq.2.2.1.symm
        _ ≤ 0 := hlow
  · rintro (hall | ⟨u, hu, hold, hage⟩)
    · rw [List.filter_eq_self.mpr hall]
    · simp only [derivedRecord, Message.record, derivedInfo_filter hu hold hage]

/-- A stage that has one of its two inputs: the origin is that input's stamp, and the
record says the clock's epoch. -/
theorem derived_of_none_forgets :
    let first : MailRecord Nat := ({ value := 7, now := 100 } : Message Nat).record 1
    let ups : List Taken := [⟨Nat, some (first, false)⟩, ⟨Nat, none⟩]
    (derivedRecord 5 ups 0 200 1).envelope.originStampNs = 0 ∧
      (derivedRecord 5 (ups.filter Taken.holds) 0 200 1).envelope.originStampNs = 100 ∧
      ¬ (derivedRecord 5 ups 0 200 1).envelope =
        (derivedRecord 5 (ups.filter Taken.holds) 0 200 1).envelope := by
  decide

end Xmmsg
