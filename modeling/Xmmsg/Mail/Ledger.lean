import Xmmsg.Mail.Box
import Mathlib.Data.List.Nodup
import Mathlib.Data.List.Range
import Mathlib.Data.List.Dedup
import Mathlib.Tactic.Common

/-!
# The ordinal ledger

While the baseline is unset nothing has been delivered and nothing is charged.
From the stamp on, with `b0` the stamped baseline, `last` the newest ordinal
delivered and `b` the baseline now: the deliveries are exactly the ordinals in
`(b0, last]`, the ordinals in `(b0, b]` are split between those handed back and
those charged, and nothing above `b` has been handed back.

Two things would break it. A publish that dies between the stamp and its store
leaves an ordinal that later counts as a gap without having been delivered. And a
take that finds the baseline unset while it holds the very record that is about to
be delivered hands back an ordinal that the baseline will be stamped below.
`Careful` names the two.
-/

namespace Xmmsg.Mail

variable {T : Type}

namespace Box

def Careful (m : Box T) : Event T → Prop
  | .compare => ∀ r p, m.taking = .got r → m.base = none → m.awaited = some p →
      p.ordinal ≠ r.ordinal
  | .crash => m.awaited = none ∨ m.base = none
  | _ => True

theorem careful_of_benign {m : Box T} {e : Event T} (h : e.benign = true) : m.Careful e := by
  cases e <;> trivial

/-- Charged ordinals lie below this: the baseline, or the record whose gap has
just been charged. -/
def chargeTop (m : Box T) (b : Nat) : Nat :=
  match m.taking with
  | .storing r => r.ordinal
  | _ => b

/-- The books while the baseline is unset. -/
structure Blank (m : Box T) : Prop where
  origin : m.origin = none
  stored : m.stored = []
  charged : m.charged = []
  overwrites : m.overwrites = 0
  flight : ∀ r, m.flight ≠ .stamped r
  taking : ∀ r, m.taking ≠ .storing r ∧ ∀ last, m.taking ≠ .charging r last
  gotLe : ∀ o, m.Got o → o ≤ m.accepted
  gotNe : ∀ o, m.Got o → ∀ p, m.awaited = some p → p.ordinal ≠ o

/-- The books from the stamp on. -/
structure Balanced (m : Box T) (b0 last b : Nat) : Prop where
  origin : m.origin = some b0
  low : b0 ≤ b
  range : b0 ≤ last
  top : b ≤ max last (b0 + 1)
  lastLe : last ≤ m.accepted
  stored : m.stored = List.range' (b0 + 1) (last - b0)
  due : m.awaited ≠ none → last + 1 = m.accepted
  done : m.joined = true → m.awaited = none → last = m.accepted
  first : last = b0 → ∃ r, m.flight = .stamped r
  seen : ∀ x, m.cell = some x ∨ m.cached = some x →
    x.ordinal ≤ b0 ∨ b ≤ x.ordinal ∧ x.ordinal ≤ max last (b0 + 1)
  chargedRange : ∀ o ∈ m.charged, b0 < o ∧ o < m.chargeTop b
  chargedNodup : m.charged.Nodup
  overwrites : m.overwrites = m.charged.length
  cover : ∀ o, b0 < o → o ≤ b → o ∈ m.charged ∨ m.Got o
  coverGap : ∀ r, m.taking = .storing r → ∀ o, b < o → o < r.ordinal → o ∈ m.charged
  gotLe : ∀ o, m.Got o → o ≤ b
  disjoint : ∀ o ∈ m.charged, ¬ m.Got o
  charging : ∀ r l, m.taking = .charging r l → l = b ∧ b < r.ordinal
  storing : ∀ r, m.taking = .storing r → b < r.ordinal

structure Ledger (m : Box T) : Prop where
  flight : ∀ r, m.flight.record = some r → 0 < r.ordinal ∧ r.ordinal = m.accepted
  cellLe : ∀ x, m.cell = some x → x.ordinal ≤ m.accepted
  cachedLe : ∀ x, m.cached = some x → x.ordinal ≤ m.accepted
  mono : ∀ x c, m.cell = some x → m.cached = some c → c.ordinal ≤ x.ordinal
  hand : ∀ r, m.taking.record = some r → m.cached = some r
  fresh : m.cached = none → m.returned = []
  unset : m.base = none → m.Blank
  set : ∀ b, m.base = some b → ∃ b0 last, m.Balanced b0 last b

theorem ledger_start : Ledger ({} : Box T) := by
  constructor <;> simp [Flight.record, Taking.record]
  constructor <;> simp [Got, awaited]

/-! ## One event at a time

The publisher's side first. An event that moves the publish along without a
store has to say only what is awaited afterwards. -/

theorem awaited_ne_none {m : Box T} {r : MailRecord T}
    (h : m.flight = .here r ∨ m.flight = .stamped r ∨ m.flight = .coming r ∧ m.joined = true) :
    m.awaited = some r := by
  rcases h with h | h | ⟨h, hj⟩ <;> simp [awaited, *]

theorem Ledger.fly {m : Box T} (h : m.Ledger) {f : Flight T} {j : Bool}
    (hrec : ∀ r, f.record = some r → m.flight.record = some r)
    (hstamped : ∀ r, m.flight = .stamped r → f = .stamped r ∨ m.base = none)
    (hnew : ∀ r, f = .stamped r → m.base ≠ none)
    (hdue : m.base ≠ none → ({ m with flight := f, joined := j } : Box T).awaited ≠ none →
      m.awaited ≠ none)
    (hdone : m.base ≠ none → j = true →
      ({ m with flight := f, joined := j } : Box T).awaited = none →
      m.joined = true ∧ m.awaited = none)
    (hne : m.base = none → ∀ p, ({ m with flight := f, joined := j } : Box T).awaited = some p →
      m.awaited = some p ∨ m.cached = none) :
    Ledger { m with flight := f, joined := j } := by
  constructor
  case flight => exact fun r hr => h.flight r (hrec r hr)
  case cellLe => exact h.cellLe
  case cachedLe => exact h.cachedLe
  case mono => exact h.mono
  case hand => exact h.hand
  case fresh => exact h.fresh
  case unset =>
    intro hb
    have hbl := h.unset hb
    refine { hbl with flight := fun r hr => hnew r hr hb, gotNe := ?_ }
    intro o ho p hp
    rcases hne hb p hp with hp' | hc
    · exact hbl.gotNe o ho p hp'
    · -- nothing has been read, so nothing was handed back
      rcases ho with ho | ⟨r, hr, -⟩
      · have := h.fresh hc
        simp only at ho
        rw [this] at ho
        cases ho
      · have := h.hand r (by simp only at hr; rw [hr]; rfl)
        rw [hc] at this
        cases this
  case set =>
    intro b hb
    have hset : m.base ≠ none := by rw [show m.base = some b from hb]; exact Option.some_ne_none b
    obtain ⟨b0, last, hbal⟩ := h.set b hb
    refine ⟨b0, last, { hbal with
      due := fun ha => hbal.due (hdue hset ha)
      done := fun hj ha => ?_
      first := fun hl => ?_ }⟩
    · obtain ⟨h1, h2⟩ := hdone hset hj ha
      exact hbal.done h1 h2
    · obtain ⟨r, hr⟩ := hbal.first hl
      rcases hstamped r hr with hf | hf
      · exact ⟨r, hf⟩
      · exact absurd hf hset

theorem Ledger.draw {m : Box T} (h : m.Ledger) {r : MailRecord T}
    (hq : m.flight = .quiet) (ho : r.ordinal = m.accepted + 1) :
    Ledger { m with accepted := m.accepted + 1, newest := some r, flight := .coming r } := by
  have haw : m.awaited = none := by simp [awaited, hq]
  constructor
  case flight =>
    rintro x hx
    cases hx
    exact ⟨by omega, ho⟩
  case cellLe => exact fun x hx => Nat.le_succ_of_le (h.cellLe x hx)
  case cachedLe => exact fun x hx => Nat.le_succ_of_le (h.cachedLe x hx)
  case mono => exact h.mono
  case hand => exact h.hand
  case fresh => exact h.fresh
  case unset =>
    intro hb
    have hbl := h.unset hb
    refine { hbl with
      flight := fun x hx => by cases hx
      gotLe := fun o hg => Nat.le_succ_of_le (hbl.gotLe o hg)
      gotNe := fun o hg p hp => ?_ }
    have hle := hbl.gotLe o hg
    have hp' : r = p := by
      simp only [awaited] at hp
      split at hp
      · exact Option.some.inj hp
      · cases hp
    rw [← hp', ho]
    omega
  case set =>
    intro b hb
    obtain ⟨b0, last, hbal⟩ := h.set b hb
    refine ⟨b0, last, { hbal with
      lastLe := Nat.le_succ_of_le hbal.lastLe
      due := fun ha => ?_
      done := fun hj ha => ?_
      first := fun hl => ?_ }⟩
    · have hj : m.joined = true := by
        by_contra hj
        simp [awaited, hj] at ha
      have := hbal.done hj haw
      simp only
      omega
    · simp only at hj
      simp [awaited, hj] at ha
    · obtain ⟨x, hx⟩ := hbal.first hl
      rw [hq] at hx
      cases hx

/-- The first delivery: everything handed back so far is below its ordinal, so
the books open balanced. -/
theorem Ledger.stamp {m : Box T} (h : m.Ledger) {r : MailRecord T}
    (hf : m.flight = .here r) (hb : m.base = none) :
    Ledger { m with
      base := some (r.ordinal - 1), origin := some (r.ordinal - 1),
      flight := .stamped r } := by
  obtain ⟨hpos, hacc⟩ := h.flight r (by rw [hf]; rfl)
  have hbl := h.unset hb
  have haw : m.awaited = some r := awaited_ne_none (.inl hf)
  have htop : m.chargeTop (r.ordinal - 1) = r.ordinal - 1 := by
    unfold chargeTop
    split
    · next x hx => exact absurd hx (hbl.taking x).1
    · rfl
  constructor
  case flight =>
    rintro x hx
    cases hx
    exact ⟨hpos, hacc⟩
  case cellLe => exact h.cellLe
  case cachedLe => exact h.cachedLe
  case mono => exact h.mono
  case hand => exact h.hand
  case fresh => exact h.fresh
  case unset =>
    intro h0
    cases h0
  case set =>
    intro b hb'
    cases hb'
    refine ⟨r.ordinal - 1, r.ordinal - 1, ?_⟩
    constructor
    · rfl
    · exact Nat.le_refl _
    · exact Nat.le_refl _
    · omega
    · simp only; omega
    · simp only [hbl.stored, Nat.sub_self, List.range'_zero]
    · intro _
      simp only
      omega
    · intro _ h0
      simp [awaited] at h0
    · exact fun _ => ⟨r, rfl⟩
    · intro x hx
      have hle : x.ordinal ≤ m.accepted := hx.elim (h.cellLe x) (h.cachedLe x)
      omega
    · intro o ho
      simp only [hbl.charged] at ho
      cases ho
    · simp only [hbl.charged, List.nodup_nil]
    · simp only [hbl.charged, hbl.overwrites, List.length_nil]
    · intro o h1 h2
      omega
    · exact fun x hx => absurd hx (hbl.taking x).1
    · intro o ho
      have h1 := hbl.gotLe o ho
      have h2 := hbl.gotNe o ho r haw
      omega
    · intro o ho
      simp only [hbl.charged] at ho
      cases ho
    · exact fun x l hx => absurd hx ((hbl.taking x).2 l)
    · exact fun x hx => absurd hx (hbl.taking x).1

theorem Ledger.tear {m : Box T} (h : m.Ledger) : Ledger { m with cell := none } := by
  constructor
  case flight => exact h.flight
  case cellLe => exact fun x hx => nomatch hx
  case cachedLe => exact h.cachedLe
  case mono => exact fun x c hx => nomatch hx
  case hand => exact h.hand
  case fresh => exact h.fresh
  case unset => exact fun hb => { h.unset hb with }
  case set =>
    intro b hb
    obtain ⟨b0, last, hbal⟩ := h.set b hb
    refine ⟨b0, last, { hbal with seen := fun x hx => hbal.seen x (.inr ?_) }⟩
    rcases hx with hx | hx
    · cases hx
    · exact hx

theorem Ledger.store {m : Box T} (h : m.Ledger) {r : MailRecord T}
    {f : Flight T} (hf : m.flight = .stamped r)
    (hf' : f = .passed r ∨ m.joined = false ∧ f = .coming r) :
    Ledger { m with
      cell := some r, stored := m.stored ++ [r.ordinal], flight := f } := by
  obtain ⟨hpos, hacc⟩ := h.flight r (by rw [hf]; rfl)
  have haw : awaited { m with
      cell := some r, stored := m.stored ++ [r.ordinal], flight := f } = none := by
    rcases hf' with rfl | ⟨hj, rfl⟩
    · rfl
    · simp [awaited, hj]
  constructor
  case flight =>
    intro x hx
    have hx' : r = x := by rcases hf' with rfl | ⟨-, rfl⟩ <;> exact Option.some.inj hx
    exact hx' ▸ ⟨hpos, hacc⟩
  case cellLe =>
    rintro x hx
    cases hx
    exact Nat.le_of_eq hacc
  case cachedLe => exact h.cachedLe
  case mono =>
    rintro x c hx hc
    cases hx
    have := h.cachedLe c hc
    omega
  case hand => exact h.hand
  case fresh => exact h.fresh
  case unset => exact fun hb => absurd hf ((h.unset hb).flight r)
  case set =>
    intro b hb
    obtain ⟨b0, last, hbal⟩ := h.set b hb
    have hlast : last + 1 = m.accepted :=
      hbal.due (by rw [awaited_ne_none (.inr (.inl hf))]; exact Option.some_ne_none r)
    have hr := hbal.range
    have ht := hbal.top
    refine ⟨b0, last + 1, { hbal with
      range := by omega
      top := by omega
      lastLe := Nat.le_of_eq hlast
      stored := ?_
      due := fun ha => absurd haw ha
      done := fun _ _ => hlast
      first := fun hl => by omega
      seen := fun x hx => ?_ }⟩
    · have hlen : last + 1 - b0 = last - b0 + 1 := by omega
      simp only [hbal.stored]
      rw [hlen, List.range'_1_concat, hacc, ← hlast]
      congr 2
      omega
    · rcases hx with hx | hx
      · cases hx
        omega
      · have := hbal.seen x (.inr hx)
        omega

theorem Ledger.seed {m : Box T} (h : m.Ledger) {r : MailRecord T} (hb : m.base = none)
    (hc : m.cached = none) (hr : r.ordinal ≤ m.accepted) :
    Ledger { m with cell := some r } := by
  constructor
  case flight => exact h.flight
  case cellLe =>
    rintro x hx
    cases hx
    exact hr
  case cachedLe => exact h.cachedLe
  case mono =>
    intro x c _ hc'
    simp only at hc'
    rw [hc] at hc'
    cases hc'
  case hand => exact h.hand
  case fresh => exact h.fresh
  case unset => exact fun hb => { h.unset hb with }
  case set =>
    intro b hb'
    simp only at hb'
    rw [hb] at hb'
    cases hb'

/-! The subscriber's side. -/

theorem Ledger.load {m : Box T} (h : m.Ledger) {r : MailRecord T} (hi : m.taking = .idle)
    (hr : m.Readable r) : Ledger { m with taking := .got r, cached := some r } := by
  have hgot : ∀ o, Got { m with taking := .got r, cached := some r } o → m.Got o := by
    rintro o (ho | ⟨x, hx, -⟩)
    · exact .inl ho
    · cases hx
  have hle : r.ordinal ≤ m.accepted := by
    rcases hr with hr | ⟨-, hr⟩
    · exact h.cellLe r hr
    · exact h.cachedLe r hr
  constructor
  case flight => exact h.flight
  case cellLe => exact h.cellLe
  case cachedLe =>
    rintro x hx
    cases hx
    exact hle
  case mono =>
    rintro x c hx hc
    cases hc
    simp only at hx
    rcases hr with hr | ⟨hn, -⟩
    · rw [hr] at hx
      cases hx
      exact Nat.le_refl _
    · rw [hn] at hx
      cases hx
  case hand =>
    rintro x hx
    cases hx
    rfl
  case fresh =>
    intro hc
    cases hc
  case unset =>
    intro hb
    have hbl := h.unset hb
    exact { hbl with
      taking := fun x => ⟨fun h0 => (nomatch h0), fun l h0 => (nomatch h0)⟩
      gotLe := fun o ho => hbl.gotLe o (hgot o ho)
      gotNe := fun o ho => hbl.gotNe o (hgot o ho) }
  case set =>
    intro b hb
    obtain ⟨b0, last, hbal⟩ := h.set b hb
    have htop : m.chargeTop b = b := by simp [chargeTop, hi]
    refine ⟨b0, last, { hbal with
      seen := fun x hx => ?_
      chargedRange := fun o ho => htop ▸ hbal.chargedRange o ho
      cover := fun o h1 h2 => ?_
      coverGap := fun x hx => nomatch hx
      gotLe := fun o ho => hbal.gotLe o (hgot o ho)
      disjoint := fun o ho hg => hbal.disjoint o ho (hgot o hg)
      charging := fun x l hx => nomatch hx
      storing := fun x hx => nomatch hx }⟩
    · rcases hx with hx | hx
      · exact hbal.seen x (.inl hx)
      · cases hx
        rcases hr with hr | ⟨-, hr⟩
        · exact hbal.seen r (.inl hr)
        · exact hbal.seen r (.inr hr)
    · refine (hbal.cover o h1 h2).imp_right ?_
      rintro (ho | ⟨x, hx, -⟩)
      · exact .inl ho
      · rw [hi] at hx
        cases hx

/-- A take that settles on its record without moving the baseline. -/
theorem Ledger.settle {m : Box T} (h : m.Ledger) {r : MailRecord T}
    (hg : m.taking = .got r)
    (hunset : m.base = none → ∀ p, m.awaited = some p → p.ordinal ≠ r.ordinal)
    (hset : ∀ b, m.base = some b → r.ordinal ≤ b) :
    Ledger { m with taking := .returning r } := by
  have hc : m.cached = some r := h.hand r (by rw [hg]; rfl)
  have hgot : ∀ o, Got { m with taking := .returning r } o → m.Got o ∨ o = r.ordinal := by
    rintro o (ho | ⟨x, hx, he⟩)
    · exact .inl (.inl ho)
    · cases hx
      exact .inr he.symm
  have hgot' : ∀ o, m.Got o → Got { m with taking := .returning r } o := by
    rintro o (ho | ⟨x, hx, -⟩)
    · exact .inl ho
    · rw [hg] at hx
      cases hx
  constructor
  case flight => exact h.flight
  case cellLe => exact h.cellLe
  case cachedLe => exact h.cachedLe
  case mono => exact h.mono
  case hand =>
    rintro x hx
    cases hx
    exact hc
  case fresh => exact h.fresh
  case unset =>
    intro hb
    have hbl := h.unset hb
    refine { hbl with
      taking := fun x => ⟨fun h0 => (nomatch h0), fun l h0 => (nomatch h0)⟩
      gotLe := fun o ho => ?_
      gotNe := fun o ho p hp => ?_ }
    · rcases hgot o ho with ho | rfl
      · exact hbl.gotLe o ho
      · exact h.cachedLe r hc
    · rcases hgot o ho with ho | rfl
      · exact hbl.gotNe o ho p hp
      · exact hunset hb p hp
  case set =>
    intro b hb
    obtain ⟨b0, last, hbal⟩ := h.set b hb
    have htop : m.chargeTop b = b := by simp [chargeTop, hg]
    have hrb := hset b hb
    refine ⟨b0, last, { hbal with
      chargedRange := fun o ho => htop ▸ hbal.chargedRange o ho
      cover := fun o h1 h2 => (hbal.cover o h1 h2).imp_right (hgot' o)
      coverGap := fun x hx => nomatch hx
      gotLe := fun o ho => ?_
      disjoint := fun o ho hg' => ?_
      charging := fun x l hx => nomatch hx
      storing := fun x hx => nomatch hx }⟩
    · rcases hgot o ho with ho | rfl
      · exact hbal.gotLe o ho
      · exact hrb
    · rcases hgot o hg' with hg' | rfl
      · exact hbal.disjoint o ho hg'
      · -- a record read is at or above the baseline, or from before the join
        have h1 := hbal.chargedRange _ ho
        rw [htop] at h1
        have h2 := hbal.seen r (.inr hc)
        omega

theorem Ledger.exceed {m : Box T} (h : m.Ledger) {r : MailRecord T} {b : Nat}
    (hg : m.taking = .got r) (hb : m.base = some b) (hlt : b < r.ordinal) :
    Ledger { m with taking := .charging r b } := by
  have hgot : ∀ o, Got { m with taking := .charging r b } o ↔ m.Got o := by
    intro o
    simp [Got, hg]
  constructor
  case flight => exact h.flight
  case cellLe => exact h.cellLe
  case cachedLe => exact h.cachedLe
  case mono => exact h.mono
  case hand =>
    rintro x hx
    cases hx
    exact h.hand r (by rw [hg]; rfl)
  case fresh => exact h.fresh
  case unset =>
    intro hn
    simp only at hn
    rw [hb] at hn
    cases hn
  case set =>
    intro b' hb'
    obtain ⟨b0, last, hbal⟩ := h.set b' hb'
    obtain rfl : b = b' := Option.some.inj (hb.symm.trans hb')
    have htop : m.chargeTop b = b := by simp [chargeTop, hg]
    refine ⟨b0, last, { hbal with
      chargedRange := fun o ho => htop ▸ hbal.chargedRange o ho
      cover := fun o h1 h2 => (hbal.cover o h1 h2).imp_right (hgot o).mpr
      coverGap := fun x hx => nomatch hx
      gotLe := fun o ho => hbal.gotLe o ((hgot o).mp ho)
      disjoint := fun o ho hg' => hbal.disjoint o ho ((hgot o).mp hg')
      charging := fun x l hx => ?_
      storing := fun x hx => nomatch hx }⟩
    cases hx
    exact ⟨rfl, hlt⟩

theorem Ledger.charge {m : Box T} (h : m.Ledger) {r : MailRecord T} {l : Nat}
    (hg : m.taking = .charging r l) :
    Ledger { m with
      overwrites := m.overwrites + (r.ordinal - l - 1)
      charged := m.charged ++ List.range' (l + 1) (r.ordinal - l - 1)
      taking := .storing r } := by
  constructor
  case flight => exact h.flight
  case cellLe => exact h.cellLe
  case cachedLe => exact h.cachedLe
  case mono => exact h.mono
  case hand =>
    rintro x hx
    cases hx
    exact h.hand r (by rw [hg]; rfl)
  case fresh => exact h.fresh
  case unset => exact fun hb => absurd hg (((h.unset hb).taking r).2 l)
  case set =>
    intro b hb
    obtain ⟨b0, last, hbal⟩ := h.set b hb
    obtain ⟨rfl, hlt⟩ := hbal.charging r l hg
    have htop : m.chargeTop l = l := by simp [chargeTop, hg]
    have hgap : ∀ o, o ∈ List.range' (l + 1) (r.ordinal - l - 1) ↔ l < o ∧ o < r.ordinal := by
      intro o
      rw [List.mem_range'_1]
      omega
    have hgot : ∀ o, m.Got o ↔ o ∈ m.returned := by
      intro o
      simp [Got, hg]
    refine ⟨b0, last, { hbal with
      chargedRange := fun o ho => ?_
      chargedNodup := ?_
      overwrites := ?_
      cover := fun o h1 h2 => ?_
      coverGap := fun x hx o h1 h2 => ?_
      gotLe := fun o ho => ?_
      disjoint := fun o ho hg' => ?_
      charging := fun x l hx => nomatch hx
      storing := fun x hx => ?_ }⟩
    · show b0 < o ∧ o < r.ordinal
      have hlow := hbal.low
      rcases List.mem_append.mp ho with ho | ho
      · have := hbal.chargedRange o ho
        rw [htop] at this
        omega
      · rw [hgap] at ho
        omega
    · refine List.Nodup.append hbal.chargedNodup (List.nodup_range' 1) ?_
      intro o h1 h2
      have := hbal.chargedRange o h1
      rw [htop] at this
      rw [hgap] at h2
      omega
    · simp only [List.length_append, List.length_range', hbal.overwrites]
    · rcases hbal.cover o h1 h2 with ho | ho
      · exact .inl (List.mem_append_left _ ho)
      · exact .inr (.inl ((hgot o).mp ho))
    · cases hx
      exact List.mem_append_right _ ((hgap o).mpr ⟨h1, h2⟩)
    · rcases ho with ho | ⟨x, hx, -⟩
      · exact hbal.gotLe o (.inl ho)
      · cases hx
    · have hg'' : m.Got o := by
        rcases hg' with hg' | ⟨x, hx, -⟩
        · exact .inl hg'
        · cases hx
      rcases List.mem_append.mp ho with ho | ho
      · exact hbal.disjoint o ho hg''
      · have h1 := hbal.gotLe o hg''
        rw [hgap] at ho
        omega
    · cases hx
      exact hlt

theorem Ledger.advance {m : Box T} (h : m.Ledger) {r : MailRecord T}
    (hg : m.taking = .storing r) :
    Ledger { m with base := some r.ordinal, taking := .returning r } := by
  have hc : m.cached = some r := h.hand r (by rw [hg]; rfl)
  have hgot : ∀ o, m.Got o ↔ o ∈ m.returned := by
    intro o
    simp [Got, hg]
  constructor
  case flight => exact h.flight
  case cellLe => exact h.cellLe
  case cachedLe => exact h.cachedLe
  case mono => exact h.mono
  case hand =>
    rintro x hx
    cases hx
    exact hc
  case fresh => exact h.fresh
  case unset =>
    intro hb
    cases hb
  case set =>
    intro b' hb'
    cases hb'
    cases hb : m.base with
    | none => exact absurd hg ((h.unset hb).taking r).1
    | some b =>
        obtain ⟨b0, last, hbal⟩ := h.set b hb
        have hlt := hbal.storing r hg
        have hlow := hbal.low
        have hseen := hbal.seen r (.inr hc)
        have htop : m.chargeTop b = r.ordinal := by simp [chargeTop, hg]
        refine ⟨b0, last, { hbal with
          low := by omega
          top := by omega
          seen := fun x hx => ?_
          chargedRange := fun o ho => htop ▸ hbal.chargedRange o ho
          cover := fun o h1 h2 => ?_
          coverGap := fun x hx => nomatch hx
          gotLe := fun o ho => ?_
          disjoint := fun o ho hg' => ?_
          charging := fun x l hx => nomatch hx
          storing := fun x hx => nomatch hx }⟩
        · rcases hx with hx | hx
          · have h1 := h.mono x r hx hc
            have h2 := hbal.seen x (.inl hx)
            omega
          · simp only at hx
            rw [hc] at hx
            cases hx
            omega
        · by_cases ho : o ≤ b
          · exact (hbal.cover o h1 ho).imp_right fun hg' => .inl ((hgot o).mp hg')
          · by_cases he : o = r.ordinal
            · exact .inr (.inr ⟨r, rfl, he.symm⟩)
            · exact .inl (hbal.coverGap r hg o (by omega) (by omega))
        · rcases ho with ho | ⟨x, hx, he⟩
          · have := hbal.gotLe o (.inl ho)
            omega
          · cases hx
            omega
        · rcases hg' with hg' | ⟨x, hx, he⟩
          · exact hbal.disjoint o ho (.inl hg')
          · cases hx
            have := hbal.chargedRange o ho
            rw [htop] at this
            omega

theorem Ledger.ret {m : Box T} (h : m.Ledger) {r : MailRecord T}
    (hg : m.taking = .returning r) :
    Ledger { m with returned := m.returned ++ [r.ordinal], taking := .idle } := by
  have hgot : ∀ o, Got { m with returned := m.returned ++ [r.ordinal], taking := .idle } o ↔
      m.Got o := by
    intro o
    simp [Got, hg, eq_comm]
  constructor
  case flight => exact h.flight
  case cellLe => exact h.cellLe
  case cachedLe => exact h.cachedLe
  case mono => exact h.mono
  case hand => exact fun x hx => nomatch hx
  case fresh =>
    intro hc
    have := h.hand r (by rw [hg]; rfl)
    simp only at hc
    rw [hc] at this
    cases this
  case unset =>
    intro hb
    have hbl := h.unset hb
    exact { hbl with
      taking := fun x => ⟨fun h0 => (nomatch h0), fun l h0 => (nomatch h0)⟩
      gotLe := fun o ho => hbl.gotLe o ((hgot o).mp ho)
      gotNe := fun o ho => hbl.gotNe o ((hgot o).mp ho) }
  case set =>
    intro b hb
    obtain ⟨b0, last, hbal⟩ := h.set b hb
    have htop : m.chargeTop b = b := by simp [chargeTop, hg]
    exact ⟨b0, last, { hbal with
      chargedRange := fun o ho => htop ▸ hbal.chargedRange o ho
      cover := fun o h1 h2 => (hbal.cover o h1 h2).imp_right (hgot o).mpr
      coverGap := fun x hx => nomatch hx
      gotLe := fun o ho => hbal.gotLe o ((hgot o).mp ho)
      disjoint := fun o ho hg' => hbal.disjoint o ho ((hgot o).mp hg')
      charging := fun x l hx => nomatch hx
      storing := fun x hx => nomatch hx }⟩

theorem ledger_step {m m' : Box T} {e : Event T} (h : m.Ledger) (hok : m.Careful e)
    (hs : m.Step e m') : m'.Ledger := by
  cases hs with
  | draw r hq ho => exact h.draw hq ho
  | reach r hf hj =>
      have ha : m.awaited = some r := awaited_ne_none (.inr (.inr ⟨hf, hj⟩))
      refine h.fly (j := m.joined) (fun x hx => by rw [hf]; exact hx)
        (fun x hx => by cases hf.symm.trans hx) (fun x hx => by cases hx) ?_ ?_ ?_
      · exact fun _ _ => by rw [ha]; exact Option.some_ne_none r
      · exact fun _ _ h0 => by cases h0
      · exact fun _ p hp => .inl (ha.trans hp)
  | stamp r hf hb => exact h.stamp hf hb
  | stampSet r hf hb =>
      have ha : m.awaited = some r := awaited_ne_none (.inl hf)
      refine h.fly (j := m.joined) (fun x hx => by rw [hf]; exact hx)
        (fun x hx => by cases hf.symm.trans hx) (fun _ _ => hb) ?_ ?_ ?_
      · exact fun _ _ => by rw [ha]; exact Option.some_ne_none r
      · exact fun _ _ h0 => by cases h0
      · exact fun _ p hp => .inl (ha.trans hp)
  | tear r hf => exact h.tear
  | store r f hf hf' => exact h.store hf hf'
  | finish ha =>
      refine h.fly (j := m.joined) (fun x hx => by cases hx) (fun x hx => ?_)
        (fun x hx => by cases hx) (fun _ h0 => absurd rfl h0) (fun _ hj _ => ⟨hj, ha⟩)
        (fun _ p hp => by cases hp)
      rw [awaited_ne_none (.inr (.inl hx))] at ha
      cases ha
  | crash =>
      refine h.fly (j := m.joined) (fun x hx => by cases hx) (fun x hx => ?_)
        (fun x hx => by cases hx) (fun _ h0 => absurd rfl h0)
        (fun hb hj _ => ⟨hj, hok.resolve_right hb⟩) (fun _ p hp => by cases hp)
      rcases hok with ha | hb
      · rw [awaited_ne_none (.inr (.inl hx))] at ha
        cases ha
      · exact .inr hb
  | seed r _ hb hc hr => exact h.seed hb hc hr
  | join hb hc =>
      exact h.fly (fun _ hx => hx) (fun _ hx => .inl hx)
        (fun x hx => absurd hx ((h.unset hb).flight x)) (fun h0 => absurd hb h0)
        (fun h0 => absurd hb h0) (fun _ _ _ => .inr hc)
  | joinLate r hb hc hf =>
      exact h.fly (fun x hx => by rw [hf]; exact hx) (fun _ hx => by cases hf.symm.trans hx)
        (fun x hx => by cases hx) (fun h0 => absurd hb h0) (fun h0 => absurd hb h0)
        (fun _ _ _ => .inr hc)
  | leave f hf =>
      refine h.fly (fun x hx => ?_) (fun x hx => ?_) (fun x hx => ?_) (fun _ ha => ?_)
        (fun _ h0 => by cases h0) (fun _ p hp => .inl ?_)
      · rcases hf with rfl | ⟨r, h1, rfl⟩
        · exact hx
        · rw [h1]; exact hx
      · rcases hf with rfl | ⟨r, h1, -⟩
        · exact .inl hx
        · exact by cases h1.symm.trans hx
      · rcases hf with rfl | ⟨r, -, h1⟩
        · exact fun hb => (h.unset hb).flight x hx
        · exact by cases h1.symm.trans hx
      · rcases hf with rfl | ⟨r, -, rfl⟩
        · cases hfl : m.flight <;> simp_all [awaited]
        · simp [awaited] at ha
      · rcases hf with rfl | ⟨r, -, rfl⟩
        · cases hfl : m.flight <;> simp_all [awaited]
        · simp [awaited] at hp
  | load r hi hr => exact h.load hi hr
  | compareUnset r hg hb =>
      exact h.settle hg (fun _ p hp => hok r p hg hb hp) (fun b hb' => by cases hb.symm.trans hb')
  | compareOld r b hg hb hle =>
      refine h.settle hg (fun hn => by cases hb.symm.trans hn) (fun b' hb' => ?_)
      obtain rfl : b = b' := Option.some.inj (hb.symm.trans hb')
      exact hle
  | compareNew r b hg hb hlt => exact h.exceed hg hb hlt
  | charge r l hg => exact h.charge hg
  | advance r hg => exact h.advance hg
  | ret r hg => exact h.ret hg

/-! ## What the books say -/

theorem Ledger.charged_stored {m : Box T} (h : m.Ledger) {o : Nat} (ho : o ∈ m.charged) :
    o ∈ m.stored := by
  cases hb : m.base with
  | none =>
      rw [(h.unset hb).charged] at ho
      cases ho
  | some b =>
      obtain ⟨b0, last, hbal⟩ := h.set b hb
      have h1 := hbal.chargedRange o ho
      have h2 := hbal.top
      have h3 : o ≤ last := by
        cases hg : m.taking with
        | storing r =>
            have h4 := hbal.seen r (.inr (h.hand r (by rw [hg]; rfl)))
            have h5 := hbal.storing r hg
            have h6 := hbal.low
            simp only [chargeTop, hg] at h1
            omega
        | _ =>
            simp only [chargeTop, hg] at h1
            omega
      rw [hbal.stored, List.mem_range'_1]
      omega

theorem Ledger.charged_not_returned {m : Box T} (h : m.Ledger) {o : Nat}
    (ho : o ∈ m.charged) : o ∉ m.returned := by
  intro hr
  cases hb : m.base with
  | none =>
      rw [(h.unset hb).charged] at ho
      cases ho
  | some b =>
      obtain ⟨b0, last, hbal⟩ := h.set b hb
      exact hbal.disjoint o ho (.inl hr)

theorem Ledger.overwrites_eq {m : Box T} (h : m.Ledger) :
    m.overwrites = m.charged.length ∧ m.charged.Nodup := by
  cases hb : m.base with
  | none =>
      have hbl := h.unset hb
      rw [hbl.overwrites, hbl.charged]
      exact ⟨rfl, List.nodup_nil⟩
  | some b =>
      obtain ⟨b0, last, hbal⟩ := h.set b hb
      exact ⟨hbal.overwrites, hbal.chargedNodup⟩

/-- Between takes, once the newest record has been handed back, the counter is
the number of deliveries no take handed back. -/
theorem Ledger.overwrites_exact {m : Box T} (h : m.Ledger) (hi : m.taking = .idle)
    (hnew : m.accepted ∈ m.returned) :
    m.overwrites = (m.stored.filter (· ∉ m.returned)).length := by
  cases hb : m.base with
  | none =>
      have hbl := h.unset hb
      rw [hbl.overwrites, hbl.stored]
      rfl
  | some b =>
      obtain ⟨b0, last, hbal⟩ := h.set b hb
      have hgot : ∀ o, m.Got o → o ∈ m.returned := by
        rintro o (ho | ⟨r, hr, -⟩)
        · exact ho
        · rw [hi] at hr
          cases hr
      have hnodup : m.stored.Nodup := by
        rw [hbal.stored]
        exact List.nodup_range' 1
      rw [hbal.overwrites]
      refine List.Perm.length_eq ?_
      rw [List.perm_ext_iff_of_nodup hbal.chargedNodup (hnodup.filter _)]
      intro o
      simp only [List.mem_filter, decide_eq_true_eq]
      constructor
      · exact fun ho => ⟨h.charged_stored ho, h.charged_not_returned ho⟩
      · rintro ⟨ho, hr⟩
        rw [hbal.stored, List.mem_range'_1] at ho
        have h1 := hbal.gotLe _ (.inl hnew)
        have h2 := hbal.lastLe
        exact (hbal.cover o (by omega) (by omega)).resolve_right fun hg => hr (hgot o hg)

/-- With nothing on its way and the newest record handed back, every delivery
since the stamp was handed back or charged, and nothing else was. -/
theorem Ledger.conservation {m : Box T} (h : m.Ledger) (hi : m.taking = .idle)
    (hj : m.joined = true) (ha : m.awaited = none) (hnew : m.accepted ∈ m.returned)
    {b0 : Nat} (h0 : m.origin = some b0) :
    ((m.returned.filter (b0 < ·)).dedup).length + m.overwrites = m.stored.length := by
  cases hb : m.base with
  | none =>
      rw [(h.unset hb).origin] at h0
      cases h0
  | some b =>
      obtain ⟨b0', last, hbal⟩ := h.set b hb
      obtain rfl : b0' = b0 := Option.some.inj (hbal.origin.symm.trans h0)
      have hlast : last = m.accepted := hbal.done hj ha
      -- the stamped publish has arrived, so something has been delivered
      have hfirst : last ≠ b0' := by
        intro hl
        obtain ⟨r, hr⟩ := hbal.first hl
        rw [awaited_ne_none (.inr (.inl hr))] at ha
        cases ha
      have hgot : ∀ o, m.Got o → o ∈ m.returned := by
        rintro o (ho | ⟨r, hr, -⟩)
        · exact ho
        · rw [hi] at hr
          cases hr
      have hmem : ∀ o, o ∈ (m.returned.filter (b0' < ·)).dedup ↔ o ∈ m.returned ∧ b0' < o := by
        intro o
        simp
      rw [hbal.overwrites, ← List.length_append]
      refine List.Perm.length_eq ?_
      rw [List.perm_ext_iff_of_nodup]
      · intro o
        rw [List.mem_append, hmem]
        constructor
        · rintro (⟨ho, hlt⟩ | ho)
          · have h1 := hbal.gotLe o (.inl ho)
            have h2 := hbal.top
            have h3 := hbal.range
            rw [hbal.stored, List.mem_range'_1]
            omega
          · exact h.charged_stored ho
        · intro ho
          rw [hbal.stored, List.mem_range'_1] at ho
          have h1 := hbal.gotLe _ (.inl hnew)
          rcases hbal.cover o (by omega) (by omega) with hc | hg
          · exact .inr hc
          · exact .inl ⟨hgot o hg, by omega⟩
      · refine (List.nodup_dedup _).append hbal.chargedNodup ?_
        intro o ho hc
        exact hbal.disjoint o hc (.inl ((hmem o).mp ho).1)
      · rw [hbal.stored]
        exact List.nodup_range' 1

end Box

end Xmmsg.Mail
