import Mathlib.Data.List.Basic

/-!
# Extents that tile a range

An extent is an offset and a length. A list of them tiles a range if each begins
where the one before ends; that is what a single scan can check. `tiles_iff` says
what it means for the bytes: every byte of the range is in exactly one extent, and
the extents come in increasing order.

Extents often come in blocks, each block meant for a range of its own. If no two
blocks share bytes, unless they are the same block listed twice, then the whole list
tiles the range only if the blocks do and each block's extents tile its own range
(`blocks_tile_iff`): a hole in one block cannot be filled from another.
-/

namespace Xmmsg.Sys

/-- Offset and length. -/
abbrev Extent := Nat × Nat

/-- The extent has this byte. -/
def Extent.covers (i : Nat) (x : Extent) : Bool := decide (x.1 ≤ i) && decide (i < x.1 + x.2)

theorem Extent.covers_iff {i : Nat} {x : Extent} :
    x.covers i = true ↔ x.1 ≤ i ∧ i < x.1 + x.2 := by
  rw [covers, Bool.and_eq_true, decide_eq_true_eq, decide_eq_true_eq]

/-- How many of the extents have this byte. -/
def coverage (i : Nat) (xs : List Extent) : Nat := xs.countP (Extent.covers i)

/-- Each extent begins where the one before ends. -/
def Tiles : Nat → List Extent → Nat → Prop
  | lo, [], hi => lo = hi
  | lo, x :: xs, hi => x.1 = lo ∧ Tiles (lo + x.2) xs hi

/-- A nonempty extent inside a range. -/
def Extent.Within (lo hi : Nat) (x : Extent) : Prop := lo ≤ x.1 ∧ 1 ≤ x.2 ∧ x.1 + x.2 ≤ hi

theorem coverage_append (i : Nat) (xs ys : List Extent) :
    coverage i (xs ++ ys) = coverage i xs + coverage i ys := List.countP_append

theorem coverage_pos {i : Nat} {xs : List Extent} (h : 0 < coverage i xs) :
    ∃ x ∈ xs, x.1 ≤ i ∧ i < x.1 + x.2 := by
  obtain ⟨x, hx, hc⟩ := List.countP_pos_iff.mp h
  exact ⟨x, hx, Extent.covers_iff.mp hc⟩

theorem tiles_append {lo mid hi : Nat} {xs ys : List Extent} (hx : Tiles lo xs mid)
    (hy : Tiles mid ys hi) : Tiles lo (xs ++ ys) hi := by
  induction xs generalizing lo with
  | nil =>
      cases hx
      exact hy
  | cons x xs ih => exact ⟨hx.1, ih hx.2⟩

/-- What a prefix tiles, the rest goes on from. -/
theorem tiles_of_append {lo mid hi : Nat} {xs ys : List Extent} (h : Tiles lo (xs ++ ys) hi)
    (hx : Tiles lo xs mid) : Tiles mid ys hi := by
  induction xs generalizing lo with
  | nil =>
      cases hx
      exact h
  | cons x xs ih => exact ih h.2 hx.2

theorem tiles_le {lo hi : Nat} {xs : List Extent} (h : Tiles lo xs hi) :
    lo ≤ hi ∧ ∀ x ∈ xs, lo ≤ x.1 := by
  induction xs generalizing lo with
  | nil => exact ⟨Nat.le_of_eq h, fun _ hx => (nomatch hx)⟩
  | cons x xs ih =>
      obtain ⟨hle, hall⟩ := ih h.2
      refine ⟨by omega, fun y hy => ?_⟩
      rcases List.mem_cons.mp hy with rfl | hy'
      · exact Nat.le_of_eq h.1.symm
      · have := hall y hy'
        omega

/-- A tiling has every byte of its range once and no other. -/
theorem tiles_coverage {lo hi : Nat} {xs : List Extent} (h : Tiles lo xs hi) (i : Nat) :
    coverage i xs = if lo ≤ i ∧ i < hi then 1 else 0 := by
  induction xs generalizing lo with
  | nil =>
      cases h
      rw [if_neg (by omega)]
      rfl
  | cons x xs ih =>
      have hrest := ih h.2
      have hle := (tiles_le h.2).1
      have hx := h.1
      rw [coverage, List.countP_cons]
      rw [coverage] at hrest
      rw [hrest]
      by_cases hi' : Extent.covers i x = true
      · have := Extent.covers_iff.mp hi'
        rw [if_pos hi', if_neg (by omega), if_pos (by omega)]
      · have hnot : ¬ (x.1 ≤ i ∧ i < x.1 + x.2) := fun hc => hi' (Extent.covers_iff.mpr hc)
        rw [if_neg hi', Nat.add_zero]
        by_cases hin : lo + x.2 ≤ i ∧ i < hi
        · rw [if_pos hin, if_pos (by omega)]
        · rw [if_neg hin, if_neg (by omega)]

theorem tiles_pairwise {lo hi : Nat} {xs : List Extent} (hpos : ∀ x ∈ xs, 1 ≤ x.2)
    (h : Tiles lo xs hi) : xs.Pairwise fun x y => x.1 < y.1 := by
  induction xs generalizing lo with
  | nil => exact .nil
  | cons x xs ih =>
      refine .cons (fun y hy => ?_) (ih (fun y hy => hpos y (List.mem_cons_of_mem _ hy)) h.2)
      have hlen := hpos x List.mem_cons_self
      have hx := h.1
      have := (tiles_le h.2).2 y hy
      omega

/-- Extents in order that have every byte once follow each other without a gap. -/
theorem tiles_of_coverage {lo hi : Nat} {xs : List Extent} (hle : lo ≤ hi)
    (hin : ∀ x ∈ xs, x.Within lo hi) (hord : xs.Pairwise fun x y => x.1 < y.1)
    (hcov : ∀ i, lo ≤ i → i < hi → coverage i xs = 1) : Tiles lo xs hi := by
  induction xs generalizing lo with
  | nil =>
      rcases Nat.lt_or_ge lo hi with hlt | hge
      · have := hcov lo (Nat.le_refl lo) hlt
        cases this
      · exact Nat.le_antisymm hle hge
  | cons x xs ih =>
      obtain ⟨hlo, hlen, hhi⟩ := hin x List.mem_cons_self
      obtain ⟨hfirst, hord'⟩ := List.pairwise_cons.mp hord
      have hxc : ∀ i, coverage i (x :: xs) = coverage i xs + if x.covers i then 1 else 0 :=
        fun i => List.countP_cons
      -- nothing after `x` reaches back to `lo`
      have hx : x.1 = lo := by
        have h1 := hcov lo (Nat.le_refl lo) (by omega)
        have hpos : 0 < coverage lo (x :: xs) := by omega
        obtain ⟨y, hy, hyl, -⟩ := coverage_pos hpos
        rcases List.mem_cons.mp hy with rfl | hy'
        · omega
        · have := hfirst y hy'
          omega
      -- and nothing after `x` begins inside it, or a byte would be there twice
      have hafter : ∀ y ∈ xs, lo + x.2 ≤ y.1 := by
        intro y hy
        obtain ⟨-, hylen, hyhi⟩ := hin y (List.mem_cons_of_mem _ hy)
        have hyx := hfirst y hy
        by_contra hlt
        have h1 := hcov y.1 (by omega) (by omega)
        have hcx : x.covers y.1 = true := Extent.covers_iff.mpr (by omega)
        have hcy : 0 < coverage y.1 xs :=
          List.countP_pos_iff.mpr ⟨y, hy, Extent.covers_iff.mpr (by omega)⟩
        rw [hxc, if_pos hcx] at h1
        omega
      refine ⟨hx, ih (by omega) (fun y hy => ?_) hord' fun i hi1 hi2 => ?_⟩
      · obtain ⟨-, hylen, hyhi⟩ := hin y (List.mem_cons_of_mem _ hy)
        exact ⟨hafter y hy, hylen, hyhi⟩
      · have h1 := hcov i (by omega) hi2
        have hnot : ¬ x.covers i = true := fun hc => by
          have := Extent.covers_iff.mp hc
          omega
        rwa [hxc, if_neg hnot] at h1

/-- What the scan says about the bytes. -/
theorem tiles_iff {lo hi : Nat} {xs : List Extent} (hle : lo ≤ hi)
    (hin : ∀ x ∈ xs, x.Within lo hi) :
    Tiles lo xs hi ↔ (∀ i, lo ≤ i → i < hi → coverage i xs = 1) ∧
      xs.Pairwise fun x y => x.1 < y.1 := by
  constructor
  · intro h
    refine ⟨fun i h1 h2 => ?_, tiles_pairwise (fun x hx => (hin x hx).2.1) h⟩
    rw [tiles_coverage h, if_pos ⟨h1, h2⟩]
  · exact fun h => tiles_of_coverage hle hin h.2 h.1

/-! ## Blocks -/

/-- Extents meant to tile the range of `size` bytes from `start`. -/
structure Block where
  start : Nat
  size : Nat
  parts : List Extent

namespace Block

def stop (b : Block) : Nat := b.start + b.size

/-- The block has bytes, and its extents are among them. -/
def Inside (lo hi : Nat) (b : Block) : Prop :=
  lo ≤ b.start ∧ 1 ≤ b.size ∧ b.stop ≤ hi ∧ ∀ x ∈ b.parts, x.Within b.start b.stop

/-- The same block, or no byte in common. -/
def Apart (b c : Block) : Prop := b = c ∨ b.stop ≤ c.start ∨ c.stop ≤ b.start

/-- The block's extents do what they are meant for. -/
def Filled (b : Block) : Prop := Tiles b.start b.parts b.stop

def extent (b : Block) : Extent := (b.start, b.size)

end Block

theorem mem_parts {bs : List Block} {x : Extent} (h : x ∈ bs.flatMap Block.parts) :
    ∃ b ∈ bs, x ∈ b.parts := List.mem_flatMap.mp h

/-- The first block of a tiling is filled and starts it, and no later block shares a
byte with it. -/
theorem first_block {lo hi : Nat} {b : Block} {bs : List Block} (hb : b.Inside lo hi)
    (hbs : ∀ c ∈ bs, c.Inside lo hi ∧ b.Apart c)
    (h : Tiles lo (b.parts ++ bs.flatMap Block.parts) hi) :
    b.Filled ∧ b.start = lo ∧ ∀ c ∈ bs, b.stop ≤ c.start := by
  obtain ⟨hlo, hsize, hhi, hparts⟩ := hb
  have hstop : b.stop = b.start + b.size := rfl
  have hwithin : ∀ x ∈ b.parts ++ bs.flatMap Block.parts, x.Within lo hi := by
    intro x hx
    rcases List.mem_append.mp hx with hx | hx
    · obtain ⟨h1, h2, h3⟩ := hparts x hx
      exact ⟨by omega, h2, by omega⟩
    · obtain ⟨c, hc, hxc⟩ := mem_parts hx
      obtain ⟨⟨c1, -, c3, c4⟩, -⟩ := hbs c hc
      obtain ⟨h1, h2, h3⟩ := c4 x hxc
      exact ⟨by omega, h2, by omega⟩
  have hcov : ∀ i, lo ≤ i → i < hi →
      coverage i b.parts + coverage i (bs.flatMap Block.parts) = 1 := by
    intro i h1 h2
    rw [← coverage_append, tiles_coverage h, if_pos ⟨h1, h2⟩]
  -- an extent of a later block with a byte of `b` makes that block `b` itself
  have hsame : ∀ i, b.start ≤ i → i < b.stop → 0 < coverage i (bs.flatMap Block.parts) →
      b ∈ bs := by
    intro i h1 h2 hpos
    obtain ⟨x, hx, hx1, hx2⟩ := coverage_pos hpos
    obtain ⟨c, hc, hxc⟩ := mem_parts hx
    obtain ⟨⟨-, -, -, c4⟩, hap⟩ := hbs c hc
    obtain ⟨h3, -, h5⟩ := c4 x hxc
    rcases hap with rfl | hap | hap
    · exact hc
    · omega
    · omega
  have honce : b ∉ bs := by
    intro hmem
    have h1 := hcov b.start hlo (by omega)
    have hle : coverage b.start b.parts ≤ coverage b.start (bs.flatMap Block.parts) := by
      obtain ⟨s, t, rfl⟩ := List.append_of_mem hmem
      rw [List.flatMap_append, List.flatMap_cons, coverage_append, coverage_append]
      omega
    have hpos : 0 < coverage b.start (bs.flatMap Block.parts) := by omega
    obtain ⟨x, hx, hx1, hx2⟩ := coverage_pos hpos
    obtain ⟨c, hc, hxc⟩ := mem_parts hx
    obtain ⟨⟨-, -, -, c4⟩, hap⟩ := hbs c hc
    obtain ⟨h3, -, h5⟩ := c4 x hxc
    rcases hap with rfl | hap | hap
    · have : 0 < coverage b.start b.parts :=
        List.countP_pos_iff.mpr ⟨x, hxc, Extent.covers_iff.mpr ⟨hx1, hx2⟩⟩
      omega
    · omega
    · omega
  have hord := tiles_pairwise (fun x hx => (hwithin x hx).2.1) h
  have hfilled : b.Filled := by
    refine tiles_of_coverage (by omega) hparts (List.pairwise_append.mp hord).1 fun i h1 h2 => ?_
    have h3 := hcov i (by omega) (by omega)
    have h4 : coverage i (bs.flatMap Block.parts) = 0 := by
      by_contra hne
      exact honce (hsame i h1 h2 (by omega))
    omega
  have hstart : b.start = lo := by
    cases hp : b.parts with
    | nil =>
        rw [Block.Filled, hp] at hfilled
        have : b.start = b.stop := hfilled
        omega
    | cons x xs =>
        rw [Block.Filled, hp] at hfilled
        rw [hp] at h
        exact hfilled.1.symm.trans h.1
  refine ⟨hfilled, hstart, fun c hc => ?_⟩
  obtain ⟨⟨c1, c2, -, -⟩, hap⟩ := hbs c hc
  have hcstop : c.stop = c.start + c.size := rfl
  rcases hap with rfl | hap | hap
  · exact absurd hc honce
  · exact hap
  · omega

/-- A hole in one block cannot be filled from another. -/
theorem blocks_tile_iff {lo hi : Nat} {bs : List Block} (hin : ∀ b ∈ bs, b.Inside lo hi)
    (hap : bs.Pairwise Block.Apart) :
    Tiles lo (bs.flatMap Block.parts) hi ↔
      Tiles lo (bs.map Block.extent) hi ∧ ∀ b ∈ bs, b.Filled := by
  induction bs generalizing lo with
  | nil => exact ⟨fun h => ⟨h, fun _ hb => (nomatch hb)⟩, fun h => h.1⟩
  | cons b bs ih =>
      obtain ⟨hapb, hap'⟩ := List.pairwise_cons.mp hap
      have hb := hin b List.mem_cons_self
      have hbs : ∀ c ∈ bs, c.Inside lo hi ∧ b.Apart c :=
        fun c hc => ⟨hin c (List.mem_cons_of_mem _ hc), hapb c hc⟩
      rw [List.flatMap_cons, List.map_cons]
      constructor
      · intro h
        obtain ⟨hfilled, hstart, hafter⟩ := first_block hb hbs h
        have hrest : Tiles b.stop (bs.flatMap Block.parts) hi :=
          tiles_of_append h (hstart ▸ hfilled)
        have hin' : ∀ c ∈ bs, c.Inside b.stop hi :=
          fun c hc => ⟨hafter c hc, (hbs c hc).1.2⟩
        obtain ⟨htiles, hall⟩ := (ih hin' hap').mp hrest
        refine ⟨⟨hstart, ?_⟩, fun c hc => ?_⟩
        · rw [← hstart]
          exact htiles
        · rcases List.mem_cons.mp hc with rfl | hc'
          · exact hfilled
          · exact hall c hc'
      · rintro ⟨⟨hstart, htiles⟩, hall⟩
        have hstart' : b.start = lo := hstart
        have hfilled := hall b List.mem_cons_self
        have htiles' : Tiles b.stop (bs.map Block.extent) hi := by
          rw [← hstart'] at htiles
          exact htiles
        have hin' : ∀ c ∈ bs, c.Inside b.stop hi := by
          intro c hc
          refine ⟨(tiles_le htiles').2 c.extent (List.mem_map_of_mem hc), (hbs c hc).1.2⟩
        have hrest := (ih hin' hap').mpr ⟨htiles', fun c hc => hall c (List.mem_cons_of_mem _ hc)⟩
        rw [← hstart']
        exact tiles_append hfilled hrest

end Xmmsg.Sys
