import Xmmsg.Schema.Describe
import Xmmsg.Sys.Tiling

/-!
# The tiling check

`CanonicalDescription` ends in an assertion: the extents of the leaves, in the order
they were printed, must follow each other without a gap from 0 to the size of the
payload. It is one scan over a flat list, and it is to find what can go wrong at any
depth: padding the compiler put in, a field left out, listed twice or listed in
another order, in a struct inside an array inside a struct.

What the compiler guarantees is `WellFormed`: the members of a struct lie inside it
and do not overlap, and the listed fields are among them. So the extents of a field
stay in the bytes of the field, no other member has those bytes, and a hole there
cannot be filled from elsewhere. `extentsTile_describe_iff` has the check against the
two readings of it: byte by byte, and struct by struct (`Covered`).
-/

namespace Xmmsg.Schema

open Xmmsg.Sys

/-- The loop of `ExtentsTile`; `pos` is where the next extent has to be. -/
def scanExtents (pos : Nat) : List (Nat × Nat) → Option Nat
  | [] => some pos
  | (offset, extent) :: rest =>
      if offset ≠ pos then none else scanExtents (offset + extent) rest

/-- `ExtentsTile`. -/
def extentsTile (ctx : SchemaContext) (size : Nat) : Bool :=
  match scanExtents 0 ctx.extents with
  | some pos => pos == size
  | none => false

theorem scanExtents_iff {xs : List (Nat × Nat)} {lo hi : Nat} :
    scanExtents lo xs = some hi ↔ Tiles lo xs hi := by
  induction xs generalizing lo with
  | nil => exact ⟨fun h => Option.some.inj h, fun h => congrArg some h⟩
  | cons x xs ih =>
      obtain ⟨offset, extent⟩ := x
      rw [scanExtents]
      by_cases hx : offset = lo
      · subst hx
        rw [if_neg (not_not_intro rfl), ih]
        exact ⟨fun h => ⟨rfl, h⟩, fun h => h.2⟩
      · rw [if_pos hx]
        exact ⟨fun h => (nomatch h), fun h => absurd h.1 hx⟩

theorem extentsTile_iff (ctx : SchemaContext) (size : Nat) :
    extentsTile ctx size = true ↔ Tiles 0 ctx.extents size := by
  rw [extentsTile, ← scanExtents_iff]
  cases scanExtents 0 ctx.extents with
  | none => exact ⟨fun h => (nomatch h), fun h => (nomatch h)⟩
  | some pos => simp

/-! ## Layout -/

/-- The listed fields, offset and type. -/
def FieldList.toList : FieldList → List (Nat × WireType)
  | .nil => []
  | .cons _ offset type rest => (offset, type) :: rest.toList

/-- The listed fields are members of a struct of this size: the members lie inside it
at increasing offsets and do not overlap. -/
def FieldList.Placed (size : Nat) (fields : FieldList) : Prop :=
  ∃ members : List (Nat × WireType),
    members.Pairwise (fun a b => a.1 + a.2.size ≤ b.1) ∧
    (∀ m ∈ members, m.1 + m.2.size ≤ size) ∧ ∀ f ∈ fields.toList, f ∈ members

mutual

/-- What the language guarantees of an object's layout, at every level. -/
def WireType.WellFormed : WireType → Prop
  | .scalar _ => True
  | .array n e => 1 ≤ n ∧ e.WellFormed
  | .described size fields => 1 ≤ size ∧ fields.Placed size ∧ fields.WellFormed

def FieldList.WellFormed : FieldList → Prop
  | .nil => True
  | .cons _ _ type rest => type.WellFormed ∧ rest.WellFormed

end

def Payload.WellFormed (t : Payload) : Prop :=
  1 ≤ t.size ∧ t.fields.Placed t.size ∧ t.fields.WellFormed

mutual

/-- At every level and in every array element the listed fields cover their struct:
the first at its beginning, each next where the one before ends, the last up to its
end. -/
def WireType.Covered : WireType → Prop
  | .scalar _ => True
  | .array _ e => e.Covered
  | .described size fields =>
      Tiles 0 (fields.toList.map fun f => (f.1, f.2.size)) size ∧ fields.Covered

def FieldList.Covered : FieldList → Prop
  | .nil => True
  | .cons _ _ type rest => type.Covered ∧ rest.Covered

end

def Payload.Covered (t : Payload) : Prop :=
  Tiles 0 (t.fields.toList.map fun f => (f.1, f.2.size)) t.size ∧ t.fields.Covered

/-! ## The extents of the leaves -/

mutual

/-- The extents `DescribeField` emits, without the text. -/
def WireType.extents : WireType → Nat → List Extent
  | .scalar s, offset => [(offset, s.token.size)]
  | .array n e, offset =>
      if e.baseDescribed then (List.range n).flatMap fun i => e.extents (offset + i * e.size)
      else [(offset, n * e.size)]
  | .described _ fields, offset => fields.extents offset

def FieldList.extents : FieldList → Nat → List Extent
  | .nil, _ => []
  | .cons _ offset type rest, base => type.extents (base + offset) ++ rest.extents base

end

mutual

theorem leaves_extents (t : WireType) (parents : List Enclosing) (name : Identifier)
    (indices : List Nat) (offset : Nat) :
    (leaves t parents name indices offset).map Leaf.extent = t.extents offset := by
  match t with
  | .scalar s => rfl
  | .array n e =>
      rw [leaves, WireType.extents]
      split
      · rw [List.map_flatMap]
        exact List.flatMap_congr fun i _ => leaves_extents e parents name _ _
      · rfl
  | .described size fields =>
      rw [leaves, WireType.extents]
      exact fieldLeaves_extents fields _ offset

theorem fieldLeaves_extents (fields : FieldList) (parents : List Enclosing) (base : Nat) :
    (fieldLeaves fields parents base).map Leaf.extent = fields.extents base := by
  match fields with
  | .nil => rfl
  | .cons name offset type rest =>
      rw [fieldLeaves, FieldList.extents, List.map_append, leaves_extents, fieldLeaves_extents]

end

theorem describe_extents (t : Payload) : (describe t).extents = t.fields.extents 0 := by
  rw [describe_eq]
  exact fieldLeaves_extents t.fields [] 0

/-- A field as a block of extents. -/
def blockOf (base : Nat) (f : Nat × WireType) : Block :=
  ⟨base + f.1, f.2.size, f.2.extents (base + f.1)⟩

theorem fields_extents_eq (fields : FieldList) (base : Nat) :
    fields.extents base = (fields.toList.map (blockOf base)).flatMap Block.parts := by
  match fields with
  | .nil => rfl
  | .cons name offset type rest =>
      rw [FieldList.extents, FieldList.toList, List.map_cons, List.flatMap_cons,
        fields_extents_eq rest base]
      rfl

/-- An element of an array as a block of extents. -/
def elementOf (base : Nat) (e : WireType) (i : Nat) : Block :=
  ⟨base + i * e.size, e.size, e.extents (base + i * e.size)⟩

theorem wellFormed_of_mem {fields : FieldList} (h : fields.WellFormed) {f : Nat × WireType}
    (hf : f ∈ fields.toList) : f.2.WellFormed := by
  match fields with
  | .nil => cases hf
  | .cons name offset type rest =>
      rw [FieldList.WellFormed] at h
      rcases List.mem_cons.mp hf with rfl | hmem
      · exact h.1
      · exact wellFormed_of_mem h.2 hmem

theorem covered_iff (fields : FieldList) :
    fields.Covered ↔ ∀ f ∈ fields.toList, f.2.Covered := by
  match fields with
  | .nil => exact ⟨fun _ f hf => (nomatch hf), fun _ => trivial⟩
  | .cons name offset type rest =>
      rw [FieldList.Covered, covered_iff rest, FieldList.toList, List.forall_mem_cons]

theorem token_size_pos (t : Token) : 1 ≤ t.size := by cases t <;> decide

theorem size_pos {t : WireType} (h : t.WellFormed) : 1 ≤ t.size := by
  match t with
  | .scalar s => exact token_size_pos s.token
  | .array n e =>
      rw [WireType.WellFormed] at h
      exact Nat.mul_pos h.1 (size_pos h.2)
  | .described size fields =>
      rw [WireType.WellFormed] at h
      exact h.1

/-- An element of an array is inside the array. -/
theorem element_stop {n i s : Nat} (hi : i < n) : i * s + s ≤ n * s := by
  rw [← Nat.succ_mul]
  exact Nat.mul_le_mul_right s hi

/-! ## A field stays in its own bytes -/

mutual

theorem extents_within {t : WireType} (h : t.WellFormed) {base : Nat} {x : Extent}
    (hx : x ∈ t.extents base) : x.Within base (base + t.size) := by
  match t with
  | .scalar s =>
      rw [WireType.extents, List.mem_singleton] at hx
      subst hx
      exact ⟨Nat.le_refl _, token_size_pos s.token, Nat.le_refl _⟩
  | .array n e =>
      have hpos := size_pos h
      rw [WireType.WellFormed] at h
      rw [WireType.extents] at hx
      split at hx
      · obtain ⟨i, hi, hxi⟩ := List.mem_flatMap.mp hx
        have hstop := element_stop (s := e.size) (List.mem_range.mp hi)
        obtain ⟨h1, h2, h3⟩ := extents_within h.2 hxi
        refine ⟨by omega, h2, ?_⟩
        rw [WireType.size]
        omega
      · rw [List.mem_singleton] at hx
        subst hx
        exact ⟨Nat.le_refl _, hpos, Nat.le_refl _⟩
  | .described size fields =>
      rw [WireType.WellFormed] at h
      rw [WireType.extents] at hx
      obtain ⟨f, hf, h1, h2, h3⟩ := fields_extents_within h.2.2 hx
      obtain ⟨members, -, hfit, hmem⟩ := h.2.1
      have := hfit f (hmem f hf)
      refine ⟨by omega, h2, ?_⟩
      rw [WireType.size]
      omega

theorem fields_extents_within {fields : FieldList} (h : fields.WellFormed) {base : Nat}
    {x : Extent} (hx : x ∈ fields.extents base) :
    ∃ f ∈ fields.toList, x.Within (base + f.1) (base + f.1 + f.2.size) := by
  match fields with
  | .nil => cases hx
  | .cons name offset type rest =>
      rw [FieldList.WellFormed] at h
      rw [FieldList.extents] at hx
      rcases List.mem_append.mp hx with hx | hx
      · exact ⟨(offset, type), List.mem_cons_self, extents_within h.1 hx⟩
      · obtain ⟨f, hf, hw⟩ := fields_extents_within h.2 hx
        exact ⟨f, List.mem_cons_of_mem _ hf, hw⟩

end

/-- The fields of a struct, seen as blocks, are inside it and apart. -/
theorem fields_blocks {size : Nat} {fields : FieldList} (hp : fields.Placed size)
    (hw : fields.WellFormed) (base : Nat) :
    (∀ b ∈ fields.toList.map (blockOf base), b.Inside base (base + size)) ∧
      (fields.toList.map (blockOf base)).Pairwise Block.Apart := by
  obtain ⟨members, hord, hfit, hmem⟩ := hp
  constructor
  · intro b hb
    obtain ⟨f, hf, rfl⟩ := List.mem_map.mp hb
    have hwf := wellFormed_of_mem hw hf
    have := hfit f (hmem f hf)
    refine ⟨Nat.le_add_right _ _, size_pos hwf, ?_, fun x hx => extents_within hwf hx⟩
    show base + f.1 + f.2.size ≤ base + size
    omega
  · -- two members are the same one, or one is before the other
    have hbefore : ∀ {f g : Nat × WireType}, f.1 + f.2.size ≤ g.1 →
        (blockOf base f).stop ≤ (blockOf base g).start := by
      intro f g h
      show base + f.1 + f.2.size ≤ base + g.1
      omega
    have hapart : ∀ f ∈ members, ∀ g ∈ members, (blockOf base f).Apart (blockOf base g) :=
      fun f hf g hg => List.Pairwise.forall_of_forall_of_flip
        (R := fun f g => (blockOf base f).Apart (blockOf base g)) (fun _ _ => .inl rfl)
        (hord.imp fun h => .inr (.inl (hbefore h))) (hord.imp fun h => .inr (.inr (hbefore h)))
        hf hg
    rw [List.pairwise_map]
    exact List.pairwise_of_forall_mem_list fun f hf g hg => hapart f (hmem f hf) g (hmem g hg)

/-- So are the elements of an array. -/
theorem elements_blocks {e : WireType} (hw : e.WellFormed) (n base : Nat) :
    (∀ b ∈ (List.range n).map (elementOf base e), b.Inside base (base + n * e.size)) ∧
      ((List.range n).map (elementOf base e)).Pairwise Block.Apart := by
  constructor
  · intro b hb
    obtain ⟨i, hi, rfl⟩ := List.mem_map.mp hb
    have := element_stop (s := e.size) (List.mem_range.mp hi)
    refine ⟨Nat.le_add_right _ _, size_pos hw, ?_, fun x hx => extents_within hw hx⟩
    show base + i * e.size + e.size ≤ base + n * e.size
    omega
  · rw [List.pairwise_map]
    refine List.pairwise_lt_range.imp fun {i j} hij => .inr (.inl ?_)
    have := element_stop (s := e.size) hij
    show base + i * e.size + e.size ≤ base + j * e.size
    omega

/-! ## The check, level by level -/

/-- The elements of an array follow each other whatever they contain. -/
theorem elements_tile (e : WireType) (n base : Nat) :
    Tiles base (((List.range n).map (elementOf base e)).map Block.extent) (base + n * e.size) := by
  induction n with
  | zero => exact (by simp : base = base + 0 * e.size)
  | succ n ih =>
      rw [List.range_succ, List.map_append, List.map_append]
      refine tiles_append ih ⟨rfl, ?_⟩
      show base + n * e.size + e.size = base + (n + 1) * e.size
      rw [Nat.succ_mul]
      omega

/-- Offsets are relative to the struct, extents are absolute. -/
theorem tiles_shift (base : Nat) {lo hi : Nat} {xs : List Extent} :
    Tiles (base + lo) (xs.map fun x => (base + x.1, x.2)) (base + hi) ↔ Tiles lo xs hi := by
  induction xs generalizing lo with
  | nil => exact Nat.add_left_cancel_iff
  | cons x xs ih =>
      rw [List.map_cons, Tiles, Tiles, Nat.add_assoc, ih]
      exact and_congr_left fun _ => Nat.add_left_cancel_iff

theorem covered_of_scalars {t : WireType} (h : t.baseDescribed = false) : t.Covered := by
  match t with
  | .scalar s => trivial
  | .array n e => exact covered_of_scalars (t := e) h
  | .described size fields => cases h

mutual

theorem tiles_extents_iff {t : WireType} (h : t.WellFormed) (base : Nat) :
    Tiles base (t.extents base) (base + t.size) ↔ t.Covered := by
  match t with
  | .scalar s => exact ⟨fun _ => trivial, fun _ => ⟨rfl, rfl⟩⟩
  | .array n e =>
      rw [WireType.WellFormed] at h
      rw [WireType.extents]
      split
      · obtain ⟨hin, hap⟩ := elements_blocks h.2 n base
        have hparts : ((List.range n).flatMap fun i => e.extents (base + i * e.size)) =
            ((List.range n).map (elementOf base e)).flatMap Block.parts := by
          rw [List.flatMap_map]
          rfl
        rw [hparts, WireType.size, blocks_tile_iff hin hap]
        constructor
        · rintro ⟨-, hall⟩
          have hfirst := hall _ (List.mem_map_of_mem (List.mem_range.mpr h.1))
          exact (tiles_extents_iff h.2 _).mp hfirst
        · intro hc
          refine ⟨elements_tile e n base, fun b hb => ?_⟩
          obtain ⟨i, -, rfl⟩ := List.mem_map.mp hb
          exact (tiles_extents_iff h.2 _).mpr hc
      · next hd =>
          refine ⟨fun _ => ?_, fun _ => ⟨rfl, rfl⟩⟩
          exact covered_of_scalars (t := e) (by simpa using hd)
  | .described size fields =>
      rw [WireType.WellFormed] at h
      rw [WireType.extents, WireType.size, WireType.Covered]
      exact struct_tiles_iff h.2.1 h.2.2 base

theorem struct_tiles_iff {size : Nat} {fields : FieldList} (hp : fields.Placed size)
    (hw : fields.WellFormed) (base : Nat) :
    Tiles base (fields.extents base) (base + size) ↔
      Tiles 0 (fields.toList.map fun f => (f.1, f.2.size)) size ∧ fields.Covered := by
  obtain ⟨hin, hap⟩ := fields_blocks hp hw base
  have hext : (fields.toList.map (blockOf base)).map Block.extent =
      (fields.toList.map fun f => (f.1, f.2.size)).map fun x => (base + x.1, x.2) := by
    rw [List.map_map, List.map_map]
    rfl
  rw [fields_extents_eq, blocks_tile_iff hin hap, hext, covered_iff]
  refine and_congr (@tiles_shift base 0 _ _) ?_
  rw [List.forall_mem_map]
  exact forall₂_congr fun f hf => fields_filled hw f hf base

theorem fields_filled {fields : FieldList} (hw : fields.WellFormed) :
    ∀ f ∈ fields.toList, ∀ base, (blockOf base f).Filled ↔ f.2.Covered := by
  match fields with
  | .nil => exact fun f hf => (nomatch hf)
  | .cons name offset type rest =>
      rw [FieldList.WellFormed] at hw
      intro f hf base
      rcases List.mem_cons.mp hf with rfl | hmem
      · exact tiles_extents_iff hw.1 _
      · exact fields_filled hw.2 f hmem base

end

/-- The scan passes exactly if every byte of the payload is in one leaf and the leaves
come in order, and exactly if every struct inside is covered by its listed fields. -/
theorem extentsTile_describe_iff (t : Payload) (h : t.WellFormed) :
    (extentsTile (describe t) t.size = true ↔
      (∀ i, i < t.size → coverage i (describe t).extents = 1) ∧
        (describe t).extents.Pairwise fun x y => x.1 < y.1) ∧
    (extentsTile (describe t) t.size = true ↔ t.Covered) := by
  have hwithin : ∀ x ∈ (describe t).extents, Extent.Within 0 t.size x := by
    intro x hx
    rw [describe_extents] at hx
    obtain ⟨f, hf, h1, h2, h3⟩ := fields_extents_within h.2.2 hx
    obtain ⟨members, -, hfit, hmem⟩ := h.2.1
    have := hfit f (hmem f hf)
    exact ⟨Nat.zero_le _, h2, by omega⟩
  constructor
  · rw [extentsTile_iff, tiles_iff (Nat.zero_le _) hwithin]
    exact and_congr_left fun _ =>
      forall_congr' fun i => ⟨fun hi => hi (Nat.zero_le i), fun hi _ => hi⟩
  · rw [extentsTile_iff, describe_extents, Payload.Covered]
    have := struct_tiles_iff h.2.1 h.2.2 0
    rwa [Nat.zero_add] at this

theorem isIdentifier_x : isIdentifier ['x'] = true := by decide

theorem isIdentifier_y : isIdentifier ['y'] = true := by decide

/-- Two floats; the description may forget the second. -/
def point (whole : Bool) : WireType :=
  .described 8 (.cons ⟨['x'], isIdentifier_x⟩ 0 (.scalar .float)
    (if whole then .cons ⟨['y'], isIdentifier_y⟩ 4 (.scalar .float) .nil else .nil))

/-- A stamp and two points. -/
def path (whole : Bool) : Payload where
  size := 24
  fields := .cons ⟨['s'], by decide⟩ 0 (.scalar (.integral .uint64))
    (.cons ⟨['w', 'p'], by decide⟩ 8 (.array 2 (point whole)) .nil)

theorem path_wellFormed (whole : Bool) : (path whole).WellFormed := by
  have hpoint : (point whole).WellFormed := by
    refine ⟨by decide, ⟨[(0, .scalar .float), (4, .scalar .float)], ?_, ?_, ?_⟩, ?_⟩
    · simp [WireType.size, Scalar.token, Token.size]
    · simp [WireType.size, Scalar.token, Token.size]
    · cases whole <;> simp [FieldList.toList]
    · cases whole <;> simp [FieldList.WellFormed, WireType.WellFormed]
  refine ⟨(by decide : 1 ≤ 24), ⟨(path whole).fields.toList, ?_, ?_, fun _ hf => hf⟩, ?_⟩
  · simp [path, FieldList.toList, WireType.size, Scalar.token, Integral.token, Token.size]
  · simp [path, FieldList.toList, WireType.size, Scalar.token, Integral.token, Token.size, point]
  · exact ⟨trivial, ⟨by decide, hpoint⟩, trivial⟩

/-- A field forgotten inside the elements is found; the complete list passes. -/
theorem extentsTile_describe_path :
    extentsTile (describe (path true)) 24 = true ∧ (path true).Covered ∧
      extentsTile (describe (path false)) 24 = false ∧ ¬ (path false).Covered := by
  have hyes : extentsTile (describe (path true)) 24 = true := by decide
  have hno : extentsTile (describe (path false)) 24 = false := by decide
  refine ⟨hyes, (extentsTile_describe_iff _ (path_wellFormed true)).2.mp hyes, hno, fun hc => ?_⟩
  have := (extentsTile_describe_iff _ (path_wellFormed false)).2.mpr hc
  rw [show extentsTile (describe (path false)) (path false).size = false from hno] at this
  cases this

end Xmmsg.Schema
