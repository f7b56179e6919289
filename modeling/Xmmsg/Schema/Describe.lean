import Xmmsg.Sys.Text

/-!
# The canonical description of a payload type

`schema_hash.hpp`: a payload type that opts in with `XMMSG_DESCRIBE` is written out
as text, one line per leaf field, and the text is what gets hashed. `describeField`
is the recursion of `DescribeField` over the template arguments, with the type as an
explicit tree: what the compiler knows of a type is its scalars, extents, sizes,
offsets and the listed fields, and a field whose type is not in the vocabulary does
not compile.

The recursion carries a text prefix and appends to a context. What it computes is
easier to say without text: `leaves` is the list of leaf fields, each with its path,
token, dimensions, absolute offset and size, and the context is those leaves printed
one after the other (`describeField_eq`, `appendFields_eq`).

The printed list can be read back. A name has no dot, bracket, colon or newline in
it, a number has digits only, and every piece of a line is closed by one of those, so
`canonicalDescription_eq_iff`: two types have the same text exactly if they have the
same size and the same leaves.
-/

namespace Xmmsg.Schema

open Xmmsg.Sys

/-! ## Types -/

/-- The type vocabulary of the wire contract. -/
inductive Token where
  | u8 | u16 | u32 | u64 | i8 | i16 | i32 | i64 | f32 | f64
  deriving DecidableEq, Repr

def Token.text : Token → List Char
  | .u8 => ['u', '8']
  | .u16 => ['u', '1', '6']
  | .u32 => ['u', '3', '2']
  | .u64 => ['u', '6', '4']
  | .i8 => ['i', '8']
  | .i16 => ['i', '1', '6']
  | .i32 => ['i', '3', '2']
  | .i64 => ['i', '6', '4']
  | .f32 => ['f', '3', '2']
  | .f64 => ['f', '6', '4']

/-- The types an enumeration may have underneath. -/
inductive Integral where
  | uint8 | uint16 | uint32 | uint64 | int8 | int16 | int32 | int64 | bool
  deriving DecidableEq, Repr

inductive Scalar where
  | integral (k : Integral)
  | enum (underlying : Integral)
  | float
  | double
  deriving DecidableEq, Repr

def Integral.token : Integral → Token
  | .uint8 => .u8
  | .uint16 => .u16
  | .uint32 => .u32
  | .uint64 => .u64
  | .int8 => .i8
  | .int16 => .i16
  | .int32 => .i32
  | .int64 => .i64
  | .bool => .u8

/-- `ScalarToken<T>::value`. -/
def Scalar.token : Scalar → Token
  | .integral k => k.token
  | .enum k => k.token
  | .float => .f32
  | .double => .f64

def Token.size : Token → Nat
  | .u8 | .i8 => 1
  | .u16 | .i16 => 2
  | .u32 | .i32 | .f32 => 4
  | .u64 | .i64 | .f64 => 8

def isIdentStart (c : Char) : Bool := c.isAlpha || c == '_'

def isIdentChar (c : Char) : Bool := c.isAlphanum || c == '_'

def isIdentifier : List Char → Bool
  | [] => false
  | c :: cs => isIdentStart c && cs.all isIdentChar

/-- A field name as the compiler accepts it. -/
def Identifier := { name : List Char // isIdentifier name = true }
  deriving DecidableEq

mutual

/-- A type a listed field may have; `described` is a struct with an `XMMSG_DESCRIBE`
of its own, of which only the size and the listed fields matter. -/
inductive WireType where
  | scalar (s : Scalar)
  | array (extent : Nat) (element : WireType)
  | described (size : Nat) (fields : FieldList)

/-- The `XMMSG_FIELD`s of a struct, in the order listed. -/
inductive FieldList where
  | nil
  | cons (name : Identifier) (offset : Nat) (type : WireType) (rest : FieldList)

end

/-- A described payload type. -/
structure Payload where
  size : Nat
  fields : FieldList

namespace WireType

/-- `sizeof`. -/
def size : WireType → Nat
  | .scalar s => s.token.size
  | .array n e => n * e.size
  | .described n _ => n

/-- `IsWireDescribed<ArrayShape<T>::Base>`. -/
def baseDescribed : WireType → Bool
  | .scalar _ => false
  | .array _ e => e.baseDescribed
  | .described _ _ => true

/-- `ScalarToken` of the base of an array of scalars. -/
def baseToken : WireType → Token
  | .scalar s => s.token
  | .array _ e => e.baseToken
  | .described _ _ => .u8           -- no leaf has this base

/-- The extents, outermost first. -/
def dims : WireType → List Nat
  | .array n e => n :: e.dims
  | _ => []

end WireType

/-! ## The description -/

/-- `[n]` for every number: array dimensions in a type, indices in a path. -/
def bracketed (ns : List Nat) : List Char := ns.flatMap fun n => '[' :: decimal n ++ [']']

/-- `SchemaContext`. -/
structure SchemaContext where
  text : List Char := []
  extents : List (Nat × Nat) := []

/-- `AppendLeafLine`. -/
def appendLeafLine (type : WireType) (ctx : SchemaContext) (name : List Char) (offset : Nat) :
    SchemaContext where
  text := ctx.text ++ name ++ [':'] ++ type.baseToken.text ++ bracketed type.dims ++ [':'] ++
    decimal offset ++ [':'] ++ decimal type.size ++ ['\n']
  extents := ctx.extents ++ [(offset, type.size)]

mutual

/-- `DescribeField`. -/
def describeField : WireType → SchemaContext → (pre name : List Char) → (offset : Nat) →
    SchemaContext
  | .scalar s, ctx, pre, name, offset => appendLeafLine (.scalar s) ctx (pre ++ name) offset
  | .array n e, ctx, pre, name, offset =>
      if e.baseDescribed then
        (List.range n).foldl (fun ctx i =>
          describeField e ctx pre (name ++ bracketed [i]) (offset + i * e.size)) ctx
      else appendLeafLine (.array n e) ctx (pre ++ name) offset
  | .described _ fields, ctx, pre, name, offset =>
      appendFields fields ctx (pre ++ name ++ ['.']) offset

/-- `WireSchema<T>::AppendFields`, as `XMMSG_DESCRIBE` expands it. -/
def appendFields : FieldList → SchemaContext → (pre : List Char) → (base : Nat) → SchemaContext
  | .nil, ctx, _, _ => ctx
  | .cons name offset type rest, ctx, pre, base =>
      appendFields rest (describeField type ctx pre name.1 (base + offset)) pre base

end

/-- What `CanonicalDescription` has built when it runs the tiling assertion. -/
def describe (t : Payload) : SchemaContext :=
  appendFields t.fields { text := "size:".toList ++ decimal t.size ++ ['\n'] } [] 0

/-- `CanonicalDescription`. -/
def canonicalDescription (t : Payload) : List Char := (describe t).text

/-! ## What is described

A leaf is named by the structs it is inside, each with the indices of its array
elements, and its own name. -/

/-- A struct on the way to a leaf: `name`, or `name[i]`, or `name[i][j]`. -/
structure Enclosing where
  name : Identifier
  indices : List Nat
  deriving DecidableEq

structure Leaf where
  parents : List Enclosing
  name : Identifier
  token : Token
  dims : List Nat
  offset : Nat
  size : Nat
  deriving DecidableEq

mutual

/-- The leaves of a field of this type, called `name` inside `parents`; `indices` are
those of the array elements already entered. -/
def leaves : WireType → (parents : List Enclosing) → Identifier → (indices : List Nat) →
    (offset : Nat) → List Leaf
  | .scalar s, parents, name, _, offset => [⟨parents, name, s.token, [], offset, s.token.size⟩]
  | .array n e, parents, name, indices, offset =>
      if e.baseDescribed then
        (List.range n).flatMap fun i =>
          leaves e parents name (indices ++ [i]) (offset + i * e.size)
      else [⟨parents, name, e.baseToken, n :: e.dims, offset, n * e.size⟩]
  | .described _ fields, parents, name, indices, offset =>
      fieldLeaves fields (parents ++ [⟨name, indices⟩]) offset

def fieldLeaves : FieldList → (parents : List Enclosing) → (base : Nat) → List Leaf
  | .nil, _, _ => []
  | .cons name offset type rest, parents, base =>
      leaves type parents name [] (base + offset) ++ fieldLeaves rest parents base

end

/-- The flattened wire layout of a payload type. -/
def Payload.leaves (t : Payload) : List Leaf := fieldLeaves t.fields [] 0

/-! ### On paper -/

def Enclosing.text (x : Enclosing) : List Char := x.name.1 ++ bracketed x.indices

def pathPrefix (parents : List Enclosing) : List Char := parents.flatMap fun x => x.text ++ ['.']

def Leaf.line (l : Leaf) : List Char :=
  pathPrefix l.parents ++ l.name.1 ++ [':'] ++ l.token.text ++ bracketed l.dims ++ [':'] ++
    decimal l.offset ++ [':'] ++ decimal l.size ++ ['\n']

def Leaf.extent (l : Leaf) : Nat × Nat := (l.offset, l.size)

/-- The leaves printed after what is there already. -/
def SchemaContext.print (ctx : SchemaContext) (ls : List Leaf) : SchemaContext where
  text := ctx.text ++ ls.flatMap Leaf.line
  extents := ctx.extents ++ ls.map Leaf.extent

theorem print_nil (ctx : SchemaContext) : ctx.print [] = ctx := by
  simp [SchemaContext.print]

theorem print_append (ctx : SchemaContext) (ls ms : List Leaf) :
    ctx.print (ls ++ ms) = (ctx.print ls).print ms := by
  simp [SchemaContext.print, List.append_assoc]

theorem print_flatMap (f : SchemaContext → Nat → SchemaContext) (g : Nat → List Leaf)
    (is : List Nat) (h : ∀ ctx i, f ctx i = ctx.print (g i)) (ctx : SchemaContext) :
    is.foldl f ctx = ctx.print (is.flatMap g) := by
  induction is generalizing ctx with
  | nil => exact (print_nil ctx).symm
  | cons i is ih => rw [List.foldl_cons, h, ih, List.flatMap_cons, print_append]

theorem pathPrefix_snoc (parents : List Enclosing) (x : Enclosing) :
    pathPrefix (parents ++ [x]) = pathPrefix parents ++ x.text ++ ['.'] := by
  simp [pathPrefix]

theorem bracketed_snoc (ns : List Nat) (n : Nat) :
    bracketed (ns ++ [n]) = bracketed ns ++ bracketed [n] := by
  simp [bracketed]

/-- An array field expands into elements exactly if its base is described, and only
then are there indices. -/
theorem appendLeafLine_eq (type : WireType) (ctx : SchemaContext) (parents : List Enclosing)
    (name : Identifier) (offset : Nat) :
    appendLeafLine type ctx (pathPrefix parents ++ name.1) offset =
      ctx.print [⟨parents, name, type.baseToken, type.dims, offset, type.size⟩] := by
  simp [appendLeafLine, SchemaContext.print, Leaf.line, Leaf.extent]

mutual

theorem describeField_eq (type : WireType) (ctx : SchemaContext) (parents : List Enclosing)
    (name : Identifier) (indices : List Nat) (offset : Nat)
    (hleaf : type.baseDescribed = false → indices = []) :
    describeField type ctx (pathPrefix parents) (name.1 ++ bracketed indices) offset =
      ctx.print (leaves type parents name indices offset) := by
  match type with
  | .scalar s =>
      rw [hleaf rfl, describeField, leaves]
      simpa [bracketed, WireType.baseToken, WireType.dims, WireType.size] using
        appendLeafLine_eq (.scalar s) ctx parents name offset
  | .array n e =>
      rw [describeField, leaves]
      split
      · next hd =>
          refine print_flatMap _ _ _ (fun ctx i => ?_) ctx
          have := describeField_eq e ctx parents name (indices ++ [i]) (offset + i * e.size)
            (fun h => by rw [hd] at h; cases h)
          rwa [bracketed_snoc, ← List.append_assoc] at this
      · next hd =>
          have hd' : (WireType.array n e).baseDescribed = false := by
            simpa [WireType.baseDescribed] using hd
          rw [hleaf hd']
          simpa [bracketed, WireType.baseToken, WireType.dims, WireType.size] using
            appendLeafLine_eq (.array n e) ctx parents name offset
  | .described size fields =>
      rw [describeField, leaves]
      have hpath : pathPrefix parents ++ (name.1 ++ bracketed indices) ++ ['.'] =
          pathPrefix (parents ++ [⟨name, indices⟩]) := by
        simp [pathPrefix_snoc, Enclosing.text]
      rw [hpath]
      exact appendFields_eq fields ctx _ offset

theorem appendFields_eq (fields : FieldList) (ctx : SchemaContext) (parents : List Enclosing)
    (base : Nat) :
    appendFields fields ctx (pathPrefix parents) base =
      ctx.print (fieldLeaves fields parents base) := by
  match fields with
  | .nil => rw [appendFields, fieldLeaves, print_nil]
  | .cons name offset type rest =>
      have hfield := describeField_eq type ctx parents name [] (base + offset) (fun _ => rfl)
      rw [bracketed, List.flatMap_nil, List.append_nil] at hfield
      rw [appendFields, fieldLeaves, hfield, appendFields_eq rest, print_append]

end

theorem describe_eq (t : Payload) :
    describe t = SchemaContext.print { text := "size:".toList ++ decimal t.size ++ ['\n'] }
      t.leaves := appendFields_eq t.fields _ [] 0

theorem canonicalDescription_eq (t : Payload) :
    canonicalDescription t =
      "size:".toList ++ decimal t.size ++ '\n' :: t.leaves.flatMap Leaf.line := by
  rw [canonicalDescription, describe_eq]
  simp [SchemaContext.print]

/-! ## Reading it back -/

theorem isIdentChar_of_mem (x : Identifier) {c : Char} (hc : c ∈ x.1) : isIdentChar c = true := by
  obtain ⟨name, hname⟩ := x
  cases name with
  | nil => cases hc
  | cons d ds =>
      rw [isIdentifier, Bool.and_eq_true] at hname
      rcases List.mem_cons.mp hc with rfl | hmem
      · have hstart : (c.isAlpha || c == '_') = true := hname.1
        rw [isIdentChar, Char.isAlphanum]
        rcases (Bool.or_eq_true _ _).mp hstart with ha | hu
        · rw [ha]
          rfl
        · rw [hu, Bool.or_true]
      · exact List.all_eq_true.mp hname.2 c hmem

theorem not_mem_identifier (x : Identifier) {c : Char} (hc : isIdentChar c = false) :
    c ∉ x.1 := by
  intro h
  rw [isIdentChar_of_mem x h] at hc
  cases hc

theorem not_mem_bracketed (ns : List Nat) {c : Char} (hd : c.isDigit = false) (hopen : c ≠ '[')
    (hclose : c ≠ ']') : c ∉ bracketed ns := by
  intro h
  obtain ⟨n, -, hn⟩ := List.mem_flatMap.mp h
  simp only [List.cons_append, List.mem_cons, List.mem_append, List.not_mem_nil, or_false] at hn
  rcases hn with rfl | hn | rfl
  · exact hopen rfl
  · exact not_mem_decimal hd hn
  · exact hclose rfl

theorem bracketed_cons (n : Nat) (ns : List Nat) :
    bracketed (n :: ns) = '[' :: (decimal n ++ ']' :: bracketed ns) := by
  simp [bracketed]

theorem bracketed_inj {ms ns : List Nat} (h : bracketed ms = bracketed ns) : ms = ns := by
  induction ms generalizing ns with
  | nil =>
      cases ns with
      | nil => rfl
      | cons n ns =>
          rw [bracketed_cons] at h
          cases h
  | cons m ms ih =>
      cases ns with
      | nil =>
          rw [bracketed_cons] at h
          cases h
      | cons n ns =>
          rw [bracketed_cons, bracketed_cons] at h
          obtain ⟨hn, hrest⟩ := cut_inj (not_mem_decimal (by decide)) (not_mem_decimal (by decide))
            (List.cons.inj h).2
          rw [decimal_inj hn, ih hrest]

/-- What follows a name or a token. -/
theorem stops_bracketed {p : Char → Bool} (hp : p '[' = false) (ns : List Nat) :
    Stops p (bracketed ns) := by
  cases ns with
  | nil =>
      intro c hc
      cases hc
  | cons n ns =>
      rw [bracketed_cons]
      exact stops_cons hp

theorem enclosing_text_inj {x y : Enclosing} (h : x.text = y.text) : x = y := by
  obtain ⟨a, ms⟩ := x
  obtain ⟨b, ns⟩ := y
  obtain ⟨hname, hidx⟩ := splice_inj (fun _ => isIdentChar_of_mem a) (fun _ => isIdentChar_of_mem b)
    (stops_bracketed (by decide) ms) (stops_bracketed (by decide) ns) h
  rw [Subtype.ext hname, bracketed_inj hidx]

theorem dot_not_mem_text (x : Enclosing) : '.' ∉ x.text := by
  intro h
  rcases List.mem_append.mp h with h | h
  · exact not_mem_identifier x.name (by decide) h
  · exact not_mem_bracketed x.indices (by decide) (by decide) (by decide) h

theorem pathPrefix_cons (x : Enclosing) (xs : List Enclosing) :
    pathPrefix (x :: xs) = x.text ++ '.' :: pathPrefix xs := by
  simp [pathPrefix]

/-- A path of names with dots between them: the last has none after it. -/
theorem path_inj {xs ys : List Enclosing} {a b : Identifier}
    (h : pathPrefix xs ++ a.1 = pathPrefix ys ++ b.1) : xs = ys ∧ a = b := by
  have hlast : ∀ (c : Identifier) (z : Enclosing) (zs : List Enclosing) (d : Identifier),
      c.1 ≠ pathPrefix (z :: zs) ++ d.1 := by
    intro c z zs d heq
    refine not_mem_identifier c (c := '.') (by decide) ?_
    rw [heq, pathPrefix_cons]
    simp
  induction xs generalizing ys with
  | nil =>
      cases ys with
      | nil => exact ⟨rfl, Subtype.ext h⟩
      | cons y ys => exact absurd h (hlast a y ys b)
  | cons x xs ih =>
      cases ys with
      | nil => exact absurd h.symm (hlast b x xs a)
      | cons y ys =>
          rw [pathPrefix_cons, pathPrefix_cons, List.append_assoc, List.append_assoc,
            List.cons_append, List.cons_append] at h
          obtain ⟨hx, hrest⟩ := cut_inj (dot_not_mem_text x) (dot_not_mem_text y) h
          obtain ⟨hxs, hab⟩ := ih hrest
          rw [enclosing_text_inj hx, hxs]
          exact ⟨rfl, hab⟩

theorem not_mem_pathPrefix (xs : List Enclosing) {c : Char} (hi : isIdentChar c = false)
    (hd : c.isDigit = false) (hopen : c ≠ '[') (hclose : c ≠ ']') (hdot : c ≠ '.') :
    c ∉ pathPrefix xs := by
  intro h
  obtain ⟨x, -, hx⟩ := List.mem_flatMap.mp h
  rcases List.mem_append.mp hx with hx | hx
  · rcases List.mem_append.mp hx with hx | hx
    · exact not_mem_identifier x.name hi hx
    · exact not_mem_bracketed x.indices hd hopen hclose hx
  · exact hdot (List.mem_singleton.mp hx)

theorem token_text_inj {t u : Token} (h : t.text = u.text) : t = u := by
  cases t <;> cases u <;> first | rfl | cases h

/-- `f32[3][4]`. -/
theorem type_inj {t u : Token} {ms ns : List Nat}
    (h : t.text ++ bracketed ms = u.text ++ bracketed ns) : t = u ∧ ms = ns := by
  have hchars : ∀ v : Token, ∀ c ∈ v.text, Char.isAlphanum c = true := by
    intro v
    have hall : v.text.all Char.isAlphanum = true := by cases v <;> decide
    exact List.all_eq_true.mp hall
  obtain ⟨ht, hd⟩ := splice_inj (hchars t) (hchars u) (stops_bracketed (by decide) ms)
    (stops_bracketed (by decide) ns) h
  exact ⟨token_text_inj ht, bracketed_inj hd⟩

theorem not_mem_type (t : Token) (ns : List Nat) {c : Char} (ht : c ∉ t.text)
    (hd : c.isDigit = false) (hopen : c ≠ '[') (hclose : c ≠ ']') :
    c ∉ t.text ++ bracketed ns := by
  intro h
  rcases List.mem_append.mp h with h | h
  · exact ht h
  · exact not_mem_bracketed ns hd hopen hclose h

/-- The four parts of a line and what closes each. -/
theorem line_append (l : Leaf) (x : List Char) :
    l.line ++ x = (pathPrefix l.parents ++ l.name.1) ++ ':' ::
      ((l.token.text ++ bracketed l.dims) ++
        ':' :: (decimal l.offset ++ ':' :: (decimal l.size ++ '\n' :: x))) := by
  simp [Leaf.line]

/-- A line, with whatever comes after it. -/
theorem line_inj {l m : Leaf} {x y : List Char} (h : l.line ++ x = m.line ++ y) :
    l = m ∧ x = y := by
  have hpath : ∀ k : Leaf, ':' ∉ pathPrefix k.parents ++ k.name.1 := by
    intro k hk
    rcases List.mem_append.mp hk with hk | hk
    · exact not_mem_pathPrefix _ (by decide) (by decide) (by decide) (by decide) (by decide) hk
    · exact not_mem_identifier k.name (by decide) hk
  have htype : ∀ k : Leaf, ':' ∉ k.token.text ++ bracketed k.dims := by
    intro k
    refine not_mem_type _ _ ?_ (by decide) (by decide) (by decide)
    cases k.token <;> decide
  have hnum : ∀ n, ':' ∉ decimal n := fun n => not_mem_decimal (by decide)
  rw [line_append, line_append] at h
  obtain ⟨h1, h⟩ := cut_inj (hpath l) (hpath m) h
  obtain ⟨h2, h⟩ := cut_inj (htype l) (htype m) h
  obtain ⟨h3, h⟩ := cut_inj (hnum l.offset) (hnum m.offset) h
  obtain ⟨h4, h⟩ := cut_inj (not_mem_decimal (by decide)) (not_mem_decimal (by decide)) h
  obtain ⟨hparents, hname⟩ := path_inj h1
  obtain ⟨htoken, hdims⟩ := type_inj h2
  refine ⟨?_, h⟩
  cases l
  cases m
  simp only [Leaf.mk.injEq]
  exact ⟨hparents, hname, htoken, hdims, decimal_inj h3, decimal_inj h4⟩

theorem lines_inj {ls ms : List Leaf} (h : ls.flatMap Leaf.line = ms.flatMap Leaf.line) :
    ls = ms := by
  have hne : ∀ (l : Leaf) (x : List Char), [] ≠ l.line ++ x := by
    intro l x
    rw [line_append]
    simp
  induction ls generalizing ms with
  | nil =>
      cases ms with
      | nil => rfl
      | cons m ms => exact absurd h (hne _ _)
  | cons l ls ih =>
      cases ms with
      | nil => exact absurd h.symm (hne _ _)
      | cons m ms =>
          obtain ⟨hl, hrest⟩ := line_inj h
          rw [hl, ih hrest]

/-- The text says exactly what the flattened layout is. -/
theorem canonicalDescription_eq_iff (t u : Payload) :
    canonicalDescription t = canonicalDescription u ↔ t.size = u.size ∧ t.leaves = u.leaves := by
  constructor
  · intro h
    rw [canonicalDescription_eq, canonicalDescription_eq, List.append_assoc,
      List.append_assoc] at h
    obtain ⟨hsize, hlines⟩ := cut_inj (not_mem_decimal (by decide)) (not_mem_decimal (by decide))
      (List.append_cancel_left h)
    exact ⟨decimal_inj hsize, lines_inj hlines⟩
  · rintro ⟨hsize, hleaves⟩
    rw [canonicalDescription_eq, canonicalDescription_eq, hsize, hleaves]

end Xmmsg.Schema
