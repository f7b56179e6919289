import Xmmsg.InProc.Registry
import Xmmsg.Schema.Describe
import Xmmsg.Shm.Names
import Xmmsg.Shm.Rendezvous

/-!
# What the schema hash tells apart

`SchemaHashOf` is FNV-1a over the canonical description. The hash has 64 bits and the
descriptions have any length, so it cannot tell all of them apart; but every round of
it is a bijection of the 64-bit words, an xor with the byte and a product with an odd
number, and for one word different bytes give different results. Two texts of which
one byte differs therefore go different ways at that byte and never meet again
(`fnv1a64_ne`).

The skew this is meant for is a field whose scalar type is exchanged for another of
the same width: names, offsets and sizes stay, and in the text one letter of one token
changes (`Retyped.oneCharApart`). An array of structs prints a field once per element,
so there it takes an array of one element.

What follows is refusal: both reaches compare the hash before anything else about the
type, and answer `kTypeMismatch`.
-/

namespace Xmmsg.Schema

open Xmmsg.Sys Xmmsg.Shm Xmmsg.InProc

/-! ## The hash function -/

/-- One round of `Fnv1a64`. -/
def fnvRound (hash : UInt64) (c : Char) : UInt64 :=
  (hash ^^^ UInt64.ofNat (c.toNat % 256)) * kFnv1aPrime

theorem fnv1a64_eq (bytes : List Char) :
    fnv1a64 bytes = bytes.foldl fnvRound kFnv1aOffsetBasis := rfl

/-- The prime is odd, so the product can be undone. -/
theorem mul_prime_inj {x y : UInt64} (h : x * kFnv1aPrime = y * kFnv1aPrime) : x = y := by
  have hinv : kFnv1aPrime * 0xce965057aff6957b = 1 := by decide
  have hundo : ∀ z : UInt64, z * kFnv1aPrime * 0xce965057aff6957b = z := by
    intro z
    rw [UInt64.mul_assoc, hinv, UInt64.mul_one]
  rw [← hundo x, h, hundo y]

theorem fnvRound_inj_hash {h h' : UInt64} {c : Char} (he : fnvRound h c = fnvRound h' c) :
    h = h' := (UInt64.xor_left_inj _).mp (mul_prime_inj he)

theorem fnvRound_inj_byte {h : UInt64} {a b : Char} (he : fnvRound h a = fnvRound h b) :
    a.toNat % 256 = b.toNat % 256 := by
  have hw := (UInt64.xor_right_inj _).mp (mul_prime_inj he)
  have hn := congrArg UInt64.toNat hw
  have hsmall : ∀ c : Char, c.toNat % 256 < 2 ^ 64 :=
    fun c => Nat.lt_trans (Nat.mod_lt _ (by decide)) (by decide)
  rwa [UInt64.toNat_ofNat_of_lt' (hsmall a), UInt64.toNat_ofNat_of_lt' (hsmall b)] at hn

theorem foldl_fnvRound_inj {s : List Char} {h h' : UInt64}
    (he : s.foldl fnvRound h = s.foldl fnvRound h') : h = h' := by
  induction s generalizing h h' with
  | nil => exact he
  | cons c s ih => exact fnvRound_inj_hash (ih he)

/-- Texts with one byte exchanged. -/
theorem fnv1a64_ne {p s : List Char} {a b : Char} (hab : a.toNat % 256 ≠ b.toNat % 256) :
    fnv1a64 (p ++ a :: s) ≠ fnv1a64 (p ++ b :: s) := by
  intro he
  rw [fnv1a64_eq, fnv1a64_eq, List.foldl_append, List.foldl_append, List.foldl_cons,
    List.foldl_cons] at he
  exact hab (fnvRound_inj_byte (foldl_fnvRound_inj he))

/-- A byte string, one `Char` a byte. -/
def ofBytes (bytes : List UInt8) : List Char := bytes.map Char.ofUInt8

theorem toNat_ofUInt8 (b : UInt8) : (Char.ofUInt8 b).toNat = b.toNat := UInt8.toNat_toUInt32 b

theorem ofUInt8_mod_ne {a b : UInt8} (hab : a ≠ b) :
    (Char.ofUInt8 a).toNat % 256 ≠ (Char.ofUInt8 b).toNat % 256 := by
  rw [toNat_ofUInt8, toNat_ofUInt8, Nat.mod_eq_of_lt a.toNat_lt, Nat.mod_eq_of_lt b.toNat_lt]
  exact fun h => hab (UInt8.toNat_inj.mp h)

/-! ## The hash of a type -/

/-- A payload type as `SchemaHashOf` sees it: described, or known only by its mangled
name, size and alignment. -/
inductive PayloadType where
  | described (t : Payload)
  | undescribed (typeName : List Char) (size align : Nat)

/-- What is hashed. -/
def PayloadType.description : PayloadType → List Char
  | .described t => canonicalDescription t
  | .undescribed typeName size align =>
      "xmmsg-interim-schema:".toList ++ typeName ++ [':'] ++ decimal size ++ [':'] ++ decimal align

/-- `SchemaHashOf`. -/
def schemaHashOf (t : PayloadType) : UInt64 := fnv1a64 t.description

/-- Equal length and one character different. -/
def OneCharApart (x y : List Char) : Prop :=
  ∃ p s a b, a ≠ b ∧ x = p ++ a :: s ∧ y = p ++ b :: s

/-! ### Descriptions are ASCII -/

def IsAscii (x : List Char) : Prop := ∀ c ∈ x, c.toNat < 128

instance (x : List Char) : Decidable (IsAscii x) :=
  decidable_of_iff (x.all (fun c => decide (c.toNat < 128)) = true)
    (by simp only [List.all_eq_true, decide_eq_true_eq, IsAscii])

theorem isAscii_append {x y : List Char} (hx : IsAscii x) (hy : IsAscii y) : IsAscii (x ++ y) := by
  intro c hc
  rcases List.mem_append.mp hc with h | h
  · exact hx c h
  · exact hy c h

theorem isAscii_flatMap {α : Type} {f : α → List Char} (xs : List α) (h : ∀ x, IsAscii (f x)) :
    IsAscii (xs.flatMap f) := by
  intro c hc
  obtain ⟨x, -, hx⟩ := List.mem_flatMap.mp hc
  exact h x c hx

theorem toNat_lt_of_isAlphanum {c : Char} (h : c.isAlphanum = true) : c.toNat < 128 := by
  delta Char.isAlphanum Char.isAlpha Char.isUpper Char.isLower Char.isDigit at h
  simp only [Bool.or_eq_true, Bool.and_eq_true, decide_eq_true_eq, UInt32.le_iff_toNat_le,
    ge_iff_le] at h
  have h1 : 'Z'.val.toNat = 90 := rfl
  have h2 : 'z'.val.toNat = 122 := rfl
  have h3 : '9'.val.toNat = 57 := rfl
  have h4 : c.toNat = c.val.toNat := rfl
  omega

theorem isAscii_decimal (n : Nat) : IsAscii (decimal n) := by
  intro c hc
  refine toNat_lt_of_isAlphanum ?_
  rw [Char.isAlphanum, isDigit_of_mem_decimal hc, Bool.or_true]

theorem isAscii_identifier (x : Identifier) : IsAscii x.1 := by
  intro c hc
  rcases (Bool.or_eq_true _ _).mp (isIdentChar_of_mem x hc) with ha | hu
  · exact toNat_lt_of_isAlphanum ha
  · rw [beq_iff_eq] at hu
    subst hu
    decide

theorem isAscii_bracketed (ns : List Nat) : IsAscii (bracketed ns) :=
  isAscii_flatMap ns fun n =>
    isAscii_append (isAscii_append (x := ['[']) (by decide) (isAscii_decimal n)) (by decide)

theorem isAscii_line (l : Leaf) : IsAscii l.line := by
  have htoken : IsAscii l.token.text := by
    cases l.token <;> decide
  have hprefix : IsAscii (pathPrefix l.parents) := isAscii_flatMap _ fun x =>
    isAscii_append (isAscii_append (isAscii_identifier x.name) (isAscii_bracketed x.indices))
      (by decide)
  have hone : ∀ c : Char, c.toNat < 128 → IsAscii [c] := by
    intro c hc d hd
    rw [List.mem_singleton.mp hd]
    exact hc
  refine isAscii_append (isAscii_append (isAscii_append (isAscii_append (isAscii_append
    (isAscii_append (isAscii_append (isAscii_append (isAscii_append hprefix ?_) ?_) htoken) ?_) ?_)
    ?_) ?_) ?_) ?_
  · exact isAscii_identifier l.name
  · exact hone ':' (by decide)
  · exact isAscii_bracketed l.dims
  · exact hone ':' (by decide)
  · exact isAscii_decimal l.offset
  · exact hone ':' (by decide)
  · exact isAscii_decimal l.size
  · exact hone '\n' (by decide)

theorem isAscii_canonicalDescription (t : Payload) : IsAscii (canonicalDescription t) := by
  rw [canonicalDescription_eq]
  refine isAscii_append (isAscii_append (by decide) (isAscii_decimal t.size)) ?_
  exact isAscii_append (x := ['\n']) (by decide) (isAscii_flatMap t.leaves isAscii_line)

/-- One character of a description exchanged changes the hash. -/
theorem schemaHashOf_ne {t u : Payload}
    (h : OneCharApart (canonicalDescription t) (canonicalDescription u)) :
    schemaHashOf (.described t) ≠ schemaHashOf (.described u) := by
  obtain ⟨p, s, a, b, hab, ht, hu⟩ := h
  have ha : a.toNat < 128 := isAscii_canonicalDescription t a (by rw [ht]; simp)
  have hb : b.toNat < 128 := isAscii_canonicalDescription u b (by rw [hu]; simp)
  show fnv1a64 (canonicalDescription t) ≠ fnv1a64 (canonicalDescription u)
  rw [ht, hu]
  refine fnv1a64_ne ?_
  rw [Nat.mod_eq_of_lt (by omega), Nat.mod_eq_of_lt (by omega)]
  exact fun h => hab (Char.toNat_inj.mp h)

/-! ## A field of another type -/

mutual

/-- One scalar somewhere inside is replaced by another of the same width, and the
field it belongs to is printed once. -/
inductive Retyped : WireType → WireType → Prop
  | scalar {s s' : Scalar} : s.token ≠ s'.token → s.token.size = s'.token.size →
      Retyped (.scalar s) (.scalar s')
  | scalars {n : Nat} {e e' : WireType} : e.baseDescribed = false → Retyped e e' →
      Retyped (.array n e) (.array n e')
  | element {e e' : WireType} : Retyped e e' → Retyped (.array 1 e) (.array 1 e')
  | field {size : Nat} {fs gs : FieldList} : RetypedField fs gs →
      Retyped (.described size fs) (.described size gs)

inductive RetypedField : FieldList → FieldList → Prop
  | here {name : Identifier} {offset : Nat} {t u : WireType} {rest : FieldList} :
      Retyped t u → RetypedField (.cons name offset t rest) (.cons name offset u rest)
  | there {name : Identifier} {offset : Nat} {t : WireType} {fs gs : FieldList} :
      RetypedField fs gs → RetypedField (.cons name offset t fs) (.cons name offset t gs)

end

/-- Two lists of leaves, of which one leaf has another token. -/
def OneTokenApart (ls ms : List Leaf) : Prop :=
  ∃ xs l ys τ, l.token ≠ τ ∧ l.token.size = τ.size ∧ ls = xs ++ l :: ys ∧
    ms = xs ++ { l with token := τ } :: ys

theorem OneTokenApart.append_right {ls ms : List Leaf} (h : OneTokenApart ls ms)
    (zs : List Leaf) : OneTokenApart (ls ++ zs) (ms ++ zs) := by
  obtain ⟨xs, l, ys, τ, hne, hsize, rfl, rfl⟩ := h
  exact ⟨xs, l, ys ++ zs, τ, hne, hsize, by simp, by simp⟩

theorem OneTokenApart.append_left {ls ms : List Leaf} (h : OneTokenApart ls ms)
    (zs : List Leaf) : OneTokenApart (zs ++ ls) (zs ++ ms) := by
  obtain ⟨xs, l, ys, τ, hne, hsize, rfl, rfl⟩ := h
  exact ⟨zs ++ xs, l, ys, τ, hne, hsize, by simp, by simp⟩

theorem Retyped.shape {t u : WireType} (h : Retyped t u) :
    t.size = u.size ∧ t.baseDescribed = u.baseDescribed ∧
      (t.baseDescribed = false → t.dims = u.dims ∧ t.baseToken ≠ u.baseToken ∧
        t.baseToken.size = u.baseToken.size) := by
  cases h with
  | scalar hne hsize =>
      exact ⟨hsize, rfl, fun _ => ⟨rfl, hne, hsize⟩⟩
  | @scalars n e e' hd he =>
      obtain ⟨hs, hb, hleaf⟩ := he.shape
      obtain ⟨hdims, hne, hsize⟩ := hleaf hd
      refine ⟨?_, hb, fun _ => ⟨?_, hne, hsize⟩⟩
      · rw [WireType.size, WireType.size, hs]
      · rw [WireType.dims, WireType.dims, hdims]
  | @element e e' he =>
      obtain ⟨hs, hb, hleaf⟩ := he.shape
      refine ⟨?_, hb, fun hd => ?_⟩
      · rw [WireType.size, WireType.size, hs]
      · obtain ⟨hdims, hne, hsize⟩ := hleaf hd
        refine ⟨?_, hne, hsize⟩
        rw [WireType.dims, WireType.dims, hdims]
  | field _ => exact ⟨rfl, rfl, fun h => (nomatch h)⟩

/-- An array of scalars is one leaf. -/
theorem leaves_of_scalars {t : WireType} (h : t.baseDescribed = false) (parents : List Enclosing)
    (name : Identifier) (indices : List Nat) (offset : Nat) :
    leaves t parents name indices offset =
      [⟨parents, name, t.baseToken, t.dims, offset, t.size⟩] := by
  cases t with
  | scalar s => rfl
  | array n e =>
      have he : e.baseDescribed = false := h
      rw [leaves, he]
      rfl
  | described size fields => cases h

mutual

theorem Retyped.oneTokenApart {t u : WireType} (h : Retyped t u) (parents : List Enclosing)
    (name : Identifier) (indices : List Nat) (offset : Nat) :
    OneTokenApart (leaves t parents name indices offset)
      (leaves u parents name indices offset) := by
  obtain ⟨hs, hb, hleaf⟩ := h.shape
  cases hd : t.baseDescribed with
  | false =>
      obtain ⟨hdims, hne, hsize⟩ := hleaf hd
      rw [leaves_of_scalars hd, leaves_of_scalars (hb ▸ hd), ← hs, ← hdims]
      exact ⟨[], _, [], u.baseToken, hne, hsize, rfl, rfl⟩
  | true =>
      match h with
      | .scalar _ _ => cases hd
      | .scalars he _ => rw [WireType.baseDescribed, he] at hd; cases hd
      | @Retyped.element e e' he =>
          have hd1 : e.baseDescribed = true := hd
          have hd2 : e'.baseDescribed = true := by rw [← he.shape.2.1]; exact hd1
          rw [leaves, leaves, if_pos hd1, if_pos hd2]
          simpa using he.oneTokenApart parents name (indices ++ [0]) offset
      | .field hf =>
          rw [leaves, leaves]
          exact hf.oneTokenApart _ offset

theorem RetypedField.oneTokenApart {fs gs : FieldList} (h : RetypedField fs gs)
    (parents : List Enclosing) (base : Nat) :
    OneTokenApart (fieldLeaves fs parents base) (fieldLeaves gs parents base) := by
  match h with
  | .here ht =>
      rw [fieldLeaves, fieldLeaves]
      exact (ht.oneTokenApart parents _ [] _).append_right _
  | .there hf =>
      rw [fieldLeaves, fieldLeaves]
      exact (hf.oneTokenApart parents base).append_left _

end

/-- Tokens of one width differ in their first letter. -/
theorem token_text_apart {t u : Token} (hne : t ≠ u) (hsize : t.size = u.size) :
    ∃ a b rest, a ≠ b ∧ t.text = a :: rest ∧ u.text = b :: rest := by
  cases t <;> cases u <;>
    first
    | exact absurd rfl hne
    | (refine ⟨_, _, _, ?_, rfl, rfl⟩; decide)
    | cases hsize

theorem OneTokenApart.oneCharApart {ls ms : List Leaf} (h : OneTokenApart ls ms) (x : List Char) :
    OneCharApart (x ++ ls.flatMap Leaf.line) (x ++ ms.flatMap Leaf.line) := by
  obtain ⟨xs, l, ys, τ, hne, hsize, rfl, rfl⟩ := h
  obtain ⟨a, b, rest, hab, ht, hu⟩ := token_text_apart hne hsize
  refine ⟨x ++ xs.flatMap Leaf.line ++ pathPrefix l.parents ++ l.name.1 ++ [':'],
    rest ++ bracketed l.dims ++ [':'] ++ decimal l.offset ++ [':'] ++ decimal l.size ++ ['\n'] ++
      ys.flatMap Leaf.line, a, b, hab, ?_, ?_⟩
  · simp [Leaf.line, ht]
  · simp [Leaf.line, hu]

theorem RetypedField.oneCharApart {t u : Payload} (hsize : t.size = u.size)
    (h : RetypedField t.fields u.fields) :
    OneCharApart (canonicalDescription t) (canonicalDescription u) := by
  have hlines := (h.oneTokenApart [] 0).oneCharApart ("size:".toList ++ decimal t.size ++ ['\n'])
  have hu := canonicalDescription_eq u
  rw [← hsize] at hu
  rw [canonicalDescription_eq t, hu]
  simpa [Payload.leaves] using hlines

/-! ## The type gates -/

/-- What happens to an endpoint of a type with hash `mine` where a type with hash
`theirs` is established: on both reaches its wiring ends in `kTypeMismatch`. -/
structure GateRefuses (theirs mine : UInt64) : Prop where
  advertise : ∀ (τ : Type) [DecidableEq τ] (hashOf : τ → UInt64) (s : DomainState τ)
    (topic : String) (e : TopicBase τ) (t : τ) (qos : Qos), s.topics topic = some e →
    e.schemaHash = theirs → hashOf t = mine →
    (s.advertise hashOf topic t qos).2.status = .typeMismatch
  subscribe : ∀ (τ : Type) [DecidableEq τ] (hashOf : τ → UInt64) (s : DomainState τ)
    (topic : String) (e : TopicBase τ) (t : τ) (qos : Qos) (core : Nat), s.topics topic = some e →
    e.schemaHash = theirs → hashOf t = mine →
    (s.subscribe hashOf core topic t qos).2.status = .typeMismatch
  /-- Nobody attaches to a segment of the other type. -/
  apart : ∀ (w : Meeting) (t : Trail) (p q o : Nat), trailed.Reached anyStep (w, t) →
    (w.callers p).args.schemaHash = theirs.toNat → (w.callers q).args.schemaHash = mine.toNat →
    (w.callers p).pc.gotOk = some o → (w.callers q).pc.gotOk ≠ some o
  /-- An attacher that finds the segment ready ends refused. -/
  attach : ∀ (w : Meeting) (t : Trail) (q o n : Nat), trailed.Reached anyStep (w, t) →
    (w.callers q).dead = false → (w.callers q).pc = .initPoll o n → n < kPolls →
    (w.shm.objects o).initState = 1 → (w.shm.objects o).ident .schemaHash = theirs.toNat →
    (w.callers q).args.schemaHash = mine.toNat →
    ∀ acts w' t', trailed.exec acts (w, t) = some (w', t') → MeetAct.die q ∉ acts →
      ∀ st x c, (w'.callers q).pc = .done st x c → st = .typeMismatch

theorem gateRefuses_of_ne {theirs mine : UInt64} (h : theirs ≠ mine) : GateRefuses theirs mine := by
  have hn : theirs.toNat ≠ mine.toNat := fun he => h (UInt64.toNat_inj.mp he)
  refine ⟨?_, ?_, ?_, ?_⟩
  · intro τ _ hashOf s topic e t qos hs he ht
    have hne : e.schemaHash ≠ hashOf t := by rw [he, ht]; exact h
    simp [DomainState.advertise, DomainState.wire, hs, EndpointKind.hash, hne]
  · intro τ _ hashOf s topic e t qos core hs he ht
    have hne : e.schemaHash ≠ hashOf t := by rw [he, ht]; exact h
    simp [DomainState.subscribe, DomainState.wire, hs, EndpointKind.hash, hne]
  · intro w t p q o hr hp hq hpo hqo
    have hi := meetInv_reached hr
    have hsame : (w.callers p).args.schemaHash = (w.callers q).args.schemaHash :=
      (hi.agrees hpo (f := .schemaHash) (by decide)).symm.trans (hi.agrees hqo (by decide))
    rw [hp, hq] at hsame
    exact hn hsame
  · intro w t q o n hr hd hpc hlt hready hident hq acts w' t' hex hlive st x c hdone
    have hdiff : ∃ f ∈ gateFields, f.typed ∧
        (w.shm.objects o).ident f ≠ (w.callers q).args.field f := by
      refine ⟨.schemaHash, by decide, rfl, ?_⟩
      rw [hident]
      show theirs.toNat ≠ (w.callers q).args.schemaHash
      rw [hq]
      exact hn
    obtain ⟨-, hend⟩ := (meetInv_reached hr).mismatchRefused hd hpc hlt hready hdiff hex hlive
    rcases hend with ⟨hmis, -⟩ | ⟨hnot, -⟩
    · rw [hdone] at hmis
      cases hmis
      rfl
    · exact absurd hdone (hnot st x c)

/-- One byte exchanged is always seen: in any byte string by the hash function, in a
description by the hash of the type and so by the type gates, and a retyped field is
one byte of the description. -/
theorem one_char_skew_refused :
    (∀ (p s : List UInt8) (a b : UInt8), a ≠ b →
      fnv1a64 (ofBytes (p ++ a :: s)) ≠ fnv1a64 (ofBytes (p ++ b :: s))) ∧
    (∀ t u : Payload, OneCharApart (canonicalDescription t) (canonicalDescription u) →
      schemaHashOf (.described t) ≠ schemaHashOf (.described u) ∧
      GateRefuses (schemaHashOf (.described t)) (schemaHashOf (.described u))) ∧
    (∀ t u : Payload, t.size = u.size → RetypedField t.fields u.fields →
      OneCharApart (canonicalDescription t) (canonicalDescription u)) := by
  refine ⟨?_, ?_, ?_⟩
  · intro p s a b hab
    simp only [ofBytes, List.map_append, List.map_cons]
    exact fnv1a64_ne (ofUInt8_mod_ne hab)
  · intro t u h
    exact ⟨schemaHashOf_ne h, gateRefuses_of_ne (schemaHashOf_ne h)⟩
  · exact fun t u hsize h => h.oneCharApart hsize

/-- `x`, `y` and `theta`, the last one a `double` or a raw tick count. -/
def pose2d (theta : Scalar) : Payload where
  size := 24
  fields := .cons ⟨['x'], by decide⟩ 0 (.scalar .double)
    (.cons ⟨['y'], by decide⟩ 8 (.scalar .double)
      (.cons ⟨['t', 'h', 'e', 't', 'a'], by decide⟩ 16 (.scalar theta) .nil))

theorem one_char_skew_refused_theta :
    schemaHashOf (.described (pose2d .double)) = 0xE0978597FA5660D4 ∧
      schemaHashOf (.described (pose2d (.integral .uint64))) = 0x9444641EFF1DE2E1 ∧
      GateRefuses (schemaHashOf (.described (pose2d .double)))
        (schemaHashOf (.described (pose2d (.integral .uint64)))) := by
  refine ⟨by decide +kernel, by decide +kernel, ?_⟩
  have h : RetypedField (pose2d .double).fields (pose2d (.integral .uint64)).fields :=
    .there (.there (.here (.scalar (by decide) rfl)))
  have happart := one_char_skew_refused.2.2 (pose2d .double) (pose2d (.integral .uint64)) rfl h
  exact (one_char_skew_refused.2.1 (pose2d .double) (pose2d (.integral .uint64)) happart).2

end Xmmsg.Schema
