import Mathlib.Data.List.DropRight
import Xmmsg.Sys.Text

/-!
# JSON texts

A reader for JSON, over characters that stand for bytes, and a kit for texts it reads.
The reader is the usual one by recursive descent: white space where the grammar has it,
any escape in a string but no control character, numbers with optional sign, fraction and
exponent. Its tree keeps strings and numbers as they are written; `unescape` decodes a
string.

`Reads text v` says that the reader takes exactly `text` for the value `v`, whatever
follows, provided that what follows can follow a value. A `Part` is a text with the tree it
reads as. A printer is shown right by writing its output as a part built from smaller
ones: the tree is then read off, and nothing is said about the reader again.
-/

namespace Xmmsg.Sys.Json

/-- A value, its strings and numbers as written. -/
inductive Tree where
  | null
  | bool (b : Bool)
  | num (text : List Char)
  | str (raw : List Char)
  | arr (items : List Tree)
  | obj (members : List (List Char × Tree))
  deriving Repr

/-! ## The reader -/

def isWs (c : Char) : Bool := c == ' ' || c == '\t' || c == '\n' || c == '\r'

def skipWs (cs : List Char) : List Char := cs.dropWhile isWs

def literal (word cs : List Char) : Option (List Char) :=
  if word.isPrefixOf cs then some (cs.drop word.length) else none

/-- The rest of a string after its opening quote: what is written in it, and what follows. -/
def string : List Char → Option (List Char × List Char)
  | [] => none
  | c :: cs =>
      if c = '"' then some ([], cs)
      else if c = '\\' then
        match cs with
        | [] => none
        | d :: ds => (string ds).map fun p => (c :: d :: p.1, p.2)
      else if c.toNat < 0x20 then none
      else (string cs).map fun p => (c :: p.1, p.2)

def digits (cs : List Char) : Option (List Char × List Char) :=
  match cs.takeWhile Char.isDigit with
  | [] => none
  | ds => some (ds, cs.dropWhile Char.isDigit)

def sign (marks cs : List Char) : List Char × List Char :=
  match cs with
  | [] => ([], [])
  | c :: rest => if c ∈ marks then ([c], rest) else ([], cs)

def fraction (cs : List Char) : Option (List Char × List Char) :=
  match cs with
  | [] => some ([], [])
  | c :: rest =>
      if c = '.' then (digits rest).map fun p => (c :: p.1, p.2) else some ([], cs)

def exponent (cs : List Char) : Option (List Char × List Char) :=
  match cs with
  | [] => some ([], [])
  | c :: rest =>
      if c = 'e' ∨ c = 'E' then
        let s := sign ['+', '-'] rest
        (digits s.2).map fun p => (c :: s.1 ++ p.1, p.2)
      else some ([], cs)

def number (cs : List Char) : Option (List Char × List Char) :=
  let s := sign ['-'] cs
  (digits s.2).bind fun int =>
    (fraction int.2).bind fun frac =>
      (exponent frac.2).map fun exp => (s.1 ++ int.1 ++ frac.1 ++ exp.1, exp.2)

mutual

def value : Nat → List Char → Option (Tree × List Char)
  | 0, _ => none
  | fuel + 1, cs =>
      match skipWs cs with
      | [] => none
      | c :: rest =>
          if c = '{' then
            match skipWs rest with
            | '}' :: rest => some (.obj [], rest)
            | rest => (members fuel rest).map fun p => (.obj p.1, p.2)
          else if c = '[' then
            match skipWs rest with
            | ']' :: rest => some (.arr [], rest)
            | rest => (elements fuel rest).map fun p => (.arr p.1, p.2)
          else if c = '"' then (string rest).map fun p => (.str p.1, p.2)
          else if c = 't' then (literal "true".toList (c :: rest)).map fun r => (.bool true, r)
          else if c = 'f' then (literal "false".toList (c :: rest)).map fun r => (.bool false, r)
          else if c = 'n' then (literal "null".toList (c :: rest)).map fun r => (.null, r)
          else (number (c :: rest)).map fun p => (.num p.1, p.2)

/-- The members of an object that has one, with its closing brace. -/
def members : Nat → List Char → Option (List (List Char × Tree) × List Char)
  | 0, _ => none
  | fuel + 1, cs =>
      match skipWs cs with
      | '"' :: rest =>
          (string rest).bind fun key =>
            match skipWs key.2 with
            | ':' :: rest =>
                (value fuel rest).bind fun v =>
                  match skipWs v.2 with
                  | '}' :: rest => some ([(key.1, v.1)], rest)
                  | ',' :: rest => (members fuel rest).map fun p => ((key.1, v.1) :: p.1, p.2)
                  | _ => none
            | _ => none
      | _ => none

/-- The items of an array that has one, with its closing bracket. -/
def elements : Nat → List Char → Option (List Tree × List Char)
  | 0, _ => none
  | fuel + 1, cs =>
      (value fuel cs).bind fun v =>
        match skipWs v.2 with
        | ']' :: rest => some ([v.1], rest)
        | ',' :: rest => (elements fuel rest).map fun p => (v.1 :: p.1, p.2)
        | _ => none

end

/-- One value and nothing else. A value has more characters than levels and items. -/
def parse (text : List Char) : Option Tree :=
  (value (text.length + 1) (skipWs text)).bind fun v =>
    if skipWs v.2 = [] then some v.1 else none

/-! ## Decoding -/

def hexDigit (c : Char) : Option Nat :=
  if '0' ≤ c ∧ c ≤ '9' then some (c.toNat - '0'.toNat)
  else if 'a' ≤ c ∧ c ≤ 'f' then some (c.toNat - 'a'.toNat + 10)
  else if 'A' ≤ c ∧ c ≤ 'F' then some (c.toNat - 'A'.toNat + 10)
  else none

/-- The bytes of a character; a surrogate is none. -/
def utf8 (n : Nat) : Option (List Char) :=
  if n.isValidChar then
    some ((String.utf8EncodeChar (Char.ofNat n)).map fun b => Char.ofNat b.toNat)
  else none

def codePoint (a b c d : Char) : Option (List Char) :=
  match hexDigit a, hexDigit b, hexDigit c, hexDigit d with
  | some w, some x, some y, some z => utf8 (w * 4096 + x * 256 + y * 16 + z)
  | _, _, _, _ => none

/-- An escape of one letter. -/
def shortEscape : Char → Option Char
  | '"' => some '"'
  | '\\' => some '\\'
  | '/' => some '/'
  | 'b' => some '\x08'
  | 'f' => some '\x0c'
  | 'n' => some '\n'
  | 'r' => some '\r'
  | 't' => some '\t'
  | _ => none

/-- What a string says, from what is written in it. -/
def unescape : List Char → Option (List Char)
  | [] => some []
  | '\\' :: 'u' :: a :: b :: c :: d :: rest =>
      (codePoint a b c d).bind fun bytes => (unescape rest).map fun text => bytes ++ text
  | '\\' :: c :: rest =>
      (shortEscape c).bind fun e => (unescape rest).map fun text => e :: text
  | c :: rest => if c = '\\' then none else (unescape rest).map fun text => c :: text

theorem unescape_char {c : Char} (h : c ≠ '\\') (rest : List Char) :
    unescape (c :: rest) = (unescape rest).map fun text => c :: text := by
  rw [unescape.eq_def]
  split
  · next heq => cases heq
  · next heq => exact absurd (List.cons.inj heq).1 h
  · next heq => exact absurd (List.cons.inj heq).1 h
  · next heq =>
      cases heq
      rw [if_neg h]

theorem unescape_short {c : Char} (h : c = '"' ∨ c = '\\') (rest : List Char) :
    unescape ('\\' :: c :: rest) = (unescape rest).map fun text => c :: text := by
  rcases h with rfl | rfl <;> rw [unescape.eq_def] <;> rfl

namespace Tree

def member (key : List Char) : Tree → Option Tree
  | .obj ms => ms.lookup key
  | _ => none

/-- The member of that name, if it is a string, decoded. -/
def text (key : List Char) (v : Tree) : Option (List Char) :=
  match v.member key with
  | some (.str raw) => unescape raw
  | _ => none

theorem member_head (key : List Char) (v : Tree) (ms : List (List Char × Tree)) :
    (Tree.obj ((key, v) :: ms)).member key = some v :=
  List.lookup_cons_self

theorem member_tail {key key' : List Char} (h : (key == key') = false) (v : Tree)
    (ms : List (List Char × Tree)) :
    (Tree.obj ((key', v) :: ms)).member key = (Tree.obj ms).member key := by
  rw [member, List.lookup_cons, h]
  rfl

theorem text_of_member {key raw : List Char} {v : Tree} (h : v.member key = some (.str raw)) :
    v.text key = unescape raw := by
  rw [text, h]

end Tree

/-! ## White space -/

theorem skipWs_of_ws {ws : List Char} (h : ws.all isWs = true) (rest : List Char) :
    skipWs (ws ++ rest) = skipWs rest := by
  rw [skipWs, List.dropWhile_append_of_pos (List.all_eq_true.mp h), skipWs]

theorem skipWs_cons {c : Char} (h : isWs c = false) (rest : List Char) :
    skipWs (c :: rest) = c :: rest := by
  rw [skipWs, List.dropWhile_cons_of_neg (by simp [h])]

theorem skipWs_skipWs (cs : List Char) : skipWs (skipWs cs) = skipWs cs := by
  rw [skipWs, skipWs, List.dropWhile_idempotent]

theorem value_skipWs (fuel : Nat) (cs : List Char) : value fuel (skipWs cs) = value fuel cs := by
  cases fuel with
  | zero => rw [value, value]
  | succ fuel => rw [value, value, skipWs_skipWs]

theorem members_skipWs (fuel : Nat) (cs : List Char) :
    members fuel (skipWs cs) = members fuel cs := by
  cases fuel with
  | zero => rw [members, members]
  | succ fuel => rw [members, members, skipWs_skipWs]

theorem elements_skipWs (fuel : Nat) (cs : List Char) :
    elements fuel (skipWs cs) = elements fuel cs := by
  cases fuel with
  | zero => rw [elements, elements]
  | succ fuel => rw [elements, elements, value_skipWs]

/-- What can follow a value. -/
def ends : List Char → Bool
  | [] => true
  | c :: _ => isWs c || c == ',' || c == '}' || c == ']'

theorem ends_ws {ws : List Char} (h : ws.all isWs = true) {rest : List Char}
    (hrest : ends rest = true) : ends (ws ++ rest) = true := by
  cases ws with
  | nil => exact hrest
  | cons c ws =>
      rw [List.all_cons, Bool.and_eq_true] at h
      simp [ends, h.1]

/-- It does not go on with a number. -/
theorem ends_cons {c : Char} {rest : List Char} (h : ends (c :: rest) = true) :
    c.isDigit = false ∧ c ≠ '.' ∧ c ≠ 'e' ∧ c ≠ 'E' ∧ c ≠ '+' ∧ c ≠ '-' := by
  simp only [ends, isWs, Bool.or_eq_true, beq_iff_eq] at h
  rcases h with ((((((rfl | rfl) | rfl) | rfl) | rfl) | rfl) | rfl) <;> decide

/-! ## Numbers -/

theorem digits_append {cs rest : List Char} {p : List Char × List Char} (h : digits cs = some p)
    (hrest : ends rest = true) : digits (cs ++ rest) = some (p.1, p.2 ++ rest) := by
  have hstop : rest.takeWhile Char.isDigit = [] ∧ rest.dropWhile Char.isDigit = rest := by
    cases rest with
    | nil => exact ⟨rfl, rfl⟩
    | cons c rest => simp [(ends_cons hrest).1]
  have hspan : (cs ++ rest).takeWhile Char.isDigit = cs.takeWhile Char.isDigit ∧
      (cs ++ rest).dropWhile Char.isDigit = cs.dropWhile Char.isDigit ++ rest := by
    clear h
    induction cs with
    | nil => exact hstop
    | cons c cs ih =>
        rw [List.cons_append]
        by_cases hc : c.isDigit = true
        · simp only [List.takeWhile_cons_of_pos hc, List.dropWhile_cons_of_pos hc]
          exact ⟨congrArg _ ih.1, ih.2⟩
        · simp only [List.takeWhile_cons_of_neg hc, List.dropWhile_cons_of_neg hc]
          exact ⟨trivial, rfl⟩
  rw [digits, hspan.1, hspan.2]
  rw [digits] at h
  split at h
  · cases h
  · cases h
    rfl

theorem fraction_append {cs rest : List Char} {p : List Char × List Char}
    (h : fraction cs = some p) (hrest : ends rest = true) :
    fraction (cs ++ rest) = some (p.1, p.2 ++ rest) := by
  cases cs with
  | nil =>
      cases h
      cases rest with
      | nil => rfl
      | cons c rest => simp [fraction, (ends_cons hrest).2.1]
  | cons c cs =>
      rw [List.cons_append, fraction]
      rw [fraction] at h
      split at h
      · next hc =>
          obtain ⟨q, hq, hp⟩ := Option.map_eq_some_iff.mp h
          rw [if_pos hc, digits_append hq hrest, ← hp]
          rfl
      · next hc =>
          cases h
          rw [if_neg hc]
          rfl

theorem sign_append {marks cs rest : List Char} (h : cs ≠ []) :
    sign marks (cs ++ rest) = ((sign marks cs).1, (sign marks cs).2 ++ rest) := by
  cases cs with
  | nil => exact absurd rfl h
  | cons c cs =>
      rw [List.cons_append, sign, sign]
      split <;> rfl

theorem digits_ne_nil {cs : List Char} {p : List Char × List Char} (h : digits cs = some p) :
    cs ≠ [] := by
  rintro rfl
  cases h

theorem ne_nil_of_sign {marks cs : List Char} (h : (sign marks cs).2 ≠ []) : cs ≠ [] := by
  rintro rfl
  exact h rfl

theorem exponent_append {cs rest : List Char} {p : List Char × List Char}
    (h : exponent cs = some p) (hrest : ends rest = true) :
    exponent (cs ++ rest) = some (p.1, p.2 ++ rest) := by
  cases cs with
  | nil =>
      cases h
      cases rest with
      | nil => rfl
      | cons c rest => simp [exponent, (ends_cons hrest).2.2.1, (ends_cons hrest).2.2.2.1]
  | cons c cs =>
      rw [List.cons_append, exponent]
      rw [exponent] at h
      split at h
      · next hc =>
          obtain ⟨q, hq, hp⟩ := Option.map_eq_some_iff.mp h
          rw [if_pos hc, sign_append (ne_nil_of_sign (digits_ne_nil hq))]
          simp only [digits_append hq hrest, ← hp]
          rfl
      · next hc =>
          cases h
          rw [if_neg hc]
          rfl

/-- What a number is does not depend on what follows it. -/
theorem number_append {cs rest : List Char} {p : List Char × List Char} (h : number cs = some p)
    (hrest : ends rest = true) : number (cs ++ rest) = some (p.1, p.2 ++ rest) := by
  obtain ⟨int, hint, h⟩ := Option.bind_eq_some_iff.mp h
  obtain ⟨frac, hfrac, h⟩ := Option.bind_eq_some_iff.mp h
  obtain ⟨exp, hexp, hp⟩ := Option.map_eq_some_iff.mp h
  rw [number, sign_append (ne_nil_of_sign (digits_ne_nil hint))]
  simp only [digits_append hint hrest, Option.bind_some, fraction_append hfrac hrest,
    exponent_append hexp hrest, Option.map_some, ← hp]

theorem number_head {c : Char} {cs : List Char} {p : List Char × List Char}
    (h : number (c :: cs) = some p) : c = '-' ∨ c.isDigit = true := by
  obtain ⟨int, hint, -⟩ := Option.bind_eq_some_iff.mp h
  by_cases hc : c = '-'
  · exact .inl hc
  · right
    have hsign : sign ['-'] (c :: cs) = ([], c :: cs) := by simp [sign, hc]
    rw [hsign, digits] at hint
    by_contra hd
    rw [List.takeWhile_cons_of_neg hd] at hint
    cases hint

theorem number_decimal (n : Nat) : number (decimal n) = some (decimal n, []) := by
  have hall : ∀ c ∈ decimal n, c.isDigit = true := fun c => isDigit_of_mem_decimal
  obtain ⟨c, cs, hcs⟩ := List.exists_cons_of_ne_nil (show decimal n ≠ [] from Nat.toDigits_ne_nil)
  have hdigits : digits (decimal n) = some (decimal n, []) := by
    rw [digits, List.takeWhile_eq_self_iff.mpr hall, List.dropWhile_eq_nil_iff.mpr hall, hcs]
  have hsign : sign ['-'] (decimal n) = ([], decimal n) := by
    have hc : c ≠ '-' := by
      rintro rfl
      exact not_mem_decimal (n := n) (c := '-') (by decide) (hcs ▸ List.mem_cons_self)
    rw [hcs]
    simp [sign, hc]
  simp [number, hsign, hdigits, fraction, exponent]

/-! ## Strings -/

/-- What can be written between two quotes. -/
def isRaw : List Char → Bool
  | [] => true
  | c :: cs =>
      if c = '"' then false
      else if c = '\\' then
        match cs with
        | [] => false
        | _ :: ds => isRaw ds
      else decide (0x20 ≤ c.toNat) && isRaw cs

/-- No quote, no backslash, no control character. -/
def isPlain (c : Char) : Bool := c != '"' && c != '\\' && decide (0x20 ≤ c.toNat)

theorem isPlain_iff {c : Char} : isPlain c = true ↔ c ≠ '"' ∧ c ≠ '\\' ∧ 0x20 ≤ c.toNat := by
  simp [isPlain, and_assoc]

theorem string_plain {c : Char} (h : isPlain c = true) (cs : List Char) :
    string (c :: cs) = (string cs).map fun p => (c :: p.1, p.2) := by
  obtain ⟨hquote, hslash, hlow⟩ := isPlain_iff.mp h
  rw [string.eq_def]
  simp only [if_neg hquote, if_neg hslash, if_neg (Nat.not_lt.mpr hlow)]

theorem isRaw_plain {c : Char} (h : isPlain c = true) (cs : List Char) :
    isRaw (c :: cs) = isRaw cs := by
  obtain ⟨hquote, hslash, hlow⟩ := isPlain_iff.mp h
  rw [isRaw.eq_def]
  simp only [if_neg hquote, if_neg hslash, decide_eq_true hlow, Bool.true_and]

theorem string_of_isRaw {raw : List Char} (h : isRaw raw = true) (rest : List Char) :
    string (raw ++ '"' :: rest) = some (raw, rest) := by
  fun_induction isRaw raw with
  | case1 => rw [List.nil_append, string.eq_def]; rfl
  | case2 => cases h
  | case3 => cases h
  | case4 d ds _ ih =>
      rw [List.cons_append, List.cons_append, string.eq_def]
      simp [ih h]
  | case5 c cs hquote hslash ih =>
      simp only [Bool.and_eq_true, decide_eq_true_eq] at h
      rw [List.cons_append, string_plain (isPlain_iff.mpr ⟨hquote, hslash, h.1⟩), ih h.2]
      rfl

theorem isRaw_append_plain {cs : List Char} (h : cs.all isPlain = true) (rest : List Char) :
    isRaw (cs ++ rest) = isRaw rest := by
  induction cs with
  | nil => rfl
  | cons c cs ih =>
      rw [List.all_cons, Bool.and_eq_true] at h
      rw [List.cons_append, isRaw_plain h.1, ih h.2]

theorem isRaw_of_plain {cs : List Char} (h : cs.all isPlain = true) : isRaw cs = true := by
  have := isRaw_append_plain h []
  rwa [List.append_nil] at this

/-! ## Values -/

/-- The reader takes exactly `text` for `v`. -/
def Reads (text : List Char) (v : Tree) : Prop :=
  ∀ rest fuel, ends rest = true → text.length < fuel →
    value fuel (text ++ rest) = some (v, rest)

theorem parse_of_reads {text ws : List Char} {v : Tree} (h : Reads text v)
    (hws : ws.all isWs = true) : parse (text ++ ws) = some v := by
  have hends : ends (ws ++ []) = true := ends_ws hws rfl
  rw [List.append_nil] at hends
  have hread := h ws ((text ++ ws).length + 1) hends (by rw [List.length_append]; omega)
  have hrest : skipWs ws = [] := List.dropWhile_eq_nil_iff.mpr (List.all_eq_true.mp hws)
  rw [parse, value_skipWs, hread, Option.bind_some, if_pos hrest]

theorem reads_ws {ws text : List Char} {v : Tree} (hws : ws.all isWs = true) (h : Reads text v) :
    Reads (ws ++ text) v := by
  intro rest fuel hrest hfuel
  rw [← value_skipWs, List.append_assoc, skipWs_of_ws hws, value_skipWs]
  rw [List.length_append] at hfuel
  exact h rest fuel hrest (by omega)

def quoted (raw : List Char) : List Char := '"' :: (raw ++ ['"'])

theorem reads_str {raw : List Char} (h : isRaw raw = true) : Reads (quoted raw) (.str raw) := by
  intro rest fuel _ hfuel
  obtain ⟨fuel, rfl⟩ := Nat.exists_eq_add_of_lt hfuel
  rw [value, quoted, List.cons_append, List.append_assoc, skipWs_cons (by decide)]
  simp [string_of_isRaw h]

theorem reads_bool (b : Bool) : Reads (if b then "true".toList else "false".toList) (.bool b) := by
  intro rest fuel _ hfuel
  obtain ⟨fuel, rfl⟩ := Nat.exists_eq_add_of_lt hfuel
  cases b with
  | false =>
      rw [if_neg (by decide), value, show "false".toList = ['f', 'a', 'l', 's', 'e'] from rfl]
      simp [skipWs, isWs, literal]
  | true =>
      rw [if_pos rfl, value, show "true".toList = ['t', 'r', 'u', 'e'] from rfl]
      simp [skipWs, isWs, literal]

theorem reads_num {text : List Char} (h : number text = some (text, [])) :
    Reads text (.num text) := by
  intro rest fuel hrest hfuel
  obtain ⟨fuel, rfl⟩ := Nat.exists_eq_add_of_lt hfuel
  cases text with
  | nil => cases h
  | cons c cs =>
      have hc : c = '-' ∨ c.isDigit = true := number_head h
      have happ := number_append h hrest
      have hother : ∀ d : Char, d ≠ '-' → d.isDigit = false → c ≠ d := by
        rintro d hminus hdigit rfl
        rcases hc with rfl | hc
        · exact hminus rfl
        · rw [hdigit] at hc
          cases hc
      have hws : isWs c = false := by
        simp only [isWs, Bool.or_eq_false_iff, beq_eq_false_iff_ne]
        exact ⟨⟨⟨hother _ (by decide) (by decide), hother _ (by decide) (by decide)⟩,
          hother _ (by decide) (by decide)⟩, hother _ (by decide) (by decide)⟩
      rw [List.cons_append] at happ ⊢
      rw [value, skipWs_cons hws]
      simp only [if_neg (hother '{' (by decide) (by decide)),
        if_neg (hother '[' (by decide) (by decide)), if_neg (hother '"' (by decide) (by decide)),
        if_neg (hother 't' (by decide) (by decide)), if_neg (hother 'f' (by decide) (by decide)),
        if_neg (hother 'n' (by decide) (by decide)), happ]
      rfl

/-! ## Objects and arrays -/

/-- No value begins with a bracket or a brace that closes. -/
theorem value_ne_close {fuel : Nat} {cs : List Char} {p : Tree × List Char}
    (h : value fuel cs = some p) (rest : List Char) : skipWs cs ≠ ']' :: rest := by
  intro hcs
  cases fuel with
  | zero => cases h
  | succ fuel =>
      rw [value, hcs] at h
      simp [number, sign, digits] at h

theorem elements_ne_close {fuel : Nat} {cs : List Char} {p : List Tree × List Char}
    (h : elements fuel cs = some p) (rest : List Char) : skipWs cs ≠ ']' :: rest := by
  cases fuel with
  | zero => cases h
  | succ fuel =>
      rw [elements] at h
      obtain ⟨v, hv, -⟩ := Option.bind_eq_some_iff.mp h
      exact value_ne_close hv rest

theorem members_ne_close {fuel : Nat} {cs : List Char} {p : List (List Char × Tree) × List Char}
    (h : members fuel cs = some p) (rest : List Char) : skipWs cs ≠ '}' :: rest := by
  intro hcs
  cases fuel with
  | zero => cases h
  | succ fuel =>
      rw [members, hcs] at h
      cases h

def field (key text : List Char) : List Char := '"' :: (key ++ '"' :: ':' :: text)

/-- The members and the closing brace. -/
def ReadsMembers (text : List Char) (ms : List (List Char × Tree)) : Prop :=
  ∀ rest fuel, text.length < fuel → members fuel (text ++ rest) = some (ms, rest)

def ReadsElements (text : List Char) (vs : List Tree) : Prop :=
  ∀ rest fuel, text.length < fuel → elements fuel (text ++ rest) = some (vs, rest)

theorem members_field {fuel : Nat} {key text rest : List Char} {v : Tree}
    (hkey : isRaw key = true) (hv : Reads text v) (hrest : ends rest = true)
    (hfuel : text.length < fuel) :
    members (fuel + 1) (field key text ++ rest) =
      match skipWs rest with
      | '}' :: rest => some ([(key, v)], rest)
      | ',' :: rest => (members fuel rest).map fun p => ((key, v) :: p.1, p.2)
      | _ => none := by
  rw [members, field, List.cons_append, skipWs_cons (by decide)]
  simp only [List.append_assoc, List.cons_append]
  rw [string_of_isRaw hkey]
  simp only [Option.bind_some, skipWs_cons (show isWs ':' = false by decide),
    hv rest fuel hrest hfuel]

theorem field_length (key text : List Char) :
    (field key text).length = key.length + text.length + 3 := by
  simp only [field, List.length_cons, List.length_append]
  omega

theorem readsMembers_last {key text : List Char} {v : Tree} (hkey : isRaw key = true)
    (hv : Reads text v) : ReadsMembers (field key text ++ ['}']) [(key, v)] := by
  intro rest fuel hfuel
  rw [List.length_append, field_length] at hfuel
  obtain ⟨fuel, rfl⟩ := Nat.exists_eq_add_one_of_ne_zero (Nat.ne_zero_of_lt hfuel)
  rw [List.append_assoc, members_field hkey hv rfl (by omega), List.cons_append,
    skipWs_cons (by decide)]
  rfl

theorem readsMembers_cons {key text more : List Char} {v : Tree} {ms : List (List Char × Tree)}
    (hkey : isRaw key = true) (hv : Reads text v) (h : ReadsMembers more ms) :
    ReadsMembers (field key text ++ ',' :: more) ((key, v) :: ms) := by
  intro rest fuel hfuel
  rw [List.length_append, List.length_cons, field_length] at hfuel
  obtain ⟨fuel, rfl⟩ := Nat.exists_eq_add_one_of_ne_zero (Nat.ne_zero_of_lt hfuel)
  rw [List.append_assoc, members_field hkey hv rfl (by omega), List.cons_append,
    skipWs_cons (by decide)]
  simp only [h rest fuel (by omega), Option.map_some]

theorem reads_obj {text : List Char} {ms : List (List Char × Tree)} (h : ReadsMembers text ms) :
    Reads ('{' :: text) (.obj ms) := by
  intro rest fuel _ hfuel
  obtain ⟨fuel, rfl⟩ := Nat.exists_eq_add_one_of_ne_zero (Nat.ne_zero_of_lt hfuel)
  have hread := h rest fuel (by simpa using hfuel)
  rw [value, List.cons_append, skipWs_cons (by decide)]
  simp only [if_true]
  split
  · next r hr => exact absurd hr (members_ne_close hread r)
  · rw [members_skipWs, hread]
    rfl

theorem readsElements_last {text gap : List Char} {v : Tree} (hv : Reads text v)
    (hgap : gap.all isWs = true) : ReadsElements (text ++ (gap ++ [']'])) [v] := by
  intro rest fuel hfuel
  rw [List.length_append, List.length_append, List.length_singleton] at hfuel
  obtain ⟨fuel, rfl⟩ := Nat.exists_eq_add_one_of_ne_zero (Nat.ne_zero_of_lt hfuel)
  rw [elements, List.append_assoc, List.append_assoc,
    hv _ fuel (ends_ws hgap rfl) (by omega), Option.bind_some, skipWs_of_ws hgap,
    List.cons_append, skipWs_cons (by decide)]
  rfl

theorem readsElements_cons {text more : List Char} {v : Tree} {vs : List Tree} (hv : Reads text v)
    (h : ReadsElements more vs) : ReadsElements (text ++ ',' :: more) (v :: vs) := by
  intro rest fuel hfuel
  rw [List.length_append, List.length_cons] at hfuel
  obtain ⟨fuel, rfl⟩ := Nat.exists_eq_add_one_of_ne_zero (Nat.ne_zero_of_lt hfuel)
  rw [elements, List.append_assoc, hv _ fuel rfl (by omega), Option.bind_some, List.cons_append,
    skipWs_cons (by decide)]
  simp only [h rest fuel (by omega), Option.map_some]

theorem reads_arr {text : List Char} {vs : List Tree} (h : ReadsElements text vs) :
    Reads ('[' :: text) (.arr vs) := by
  intro rest fuel _ hfuel
  obtain ⟨fuel, rfl⟩ := Nat.exists_eq_add_one_of_ne_zero (Nat.ne_zero_of_lt hfuel)
  have hread := h rest fuel (by simpa using hfuel)
  rw [value, List.cons_append, skipWs_cons (by decide)]
  simp only [if_neg (show '[' ≠ '{' by decide), if_true]
  split
  · next r hr => exact absurd hr (elements_ne_close hread r)
  · rw [elements_skipWs, hread]
    rfl

theorem reads_arr_nil {gap : List Char} (hgap : gap.all isWs = true) :
    Reads ('[' :: (gap ++ [']'])) (.arr []) := by
  intro rest fuel _ hfuel
  obtain ⟨fuel, rfl⟩ := Nat.exists_eq_add_one_of_ne_zero (Nat.ne_zero_of_lt hfuel)
  have hclose : skipWs (gap ++ [']'] ++ rest) = ']' :: rest := by
    rw [List.append_assoc, skipWs_of_ws hgap, List.cons_append, skipWs_cons (by decide)]
    rfl
  rw [value, List.cons_append, skipWs_cons (by decide)]
  simp only [if_neg (show '[' ≠ '{' by decide), if_true, hclose]

/-! ## Parts -/

/-- A text and the value it is. -/
structure Part where
  text : List Char
  tree : Tree
  reads : Reads text tree

namespace Part

def num (n : Nat) : Part := ⟨decimal n, .num (decimal n), reads_num (number_decimal n)⟩

def numeral (text : List Char) (h : number text = some (text, [])) : Part :=
  ⟨text, .num text, reads_num h⟩

def bool (b : Bool) : Part := ⟨if b then "true".toList else "false".toList, .bool b, reads_bool b⟩

def str (raw : List Char) (h : isRaw raw = true) : Part := ⟨quoted raw, .str raw, reads_str h⟩

/-- White space before a value. -/
def after (ws : List Char) (h : ws.all isWs = true) (p : Part) : Part :=
  ⟨ws ++ p.text, p.tree, reads_ws h p.reads⟩

end Part

/-- A member of an object; its name needs no escape. -/
structure Member where
  key : List Char
  part : Part
  plain : key.all isPlain = true

theorem plain_literal {cs : List Char} (h : cs.all isPlain = true) :
    (String.ofList cs).toList.all isPlain = true := by
  rw [String.toList_ofList]
  exact h

/-- Members after the first. -/
def moreText (ms : List Member) : List Char := ms.flatMap fun m => ',' :: field m.key m.part.text

/-- The members of an object, and the brace that closes it. -/
def membersText (m : Member) (ms : List Member) : List Char :=
  field m.key m.part.text ++ (moreText ms ++ ['}'])

theorem moreText_singleton (m : Member) : moreText [m] = ',' :: field m.key m.part.text :=
  List.append_nil _

theorem moreText_append (ms ms' : List Member) :
    moreText (ms ++ ms') = moreText ms ++ moreText ms' :=
  List.flatMap_append

theorem readsMembers_text (m : Member) (ms : List Member) :
    ReadsMembers (membersText m ms) ((m :: ms).map fun m => (m.key, m.part.tree)) := by
  induction ms generalizing m with
  | nil => exact readsMembers_last (isRaw_of_plain m.plain) m.part.reads
  | cons m' ms ih =>
      rw [membersText, moreText, List.flatMap_cons, List.cons_append, List.cons_append,
        List.append_assoc]
      exact readsMembers_cons (isRaw_of_plain m.plain) m.part.reads (ih m')

/-- The items of an array, and the bracket that closes it, `gap` before it. -/
def elementsText (gap : List Char) (p : Part) (ps : List Part) : List Char :=
  p.text ++ (ps.flatMap (fun p => ',' :: p.text) ++ (gap ++ [']']))

theorem readsElements_text {gap : List Char} (hgap : gap.all isWs = true) {p : Part}
    {ps : List Part} : ReadsElements (elementsText gap p ps) ((p :: ps).map Part.tree) := by
  induction ps generalizing p with
  | nil => exact readsElements_last p.reads hgap
  | cons p' ps ih =>
      rw [elementsText, List.flatMap_cons, List.cons_append, List.cons_append, List.append_assoc]
      exact readsElements_cons p.reads ih

namespace Part

/-- An object with the member `m` and others. -/
def obj (m : Member) (ms : List Member) : Part :=
  ⟨'{' :: membersText m ms, .obj ((m :: ms).map fun m => (m.key, m.part.tree)),
    reads_obj (readsMembers_text m ms)⟩

def arr (gap : List Char) (hgap : gap.all isWs = true) : List Part → Part
  | [] => ⟨'[' :: (gap ++ [']']), .arr [], reads_arr_nil hgap⟩
  | p :: ps =>
      ⟨'[' :: elementsText gap p ps, .arr ((p :: ps).map Part.tree),
        reads_arr (readsElements_text hgap)⟩

theorem arr_tree (gap : List Char) (hgap : gap.all isWs = true) (ps : List Part) :
    (arr gap hgap ps).tree = .arr (ps.map Part.tree) := by
  cases ps <;> rfl

end Part

end Xmmsg.Sys.Json
