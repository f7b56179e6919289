import Xmmsg.Shm.Names
import Xmmsg.Sys.Text

/-!
# Finding a segment by its name

An observer has nothing but the names under `/dev/shm`. `ParseSegmentName` of
`introspect_reader.hpp` takes one apart again: a hashed name by its form, any other
at its second dot, because the isolation key `DeriveIsolationKey` makes has exactly
one dot in it, between the user and the sanitized domain name. A topic may have any
number of dots, and a topic or a domain may look like anything; the first byte after
the common beginning is `u` in a readable name and `h` in a hashed one.

`segment_names_isolate` is the round trip. That readable names of different domains or
topics differ, and differ from all hashed ones, is read off it, since a parser gives
one answer.
-/

namespace Xmmsg.Shm

open Xmmsg.Sys

/-! ## The isolation key -/

/-- The sanitizer of `DeriveIsolationKey`, one byte: as for a name part, but a dot is
replaced. -/
def sanitizeDomainChar (c : Char) : Char :=
  if isLower c || isDigit c || c == '_' then c
  else if isUpper c then Char.ofNat (c.toNat - 'A'.toNat + 'a'.toNat)
  else '_'

/-- `DeriveIsolationKey`; `euid` is the effective user of the process. -/
def deriveIsolationKey (euid : Nat) (configuredName : List Char) : List Char :=
  let base := if configuredName.isEmpty then "default".toList else configuredName
  'u' :: decimal euid ++ '.' :: base.map sanitizeDomainChar

/-! ## Parsing -/

/-- `DiscoveredSegment`. -/
structure DiscoveredSegment where
  name : List Char
  isolationKey : List Char := []
  topic : List Char := []
  hashedName : Bool := false
  deriving DecidableEq, Repr

/-- `std::string::find(c, pos)`. -/
def findFrom (s : List Char) (c : Char) (pos : Nat) : Option Nat :=
  ((s.drop pos).idxOf? c).map (· + pos)

def isLowerHex (c : Char) : Bool := isDigit c || (decide ('a' ≤ c) && decide (c ≤ 'f'))

/-- `ParseSegmentName`. -/
def parseSegmentName (shmName : List Char) : Option DiscoveredSegment :=
  let kPrefixLen := "/xmmsg.".toList.length
  if shmName.take kPrefixLen ≠ "/xmmsg.".toList then none
  else
    let rest := shmName.drop kPrefixLen
    if rest.length = 17 ∧ rest.head? = some 'h' ∧ rest.tail.all isLowerHex = true then
      some { name := shmName, hashedName := true }
    else
      match findFrom rest '.' 0 with
      | none => none
      | some dot1 =>
          match findFrom rest '.' (dot1 + 1) with
          | none => none
          | some dot2 =>
              if dot2 + 1 ≥ rest.length then none
              else if rest.head? ≠ some 'u' then none
              else
                some { name := shmName, isolationKey := rest.take dot2
                       topic := rest.drop (dot2 + 1) }

/-! ## What the sanitizers leave -/

/-- Folding to lower case gives a lower case letter. -/
theorem fold_isLower {c : Char} (h : isUpper c = true) :
    isLower (Char.ofNat (c.toNat - 'A'.toNat + 'a'.toNat)) = true := by
  have hletters : ∀ k : Fin 26,
      isLower (Char.ofNat (k.val + 65 - 'A'.toNat + 'a'.toNat)) = true := by decide
  have hrange : 65 ≤ c.toNat ∧ c.toNat ≤ 90 := by
    simp only [isUpper, Bool.and_eq_true, decide_eq_true_eq] at h
    exact ⟨h.1, h.2⟩
  have := hletters ⟨c.toNat - 65, by omega⟩
  simpa only [Nat.sub_add_cancel hrange.1] using this

theorem sanitizeDomainChar_segment (c : Char) : isSegmentChar (sanitizeDomainChar c) = true := by
  rw [sanitizeDomainChar]
  split
  · next h => exact h
  · split
    · next h =>
        rw [isSegmentChar, fold_isLower h]
        rfl
    · decide

theorem sanitizeChar_of_segment {c : Char} (h : isSegmentChar c = true) : sanitizeChar c = c := by
  have hseg : (isLower c || isDigit c || c == '_') = true := h
  simp only [sanitizeChar, hseg, Bool.true_or, if_true]

theorem segment_of_mem_decimal {n : Nat} {c : Char} (h : c ∈ decimal n) :
    isSegmentChar c = true := by
  have hd : isDigit c = true := isDigit_of_mem_decimal h
  rw [isSegmentChar, hd, Bool.or_true]
  rfl

/-- The user and the domain of a key, on either side of its dot. -/
def userPart (euid : Nat) : List Char := 'u' :: decimal euid

def domainPart (configuredName : List Char) : List Char :=
  (if configuredName.isEmpty then "default".toList else configuredName).map sanitizeDomainChar

theorem deriveIsolationKey_eq (euid : Nat) (configuredName : List Char) :
    deriveIsolationKey euid configuredName =
      userPart euid ++ '.' :: domainPart configuredName := rfl

theorem segment_of_mem_userPart {euid : Nat} {c : Char} (h : c ∈ userPart euid) :
    isSegmentChar c = true := by
  rcases List.mem_cons.mp h with rfl | h'
  · decide
  · exact segment_of_mem_decimal h'

theorem segment_of_mem_domainPart {name : List Char} {c : Char} (h : c ∈ domainPart name) :
    isSegmentChar c = true := by
  obtain ⟨d, -, rfl⟩ := List.mem_map.mp h
  exact sanitizeDomainChar_segment d

theorem dot_not_mem {x : List Char} (h : ∀ c ∈ x, isSegmentChar c = true) : '.' ∉ x := by
  intro hdot
  have := h '.' hdot
  revert this
  decide

/-- The name sanitizer leaves a key as it is. -/
theorem sanitize_key (euid : Nat) (name : List Char) :
    sanitizeShmNamePart (deriveIsolationKey euid name) = deriveIsolationKey euid name := by
  have hfixed : ∀ {x : List Char}, (∀ c ∈ x, isSegmentChar c = true) → x.map sanitizeChar = x := by
    intro x hx
    exact (List.map_congr_left fun c hc => sanitizeChar_of_segment (hx c hc)).trans (List.map_id x)
  rw [sanitizeShmNamePart, deriveIsolationKey_eq, List.map_append, List.map_cons,
    hfixed fun _ => segment_of_mem_userPart, hfixed fun _ => segment_of_mem_domainPart]
  rfl

/-! ## The two forms of a name -/

theorem findFrom_eq {p a x : List Char} {c : Char} (h : c ∉ a) :
    findFrom (p ++ (a ++ c :: x)) c p.length = some (a.length + p.length) := by
  have hidx : (a ++ c :: x).idxOf? c = some a.length := by
    rw [List.idxOf?_eq_some_iff]
    refine ⟨by simp, by simp, fun j hj => ?_⟩
    rw [List.getElem_append_left hj]
    exact fun hc => h (hc ▸ List.getElem_mem hj)
  rw [findFrom, List.drop_left, hidx]
  rfl

/-- What is after the common beginning of a readable name. -/
def readableRest (euid : Nat) (name topic : List Char) : List Char :=
  userPart euid ++ '.' :: (domainPart name ++ '.' :: sanitizeShmNamePart topic)

theorem readableName_eq (euid : Nat) (name topic : List Char) :
    readableName (deriveIsolationKey euid name) topic =
      "/xmmsg.".toList ++ readableRest euid name topic := by
  have hassoc : ∀ p u d t : List Char,
      p ++ (u ++ '.' :: d) ++ ['.'] ++ t = p ++ (u ++ '.' :: (d ++ '.' :: t)) := by
    intro p u d t
    simp
  unfold readableName domainPrefix readableRest
  rw [sanitize_key, deriveIsolationKey_eq]
  apply hassoc

theorem parse_readable (euid : Nat) (name : List Char) {topic : List Char} (h : topic ≠ []) :
    parseSegmentName ("/xmmsg.".toList ++ readableRest euid name topic) =
      some { name := "/xmmsg.".toList ++ readableRest euid name topic
             isolationKey := deriveIsolationKey euid name
             topic := sanitizeShmNamePart topic } := by
  have hrest : ("/xmmsg.".toList ++ readableRest euid name topic).drop "/xmmsg.".toList.length =
      readableRest euid name topic := List.drop_left
  have hhead : (readableRest euid name topic).head? = some 'u' := rfl
  have hdot1 : findFrom (readableRest euid name topic) '.' 0 = some (userPart euid).length :=
    findFrom_eq (p := []) (dot_not_mem fun _ => segment_of_mem_userPart)
  have hsplit : readableRest euid name topic = (userPart euid ++ ['.']) ++
      (domainPart name ++ '.' :: sanitizeShmNamePart topic) := by
    simp [readableRest]
  have hdot2 : findFrom (readableRest euid name topic) '.' ((userPart euid).length + 1) =
      some (deriveIsolationKey euid name).length := by
    have := findFrom_eq (p := userPart euid ++ ['.']) (a := domainPart name) (c := '.')
      (x := sanitizeShmNamePart topic) (dot_not_mem fun _ => segment_of_mem_domainPart)
    rw [hsplit]
    rw [List.length_append, List.length_singleton] at this
    rw [this, deriveIsolationKey_eq, List.length_append, List.length_cons]
    congr 1
    omega
  have hkey : readableRest euid name topic =
      deriveIsolationKey euid name ++ '.' :: sanitizeShmNamePart topic := by
    simp [readableRest, deriveIsolationKey_eq]
  have hlen : ¬ (deriveIsolationKey euid name).length + 1 ≥
      (readableRest euid name topic).length := by
    have htopic : 0 < (sanitizeShmNamePart topic).length := by
      rw [sanitizeShmNamePart, List.length_map]
      exact List.length_pos_iff.mpr h
    rw [hkey, List.length_append, List.length_cons]
    omega
  have hnot : ¬ ((readableRest euid name topic).length = 17 ∧
      (readableRest euid name topic).head? = some 'h' ∧
      (readableRest euid name topic).tail.all isLowerHex = true) := by
    rintro ⟨-, hh, -⟩
    rw [hhead] at hh
    exact absurd hh (by decide)
  have hu : ¬ (readableRest euid name topic).head? ≠ some 'u' := not_not_intro hhead
  simp only [parseSegmentName, hrest, List.take_left, ne_eq, not_true_eq_false, if_false]
  rw [if_neg hnot]
  simp only [hdot1, hdot2]
  rw [if_neg hlen, if_neg hu, hkey, List.take_left]
  have hdrop : (deriveIsolationKey euid name ++ '.' :: sanitizeShmNamePart topic).drop
      ((deriveIsolationKey euid name).length + 1) = sanitizeShmNamePart topic := by
    rw [← List.drop_drop, List.drop_left]
    rfl
  rw [hdrop]

theorem isLowerHex_digit (n : Nat) : isLowerHex (Nat.digitChar (n % 16)) = true := by
  have hdigits : ∀ k : Fin 16, isLowerHex (Nat.digitChar k.val) = true := by decide
  exact hdigits ⟨n % 16, Nat.mod_lt n (by decide)⟩

theorem parse_hashed (n : UInt64) :
    parseSegmentName ("/xmmsg.h".toList ++ hex16 n) =
      some { name := "/xmmsg.h".toList ++ hex16 n, hashedName := true } := by
  have hform : "/xmmsg.h".toList ++ hex16 n = "/xmmsg.".toList ++ 'h' :: hex16 n := rfl
  have hhex : (hex16 n).all isLowerHex = true := by
    refine List.all_eq_true.mpr fun c hc => ?_
    obtain ⟨i, -, rfl⟩ := List.mem_map.mp hc
    exact isLowerHex_digit _
  have hlen : ('h' :: hex16 n).length = 17 := by simp [hex16]
  rw [hform]
  have hrest : ("/xmmsg.".toList ++ 'h' :: hex16 n).drop "/xmmsg.".toList.length =
      'h' :: hex16 n := List.drop_left
  simp only [parseSegmentName, hrest, List.take_left, ne_eq, not_true_eq_false, if_false]
  rw [if_pos ⟨hlen, rfl, hhex⟩]

/-! ## The round trip -/

/-- The name is used as it is, not its hash. -/
def Readable (key topic : List Char) : Prop := (readableName key topic).length ≤ kNameBound

theorem parse_of_readable {euid : Nat} {name topic : List Char} (h : topic ≠ [])
    (hr : Readable (deriveIsolationKey euid name) topic) :
    parseSegmentName (shmSegmentName (deriveIsolationKey euid name) topic) =
      some { name := shmSegmentName (deriveIsolationKey euid name) topic
             isolationKey := deriveIsolationKey euid name
             topic := sanitizeShmNamePart topic } := by
  rw [shmSegmentName_short hr, readableName_eq]
  exact parse_readable euid name h

theorem parse_of_not_readable {key topic : List Char} (hr : ¬ Readable key topic) :
    parseSegmentName (shmSegmentName key topic) =
      some { name := shmSegmentName key topic, hashedName := true } := by
  have hlong : (readableName key topic).length > kNameBound := Nat.lt_of_not_le hr
  simp only [shmSegmentName, if_pos hlong]
  exact parse_hashed _

/-- A segment name gives back the key and the sanitized topic it was made from, or
says that it is a hash; and so names tell domains and topics apart. -/
theorem segment_names_isolate :
    (∀ euid name topic, topic ≠ [] →
      (Readable (deriveIsolationKey euid name) topic →
        parseSegmentName (shmSegmentName (deriveIsolationKey euid name) topic) =
          some { name := shmSegmentName (deriveIsolationKey euid name) topic
                 isolationKey := deriveIsolationKey euid name
                 topic := sanitizeShmNamePart topic
                 hashedName := false }) ∧
      (¬ Readable (deriveIsolationKey euid name) topic →
        ∃ d, parseSegmentName (shmSegmentName (deriveIsolationKey euid name) topic) = some d ∧
          d.hashedName = true)) ∧
    (∀ euid name topic euid' name' topic', topic ≠ [] → topic' ≠ [] →
      Readable (deriveIsolationKey euid name) topic →
      shmSegmentName (deriveIsolationKey euid name) topic =
        shmSegmentName (deriveIsolationKey euid' name') topic' →
      Readable (deriveIsolationKey euid' name') topic' ∧
        deriveIsolationKey euid name = deriveIsolationKey euid' name' ∧
        sanitizeShmNamePart topic = sanitizeShmNamePart topic') := by
  refine ⟨fun euid name topic h => ⟨parse_of_readable h, fun hr => ?_⟩, ?_⟩
  · exact ⟨_, parse_of_not_readable hr, rfl⟩
  · intro euid name topic euid' name' topic' h h' hr heq
    have hparse := parse_of_readable h hr
    rw [heq] at hparse
    by_cases hr' : Readable (deriveIsolationKey euid' name') topic'
    · rw [parse_of_readable h' hr', Option.some.injEq, DiscoveredSegment.mk.injEq] at hparse
      exact ⟨hr', hparse.2.1.symm, hparse.2.2.1.symm⟩
    · rw [parse_of_not_readable hr', Option.some.injEq, DiscoveredSegment.mk.injEq] at hparse
      exact absurd hparse.2.2.2 (by decide)

end Xmmsg.Shm
