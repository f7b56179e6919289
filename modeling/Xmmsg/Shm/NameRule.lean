import Mathlib.Data.List.Forall2
import Xmmsg.Shm.Discovery

/-!
# The name rule of the wire contract

Section 6.4 of the wire contract writes down how a participant that does not have
the library finds a segment: the readable name, unless it is longer than 240 bytes
without its leading slash, and else a hash of it. The code counts the slash. The two
name the same object except at one length (`name_rule_iff`).

Section 6.1 says which topics there are, and that others are refused. The code
refuses none; it sanitizes them. What the sanitizer does not tell apart is a relation
on bytes, `Alike`, and two topics have one readable name exactly if they are alike
byte by byte (`shmSegmentName_eq_iff`).
-/

namespace Xmmsg.Shm

/-! ## Over-long names -/

/-- The bound of the wire contract, for the name without its slash. -/
def kPublishedBound : Nat := 240

/-- The object name by section 6.4. -/
def publishedName (key topic : List Char) : List Char :=
  let name := readableName key topic
  if name.tail.length > kPublishedBound then "/xmmsg.h".toList ++ hex16 (fnv1a64 name) else name

/-- What the wire contract promises about the name of a topic. -/
def FollowsNameRule (key topic : List Char) : Prop :=
  (shmSegmentName key topic = readableName key topic ↔
    (readableName key topic).tail.length ≤ kPublishedBound) ∧
  (¬ (readableName key topic).tail.length ≤ kPublishedBound →
    ∃ digits : List Char, shmSegmentName key topic = "/xmmsg.h".toList ++ digits ∧
      digits.length = 16 ∧ digits.all isLowerHex = true) ∧
  shmSegmentName key topic = publishedName key topic

theorem readableName_length (key topic : List Char) :
    (readableName key topic).length = 8 + key.length + topic.length := by
  have hparts : ∀ b : List Char, b.length = 7 →
      (b ++ sanitizeShmNamePart key ++ ['.'] ++ sanitizeShmNamePart topic).length =
        8 + key.length + topic.length := by
    intro b hb
    simp only [sanitizeShmNamePart, List.length_append, List.length_map, hb, List.length_singleton]
    omega
  exact hparts _ (by decide)

theorem readableName_tail_length (key topic : List Char) :
    (readableName key topic).tail.length = 7 + key.length + topic.length := by
  rw [List.length_tail, readableName_length]
  omega

theorem hex16_digits (n : UInt64) : (hex16 n).length = 16 ∧ (hex16 n).all isLowerHex = true := by
  refine ⟨by simp [hex16], List.all_eq_true.mpr fun c hc => ?_⟩
  obtain ⟨i, -, rfl⟩ := List.mem_map.mp hc
  exact isLowerHex_digit _

/-- A hashed name is 24 bytes long. -/
theorem hashed_length (n : UInt64) : ("/xmmsg.h".toList ++ hex16 n).length = 24 := by
  rw [List.length_append, (hex16_digits n).1]
  decide

theorem shmSegmentName_long {key topic : List Char} (h : ¬ Readable key topic) :
    shmSegmentName key topic = "/xmmsg.h".toList ++ hex16 (fnv1a64 (readableName key topic)) := by
  rw [shmSegmentName]
  exact if_pos (Nat.lt_of_not_le h)

theorem shmSegmentName_eq_readable_iff (key topic : List Char) :
    shmSegmentName key topic = readableName key topic ↔ Readable key topic := by
  refine ⟨fun h => Classical.by_contradiction fun hlong => ?_, shmSegmentName_short⟩
  have hlen := congrArg List.length h
  rw [shmSegmentName_long hlong, hashed_length] at hlen
  rw [Readable, ← hlen] at hlong
  exact hlong (by decide)

/-- The name is the wire contract's unless key and topic together have exactly 233
bytes: then the readable name has 240 without its slash and 241 with it. -/
theorem name_rule_iff (key topic : List Char) :
    FollowsNameRule key topic ↔ key.length + topic.length ≠ 233 := by
  have htail := readableName_tail_length key topic
  have hread : Readable key topic ↔ 8 + key.length + topic.length ≤ 240 := by
    rw [Readable, readableName_length, kNameBound]
  rw [FollowsNameRule, shmSegmentName_eq_readable_iff, htail, kPublishedBound]
  constructor
  · intro h hlen
    have := hread.mp (h.1.mpr (by omega))
    omega
  · intro hlen
    refine ⟨⟨fun h => ?_, fun h => hread.mpr (by omega)⟩, fun hlong => ?_, ?_⟩
    · have := hread.mp h
      omega
    · have hno : ¬ Readable key topic := fun h => hlong (by have := hread.mp h; omega)
      exact ⟨_, shmSegmentName_long hno, (hex16_digits _).1, (hex16_digits _).2⟩
    · have hsame : (readableName key topic).length > kNameBound ↔
          (readableName key topic).tail.length > kPublishedBound := by
        rw [readableName_length, htail, kNameBound, kPublishedBound]
        omega
      simp only [shmSegmentName, publishedName, hsame]

/-- Key `u0.d` and a topic of 229 letters: the code hashes a name the wire contract
uses as it is. -/
theorem name_rule_broken : ¬ ∀ key topic, FollowsNameRule key topic := by
  intro h
  have hrule := (h "u0.d".toList (List.replicate 229 'a')).1.mpr (by
    rw [readableName_tail_length, List.length_replicate]
    decide)
  have hlong : ¬ Readable "u0.d".toList (List.replicate 229 'a') := by
    rw [Readable, readableName_length, List.length_replicate]
    decide
  exact hlong ((shmSegmentName_eq_readable_iff _ _).mp hrule)

/-! ## Bytes a name does not tell apart -/

/-- The lower case of a letter, any other byte as it is. -/
def foldCase (c : Char) : Char :=
  if isUpper c then Char.ofNat (c.toNat - 'A'.toNat + 'a'.toNat) else c

/-- A byte that is an underscore in a name, or becomes one. -/
def isBlank (c : Char) : Bool := !(isLower c || isUpper c || isDigit c || c == '.')

/-- The same letter in either case, or two bytes that a name has as underscores. -/
def Alike (c c' : Char) : Prop := foldCase c = foldCase c' ∨ (isBlank c = true ∧ isBlank c' = true)

instance (c c' : Char) : Decidable (Alike c c') := inferInstanceAs (Decidable (_ ∨ _))

theorem isBlank_foldCase (c : Char) : isBlank (foldCase c) = isBlank c := by
  rw [foldCase]
  split
  · next h =>
      have hlow := fold_isLower h
      simp only [isBlank, hlow, h, Bool.true_or, Bool.or_true]
  · rfl

theorem sanitizeChar_eq (c : Char) :
    sanitizeChar c = if isBlank c then '_' else foldCase c := by
  by_cases hu : isUpper c = true
  · have hkept : (isLower c || isDigit c || c == '_' || c == '.') = false := by
      have hrange : 'A' ≤ c ∧ c ≤ 'Z' := by
        simpa only [isUpper, Bool.and_eq_true, decide_eq_true_eq] using hu
      have hlow : isLower c = false := by
        rw [isLower, Bool.and_eq_false_iff]
        exact .inl (decide_eq_false fun h => absurd (Nat.le_trans h hrange.2) (by decide))
      have hdig : isDigit c = false := by
        rw [isDigit, Bool.and_eq_false_iff]
        exact .inr (decide_eq_false fun h => absurd (Nat.le_trans hrange.1 h) (by decide))
      have hother : c ≠ '_' ∧ c ≠ '.' := by
        refine ⟨fun h => ?_, fun h => ?_⟩ <;> subst h <;> revert hu <;> decide
      simp [hlow, hdig, hother.1, hother.2]
    have hblank : isBlank c = false := by
      simp only [isBlank, hu, Bool.or_true, Bool.true_or, Bool.not_true]
    rw [sanitizeChar, if_neg (by simp [hkept]), if_pos hu, hblank, foldCase, if_pos hu]
    rfl
  · rw [sanitizeChar, foldCase, if_neg hu, if_neg hu]
    by_cases hb : isBlank c = true
    · have hnone : (isLower c || isDigit c || c == '.') = false := by
        simp only [isBlank, Bool.not_eq_true', Bool.or_eq_false_iff] at hb ⊢
        exact ⟨⟨hb.1.1.1, hb.1.2⟩, hb.2⟩
      by_cases hc : c = '_'
      · subst hc
        rw [if_pos hb, if_pos (by decide)]
      · have hno : ¬ (isLower c || isDigit c || c == '_' || c == '.') = true := by
          simp only [Bool.or_eq_false_iff] at hnone
          simp [hnone.1.1, hnone.1.2, hnone.2, hc]
        rw [if_neg hno, if_pos hb]
    · have hkept : (isLower c || isDigit c || c == '_' || c == '.') = true := by
        simp only [isBlank, Bool.not_eq_true', Bool.not_eq_false] at hb
        simp only [hu, Bool.or_false] at hb
        rcases Bool.or_eq_true_iff.mp hb with h | h
        · simp [h]
        · simp [h]
      rw [if_pos hkept, if_neg hb]

theorem sanitizeChar_eq_iff (c c' : Char) : sanitizeChar c = sanitizeChar c' ↔ Alike c c' := by
  have hmixed : ∀ {a b : Char}, isBlank a = true → ¬ isBlank b = true → '_' ≠ foldCase b := by
    intro a b _ hb h
    rw [← isBlank_foldCase, ← h] at hb
    exact hb (by decide)
  rw [sanitizeChar_eq, sanitizeChar_eq, Alike]
  by_cases hb : isBlank c = true
  · by_cases hb' : isBlank c' = true
    · simp [hb, hb']
    · rw [if_pos hb, if_neg hb']
      refine iff_of_false (hmixed hb hb') ?_
      rintro (h | h)
      · rw [← isBlank_foldCase, ← h, isBlank_foldCase] at hb'
        exact hb' hb
      · exact hb' h.2
  · by_cases hb' : isBlank c' = true
    · rw [if_neg hb, if_pos hb']
      refine iff_of_false (Ne.symm (hmixed hb' hb)) ?_
      rintro (h | h)
      · rw [← isBlank_foldCase, h, isBlank_foldCase] at hb
        exact hb hb'
      · exact hb h.1
    · simp [hb, hb']

/-- Two topics with readable names share a segment exactly if they are alike byte by
byte. -/
theorem shmSegmentName_eq_iff {key t t' : List Char} (h : Readable key t) (h' : Readable key t') :
    shmSegmentName key t = shmSegmentName key t' ↔ List.Forall₂ Alike t t' := by
  rw [shmSegmentName_short h, shmSegmentName_short h', readableName, readableName,
    List.append_cancel_left_eq, sanitizeShmNamePart, sanitizeShmNamePart, ← List.forall₂_eq_eq_eq,
    List.forall₂_map_left_iff, List.forall₂_map_right_iff]
  simp only [sanitizeChar_eq_iff]

end Xmmsg.Shm
