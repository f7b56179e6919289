import Mathlib.Algebra.Group.Nat.Defs
import Xmmsg.InProc.Registry

/-!
# Segment names

The naming half of `shm_segment.hpp`: a topic of a domain lives in the segment
`/xmmsg.<key>.<topic>`, both parts put through a sanitizer, and a name past the bound
is replaced by a hash of itself. A string is its list of bytes here, one `Char` a
byte.

On topic names of the wire contract's grammar the sanitizer changes nothing, so two
topics of one domain share a segment only if a name is too long
(`shmSegmentName_inj`).
-/

namespace Xmmsg.Shm

def isLower (c : Char) : Bool := decide ('a' ≤ c) && decide (c ≤ 'z')

def isUpper (c : Char) : Bool := decide ('A' ≤ c) && decide (c ≤ 'Z')

def isDigit (c : Char) : Bool := decide ('0' ≤ c) && decide (c ≤ '9')

/-- `SanitizeShmNamePart`, one byte. -/
def sanitizeChar (c : Char) : Char :=
  if isLower c || isDigit c || c == '_' || c == '.' then c
  else if isUpper c then Char.ofNat (c.toNat - 'A'.toNat + 'a'.toNat)
  else '_'

def sanitizeShmNamePart (part : List Char) : List Char := part.map sanitizeChar

/-- `kFnv1aOffsetBasis`. -/
def kFnv1aOffsetBasis : UInt64 := 0xCBF29CE484222325

/-- `Fnv1a64`. -/
def fnv1a64 (bytes : List Char) : UInt64 :=
  bytes.foldl (fun hash c => (hash ^^^ UInt64.ofNat (c.toNat % 256)) * InProc.kFnv1aPrime)
    kFnv1aOffsetBasis

/-- `%016llx`. -/
def hex16 (n : UInt64) : List Char :=
  (List.range 16).map fun i => Nat.digitChar (n.toNat / 16 ^ (15 - i) % 16)

/-- `kNameBound`. -/
def kNameBound : Nat := 240

/-- What all segments of a domain begin with. -/
def domainPrefix (key : List Char) : List Char :=
  "/xmmsg.".toList ++ sanitizeShmNamePart key ++ ['.']

/-- The readable name, whatever its length. -/
def readableName (key topic : List Char) : List Char :=
  domainPrefix key ++ sanitizeShmNamePart topic

/-- `ShmSegmentName`. -/
def shmSegmentName (key topic : List Char) : List Char :=
  let name := readableName key topic
  if name.length > kNameBound then "/xmmsg.h".toList ++ hex16 (fnv1a64 name) else name

/-! ## Topic names -/

def isSegmentChar (c : Char) : Bool := isLower c || isDigit c || c == '_'

/-- The grammar `segment *( "." segment )`, read from left to right; `inside` says the
current segment has begun. -/
def topicFrom (inside : Bool) : List Char → Bool
  | [] => inside
  | c :: cs =>
      if c = '.' then inside && topicFrom false cs else isSegmentChar c && topicFrom true cs

def isTopicName (topic : List Char) : Bool := topicFrom false topic

theorem sanitizeChar_of_topic :
    ∀ {topic : List Char} {inside : Bool}, topicFrom inside topic = true →
      ∀ c ∈ topic, sanitizeChar c = c := by
  intro topic
  induction topic with
  | nil => exact fun _ c hc => (nomatch hc)
  | cons d ds ih =>
      intro inside h c hc
      rw [topicFrom] at h
      split at h
      · next hd =>
          rw [Bool.and_eq_true] at h
          rcases List.mem_cons.mp hc with rfl | hc'
          · rw [hd]
            decide
          · exact ih h.2 c hc'
      · rw [Bool.and_eq_true] at h
        rcases List.mem_cons.mp hc with rfl | hc'
        · have hseg : (isLower c || isDigit c || c == '_') = true := h.1
          simp only [sanitizeChar, hseg, Bool.true_or, if_true]
        · exact ih h.2 c hc'

theorem sanitize_topic {topic : List Char} (h : isTopicName topic = true) :
    sanitizeShmNamePart topic = topic := by
  rw [sanitizeShmNamePart]
  exact (List.map_congr_left (sanitizeChar_of_topic h)).trans (List.map_id topic)

theorem shmSegmentName_short {key topic : List Char}
    (h : (readableName key topic).length ≤ kNameBound) :
    shmSegmentName key topic = readableName key topic := by
  rw [shmSegmentName]
  exact if_neg (Nat.not_lt.mpr h)

/-- Two topics of one domain with short names have two segments. -/
theorem shmSegmentName_inj {key a b : List Char} (ha : isTopicName a = true)
    (hb : isTopicName b = true) (hla : (readableName key a).length ≤ kNameBound)
    (hlb : (readableName key b).length ≤ kNameBound)
    (h : shmSegmentName key a = shmSegmentName key b) : a = b := by
  rw [shmSegmentName_short hla, shmSegmentName_short hlb, readableName, readableName,
    sanitize_topic ha, sanitize_topic hb] at h
  exact List.append_cancel_left h

end Xmmsg.Shm
