import Xmmsg.Shm.Clean
import Xmmsg.Sys.Json

/-!
# What the tool prints for machines

`xmmsg list --json` and the object that `list` and `stat` print for one topic. The
document is put together by `printf`, from the names the tool found in a directory that
anybody can write to and from a snapshot whose numbers can be anything. The snapshot is
the record that `Snapshot.lean` fills.

The functions below print as the source does, call by call. Beside each stands the part
of `Sys/Json.lean` that it prints, and the lemma that says so; the objects with optional
members are lists of members, and `printTopicJson` and `cmdListJson` are assembled from
them. `report_well_formed` is then what the reader of `Sys/Json.lean` makes of the whole.

A character stands for a byte. The one floating-point number, the age of the last
publication, is any number literal.
-/

namespace Xmmsg.Report

open Xmmsg.Sys Xmmsg.Sys.Json Xmmsg.Shm

/-! ## Formatting -/

/-- A text `%.1f` can print. -/
def Literal : Type := { text : List Char // number text = some (text, []) }

/-- What `%s` prints of a `c_str()`: up to the first zero byte. -/
def cStr (text : List Char) : List Char := text.takeWhile fun c => c != '\x00'

/-- `%u`. -/
def u (n : UInt32) : List Char := decimal n.toNat

/-- `%llu`. -/
def llu (n : UInt64) : List Char := decimal n.toNat

def truth (b : Bool) : List Char := if b then "true".toList else "false".toList

/-- `HashHex`: `0x%016llX`. -/
def hashHex (hash : UInt64) : List Char := '0' :: 'x' :: (hex16 hash).map Char.toUpper

def qosString (snap : IntrospectSnapshot) : List Char :=
  if snap.creatorHistoryKind = 0 then "latest-only".toList
  else "queue<".toList ++ u snap.creatorQueueDepth ++ ">".toList

def statusString : IntrospectOpenStatus → List Char
  | .ok => "ok".toList
  | .foreign => "foreign".toList
  | .versionSkew => "version-skew".toList
  | .notReady => "not-ready".toList
  | .unavailable => "unavailable".toList

def stateString : MasterReadResult → List Char
  | .value => "value".toList
  | .empty => "empty".toList
  | .stalled => "stalled".toList

/-- `LastPublishAgeUs`; `age` is what the clock makes of a stamp. -/
def lastPublishAgeUs (age : Int64 → Literal) (snap : IntrospectSnapshot) : Option Literal :=
  match snap.master with
  | .value => some (age snap.lastPublishStampNs)
  | .empty | .stalled => none

/-- `%04x`. -/
def hex4 (n : Nat) : List Char :=
  (List.range 4).map fun i => Nat.digitChar (n / 16 ^ (3 - i) % 16)

def jsonEscapeChar (c : Char) : List Char :=
  if c = '"' ∨ c = '\\' then ['\\', c]
  else if c.toNat < 0x20 then '\\' :: 'u' :: hex4 c.toNat
  else [c]

def jsonEscape (text : List Char) : List Char := text.flatMap jsonEscapeChar

/-! ## Printing

`field` is the `"name":` of a format with what follows it, `quoted` a `%s` in quotes. -/

def printIdentity (s : IntrospectSnapshot) : List Char :=
  ',' :: field "layout_version".toList (u s.layoutVersion) ++
    ',' :: field "envelope_version".toList (u s.envelopeVersion) ++
    ',' :: field "schema_hash".toList (quoted (cStr (hashHex s.schemaHash))) ++
    ',' :: field "payload_size".toList (llu s.payloadSize) ++
    ',' :: field "payload_align".toList (llu s.payloadAlign) ++
    ',' :: field "qos".toList (quoted (cStr (qosString s)))

def printPublisher (s : IntrospectSnapshot) : List Char :=
  ',' :: field "publisher".toList
    ('{' :: field "pid".toList (decimal s.pubPid) ++
      ',' :: field "alive".toList (truth s.pubAlive) ++
      ',' :: field "epoch".toList (u s.pubEpoch) ++
      ',' :: field "publish_count".toList (llu s.pubPublishCount) ++
      ',' :: field "bytes".toList (llu s.pubBytes) ++ ['}']) ++
    ',' :: field "accepted_ordinal".toList (llu s.acceptedOrdinal)

def printLastPublish (age : Int64 → Literal) (s : IntrospectSnapshot) : List Char :=
  ',' :: field "last_publish".toList
    ('{' :: field "state".toList (quoted (stateString s.master)) ++
      (match lastPublishAgeUs age s with
        | some ageUs =>
            ',' :: field "age_us".toList ageUs.val ++
              ',' :: field "ordinal".toList (llu s.lastOrdinal)
        | none => []) ++
      ['}'])

def printRefusals (s : IntrospectSnapshot) : List Char :=
  ',' :: field "refusals".toList
    ('{' :: field "count".toList (llu s.refusalCount) ++
      (if s.refusalCount > 0 then
        ',' :: field "last_schema_hash".toList (quoted (cStr (hashHex s.refusedSchemaHash))) ++
          ',' :: field "last_payload_size".toList (llu s.refusedPayloadSize) ++
          ',' :: field "last_pid".toList (decimal s.refusedPid)
      else []) ++
      ['}'])

def historyString (kind : UInt32) : List Char :=
  if kind = 0 then "latest-only".toList else "queue".toList

def printSubscriber (sub : IntrospectSubSlot) : List Char :=
  '{' :: field "slot".toList (decimal sub.index) ++
    ',' :: field "pid".toList (decimal sub.pid) ++
    ',' :: field "alive".toList (truth sub.alive) ++
    ',' :: field "history".toList (quoted (historyString sub.historyKind)) ++
    ',' :: field "queue_depth".toList (u sub.queueDepth) ++
    ',' :: field "take_count".toList (llu sub.takeCount) ++
    ',' :: field "drop_count".toList (llu sub.dropCount) ++
    ',' :: field "overwrite_count".toList (llu sub.overwriteCount) ++
    ',' :: field "deadline_miss_count".toList (llu sub.deadlineMissCount) ++
    ',' :: field "last_consumed_ordinal".toList (llu sub.lastConsumedOrdinal) ++ ['}']

/-- The loop over the subscribers. -/
def printSubscribers (first : Bool) : List IntrospectSubSlot → List Char
  | [] => []
  | sub :: subs =>
      (if first then [] else [',']) ++ printSubscriber sub ++ printSubscribers false subs

def printTopicJson (age : Int64 → Literal) (view : TopicView) (indent : List Char) : List Char :=
  let s := view.snap
  indent ++ '{' :: field "topic".toList (quoted (cStr (jsonEscape view.seg.topic))) ++
    ',' :: field "segment".toList (quoted (cStr (jsonEscape view.seg.name))) ++
    ',' :: field "status".toList (quoted (statusString view.status)) ++
    if view.status ≠ .ok then ['}']
    else
      printIdentity s ++ printPublisher s ++ printLastPublish age s ++ printRefusals s ++
        ',' :: field "subscribers".toList ('[' :: printSubscribers true s.subscribers ++ [']']) ++
        ['}']

/-- The loop over the views, from the `i`-th. -/
def printViews (age : Nat → Int64 → Literal) : Nat → List TopicView → List Char
  | _, [] => []
  | i, view :: views =>
      (if i > 0 then [','] else []) ++ '\n' :: ' ' :: ' ' ::
        ('{' :: field "domain".toList (quoted (cStr (jsonEscape view.seg.isolationKey))) ++
          ',' :: field "info".toList (printTopicJson (age i) view []) ++ ['}']) ++
        printViews age (i + 1) views

/-- `CmdList` with `--json`, once the views are collected. -/
def cmdListJson (age : Nat → Int64 → Literal) (views : List TopicView) : List Char :=
  '{' :: field "topics".toList ('[' :: printViews age 0 views ++ ['\n', ']']) ++ ['}', '\n']

/-! ## Escaping -/

theorem hex4_control (n : Fin 32) :
    (hex4 n.val).all isPlain = true ∧ '\x00' ∉ hex4 n.val ∧
      ∃ a b c d, hex4 n.val = [a, b, c, d] ∧ codePoint a b c d = some [Char.ofNat n.val] := by
  have hcode : ∀ n : Fin 32, (hex4 n.val).all isPlain = true ∧ '\x00' ∉ hex4 n.val ∧
      codePoint (Nat.digitChar (n.val / 4096 % 16)) (Nat.digitChar (n.val / 256 % 16))
        (Nat.digitChar (n.val / 16 % 16)) (Nat.digitChar (n.val / 1 % 16)) =
        some [Char.ofNat n.val] := by decide
  obtain ⟨hplain, hzero, hcode⟩ := hcode n
  exact ⟨hplain, hzero, _, _, _, _, rfl, hcode⟩

/-- The three ways a character is written. -/
theorem jsonEscapeChar_cases (c : Char) :
    (jsonEscapeChar c = ['\\', c] ∧ (c = '"' ∨ c = '\\')) ∨
      (∃ n : Fin 32, c = Char.ofNat n.val ∧ jsonEscapeChar c = '\\' :: 'u' :: hex4 n.val) ∨
      jsonEscapeChar c = [c] ∧ isPlain c = true := by
  rw [jsonEscapeChar]
  by_cases hshort : c = '"' ∨ c = '\\'
  · exact .inl ⟨if_pos hshort, hshort⟩
  · rw [if_neg hshort]
    by_cases hlow : c.toNat < 0x20
    · exact .inr (.inl ⟨⟨c.toNat, hlow⟩, (Char.ofNat_toNat c).symm, if_pos hlow⟩)
    · rw [not_or] at hshort
      exact .inr (.inr ⟨if_neg hlow, isPlain_iff.mpr ⟨hshort.1, hshort.2, Nat.not_lt.mp hlow⟩⟩)

theorem unescape_jsonEscapeChar (c : Char) (rest : List Char) :
    unescape (jsonEscapeChar c ++ rest) = (unescape rest).map fun text => c :: text := by
  rcases jsonEscapeChar_cases c with ⟨h, hc⟩ | ⟨n, rfl, h⟩ | ⟨h, hc⟩
  · rw [h]
    exact unescape_short hc rest
  · obtain ⟨-, -, w, x, y, z, hhex, hcode⟩ := hex4_control n
    rw [h, hhex]
    simp only [List.cons_append, List.nil_append]
    rw [unescape, hcode]
    rfl
  · rw [h]
    exact unescape_char (isPlain_iff.mp hc).2.1 rest

theorem unescape_jsonEscape (text : List Char) : unescape (jsonEscape text) = some text := by
  induction text with
  | nil => rfl
  | cons c text ih =>
      rw [jsonEscape, List.flatMap_cons, unescape_jsonEscapeChar, ← jsonEscape, ih]
      rfl

theorem isRaw_jsonEscape (text : List Char) : isRaw (jsonEscape text) = true := by
  induction text with
  | nil => rfl
  | cons c text ih =>
      rw [jsonEscape, List.flatMap_cons, ← jsonEscape]
      rcases jsonEscapeChar_cases c with ⟨h, -⟩ | ⟨n, -, h⟩ | ⟨h, hc⟩
      · rw [h, isRaw.eq_def]
        exact ih
      · rw [h, isRaw.eq_def]
        exact (isRaw_append_plain (hex4_control n).1 _).trans ih
      · rw [h]
        exact (isRaw_plain hc _).trans ih

theorem zero_not_mem_jsonEscape (text : List Char) : '\x00' ∉ jsonEscape text := by
  intro h
  obtain ⟨c, -, hc⟩ := List.mem_flatMap.mp h
  rcases jsonEscapeChar_cases c with ⟨hcase, hshort⟩ | ⟨n, -, hcase⟩ | ⟨hcase, hplain⟩
  · rw [hcase] at hc
    rcases hshort with rfl | rfl <;> simp at hc
  · rw [hcase] at hc
    simp only [List.mem_cons] at hc
    rcases hc with hc | hc | hc
    · cases hc
    · cases hc
    · exact (hex4_control n).2.1 hc
  · rw [hcase, List.mem_singleton] at hc
    subst hc
    exact absurd hplain (by decide)

theorem cStr_of_not_mem {text : List Char} (h : '\x00' ∉ text) : cStr text = text := by
  rw [cStr, List.takeWhile_eq_self_iff]
  intro c hc
  rw [bne_iff_ne]
  rintro rfl
  exact h hc

theorem cStr_of_plain {text : List Char} (h : text.all isPlain = true) : cStr text = text := by
  refine cStr_of_not_mem fun h0 => ?_
  exact absurd (List.all_eq_true.mp h _ h0) (by decide)

/-! ## The texts without escapes -/

theorem plain_decimal (n : Nat) : (decimal n).all isPlain = true := by
  rw [List.all_eq_true]
  intro c hc
  have hd := isDigit_of_mem_decimal hc
  refine isPlain_iff.mpr ⟨?_, ?_, ?_⟩
  · rintro rfl
    cases hd
  · rintro rfl
    cases hd
  · simp only [Char.isDigit, Bool.and_eq_true, decide_eq_true_eq, ge_iff_le,
      UInt32.le_iff_toNat_le] at hd
    exact Nat.le_trans (by decide) hd.1

theorem plain_hashHex (hash : UInt64) : (hashHex hash).all isPlain = true := by
  have hdigit : ∀ n : Fin 16, isPlain (Nat.digitChar n.val).toUpper = true := by decide
  rw [hashHex, List.all_cons, List.all_cons, List.all_map, hex16, List.all_map,
    List.all_eq_true.mpr]
  · rfl
  · intro i _
    exact hdigit ⟨_, Nat.mod_lt _ (by decide)⟩

theorem plain_qosString (s : IntrospectSnapshot) : (qosString s).all isPlain = true := by
  rw [qosString]
  split
  · rfl
  · rw [List.all_append, List.all_append, u, plain_decimal]
    rfl

theorem plain_statusString (st : IntrospectOpenStatus) : (statusString st).all isPlain = true := by
  cases st <;> exact plain_literal rfl

theorem plain_stateString (m : MasterReadResult) : (stateString m).all isPlain = true := by
  cases m <;> exact plain_literal rfl

/-! ## What is printed -/

/-- A string that needs no escapes. -/
def plain (text : List Char) (h : text.all isPlain = true) : Part := .str text (isRaw_of_plain h)

def escaped (text : List Char) : Part := .str (jsonEscape text) (isRaw_jsonEscape text)

def identityMembers (s : IntrospectSnapshot) : List Member :=
  [⟨"layout_version".toList, .num s.layoutVersion.toNat, plain_literal rfl⟩,
    ⟨"envelope_version".toList, .num s.envelopeVersion.toNat, plain_literal rfl⟩,
    ⟨"schema_hash".toList, plain (hashHex s.schemaHash) (plain_hashHex _), plain_literal rfl⟩,
    ⟨"payload_size".toList, .num s.payloadSize.toNat, plain_literal rfl⟩,
    ⟨"payload_align".toList, .num s.payloadAlign.toNat, plain_literal rfl⟩,
    ⟨"qos".toList, plain (qosString s) (plain_qosString s), plain_literal rfl⟩]

theorem printIdentity_eq (s : IntrospectSnapshot) :
    printIdentity s = moreText (identityMembers s) := by
  rw [printIdentity, cStr_of_plain (plain_hashHex _), cStr_of_plain (plain_qosString s)]
  simp only [moreText, identityMembers, List.flatMap_cons, List.flatMap_nil, List.append_nil,
    List.append_assoc]
  rfl

def publisherPart (s : IntrospectSnapshot) : Part :=
  .obj ⟨"pid".toList, .num s.pubPid, plain_literal rfl⟩
    [⟨"alive".toList, .bool s.pubAlive, plain_literal rfl⟩,
      ⟨"epoch".toList, .num s.pubEpoch.toNat, plain_literal rfl⟩,
      ⟨"publish_count".toList, .num s.pubPublishCount.toNat, plain_literal rfl⟩,
      ⟨"bytes".toList, .num s.pubBytes.toNat, plain_literal rfl⟩]

def publisherMembers (s : IntrospectSnapshot) : List Member :=
  [⟨"publisher".toList, publisherPart s, plain_literal rfl⟩,
    ⟨"accepted_ordinal".toList, .num s.acceptedOrdinal.toNat, plain_literal rfl⟩]

theorem printPublisher_eq (s : IntrospectSnapshot) :
    printPublisher s = moreText (publisherMembers s) := by
  simp only [printPublisher, moreText, publisherMembers, publisherPart, Part.obj, membersText,
    List.flatMap_cons, List.flatMap_nil, List.append_nil, List.append_assoc, List.cons_append]
  rfl

def ageMembers (age : Int64 → Literal) (s : IntrospectSnapshot) : List Member :=
  match lastPublishAgeUs age s with
  | some ageUs =>
      [⟨"age_us".toList, .numeral ageUs.val ageUs.property, plain_literal rfl⟩,
        ⟨"ordinal".toList, .num s.lastOrdinal.toNat, plain_literal rfl⟩]
  | none => []

def lastPublishPart (age : Int64 → Literal) (s : IntrospectSnapshot) : Part :=
  .obj ⟨"state".toList, plain (stateString s.master) (plain_stateString _), plain_literal rfl⟩
    (ageMembers age s)

theorem printLastPublish_eq (age : Int64 → Literal) (s : IntrospectSnapshot) :
    printLastPublish age s =
      moreText [⟨"last_publish".toList, lastPublishPart age s, plain_literal rfl⟩] := by
  rw [printLastPublish, lastPublishPart, ageMembers]
  cases lastPublishAgeUs age s <;>
    simp only [moreText, Part.obj, membersText, List.flatMap_cons, List.flatMap_nil,
      List.append_nil, List.nil_append, List.append_assoc, List.cons_append] <;> rfl

def refusedMembers (s : IntrospectSnapshot) : List Member :=
  if s.refusalCount > 0 then
    [⟨"last_schema_hash".toList, plain (hashHex s.refusedSchemaHash) (plain_hashHex _),
        plain_literal rfl⟩,
      ⟨"last_payload_size".toList, .num s.refusedPayloadSize.toNat, plain_literal rfl⟩,
      ⟨"last_pid".toList, .num s.refusedPid, plain_literal rfl⟩]
  else []

def refusalsPart (s : IntrospectSnapshot) : Part :=
  .obj ⟨"count".toList, .num s.refusalCount.toNat, plain_literal rfl⟩ (refusedMembers s)

theorem printRefusals_eq (s : IntrospectSnapshot) :
    printRefusals s = moreText [⟨"refusals".toList, refusalsPart s, plain_literal rfl⟩] := by
  rw [printRefusals, refusalsPart, refusedMembers, cStr_of_plain (plain_hashHex _)]
  by_cases h : s.refusalCount > 0
  · simp only [if_pos h, moreText, Part.obj, membersText, List.flatMap_cons, List.flatMap_nil,
      List.append_nil, List.append_assoc, List.cons_append]
    rfl
  · simp only [if_neg h, moreText, Part.obj, membersText, List.flatMap_cons, List.flatMap_nil,
      List.append_nil, List.append_assoc, List.cons_append]
    rfl

theorem plain_historyString (kind : UInt32) : (historyString kind).all isPlain = true := by
  rw [historyString]
  split <;> exact plain_literal rfl

def subscriberPart (sub : IntrospectSubSlot) : Part :=
  .obj ⟨"slot".toList, .num sub.index, plain_literal rfl⟩
    [⟨"pid".toList, .num sub.pid, plain_literal rfl⟩,
      ⟨"alive".toList, .bool sub.alive, plain_literal rfl⟩,
      ⟨"history".toList, plain (historyString sub.historyKind) (plain_historyString _),
        plain_literal rfl⟩,
      ⟨"queue_depth".toList, .num sub.queueDepth.toNat, plain_literal rfl⟩,
      ⟨"take_count".toList, .num sub.takeCount.toNat, plain_literal rfl⟩,
      ⟨"drop_count".toList, .num sub.dropCount.toNat, plain_literal rfl⟩,
      ⟨"overwrite_count".toList, .num sub.overwriteCount.toNat, plain_literal rfl⟩,
      ⟨"deadline_miss_count".toList, .num sub.deadlineMissCount.toNat, plain_literal rfl⟩,
      ⟨"last_consumed_ordinal".toList, .num sub.lastConsumedOrdinal.toNat, plain_literal rfl⟩]

theorem printSubscriber_eq (sub : IntrospectSubSlot) :
    printSubscriber sub = (subscriberPart sub).text := by
  simp only [printSubscriber, subscriberPart, Part.obj, membersText, moreText, List.flatMap_cons,
    List.flatMap_nil, List.append_nil, List.append_assoc, List.cons_append]
  rfl

/-- After the first, each subscriber comes with its comma. -/
theorem printSubscribers_false (subs : List IntrospectSubSlot) :
    printSubscribers false subs = (subs.map subscriberPart).flatMap fun p => ',' :: p.text := by
  induction subs with
  | nil => rfl
  | cons sub subs ih =>
      rw [printSubscribers, ih, printSubscriber_eq, List.map_cons, List.flatMap_cons]
      rfl

def subscribersPart (subs : List IntrospectSubSlot) : Part :=
  .arr [] rfl (subs.map subscriberPart)

theorem printSubscribers_eq (subs : List IntrospectSubSlot) :
    '[' :: printSubscribers true subs ++ [']'] = (subscribersPart subs).text := by
  cases subs with
  | nil => rfl
  | cons sub subs =>
      rw [printSubscribers, printSubscribers_false, printSubscriber_eq, List.cons_append,
        List.append_assoc]
      rfl

/-! ## One topic -/

/-- What a view that was validated has more. -/
def snapshotMembers (age : Int64 → Literal) (view : TopicView) : List Member :=
  if view.status ≠ .ok then []
  else
    identityMembers view.snap ++ publisherMembers view.snap ++
      [⟨"last_publish".toList, lastPublishPart age view.snap, plain_literal rfl⟩] ++
      [⟨"refusals".toList, refusalsPart view.snap, plain_literal rfl⟩] ++
      [⟨"subscribers".toList, subscribersPart view.snap.subscribers, plain_literal rfl⟩]

def topicPart (age : Int64 → Literal) (view : TopicView) : Part :=
  .obj ⟨"topic".toList, escaped view.seg.topic, plain_literal rfl⟩
    (⟨"segment".toList, escaped view.seg.name, plain_literal rfl⟩ ::
      ⟨"status".toList, plain (statusString view.status) (plain_statusString _),
        plain_literal rfl⟩ :: snapshotMembers age view)

theorem cStr_jsonEscape (text : List Char) : cStr (jsonEscape text) = jsonEscape text :=
  cStr_of_not_mem (zero_not_mem_jsonEscape text)

theorem printTopicJson_eq (age : Int64 → Literal) (view : TopicView) (indent : List Char) :
    printTopicJson age view indent = indent ++ (topicPart age view).text := by
  have hmore : (if view.status ≠ .ok then ['}']
      else printIdentity view.snap ++ printPublisher view.snap ++ printLastPublish age view.snap ++
        printRefusals view.snap ++ ',' :: field "subscribers".toList
          ('[' :: printSubscribers true view.snap.subscribers ++ [']']) ++ ['}'])
      = moreText (snapshotMembers age view) ++ ['}'] := by
    rw [snapshotMembers]
    split
    · rfl
    · rw [printIdentity_eq, printPublisher_eq, printLastPublish_eq, printRefusals_eq,
        printSubscribers_eq]
      simp only [moreText_append, moreText_singleton, List.append_assoc]
  simp only [printTopicJson, hmore, cStr_jsonEscape]
  simp only [topicPart, Part.obj, membersText, moreText, List.flatMap_cons, List.append_assoc,
    List.cons_append]
  rfl

/-! ## The list -/

def entryPart (age : Int64 → Literal) (view : TopicView) : Part :=
  .obj ⟨"domain".toList, escaped view.seg.isolationKey, plain_literal rfl⟩
    [⟨"info".toList, topicPart age view, plain_literal rfl⟩]

/-- The entries from the `i`-th, each on a line of its own. -/
def entryParts (age : Nat → Int64 → Literal) : Nat → List TopicView → List Part
  | _, [] => []
  | i, view :: views =>
      .after ['\n', ' ', ' '] rfl (entryPart (age i) view) :: entryParts age (i + 1) views

theorem printEntry_eq (age : Int64 → Literal) (view : TopicView) :
    '{' :: field "domain".toList (quoted (cStr (jsonEscape view.seg.isolationKey))) ++
      ',' :: field "info".toList (printTopicJson age view []) ++ ['}']
      = (entryPart age view).text := by
  rw [cStr_jsonEscape, printTopicJson_eq, List.nil_append]
  simp only [entryPart, Part.obj, membersText, moreText_singleton, List.append_assoc,
    List.cons_append]
  rfl

theorem printViews_succ (age : Nat → Int64 → Literal) (i : Nat) (views : List TopicView) :
    printViews age (i + 1) views =
      (entryParts age (i + 1) views).flatMap fun p => ',' :: p.text := by
  induction views generalizing i with
  | nil => rfl
  | cons view views ih =>
      rw [printViews, printEntry_eq, ih (i + 1), entryParts, List.flatMap_cons, if_pos (by omega)]
      rfl

def listPart (age : Nat → Int64 → Literal) (views : List TopicView) : Part :=
  .obj ⟨"topics".toList, .arr ['\n'] rfl (entryParts age 0 views), plain_literal rfl⟩ []

theorem cmdListJson_eq (age : Nat → Int64 → Literal) (views : List TopicView) :
    cmdListJson age views = (listPart age views).text ++ ['\n'] := by
  have hitems : '[' :: printViews age 0 views ++ ['\n', ']']
      = (Part.arr ['\n'] rfl (entryParts age 0 views)).text := by
    cases views with
    | nil => rfl
    | cons view views =>
        rw [printViews, printEntry_eq, printViews_succ, List.cons_append, List.append_assoc]
        rfl
  rw [cmdListJson, hitems]
  simp only [listPart, Part.obj, membersText, List.append_assoc, List.cons_append]
  rfl

/-! ## What a reader gets -/

/-- The names of a view, decoded. -/
structure Names (view : TopicView) (info : Tree) : Prop where
  topic : info.text "topic".toList = some view.seg.topic
  segment : info.text "segment".toList = some view.seg.name

theorem names_topicPart (age : Int64 → Literal) (view : TopicView) :
    Names view (topicPart age view).tree where
  topic := (Tree.text_of_member (Tree.member_head _ _ _)).trans (unescape_jsonEscape _)
  segment := by
    have hne : ("segment".toList == "topic".toList) = false := by decide
    have hmember : (topicPart age view).tree.member "segment".toList =
        some (.str (jsonEscape view.seg.name)) :=
      (Tree.member_tail hne (escaped view.seg.topic).tree _).trans (Tree.member_head _ _ _)
    exact (Tree.text_of_member hmember).trans (unescape_jsonEscape _)

/-- An entry of the list has the domain and the names of its view. -/
def Entry (view : TopicView) (entry : Tree) : Prop :=
  entry.text "domain".toList = some view.seg.isolationKey ∧
    ∃ info, entry.member "info".toList = some info ∧ Names view info

theorem entry_entryPart (age : Int64 → Literal) (view : TopicView) :
    Entry view (entryPart age view).tree := by
  have hne : ("info".toList == "domain".toList) = false := by decide
  refine ⟨(Tree.text_of_member (Tree.member_head _ _ _)).trans (unescape_jsonEscape _),
    (topicPart age view).tree, ?_, names_topicPart age view⟩
  exact (Tree.member_tail hne (escaped view.seg.isolationKey).tree _).trans
    (Tree.member_head _ _ _)

theorem entries_entryParts (age : Nat → Int64 → Literal) (i : Nat) (views : List TopicView) :
    List.Forall₂ Entry views ((entryParts age i views).map Part.tree) := by
  induction views generalizing i with
  | nil => exact .nil
  | cons view views ih => exact .cons (entry_entryPart (age i) view) (ih (i + 1))

/-- The list is one value: an object with one entry for each view, which decodes to the
names of the view. So is the object of one topic, and unescaping undoes `JsonEscape`. -/
theorem report_well_formed :
    (∀ (age : Nat → Int64 → Literal) (views : List TopicView), ∃ entries,
      parse (cmdListJson age views) = some (.obj [("topics".toList, .arr entries)]) ∧
        List.Forall₂ Entry views entries) ∧
    (∀ (age : Int64 → Literal) (view : TopicView) (indent : List Char),
      indent.all isWs = true →
        ∃ info, parse (printTopicJson age view indent) = some info ∧ Names view info) ∧
    ∀ text, unescape (jsonEscape text) = some text := by
  refine ⟨fun age views => ?_, fun age view indent hindent => ?_, unescape_jsonEscape⟩
  · refine ⟨_, ?_, entries_entryParts age 0 views⟩
    rw [cmdListJson_eq, parse_of_reads (listPart age views).reads rfl]
    exact congrArg (fun v => some (Tree.obj [("topics".toList, v)])) (Part.arr_tree _ rfl _)
  · refine ⟨_, ?_, names_topicPart age view⟩
    have hparse : parse (indent ++ (topicPart age view).text ++ []) = _ :=
      parse_of_reads (reads_ws hindent (topicPart age view).reads) rfl
    rw [printTopicJson_eq]
    rwa [List.append_nil] at hparse

/-- A topic with a quote, a backslash, a zero byte and a newline in its name. -/
def oddView : TopicView where
  seg := { name := "/xmmsg.u0.d.x".toList, isolationKey := "u0.d".toList
           topic := ['"', '\\', '\x00', '\n'] }
  status := .ok
  snap := { master := .value, subscribers := [{}, { index := 1 }] }

theorem report_well_formed_odd :
    (∃ entries, parse (cmdListJson (fun _ _ => ⟨['0', '.', '5'], rfl⟩) [oddView, oddView]) =
        some (.obj [("topics".toList, .arr entries)]) ∧
          List.Forall₂ Entry [oddView, oddView] entries) ∧
      ∃ info, parse (printTopicJson (fun _ => ⟨['0', '.', '5'], rfl⟩) oddView [' ', '\t']) =
        some info ∧ Names oddView info :=
  ⟨report_well_formed.1 _ _, report_well_formed.2.1 _ _ _ rfl⟩

end Xmmsg.Report
