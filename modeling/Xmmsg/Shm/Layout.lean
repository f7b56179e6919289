import Xmmsg.Shm.Observer
import Xmmsg.Shm.Rendezvous
import Xmmsg.Sys.Align

/-!
# The carve of a segment

The layout functions of `ShmTopicAttachment<T>` in `posix_shm.hpp`: the header, one
latest slot that every late subscriber starts from, and sixteen subscriber regions
of a latest slot and a ring each. Every process computes the offsets for itself, and
nothing checks them at run time.

The functions compute in `std::size_t`, which wraps. `Carve` is the same
arithmetic without a width, as section 6.4 of the wire contract writes it down; where
the last offset fits into 64 bits the two agree (`offsets_exact`), and the regions lie
end to end, so they are apart, aligned and inside the segment (`regions_disjoint`).

What remains is where the sizes come from. The code takes the size of a record from
the compiler, the wire contract from the payload size alone. A compiler puts the
payload at a multiple of its alignment, and behind 56 bytes that is a matter of
padding as soon as the alignment is above eight (`layout_matches_iff`).
-/

namespace Xmmsg.Shm

open Xmmsg.Sys

/-! ## The layout functions -/

/-- What the containers of the base library say about one record type:
`Slot::StorageBytes()`, `Ring::ControlBytes()` and `Ring::RecordBytes()`. -/
structure CellSizes where
  storageBytes : Nat
  controlBytes : Nat
  recordBytes : Nat
  deriving DecidableEq, Repr

/-- A result of `std::size_t` arithmetic. -/
def sizeT (n : Nat) : Nat := n % 2 ^ 64

def align64 (v : Nat) : Nat := sizeT (v + 63) / 64 * 64

def masterOffset : Nat := align64 kHeaderBytes

section Layout

variable (p : CellSizes)

def latestRegionBytes : Nat := align64 p.storageBytes

def ringRegionBytes : Nat :=
  align64 (sizeT (align64 p.controlBytes + sizeT (kShmRingCapacity * p.recordBytes)))

def subRegionStride : Nat := sizeT (latestRegionBytes p + ringRegionBytes p)

def subRegionOffset (index : Nat) : Nat :=
  sizeT (sizeT (masterOffset + latestRegionBytes p) + sizeT (index * subRegionStride p))

def totalBytes : Nat := subRegionOffset p kShmMaxSubscribers

/-- `SubLatestBase` and `SubRingBase`, as offsets into the mapping. -/
def subLatestBase (index : Nat) : Nat := subRegionOffset p index

def subRingBase (index : Nat) : Nat := sizeT (subRegionOffset p index + latestRegionBytes p)

end Layout

/-! ## The carve without a width -/

/-- The lengths of a slot region and of a ring region. -/
structure Carve where
  slotRegion : Nat
  ringRegion : Nat
  deriving DecidableEq, Repr

namespace Carve

/-- `align64(header)`. -/
def master : Nat := roundUp 64 kHeaderBytes

def sub (c : Carve) (i : Nat) : Nat :=
  master + c.slotRegion + i * (c.slotRegion + c.ringRegion)

def ring (c : Carve) (i : Nat) : Nat := c.sub i + c.slotRegion

def total (c : Carve) : Nat := c.sub kShmMaxSubscribers

/-- The lengths in the order of the segment: the header with its padding, the master
slot, and slot and ring by turns. -/
def length (c : Carve) : Nat → Nat
  | 0 => master
  | 1 => c.slotRegion
  | k + 2 => if k % 2 = 0 then c.slotRegion else c.ringRegion

theorem sub_eq (c : Carve) (i : Nat) : c.sub i = partStart c.length (2 + 2 * i) := by
  induction i with
  | zero =>
      rw [sub, Nat.zero_mul, Nat.add_zero, partStart_succ, partStart_succ, partStart_zero,
        Nat.zero_add]
      rfl
  | succ i ih =>
      have hslot : c.length (2 + 2 * i) = c.slotRegion := by
        rw [Nat.add_comm, length, if_pos (by omega)]
      have hring : c.length (2 + 2 * i + 1) = c.ringRegion := by
        rw [show 2 + 2 * i + 1 = 2 * i + 1 + 2 by omega, length, if_neg (by omega)]
      rw [show 2 + 2 * (i + 1) = 2 + 2 * i + 1 + 1 by omega, partStart_succ, partStart_succ, ← ih,
        hslot, hring, sub, sub, Nat.succ_mul]
      omega

end Carve

/-- The lengths the code means. -/
def carve (p : CellSizes) : Carve where
  slotRegion := roundUp 64 p.storageBytes
  ringRegion := roundUp 64 (roundUp 64 p.controlBytes + kShmRingCapacity * p.recordBytes)

theorem sizeT_eq {n : Nat} (h : n < 2 ^ 64) : sizeT n = n := Nat.mod_eq_of_lt h

theorem sizeT_lt (n : Nat) : sizeT n < 2 ^ 64 := Nat.mod_lt _ (by decide)

theorem align64_eq {v : Nat} (h : roundUp 64 v < 2 ^ 64) : align64 v = roundUp 64 v := by
  have hfit : v + 63 < 2 ^ 64 := by
    rw [roundUp] at h
    omega
  rw [align64, sizeT_eq hfit, roundUp]

theorem masterOffset_eq : masterOffset = Carve.master := by decide

/-- What fits when the total does. -/
theorem carve_fits {p : CellSizes} (h : (carve p).total < 2 ^ 64) :
    Carve.master + (carve p).slotRegion < 2 ^ 64 ∧
    (carve p).slotRegion + (carve p).ringRegion < 2 ^ 64 ∧
    roundUp 64 p.controlBytes + kShmRingCapacity * p.recordBytes < 2 ^ 64 := by
  have hring := le_roundUp (a := 64) (by decide)
    (roundUp 64 p.controlBytes + kShmRingCapacity * p.recordBytes)
  have hregion : (carve p).ringRegion =
      roundUp 64 (roundUp 64 p.controlBytes + kShmRingCapacity * p.recordBytes) := rfl
  rw [Carve.total, Carve.sub, kShmMaxSubscribers] at h
  exact ⟨by omega, by omega, by omega⟩

theorem regions_exact {p : CellSizes} (h : (carve p).total < 2 ^ 64) :
    latestRegionBytes p = (carve p).slotRegion ∧ ringRegionBytes p = (carve p).ringRegion := by
  obtain ⟨hslot, hstride, hcells⟩ := carve_fits h
  have hlatest : align64 p.storageBytes = roundUp 64 p.storageBytes :=
    align64_eq (show (carve p).slotRegion < 2 ^ 64 by omega)
  have hcontrol : align64 p.controlBytes = roundUp 64 p.controlBytes := align64_eq (by omega)
  have hring : roundUp 64 (roundUp 64 p.controlBytes + kShmRingCapacity * p.recordBytes) <
      2 ^ 64 := show (carve p).ringRegion < 2 ^ 64 by omega
  refine ⟨hlatest, ?_⟩
  rw [ringRegionBytes, hcontrol, sizeT_eq (n := kShmRingCapacity * p.recordBytes) (by omega),
    sizeT_eq hcells, align64_eq hring]
  rfl

/-- Where the total fits, no offset wraps. -/
theorem offsets_exact {p : CellSizes} (h : (carve p).total < 2 ^ 64) {i : Nat}
    (hi : i ≤ kShmMaxSubscribers) : subRegionOffset p i = (carve p).sub i := by
  obtain ⟨hlatest, hring⟩ := regions_exact h
  obtain ⟨hslot, hstride, -⟩ := carve_fits h
  have hle : i * ((carve p).slotRegion + (carve p).ringRegion) ≤
      kShmMaxSubscribers * ((carve p).slotRegion + (carve p).ringRegion) :=
    Nat.mul_le_mul_right _ hi
  rw [Carve.total, Carve.sub] at h
  rw [subRegionOffset, subRegionStride, hlatest, hring, masterOffset_eq, sizeT_eq hslot,
    sizeT_eq hstride,
    sizeT_eq (n := i * ((carve p).slotRegion + (carve p).ringRegion)) (by omega),
    sizeT_eq (by omega), Carve.sub]

theorem total_exact {p : CellSizes} (h : (carve p).total < 2 ^ 64) :
    totalBytes p = (carve p).total := offsets_exact h (Nat.le_refl _)

theorem ring_exact {p : CellSizes} (h : (carve p).total < 2 ^ 64) {i : Nat}
    (hi : i < kShmMaxSubscribers) : subRingBase p i = (carve p).ring i := by
  have hsub := offsets_exact h (Nat.le_of_lt hi)
  have hnext : (carve p).sub i + (carve p).slotRegion ≤ (carve p).total := by
    have hle : (i + 1) * ((carve p).slotRegion + (carve p).ringRegion) ≤
        kShmMaxSubscribers * ((carve p).slotRegion + (carve p).ringRegion) :=
      Nat.mul_le_mul_right _ hi
    rw [Nat.succ_mul] at hle
    rw [Carve.total, Carve.sub, Carve.sub]
    omega
  rw [subRingBase, hsub, (regions_exact h).1, sizeT_eq (Nat.lt_of_le_of_lt hnext h), Carve.ring]

/-! ## The regions -/

/-- What a segment is carved into. -/
inductive LayoutRegion where
  | header
  | master
  | latest (i : Fin kShmMaxSubscribers)
  | ring (i : Fin kShmMaxSubscribers)
  deriving DecidableEq, Repr

namespace LayoutRegion

/-- Where the code puts the region, an offset into the mapping. -/
def offset (p : CellSizes) : LayoutRegion → Nat
  | header => 0
  | master => masterOffset
  | latest i => subLatestBase p i
  | ring i => subRingBase p i

/-- How many bytes of it the code uses. -/
def bytes (p : CellSizes) : LayoutRegion → Nat
  | header => kHeaderBytes
  | master => latestRegionBytes p
  | latest _ => latestRegionBytes p
  | ring _ => ringRegionBytes p

/-- Its number in the order of the segment. -/
def rank : LayoutRegion → Nat
  | header => 0
  | master => 1
  | latest i => 2 + 2 * i
  | ring i => 2 + 2 * i + 1

theorem rank_inj {r r' : LayoutRegion} (h : r.rank = r'.rank) : r = r' := by
  cases r <;> cases r' <;> simp only [rank] at h <;>
    first
    | rfl
    | omega
    | exact congrArg _ (Fin.ext (by omega))

theorem rank_lt (r : LayoutRegion) : r.rank < 2 + 2 * kShmMaxSubscribers := by
  cases r <;> simp only [rank] <;> omega

variable {p : CellSizes} (h : (carve p).total < 2 ^ 64)
include h

theorem offset_eq (r : LayoutRegion) : r.offset p = partStart (carve p).length r.rank := by
  cases r with
  | header => exact (partStart_zero _).symm
  | master =>
      rw [rank, partStart_succ, partStart_zero, Nat.zero_add]
      exact masterOffset_eq
  | latest i => exact (offsets_exact h (Nat.le_of_lt i.isLt)).trans (Carve.sub_eq _ _)
  | ring i =>
      have hslot : (carve p).length (2 + 2 * i) = (carve p).slotRegion := by
        rw [Nat.add_comm, Carve.length, if_pos (by omega)]
      rw [rank, partStart_succ, ← Carve.sub_eq, hslot]
      exact ring_exact h i.isLt

theorem bytes_le (r : LayoutRegion) : r.bytes p ≤ (carve p).length r.rank := by
  obtain ⟨hlatest, hring⟩ := regions_exact h
  cases r with
  | header => exact (show kHeaderBytes ≤ Carve.master by decide)
  | master => exact Nat.le_of_eq hlatest
  | latest i =>
      rw [rank, Nat.add_comm, Carve.length, if_pos (by omega)]
      exact Nat.le_of_eq hlatest
  | ring i =>
      rw [rank, show 2 + 2 * (i : Nat) + 1 = 2 * (i : Nat) + 1 + 2 by omega, Carve.length,
        if_neg (by omega)]
      exact Nat.le_of_eq hring

end LayoutRegion

theorem carve_dvd (p : CellSizes) (k : Nat) : 64 ∣ (carve p).length k := by
  have hslot : 64 ∣ (carve p).slotRegion := dvd_roundUp _ _
  have hring : 64 ∣ (carve p).ringRegion := dvd_roundUp _ _
  match k with
  | 0 => exact dvd_roundUp _ _
  | 1 => exact hslot
  | k + 2 =>
      rw [Carve.length]
      split
      · exact hslot
      · exact hring

/-- No two regions of a segment share a byte, all of them start at a multiple of 64
and end inside the segment, each holds what is kept in it, and the words the observer
reads are words of the master region. -/
theorem regions_disjoint (p : CellSizes) (h : (carve p).total < 2 ^ 64) :
    (∀ r r' : LayoutRegion, r ≠ r' →
      r.offset p + r.bytes p ≤ r'.offset p ∨ r'.offset p + r'.bytes p ≤ r.offset p) ∧
    (∀ r : LayoutRegion, 64 ∣ r.offset p) ∧
    (∀ r : LayoutRegion, r.offset p + r.bytes p ≤ totalBytes p) ∧
    p.storageBytes ≤ latestRegionBytes p ∧
    align64 p.controlBytes + kShmRingCapacity * p.recordBytes ≤ ringRegionBytes p ∧
    (72 ≤ p.storageBytes → masterOffset ≤ kMasterOffset ∧
      kMasterOffset + (kCellPrefixWords + kEnvelopeWords) * 8 ≤
        masterOffset + latestRegionBytes p) := by
  obtain ⟨hlatest, hring⟩ := regions_exact h
  have hstorage : p.storageBytes ≤ latestRegionBytes p :=
    Nat.le_trans (le_roundUp (by decide) _) (Nat.le_of_eq hlatest.symm)
  refine ⟨fun r r' hne => ?_, fun r => ?_, fun r => ?_, hstorage, ?_, fun hwords => ?_⟩
  · have hb := r.bytes_le h
    have hb' := r'.bytes_le h
    have hap := parts_apart (carve p).length fun heq => hne (LayoutRegion.rank_inj heq)
    rw [r.offset_eq h, r'.offset_eq h]
    omega
  · rw [r.offset_eq h]
    exact dvd_partStart (carve_dvd p) _
  · have hb := r.bytes_le h
    have hstop := part_stop_le (carve p).length r.rank_lt
    rw [r.offset_eq h, total_exact h, Carve.total, Carve.sub_eq]
    omega
  · have hcontrol : align64 p.controlBytes ≤ roundUp 64 p.controlBytes :=
      Nat.mul_le_mul_right _ (Nat.div_le_div_right (Nat.mod_le _ _))
    have hcells := le_roundUp (a := 64) (by decide)
      (roundUp 64 p.controlBytes + kShmRingCapacity * p.recordBytes)
    rw [hring]
    exact Nat.le_trans (Nat.add_le_add_right hcontrol _) hcells
  · have hmaster : masterOffset = kMasterOffset := by decide
    rw [hmaster, kCellPrefixWords, kEnvelopeWords]
    omega

/-- A record of 80 bytes. -/
theorem regions_disjoint_small :
    (carve ⟨136, 192, 80⟩).total < 2 ^ 64 ∧ ∀ r : LayoutRegion,
      64 ∣ r.offset ⟨136, 192, 80⟩ ∧
      r.offset ⟨136, 192, 80⟩ + r.bytes ⟨136, 192, 80⟩ ≤ totalBytes ⟨136, 192, 80⟩ := by
  have h : (carve ⟨136, 192, 80⟩).total < 2 ^ 64 := by decide
  obtain ⟨-, hdvd, hin, -⟩ := regions_disjoint ⟨136, 192, 80⟩ h
  exact ⟨h, fun r => ⟨hdvd r, hin r⟩⟩

/-! ## Sizes from the compiler and from the wire contract -/

/-- `sizeof(MailRecord<T>)` for a payload of `size` bytes aligned to `align`: 48 bytes of
envelope and the ordinal, the payload at the next multiple of its alignment, and the
whole a multiple of the larger alignment. -/
def sizeofMailRecord (size align : Nat) : Nat :=
  roundUp (max 8 align) (roundUp align (48 + 8) + size)

/-- A slot: the cell of sequence, write index and record words, padded, and the
cursor. -/
def slotBytes (recordBytes : Nat) : Nat := roundUp 64 (16 + 8 * ((recordBytes + 7) / 8)) + 8

/-- The capacity, and head and tail on lines of their own. -/
def kControlBytes : Nat := 192

/-- What the containers say about `MailRecord<T>`. -/
def cellSizes (size align : Nat) : CellSizes where
  storageBytes := slotBytes (sizeofMailRecord size align)
  controlBytes := kControlBytes
  recordBytes := sizeofMailRecord size align

/-- `record_bytes`, of `N = (48 + 8 + payload_size + 7) / 8` record words. -/
def foreignRecordBytes (payloadSize : Nat) : Nat := 8 * ((48 + 8 + payloadSize + 7) / 8)

/-- The carve a participant computes that has nothing but the wire contract. -/
def foreignCarve (payloadSize : Nat) : Carve where
  slotRegion := roundUp 64 (slotBytes (foreignRecordBytes payloadSize))
  ringRegion := roundUp 64 (kControlBytes + kShmRingCapacity * foreignRecordBytes payloadSize)

/-- The attachment and the wire contract put everything at the same place. -/
def LayoutMatches (size align : Nat) : Prop :=
  masterOffset = Carve.master ∧
  (∀ i, i < kShmMaxSubscribers →
    subRegionOffset (cellSizes size align) i = (foreignCarve size).sub i ∧
    subRingBase (cellSizes size align) i = (foreignCarve size).ring i) ∧
  totalBytes (cellSizes size align) = (foreignCarve size).total

theorem sizeof_of_align_le {size align : Nat} (hpow : ∃ k, align = 2 ^ k) (h : align ≤ 8) :
    sizeofMailRecord size align = foreignRecordBytes size := by
  obtain ⟨k, rfl⟩ := hpow
  have hk : k < 4 := (Nat.pow_lt_pow_iff_right (a := 2) (by decide)).mp (by omega)
  have hpad : roundUp (2 ^ k) (48 + 8) = 56 := by
    match k, hk with
    | 0, _ => decide
    | 1, _ => decide
    | 2, _ => decide
    | 3, _ => decide
  rw [sizeofMailRecord, hpad, Nat.max_eq_left h, roundUp, foreignRecordBytes]
  omega

/-- From sixteen on there is padding before the payload. -/
theorem sizeof_of_align_gt {size align : Nat} (hpow : ∃ k, align = 2 ^ k) (hdvd : align ∣ size)
    (h : 8 < align) : foreignRecordBytes size + 8 ≤ sizeofMailRecord size align := by
  obtain ⟨k, rfl⟩ := hpow
  have hk : 4 ≤ k := (Nat.pow_lt_pow_iff_right (a := 2) (n := 3) (by decide)).mp h
  have h16 : 16 ∣ 2 ^ k := Nat.pow_dvd_pow 2 hk
  have hsize : 16 ∣ size := Nat.dvd_trans h16 hdvd
  have hpad : 64 ≤ roundUp (2 ^ k) (48 + 8) := by
    have h56 := le_roundUp (Nat.two_pow_pos k) (48 + 8)
    have hmul : 16 ∣ roundUp (2 ^ k) (48 + 8) := Nat.dvd_trans h16 (dvd_roundUp _ _)
    omega
  have hrec := le_roundUp (a := max 8 (2 ^ k)) (by omega) (roundUp (2 ^ k) (48 + 8) + size)
  rw [sizeofMailRecord, foreignRecordBytes]
  omega

theorem carve_of_align_le (size : Nat) {align : Nat} (hpow : ∃ k, align = 2 ^ k) (h : align ≤ 8) :
    carve (cellSizes size align) = foreignCarve size := by
  have hcontrol : roundUp 64 kControlBytes = kControlBytes := by decide
  simp only [carve, cellSizes, foreignCarve, sizeof_of_align_le hpow h, hcontrol]

/-- The first two subscriber regions give the lengths away. -/
theorem ringRegion_of_matches {size align : Nat} (h : LayoutMatches size align)
    (hfit : (foreignCarve size).total < 2 ^ 64) :
    ringRegionBytes (cellSizes size align) = (foreignCarve size).ringRegion := by
  obtain ⟨-, hsub, -⟩ := h
  have h0 := (hsub 0 (by decide)).1
  have h1 := (hsub 1 (by decide)).1
  have hlt : latestRegionBytes (cellSizes size align) < 2 ^ 64 := by
    have := sizeT_lt ((cellSizes size align).storageBytes + 63)
    rw [latestRegionBytes, align64]
    omega
  have hlt' : ringRegionBytes (cellSizes size align) < 2 ^ 64 := by
    have := sizeT_lt (sizeT (align64 (cellSizes size align).controlBytes +
      sizeT (kShmRingCapacity * (cellSizes size align).recordBytes)) + 63)
    rw [ringRegionBytes, align64]
    omega
  rw [Carve.total, Carve.sub, kShmMaxSubscribers] at hfit
  simp only [subRegionOffset, subRegionStride, sizeT, masterOffset_eq, Carve.sub] at h0 h1
  omega

/-- The layout is the wire contract's exactly if the payload is aligned to at most
eight bytes, and the segment's size fits into 64 bits. -/
theorem layout_matches_iff (size align : Nat) (hsize : 1 ≤ size) (hpow : ∃ k, align = 2 ^ k)
    (hdvd : align ∣ size) :
    LayoutMatches size align ↔ align ≤ 8 ∧ (foreignCarve size).total < 2 ^ 64 := by
  constructor
  · intro h
    have hfit : (foreignCarve size).total < 2 ^ 64 := h.2.2 ▸ sizeT_lt _
    refine ⟨Nat.not_lt.mp fun hgt => ?_, hfit⟩
    have hring := ringRegion_of_matches h hfit
    have hle : align ≤ size := Nat.le_of_dvd hsize hdvd
    have hmore := sizeof_of_align_gt hpow hdvd hgt
    have hless : sizeofMailRecord size align < 56 + 4 * size + 8 := by
      have hpad := roundUp_lt (a := align) (by omega) (48 + 8)
      have hrec := roundUp_lt (a := max 8 align) (by omega) (roundUp align (48 + 8) + size)
      rw [sizeofMailRecord]
      omega
    rw [Carve.total, Carve.sub, kShmMaxSubscribers] at hfit
    simp only [ringRegionBytes, foreignCarve, cellSizes, align64, sizeT, roundUp, kControlBytes,
      kShmRingCapacity, foreignRecordBytes] at hring hfit hmore
    omega
  · rintro ⟨hle, hfit⟩
    have hcarve := carve_of_align_le size hpow hle
    have hfit' : (carve (cellSizes size align)).total < 2 ^ 64 := hcarve ▸ hfit
    refine ⟨masterOffset_eq, fun i hi => ⟨?_, ?_⟩, ?_⟩
    · rw [offsets_exact hfit' (Nat.le_of_lt hi), hcarve]
    · rw [ring_exact hfit' hi, hcarve]
    · rw [total_exact hfit', hcarve]

theorem layout_matches_iff_double :
    LayoutMatches 24 8 ∧ 8 ≤ 8 ∧ (foreignCarve 24).total < 2 ^ 64 := by
  have hiff := layout_matches_iff 24 8 (by decide) ⟨3, rfl⟩ (by decide)
  have hfit : (foreignCarve 24).total < 2 ^ 64 := by decide
  exact ⟨hiff.mpr ⟨Nat.le_refl 8, hfit⟩, Nat.le_refl 8, hfit⟩

/-- A payload of sixteen bytes aligned to sixteen: the two totals differ. -/
theorem layout_differs :
    ¬ ∀ size align, 1 ≤ size → (∃ k, align = 2 ^ k) → align ∣ size → LayoutMatches size align := by
  intro h
  have htotal := (h 16 16 (by decide) ⟨4, rfl⟩ (by decide)).2.2
  exact absurd htotal (by decide)

end Xmmsg.Shm
