import Zu.Lib.BitStream
import Zu.File.Disk

/-!
# Segment metadata

Where a stored segment is and what it holds, as the directories keep it: a header of
fixed width and the block pointers after it. What is read back is checked against
itself, the count of values against the length of the payload in particular, before
anything is allocated for it.
-/

namespace Zu.Segment

open Lib File

def chunkRows : ℕ := 1024

theorem chunkRows_pos : 0 < chunkRows := Nat.succ_pos _

/-- `Structural`: the layout of a payload. -/
inductive Structural
  | miniBlock
  | fullZip
  | stride
  deriving DecidableEq, Repr

namespace Structural

def toByte : Structural → UInt8
  | miniBlock => 0
  | fullZip => 1
  | stride => 4

/-- The layout a structural byte names, the sorted flag cleared. -/
def ofByte (tag : UInt8) : Option Structural :=
  if tag &&& 253 = 0 then some miniBlock
  else if tag &&& 253 = 1 then some fullZip
  else if tag &&& 253 = 4 then some stride
  else none

end Structural

structure SegmentMeta where
  valueCount : Word
  payloadLen : Word
  uncompressedBytes : Word
  min : Word
  max : Word
  crc : BitVec 32
  structural : Structural
  sorted : Bool
  start : BitVec 32
  blocks : List Word
  deriving DecidableEq, Repr

/-- The parts of `n` things in parts of `k`: `div_ceil`. -/
def divCeil (n k : ℕ) : ℕ := (n + (k - 1)) / k

def corrupt (detail : String) : ZuError := .corrupt "segment meta" detail

/-- The number in the `k` bytes at `i`. -/
def field (bytes : Bytes) (i k : ℕ) : ℕ := fromLe ((bytes.drop i).take k)

namespace SegmentMeta

/-- The structural byte carries the sorted flag in bit 1. -/
def tag (m : SegmentMeta) : UInt8 := m.structural.toByte ||| (if m.sorted then 2 else 0)

/-- The header. A directory older than the packed payload has no start word in it. -/
def header (m : SegmentMeta) (packed : Bool) : Bytes :=
  leBytes 8 m.valueCount.toNat ++ (leBytes 8 m.payloadLen.toNat ++
    (leBytes 8 m.uncompressedBytes.toNat ++ (leBytes 8 m.min.toNat ++ (leBytes 8 m.max.toNat ++
      (leBytes 4 m.crc.toNat ++ (leBytes 4 m.blocks.length ++ (leBytes 1 m.tag.toNat ++
        if packed then leBytes 4 m.start.toNat else [])))))))

/-- `encode`, and `encode_unpacked`. -/
def encodeAt (m : SegmentMeta) (packed : Bool) : Bytes :=
  m.header packed ++ m.blocks.flatMap fun b => leBytes 8 b.toNat

/-- Whether a count needs more payload than there is. A chunk takes twelve bytes at the
least, the four of its index entry and the eight of its fence, and a row of a stride one,
after the four that open a payload. -/
def overBound (structural : Structural) (valueCount payloadLen : ℕ) : Prop :=
  match structural with
  | .stride => payloadLen - 4 < valueCount
  | _ => (payloadLen - 4) / 12 < divCeil valueCount chunkRows

instance (structural : Structural) (valueCount payloadLen : ℕ) :
    Decidable (overBound structural valueCount payloadLen) := by
  cases structural <;> exact inferInstanceAs (Decidable (_ < _))

/-- Reads `n` block pointers. -/
def readBlocks (bytes : Bytes) : ℕ → ℕ → Except ZuError (List Word × ℕ)
  | 0, p => .ok ([], p)
  | n + 1, p =>
      if bytes.length < p + 8 then .error (corrupt "truncated block list")
      else do
        let rest ← readBlocks bytes n (p + 8)
        .ok (BitVec.ofNat 64 (field bytes p 8) :: rest.1, rest.2)

def decodeAt (bytes : Bytes) (pos : ℕ) (packed : Bool) : Except ZuError (SegmentMeta × ℕ) :=
  let headLen := if packed then 53 else 49
  let head := (bytes.drop pos).take headLen
  let valueCount := field head 0 8
  let payloadLen := field head 8 8
  let min := field head 24 8
  let max := field head 32 8
  let blockCount := field head 44 4
  let tag := UInt8.ofNat (field head 48 1)
  let start := if packed then field head 49 4 else 0
  if bytes.length < pos + headLen then .error (corrupt "truncated header")
  else
    match Structural.ofByte tag with
    | none => .error (.unsupported "structural layout" tag.toNat)
    | some structural =>
        if max < min then .error (corrupt "zone min above max")
        else if blockSize ≤ start then
          .error (corrupt "payload starts past the end of its block")
        else if 2 ^ 64 ≤ start + payloadLen then
          .error (corrupt "payload length runs off the end of the address space")
        else if divCeil (start + payloadLen) blockSize ≠ blockCount then
          .error (corrupt "payload length disagrees with block count")
        else if overBound structural valueCount payloadLen then
          .error (corrupt "value count needs more payload than there is")
        else if (bytes.length - (pos + headLen)) / 8 < blockCount then
          .error (corrupt "truncated block list")
        else do
          let blocks ← readBlocks bytes blockCount (pos + headLen)
          .ok ({ valueCount := BitVec.ofNat 64 valueCount
                 payloadLen := BitVec.ofNat 64 payloadLen
                 uncompressedBytes := BitVec.ofNat 64 (field head 16 8)
                 min := BitVec.ofNat 64 min
                 max := BitVec.ofNat 64 max
                 crc := BitVec.ofNat 32 (field head 40 4)
                 structural
                 sorted := decide (tag &&& 2 ≠ 0)
                 start := BitVec.ofNat 32 start
                 blocks := blocks.1 }, blocks.2)

def encode (m : SegmentMeta) : Bytes := m.encodeAt true

def decode (bytes : Bytes) (pos : ℕ) : Except ZuError (SegmentMeta × ℕ) := decodeAt bytes pos true

def chunkCount (m : SegmentMeta) : ℕ := divCeil m.valueCount.toNat chunkRows

/-- `chunk_rows`: full except possibly the last. -/
def rowsOf (m : SegmentMeta) (i : ℕ) : ℕ := Nat.min (m.valueCount.toNat - i * chunkRows) chunkRows

/-- What a decoder holds a meta to, its block list apart. -/
structure Sound (m : SegmentMeta) : Prop where
  zone : m.min.toNat ≤ m.max.toNat
  start : m.start.toNat < blockSize
  span : m.start.toNat + m.payloadLen.toNat < 2 ^ 64
  blocks : divCeil (m.start.toNat + m.payloadLen.toNat) blockSize = m.blocks.length
  count : ¬ overBound m.structural m.valueCount.toNat m.payloadLen.toNat

theorem field_at {k n : ℕ} {bytes front back : Bytes} (h : bytes = front ++ (leBytes k n ++ back))
    {i : ℕ} (hi : front.length = i) : field bytes i k = n % 256 ^ k := by
  rw [field, h, ← hi, List.drop_left, ← fromLe_leBytes]
  congr 1
  exact List.take_left' (length_leBytes k n)

theorem field_here (k n : ℕ) (back : Bytes) : field (leBytes k n ++ back) 0 k = n % 256 ^ k :=
  field_at (List.nil_append _).symm rfl

theorem field_skip (k n i w : ℕ) (back : Bytes) :
    field (leBytes k n ++ back) (i + k) w = field back i w := by
  rw [field, field, List.drop_append, length_leBytes, Nat.add_sub_cancel,
    List.drop_eq_nil_of_le (by rw [length_leBytes]; exact Nat.le_add_left _ _), List.nil_append]

theorem ofByte_tag (m : SegmentMeta) : Structural.ofByte m.tag = some m.structural := by
  rw [tag]
  cases m.structural <;> cases m.sorted <;> decide

theorem sorted_tag (m : SegmentMeta) : decide (m.tag &&& 2 ≠ 0) = m.sorted := by
  rw [tag]
  cases m.structural <;> cases m.sorted <;> decide

theorem readBlocks_flatMap (front back : Bytes) (blocks : List Word) :
    readBlocks (front ++ ((blocks.flatMap fun b => leBytes 8 b.toNat) ++ back)) blocks.length
      front.length = .ok (blocks, front.length + 8 * blocks.length) := by
  induction blocks generalizing front with
  | nil => rfl
  | cons b blocks ih =>
      have hnext := ih (front ++ leBytes 8 b.toNat)
      rw [List.length_append, length_leBytes, List.append_assoc] at hnext
      have hlist : front ++ (((b :: blocks).flatMap fun b => leBytes 8 b.toNat) ++ back) =
          front ++ (leBytes 8 b.toNat ++ ((blocks.flatMap fun b => leBytes 8 b.toNat) ++ back)) := by
        rw [List.flatMap_cons, List.append_assoc]
      have hlong : ¬ (front ++ (leBytes 8 b.toNat ++
          ((blocks.flatMap fun b => leBytes 8 b.toNat) ++ back))).length < front.length + 8 := by
        simp only [List.length_append, length_leBytes]
        omega
      rw [List.length_cons, readBlocks, hlist, if_neg hlong, hnext, ok_bind, field_at rfl rfl]
      have hb : b.toNat % 256 ^ 8 = b.toNat := Nat.mod_eq_of_lt b.isLt
      rw [hb, BitVec.ofNat_toNat, BitVec.setWidth_eq]
      congr 2
      omega

theorem length_header (m : SegmentMeta) (packed : Bool) :
    (m.header packed).length = if packed then 53 else 49 := by
  rw [header]
  cases packed <;> simp

theorem field_header (m : SegmentMeta) (packed : Bool) :
    field (m.header packed) 0 8 = m.valueCount.toNat ∧
      field (m.header packed) 8 8 = m.payloadLen.toNat ∧
      field (m.header packed) 16 8 = m.uncompressedBytes.toNat ∧
      field (m.header packed) 24 8 = m.min.toNat ∧ field (m.header packed) 32 8 = m.max.toNat ∧
      field (m.header packed) 40 4 = m.crc.toNat ∧
      field (m.header packed) 44 4 = m.blocks.length % 2 ^ 32 ∧
      UInt8.ofNat (field (m.header packed) 48 1) = m.tag ∧
      (packed = true → field (m.header packed) 49 4 = m.start.toNat) := by
  have hword : ∀ w : Word, w.toNat % 256 ^ 8 = w.toNat := fun w => Nat.mod_eq_of_lt w.isLt
  have hhalf : ∀ w : BitVec 32, w.toNat % 256 ^ 4 = w.toNat := fun w => Nat.mod_eq_of_lt w.isLt
  rw [header]
  refine ⟨?_, ?_, ?_, ?_, ?_, ?_, ?_, ?_, ?_⟩
  · rw [field_here, hword]
  · rw [field_skip 8 _ 0, field_here, hword]
  · rw [field_skip 8 _ 8, field_skip 8 _ 0, field_here, hword]
  · rw [field_skip 8 _ 16, field_skip 8 _ 8, field_skip 8 _ 0, field_here, hword]
  · rw [field_skip 8 _ 24, field_skip 8 _ 16, field_skip 8 _ 8, field_skip 8 _ 0, field_here, hword]
  · rw [field_skip 8 _ 32, field_skip 8 _ 24, field_skip 8 _ 16, field_skip 8 _ 8,
      field_skip 8 _ 0, field_here, hhalf]
  · rw [field_skip 8 _ 36, field_skip 8 _ 28, field_skip 8 _ 20, field_skip 8 _ 12,
      field_skip 8 _ 4, field_skip 4 _ 0, field_here]
    rfl
  · rw [field_skip 8 _ 40, field_skip 8 _ 32, field_skip 8 _ 24, field_skip 8 _ 16,
      field_skip 8 _ 8, field_skip 4 _ 4, field_skip 4 _ 0, field_here, pow_one,
      Nat.mod_eq_of_lt m.tag.toNat_lt, UInt8.ofNat_toNat]
  · rintro rfl
    rw [field_skip 8 _ 41, field_skip 8 _ 33, field_skip 8 _ 25, field_skip 8 _ 17,
      field_skip 8 _ 9, field_skip 4 _ 5, field_skip 4 _ 1, field_skip 1 _ 0, if_pos rfl,
      ← List.append_nil (leBytes 4 m.start.toNat), field_here, hhalf]

/-- What a decoder makes of a meta whose block list is no longer than the count of it has
room for. -/
theorem decodeAt_encodeAt (m : SegmentMeta) (hlen : m.blocks.length < 2 ^ 32) {packed : Bool}
    (hstart : packed = false → m.start = 0) (front back : Bytes) :
    decodeAt (front ++ (m.encodeAt packed ++ back)) front.length packed =
      if m.max.toNat < m.min.toNat then .error (corrupt "zone min above max")
      else if blockSize ≤ m.start.toNat then
        .error (corrupt "payload starts past the end of its block")
      else if 2 ^ 64 ≤ m.start.toNat + m.payloadLen.toNat then
        .error (corrupt "payload length runs off the end of the address space")
      else if divCeil (m.start.toNat + m.payloadLen.toNat) blockSize ≠ m.blocks.length then
        .error (corrupt "payload length disagrees with block count")
      else if overBound m.structural m.valueCount.toNat m.payloadLen.toNat then
        .error (corrupt "value count needs more payload than there is")
      else .ok (m, front.length + (m.encodeAt packed).length) := by
  have hlist : front ++ (m.encodeAt packed ++ back) = (front ++ m.header packed) ++
      ((m.blocks.flatMap fun b => leBytes 8 b.toNat) ++ back) := by
    simp only [encodeAt, List.append_assoc]
  have hhead : ((front ++ (m.encodeAt packed ++ back)).drop front.length).take
      (if packed then 53 else 49) = m.header packed := by
    rw [List.drop_left, encodeAt, List.append_assoc]
    exact List.take_left' (length_header m packed)
  have hread := readBlocks_flatMap (front ++ m.header packed) back m.blocks
  rw [List.length_append, length_header] at hread
  obtain ⟨hcount, hpayload, hraw, hmin, hmax, hcrc, hblocks, htag, hst⟩ := field_header m packed
  have hs : (if packed then field (m.header packed) 49 4 else 0) = m.start.toNat := by
    cases packed with
    | true => exact hst rfl
    | false => rw [hstart rfl]; rfl
  rw [Nat.mod_eq_of_lt hlen] at hblocks
  have hbytes : (m.blocks.flatMap fun b => leBytes 8 b.toNat).length = 8 * m.blocks.length := by
    simp [Nat.mul_comm]
  have htotal : (front ++ (m.encodeAt packed ++ back)).length =
      front.length + (if packed then 53 else 49) + 8 * m.blocks.length + back.length := by
    rw [hlist, List.length_append, List.length_append, List.length_append, length_header, hbytes]
    omega
  have hnext : front.length + (if packed then 53 else 49) + 8 * m.blocks.length =
      front.length + (m.encodeAt packed).length := by
    rw [encodeAt, List.length_append, length_header, hbytes, Nat.add_assoc]
  rw [decodeAt]
  simp only [hhead, hcount, hpayload, hraw, hmin, hmax, hcrc, hblocks, htag, hs, ofByte_tag,
    sorted_tag, htotal]
  rw [if_neg (by omega), if_neg (c := _ / 8 < _) (by omega), hlist, hread, ok_bind]
  simp only [BitVec.ofNat_toNat, BitVec.setWidth_eq, hnext]

theorem Sound.decodeAt_encodeAt {m : SegmentMeta} (h : m.Sound) (hlen : m.blocks.length < 2 ^ 32)
    {packed : Bool} (hstart : packed = false → m.start = 0) (front back : Bytes) :
    decodeAt (front ++ (m.encodeAt packed ++ back)) front.length packed =
      .ok (m, front.length + (m.encodeAt packed).length) := by
  rw [SegmentMeta.decodeAt_encodeAt m hlen hstart, if_neg (Nat.not_lt.2 h.zone),
    if_neg (Nat.not_le.2 h.start), if_neg (Nat.not_le.2 h.span), if_neg (not_not.2 h.blocks),
    if_neg h.count]

theorem field_lt (bytes : Bytes) (i k : ℕ) : field bytes i k < 256 ^ k :=
  (fromLe_lt _).trans_le (Nat.pow_le_pow_right (by omega) (List.length_take_le _ _))

end SegmentMeta

end Zu.Segment
