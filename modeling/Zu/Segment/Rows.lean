import Zu.Segment.BlobWrite

/-!
# Columns of byte rows

A column whose rows all have one length is laid end to end behind that length, and has no
index. Any other is a blob column.
-/

namespace Zu.Segment

open Lib Encoding FullZip

namespace Rows

def corrupt (detail : String) : ZuError := .corrupt "stride segment" detail

/-- `uniform_len`: the length every row has. -/
def uniformLen : List Bytes → Option ℕ
  | [] => none
  | v :: values =>
      if 0 < v.length ∧ ∀ w ∈ v :: values, w.length = v.length then some v.length else none

def strideRows (stride : ℕ) : List Bytes → Except ZuError Bytes
  | [] => .ok []
  | v :: values =>
      if v.length ≠ stride then
        .error (.invalidArgument s!"a stride {stride} column does not hold a {v.length} byte row")
      else do
        let rest ← strideRows stride values
        .ok (v ++ rest)

section

variable (crc32c : Bytes → BitVec 32) (pin : Pin)

def writeStrideSegment (f : PackFile) (values : Slice Bytes 16) (stride : ℕ) :
    Checked ZuError (SegmentMeta × PackFile) := do
  -- a product too large for a word is too large for the payload as well
  Checked.withCapacity (4 + values.items.length * stride) 1
  let rows ← Checked.ofExcept (strideRows stride values.items)
  let payload := leBytes 4 stride ++ rows
  let placed := f.packBytes payload
  .ok ({ valueCount := BitVec.ofNat 64 values.items.length
         payloadLen := BitVec.ofNat 64 payload.length
         uncompressedBytes := BitVec.ofNat 64 (values.items.length * stride)
         min := 0
         max := 0
         crc := crc32c payload
         structural := .stride
         sorted := false
         start := BitVec.ofNat 32 placed.2.1
         blocks := placed.1 }, placed.2.2)

def writeRows (f : PackFile) (values : Slice Bytes 16) : Checked ZuError (SegmentMeta × PackFile) :=
  match uniformLen values.items with
  | some stride => writeStrideSegment crc32c f values stride
  | none => writeBlobSegment crc32c f values

def strideOf (m : SegmentMeta) : Except ZuError ℕ := do
  let head ← readPayloadSpan pin m 0 4
  let stride := field head 0 4
  let want := 4 + min (m.valueCount.toNat * stride) (2 ^ 64 - 1)
  if stride = 0 then .error (corrupt "stride of zero")
  else if 2 ^ 64 ≤ want then .error (corrupt "stride times rows overflows")
  else if want ≠ m.payloadLen.toNat ∨ m.uncompressedBytes.toNat ≠ m.payloadLen.toNat - 4 then
    .error (corrupt "stride disagrees with the meta")
  else .ok stride

def strideEnds (base count stride : ℕ) : List ℕ :=
  (List.range count).map fun i => base + (i + 1) * stride

def readRows (m : SegmentMeta) : Fallible (Stop ZuError) Out Unit :=
  if m.structural ≠ .stride then readBlobSegment crc32c pin m
  else do
    let stride ← liftExcept (Checked.ofExcept (strideOf pin m) : Checked ZuError ℕ)
    let payload ← liftExcept
      (Checked.ofExcept (readPayloadSpan pin m 0 m.payloadLen.toNat) : Reads)
    if crc32c payload ≠ m.crc then throw (.refused (corrupt "payload crc mismatch"))
    else
      modify fun out =>
        { bytes := out.bytes ++ payload.drop 4
          ends := out.ends ++ strideEnds out.bytes.length m.valueCount.toNat stride }

def rewriteRows (checks : Bool) (f : PackFile) (old : SegmentMeta) (u : Update) :
    Checked ZuError (SegmentMeta × PackFile) :=
  if old.structural ≠ .stride then rewriteBlobSegment crc32c pin old checks f u
  else
    match u.updates.getLast?.filter fun e => old.valueCount.toNat ≤ e.1.toNat with
    | some e => Checked.refuse (.invalidArgument
        s!"update at row {e.1.toNat} past the {old.valueCount.toNat} rows the segment holds")
    | none =>
        match (readRows crc32c pin old).exec {} with
        | (.error e, _) => .error e
        | (.ok (), out) => do
            let values ← Checked.collect ((u.updates.foldl (fun rows e => rows.set e.1.toNat e.2)
              out.strings) ++ u.appended.items)
            writeRows crc32c f values

def rewriteRowsReordered (f : PackFile) (old : SegmentMeta) (values : Slice Bytes 16) :
    Checked ZuError (SegmentMeta × PackFile) :=
  match uniformLen values.items, old.structural with
  | some stride, _ => writeStrideSegment crc32c f values stride
  | none, .stride => writeBlobSegment crc32c f values
  | none, _ => rewriteBlobReordered crc32c pin old f values

end

end Rows

end Zu.Segment
