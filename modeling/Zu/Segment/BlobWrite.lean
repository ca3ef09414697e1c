import Zu.Segment.Ranged
import Zu.Segment.MiniBlock

/-!
# Writing blob columns

A blob column is written whole, in a new order with the symbol table it had, or with the
chunks that some rows were written to encoded again and the others copied.
-/

namespace Zu.Segment

open Lib Encoding

namespace FullZip

/-- `store`: the payload, placed, and the meta of it. -/
def store (crc32c : Bytes → BitVec 32) (f : PackFile) (payload : Bytes) (valueCount valueBytes : ℕ) :
    SegmentMeta × PackFile :=
  let placed := f.packBytes payload
  ({ valueCount := BitVec.ofNat 64 valueCount
     payloadLen := BitVec.ofNat 64 payload.length
     uncompressedBytes := BitVec.ofNat 64 valueBytes
     min := 0
     max := 0
     crc := crc32c payload
     structural := .fullZip
     sorted := false
     start := BitVec.ofNat 32 placed.2.1
     blocks := placed.1 }, placed.2.2)

def writeBlobSegment (crc32c : Bytes → BitVec 32) (f : PackFile) (values : Slice Bytes 16) :
    Checked ZuError (SegmentMeta × PackFile) := do
  let encoded ← encodePayload values
  .ok (store crc32c f encoded.1 values.items.length encoded.2)

section

variable (crc32c : Bytes → BitVec 32) (pin : Pin) (old : SegmentMeta)

/-- The whole payload, verified. -/
def readWhole : Reads :=
  readPayload crc32c pin .fullZip corrupt "FullZip reader given a MiniBlock segment" old

/-- The walk of `table_of` over `n` more chunks. -/
def tableFrom (payload body : Bytes) : ℕ → ℕ → ℕ → Option Fsst.Table
  | 0, _, _ => none
  | n + 1, i, start =>
      let stop := compEnd payload i
      if stop < start ∨ body.length < stop then none
      else
        match (body.drop start).take (stop - start) with
        | [] => tableFrom payload body n (i + 1) stop
        | id :: chunk =>
            if id.toNat = EncodingId.fsst.toByte then (Fsst.Table.read chunk).toOption
            else tableFrom payload body n (i + 1) stop

/-- `table_of`: the table of the first chunk that has one. A payload that cannot be read
is one without. -/
def tableOf : Checked ZuError (Option Fsst.Table) :=
  match readWhole crc32c pin old with
  | .error .panicked => .error .panicked
  | .error (.refused _) => .ok none
  | .ok payload =>
      if payload.length < 4 + old.chunkCount * 16 then .ok none
      else
        .ok (tableFrom payload (payload.drop (4 + old.chunkCount * 16)) old.chunkCount 0 0)

def rewriteBlobReordered (f : PackFile) (values : Slice Bytes 16) :
    Checked ZuError (SegmentMeta × PackFile) := do
  let table ← tableOf crc32c pin old
  let encoded ← encodePayloadWith values
    (table.map fun t => (t, old.payloadLen.toNat, max old.uncompressedBytes.toNat 1))
  .ok (store crc32c f encoded.1 values.items.length encoded.2)

/-- What a rewrite writes: values for rows there are, by row, and rows after them. -/
structure Update where
  updates : List (Word × Bytes)
  ascending : updates.Pairwise fun a b => a.1.toNat < b.1.toNat
  appended : Slice Bytes 24

namespace Update

variable (u : Update) (newCount : ℕ)

/-- `dirty`: the chunks that are written to. -/
def Dirty (i : ℕ) : Prop := ∃ e ∈ u.updates, e.1.toNat / chunkRows = i

instance (i : ℕ) : Decidable (u.Dirty i) := List.decidableBEx _ _

def rowsIn (i : ℕ) : ℕ := min ((i + 1) * chunkRows) newCount - i * chunkRows

def Kept (i : ℕ) : Prop := i < old.chunkCount ∧ ¬ u.Dirty i ∧ old.rowsOf i = rowsIn newCount i

instance (i : ℕ) : Decidable (u.Kept old newCount i) := inferInstanceAs (Decidable (_ ∧ _ ∧ _))

end Update

/-- The rows `lo..held` of the old segment. -/
def heldRows (checks : Bool) (lo held : ℕ) : Checked ZuError (List Bytes) :=
  if lo < held then
    match (readBlobRange pin old checks lo held).exec {} with
    | (.ok (), out) => .ok out.strings
    | (.error e, _) => .error e
  else .ok []

/-- The rows of a chunk that is encoded again. -/
def rebuilt (checks : Bool) (u : Update) (newCount i : ℕ) : Checked ZuError (List Bytes) := do
  let base := old.valueCount.toNat
  let lo := i * chunkRows
  let hi := lo + Update.rowsIn newCount i
  let held := min hi base
  let rows ← heldRows pin old checks lo held
  let more ← (List.range' (max lo held) (hi - max lo held)).mapM fun row =>
    (Checked.index u.appended.items (row - base) : Reads)
  .ok ((u.updates.filter fun e => lo ≤ e.1.toNat ∧ e.1.toNat < hi).foldl
    (fun rows e => rows.set (e.1.toNat - lo) e.2) (rows ++ more))

/-- An old chunk: its bytes, their zipped size, and where it ends. -/
structure OldChunk where
  bytes : Bytes
  rawSize : ℕ
  compEnd : ℕ
  rawEnd : ℕ

/-- The old chunk `i`, after the ends before. -/
def oldSpan (payload body : Bytes) (i prevComp prevRaw : ℕ) : Except ZuError (Option OldChunk) :=
  let compEnd := compEnd payload i
  let rawEnd := rawEnd payload old.chunkCount i
  if old.chunkCount ≤ i then .ok none
  else if compEnd < prevComp ∨ body.length < compEnd then
    .error (corrupt "chunk index not monotone")
  else if rawEnd < prevRaw then .error (corrupt "chunk index not monotone")
  else
    .ok (some { bytes := (body.drop prevComp).take (compEnd - prevComp)
                rawSize := rawEnd - prevRaw, compEnd, rawEnd })

/-- Copies an old chunk, whose strings are its bytes without their lengths. -/
def keepChunk (rows : ℕ) (l : Laid) (chunk : OldChunk) : Except ZuError Laid :=
  if maxChunkRaw < chunk.rawSize then .error (corrupt "chunk above the raw cap")
  else if chunk.rawSize < 4 * rows then .error (corrupt "chunk shorter than its row lengths")
  else
    let body := l.body ++ chunk.bytes
    let rawTotal := (l.rawTotal + chunk.rawSize) % 2 ^ 64
    .ok { body
          compEnds := l.compEnds ++ [body.length]
          rawEnds := l.rawEnds ++ [rawTotal]
          rawTotal
          valueBytes := (l.valueBytes + (chunk.rawSize - 4 * rows)) % 2 ^ 64 }

/-- The chunk `i` of the new segment, kept or made of the next of the fresh rows, and the
fresh rows after it. A list of rows was made for each chunk that is not kept. -/
def nextChunk (u : Update) (newCount : ℕ) (enc : ChunkEncoder) (i : ℕ) (l : Laid)
    (span : Option OldChunk) (fresh : List (List Bytes)) :
    Checked ZuError (Laid × List (List Bytes)) :=
  if u.Kept old newCount i then
    match span with
    | none => Checked.refuse (corrupt "kept chunk past the old end")
    | some chunk => do
        let l ← Checked.ofExcept (keepChunk (Update.rowsIn newCount i) l chunk)
        .ok (l, fresh)
  else
    match fresh with
    | [] => .error .panicked
    | rows :: fresh => do
        let l ← Checked.ofExcept (pushChunk enc l rows)
        .ok (l, fresh)

/-- The loop of `rewrite_blob_segment` over `n` more chunks. -/
def rewriteChunks (u : Update) (newCount : ℕ) (enc : ChunkEncoder) (payload body : Bytes) :
    ℕ → ℕ → ℕ → ℕ → List (List Bytes) → Laid → Checked ZuError Laid
  | 0, _, _, _, _, l => .ok l
  | n + 1, i, prevComp, prevRaw, fresh, l => do
      let span ← Checked.ofExcept (oldSpan old payload body i prevComp prevRaw)
      let next ← nextChunk old u newCount enc i l span fresh
      rewriteChunks u newCount enc payload body n (i + 1)
        ((span.map OldChunk.compEnd).getD prevComp) ((span.map OldChunk.rawEnd).getD prevRaw)
        next.2 next.1

/-- `rewrite_blob_segment`, in a build with overflow checks or without. -/
def rewriteBlobSegment (checks : Bool) (f : PackFile) (u : Update) :
    Checked ZuError (SegmentMeta × PackFile) :=
  let base := old.valueCount.toNat
  match u.updates.getLast?.filter fun e => base ≤ e.1.toNat with
  | some e => Checked.refuse (.invalidArgument
      s!"update at row {e.1.toNat} past the {base} rows the segment holds")
  | none => do
      let newCount ← Checked.word checks (base + u.appended.items.length)
      let payload ← readWhole crc32c pin old
      if payload.length < 4 then Checked.refuse (corrupt "truncated index")
      else if field payload 0 4 ≠ old.chunkCount then
        Checked.refuse (corrupt "chunk count disagrees with meta")
      else if payload.length < 4 + old.chunkCount * 16 then
        Checked.refuse (corrupt "truncated index")
      else do
        let body := payload.drop (4 + old.chunkCount * 16)
        let chunkCount := divCeil newCount chunkRows
        let fresh ← ((List.range chunkCount).filter fun i => ¬ u.Kept old newCount i).mapM
          (rebuilt pin old checks u newCount)
        let enc := ChunkEncoder.train fresh.flatten
        let laid ← rewriteChunks old u newCount enc payload body chunkCount 0 0 0 fresh {}
        let payload ← layOut laid.compEnds laid.rawEnds laid.body
        .ok (store crc32c f payload newCount laid.valueBytes)

end

end FullZip

end Zu.Segment
