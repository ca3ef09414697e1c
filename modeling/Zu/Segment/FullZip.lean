import Zu.Lib.Checked
import Zu.Encoding.Fsst
import Zu.Encoding.Segment
import Zu.Segment.Meta

/-!
# Byte strings zipped with their lengths

The payload of a blob column: an index of where its chunks end, compressed and not, and
the chunks. A chunk is at most 1024 strings, each behind its length, plain or through a
symbol table, whichever is shorter.
-/

namespace Zu.Segment

open Lib Encoding

namespace FullZip

def maxChunkRaw : ℕ := 2 ^ 24

def corrupt (detail : String) : ZuError := .corrupt "fullzip segment" detail

/-- A string behind its length. -/
def zipped (v : Bytes) : Bytes := leBytes 4 v.length ++ v

/-! ### Writing -/

def trainSample : ℕ := 256 <<< 10

def trainRuns : ℕ := 16

/-- The strings of a run until `run` bytes of them are taken. -/
def takeRun (run : ℕ) : ℕ → List Bytes → Bytes
  | _, [] => []
  | taken, v :: values =>
      if run ≤ taken then [] else zipped v ++ takeRun run (taken + (v.length + 4)) values

def columnSample (values : List Bytes) : Bytes :=
  if (values.map fun v => v.length + 4).sum ≤ trainSample then values.flatMap zipped
  else
    (List.range trainRuns).flatMap fun r =>
      takeRun (divCeil trainSample trainRuns) 0 (values.drop (values.length * r / trainRuns))

def headerLen (table : Fsst.Table) : ℕ :=
  5 + table.syms.length + (table.syms.map List.length).sum

/-- `fit`: what a table is worth on a sample. -/
def fit (table : Fsst.Table) (sample : Bytes) : ℕ × ℕ :=
  ((table.encode sample).length - headerLen table, max sample.length 1)

/-- `ChunkEncoder`, without its buffers. -/
structure ChunkEncoder where
  table : Fsst.Table
  fitPacked : ℕ
  fitRaw : ℕ

namespace ChunkEncoder

def train (values : List Bytes) : ChunkEncoder :=
  let sample := columnSample values
  let table := Fsst.Table.train sample
  { table, fitPacked := (fit table sample).1, fitRaw := (fit table sample).2 }

/-- `reusing`: a table that was worth `was` is kept while it is worth nearly that. -/
def reusing (table : Fsst.Table) (values : List Bytes) (was : ℕ × ℕ) : ChunkEncoder :=
  let sample := columnSample values
  let now := fit table sample
  if now.1 * was.2 * 4 % 2 ^ 64 ≤ was.1 * now.2 * 5 % 2 ^ 64 then
    { table, fitPacked := now.1, fitRaw := now.2 }
  else train values

/-- The encoder of a column, around a table where the caller has one. -/
def given (values : List Bytes) : Option (Fsst.Table × ℕ × ℕ) → ChunkEncoder
  | some (table, was) => reusing table values was
  | none => train values

def zipChunk : Bytes → List Bytes → Except ZuError Bytes
  | z, [] => .ok z
  | z, v :: chunk =>
      if maxChunkRaw < z.length + 4 + v.length then
        .error (.invalidArgument s!"fullzip chunk exceeds the {maxChunkRaw} byte raw cap")
      else zipChunk (z ++ zipped v) chunk

/-- The codes of a chunk: the column's table, or one of its own where that is off the
column's ratio and shorter. -/
def pack (enc : ChunkEncoder) (z : Bytes) : Bytes :=
  let packed := enc.table.encode z
  let codes := packed.length - headerLen enc.table
  if enc.fitPacked * 3 * z.length % 2 ^ 64 < codes * 2 * enc.fitRaw % 2 ^ 64 then
    let own := (Fsst.Table.train z).encode z
    if own.length < packed.length then own else packed
  else packed

/-- What `push` appends for a zipped chunk. -/
def packChunk (enc : ChunkEncoder) (z : Bytes) : Bytes :=
  if (enc.pack z).length < z.length then leBytes 1 EncodingId.fsst.toByte ++ enc.pack z
  else leBytes 1 EncodingId.plain.toByte ++ z

end ChunkEncoder

/-- A payload under way. -/
structure Laid where
  body : Bytes := []
  compEnds : List ℕ := []
  rawEnds : List ℕ := []
  rawTotal : ℕ := 0
  valueBytes : ℕ := 0

/-- `push`, and what its caller keeps of it. -/
def pushChunk (enc : ChunkEncoder) (l : Laid) (chunk : List Bytes) : Except ZuError Laid := do
  let z ← ChunkEncoder.zipChunk [] chunk
  let body := l.body ++ enc.packChunk z
  let rawTotal := (l.rawTotal + z.length) % 2 ^ 64
  .ok { body
        compEnds := l.compEnds ++ [body.length]
        rawEnds := l.rawEnds ++ [rawTotal]
        rawTotal
        valueBytes := (l.valueBytes + (chunk.map List.length).sum) % 2 ^ 64 }

def layOut (compEnds rawEnds : List ℕ) (body : Bytes) : Checked ZuError Bytes := do
  Checked.withCapacity (4 + compEnds.length * 16 + body.length) 1
  .ok (leBytes 4 compEnds.length ++
    (compEnds.flatMap (leBytes 8) ++ (rawEnds.flatMap (leBytes 8) ++ body)))

/-- `encode_payload_with`: the payload and the bytes of the strings. -/
def encodePayloadWith (values : Slice Bytes 16) (table : Option (Fsst.Table × ℕ × ℕ)) :
    Checked ZuError (Bytes × ℕ) := do
  let laid ← Checked.ofExcept
    ((chunks chunkRows values.items).foldlM (pushChunk (ChunkEncoder.given values.items table)) {})
  let payload ← layOut laid.compEnds laid.rawEnds laid.body
  .ok (payload, laid.valueBytes)

def encodePayload (values : Slice Bytes 16) : Checked ZuError (Bytes × ℕ) :=
  encodePayloadWith values none

/-! ### Reading -/

/-- The vectors a reader appends to: the bytes, and where each string ends in them. -/
structure Out where
  bytes : Bytes := []
  ends : List ℕ := []

def Out.push (out : Out) (v : Bytes) : Out where
  bytes := out.bytes ++ v
  ends := out.ends ++ [out.bytes.length + v.length]

/-- `inspect_err`: a reader that fails cuts the vectors back. -/
def orTruncate {α : Type} (x : Fallible ZuError Out α) : Fallible ZuError Out α := fun out =>
  match x.exec out with
  | (.ok a, out') => (.ok a, out')
  | (.error e, out') =>
      (.error e, { bytes := out'.bytes.take out.bytes.length, ends := out'.ends.take out.ends.length })

def unpackChunk (chunk : Bytes) (rawSize : ℕ) : Except ZuError Bytes :=
  match chunk with
  | [] => .error (corrupt "empty chunk")
  | id :: payload =>
      if id.toNat = EncodingId.plain.toByte then
        if payload.length ≠ rawSize then
          .error (corrupt "plain chunk disagrees with its zipped size")
        else .ok payload
      else if id.toNat = EncodingId.fsst.toByte then do
        let z ← Fsst.decode payload rawSize
        if z.length ≠ rawSize then .error (corrupt "fsst chunk disagrees with its zipped size")
        else .ok z
      else .error (.unsupported "fullzip chunk encoding" id.toNat)

/-- Appends a string where a row is wanted. -/
def pushIf (c : Prop) [Decidable c] (v : Bytes) : Fallible ZuError Out Unit :=
  if c then modify fun out => out.push v else pure ()

/-- The walk of `unzip_rows` over `n` more rows of a chunk, and where it comes to. -/
def unzipFrom (z : Bytes) (lo hi : ℕ) : ℕ → ℕ → ℕ → Fallible ZuError Out ℕ
  | 0, _, pos => pure pos
  | n + 1, row, pos =>
      if z.length < pos + 4 then throw (corrupt "truncated row length")
      else if z.length < pos + 4 + field z pos 4 then throw (corrupt "truncated row bytes")
      else do
        pushIf (lo ≤ row ∧ row < hi) ((z.drop (pos + 4)).take (field z pos 4))
        unzipFrom z lo hi n (row + 1) (pos + 4 + field z pos 4)

def unzipRows (z : Bytes) (total lo hi : ℕ) (strict : Bool) : Fallible ZuError Out Unit := do
  let pos ← unzipFrom z lo hi (if strict then total else hi) 0 0
  if strict ∧ pos ≠ z.length then throw (corrupt "trailing bytes after the last row")
  else pure ()

/-- The zipped form of the chunk `i`, between where the one before it ends and where it
does. -/
def chunkAt (body : Bytes) (prevComp compEnd prevRaw rawEnd : ℕ) : Except ZuError Bytes :=
  if compEnd < prevComp ∨ body.length < compEnd then .error (corrupt "chunk index not monotone")
  else if rawEnd < prevRaw then .error (corrupt "chunk index not monotone")
  else if maxChunkRaw < rawEnd - prevRaw then .error (corrupt "chunk above the raw cap")
  else unpackChunk ((body.drop prevComp).take (compEnd - prevComp)) (rawEnd - prevRaw)

/-- Where the chunk `i` ends in the body. -/
def compEnd (payload : Bytes) (i : ℕ) : ℕ := field payload (4 + i * 8) 8

/-- Where it ends in the zipped bytes, behind the `total` ends before. -/
def rawEnd (payload : Bytes) (total i : ℕ) : ℕ := field payload (4 + (total + i) * 8) 8

/-- The loop of `decode_payload` from the chunk `i` on, and where the last one ends. -/
def decodeChunks (payload : Bytes) (valueCount total : ℕ) :
    ℕ → ℕ → ℕ → ℕ → Fallible ZuError Out ℕ
  | 0, _, prevComp, _ => pure prevComp
  | n + 1, i, prevComp, prevRaw => do
      let rows := min (valueCount - i * chunkRows) chunkRows
      let z ← liftExcept (chunkAt (payload.drop (4 + total * 16)) prevComp (compEnd payload i)
        prevRaw (rawEnd payload total i))
      unzipRows z rows 0 rows true
      decodeChunks payload valueCount total n (i + 1) (compEnd payload i) (rawEnd payload total i)

def decodePayload (payload : Bytes) (valueCount uncompressedBytes : ℕ) :
    Fallible ZuError Out Unit :=
  orTruncate do
    let base := (← get).bytes.length
    let total := divCeil valueCount chunkRows
    if payload.length < 4 then throw (corrupt "truncated index")
    else if field payload 0 4 ≠ total then throw (corrupt "chunk count disagrees with meta")
    else if payload.length < 4 + total * 16 then throw (corrupt "truncated index")
    else do
      let prevComp ← decodeChunks payload valueCount total total 0 0 0
      if prevComp ≠ (payload.drop (4 + total * 16)).length then
        throw (corrupt "trailing bytes after the last chunk")
      else do
        let out ← get
        if out.bytes.length - base ≠ uncompressedBytes then
          throw (corrupt "value bytes disagree with meta")
        else pure ()

end FullZip

end Zu.Segment
