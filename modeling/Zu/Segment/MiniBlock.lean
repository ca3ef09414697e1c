import Zu.Encoding.Segment
import Zu.Segment.Span

/-!
# Packing payloads into blocks

A payload is cut over blocks. Inside a packing scope it starts where the last one
ended, in the same block, and outside of one at the head of a block of its own.
-/

namespace Zu

namespace Segment

open Lib File

/-- `Pack`: the block payloads are being packed into, and how much of it is taken. -/
structure Pack where
  ptr : Word
  block : Bytes
  used : ℕ
  fits : used ≤ blockSize

/-- The file as packing sees it. -/
structure PackFile where
  free : List Word
  blockCount : Word
  blocks : Word → Bytes
  pack : Option Pack

namespace PackFile

def allocateBlock (f : PackFile) : Word × PackFile :=
  match f.free with
  | ptr :: free => (ptr, { f with free })
  | [] => (f.blockCount + 1, { f with blockCount := f.blockCount + 1 })

def writeBlock (f : PackFile) (ptr : Word) (block : Bytes) : PackFile :=
  { f with blocks := Function.update f.blocks ptr block }

/-- `pack_open`, the block before it taken up again by `pack_close`. -/
def packOpen (f : PackFile) : PackFile :=
  { f with pack := some { ptr := 0, block := [], used := blockSize, fits := le_refl _ } }

/-- Fills the block under the cursor, and fresh ones after it. -/
def packLoop (f : PackFile) (ptr : Word) (block : Bytes) (used : ℕ) (h : used < blockSize)
    (rest : Bytes) : List Word × PackFile :=
  let took := min rest.length (blockSize - used)
  let block := overwrite block used (rest.take took)
  let f := f.writeBlock ptr block
  if hrest : rest.drop took = [] then
    ([ptr], { f with pack := some { ptr, block, used := used + took, fits := by omega } })
  else
    let next := f.allocateBlock
    let more := packLoop next.2 next.1 (zeros blockSize) 0 (Nat.succ_pos _) (rest.drop took)
    (ptr :: more.1, more.2)
termination_by rest.length
decreasing_by
  have hne : rest.length ≠ 0 := by
    intro hzero
    exact hrest (List.drop_eq_nil_of_le (by omega))
  rw [List.length_drop]
  omega

def wholeBlocks : PackFile → List Bytes → List Word × PackFile
  | f, [] => ([], f)
  | f, part :: parts =>
      let next := f.allocateBlock
      let more := wholeBlocks
        (next.2.writeBlock next.1 (part ++ zeros (blockSize - part.length))) parts
      (next.1 :: more.1, more.2)

/-- `pack_bytes`: the blocks a payload is laid over, where in the first of them it starts,
and the file with it. -/
def packBytes (f : PackFile) (payload : Bytes) : List Word × ℕ × PackFile :=
  if payload = [] then ([], 0, f)
  else
    match f.pack with
    | none =>
        let whole := f.wholeBlocks (Lib.chunks blockSize payload)
        (whole.1, 0, whole.2)
    | some pack =>
        if h : pack.used = blockSize then
          let next := f.allocateBlock
          let laid := next.2.packLoop next.1 (zeros blockSize) 0 (Nat.succ_pos _) payload
          (laid.1, 0, laid.2)
        else
          let laid := f.packLoop pack.ptr pack.block pack.used
            (Nat.lt_of_le_of_ne pack.fits h) payload
          (laid.1, pack.used, laid.2)

theorem blockSize_pos : 0 < blockSize := Nat.succ_pos _

theorem length_packLoop (f : PackFile) (ptr : Word) (block : Bytes) (used : ℕ)
    (h : used < blockSize) {rest : Bytes} (hrest : rest ≠ []) :
    (f.packLoop ptr block used h rest).1.length = divCeil (used + rest.length) blockSize := by
  have hsize : blockSize = 32768 := rfl
  have hpos := List.length_pos_of_ne_nil hrest
  fun_induction packLoop f ptr block used h rest with
  | case1 f ptr block used h rest took _ _ hdone =>
      have hle : rest.length ≤ took := List.drop_eq_nil_iff.1 hdone
      have htook : took = min rest.length (blockSize - used) := rfl
      rw [List.length_singleton, divCeil]
      rw [hsize] at h htook ⊢
      omega
  | case2 f ptr block used h rest took _ _ hmore _ _ ih =>
      have hlt : took < rest.length := by
        by_contra hle
        exact hmore (List.drop_eq_nil_of_le (Nat.le_of_not_lt hle))
      have hcut : (rest.drop took).length = rest.length - took := List.length_drop
      have hnext := ih hmore (List.length_pos_of_ne_nil hmore)
      have htook : took = min rest.length (blockSize - used) := rfl
      rw [List.length_cons, hnext, divCeil, divCeil, hcut]
      rw [hsize] at h htook ⊢
      omega

theorem length_wholeBlocks (f : PackFile) (parts : List Bytes) :
    (f.wholeBlocks parts).1.length = parts.length := by
  induction parts generalizing f with
  | nil => rfl
  | cons part parts ih => rw [wholeBlocks, List.length_cons, ih, List.length_cons]

/-- A payload is given the blocks it needs from where it starts, and no more. -/
theorem packBytes_blocks (f : PackFile) (payload : Bytes) :
    (f.packBytes payload).2.1 < blockSize ∧
      (f.packBytes payload).1.length =
        divCeil ((f.packBytes payload).2.1 + payload.length) blockSize := by
  rw [packBytes]
  split
  case isTrue hnil =>
    rw [hnil]
    constructor
    · exact blockSize_pos
    · exact (by decide : 0 = divCeil (0 + 0) blockSize)
  case isFalse hne =>
    split
    case h_1 =>
      constructor
      · exact blockSize_pos
      · rw [length_wholeBlocks, length_chunks blockSize_pos, divCeil, Nat.zero_add,
          Nat.add_sub_assoc blockSize_pos]
    case h_2 pack _ =>
      split
      case isTrue =>
        constructor
        · exact blockSize_pos
        · exact length_packLoop _ _ _ _ _ hne
      case isFalse h =>
        constructor
        · exact Nat.lt_of_le_of_ne pack.fits h
        · exact length_packLoop _ _ _ _ _ hne

end PackFile

end Segment

end Zu

/-!
## Segments of words

The payload of a segment of words: where its chunks end, the last value of each, and the
chunks, each in the encoding its values are smallest in. A rewrite copies the chunks
nothing was written to.
-/

namespace Zu

namespace Segment

open Lib Encoding

namespace MiniBlock

def corrupt (detail : String) : ZuError := .corrupt "segment" detail

/-! ### Reading -/

def readPayload (crc32c : Bytes → BitVec 32) (pin : Pin) (m : SegmentMeta) : Reads :=
  Segment.readPayload crc32c pin .miniBlock corrupt "MiniBlock reader given a FullZip segment" m

def indexAndBody (m : SegmentMeta) (payload : Bytes) : Except ZuError (Bytes × Bytes) :=
  if payload.length < 4 then .error (corrupt "truncated index")
  else if field payload 0 4 ≠ m.chunkCount then .error (corrupt "chunk count disagrees with meta")
  else if payload.length < 4 + m.chunkCount * 4 then .error (corrupt "truncated index")
  else if payload.length < 4 + m.chunkCount * 4 + m.chunkCount * 8 then
    .error (corrupt "truncated fences")
  else
    .ok ((payload.drop 4).take (m.chunkCount * 4),
      payload.drop (4 + m.chunkCount * 4 + m.chunkCount * 8))

/-- The values of a chunk of `rows`, which its bytes may not be an encoding of. -/
def decodeChunkOf (bytes : Bytes) (rows : ℕ) : Except ZuError (List Word) := do
  let values ← decodeAny bytes rows
  if values.length ≠ rows then .error (corrupt "chunk count disagrees with meta") else .ok values

/-- The loop of `read_segment` from the chunk `i` on, and where the last one ends. -/
def readChunks (m : SegmentMeta) (index fences body : Bytes) :
    ℕ → ℕ → ℕ → Except ZuError (List Word × ℕ)
  | 0, _, prev => .ok ([], prev)
  | n + 1, i, prev =>
      let stop := field index (i * 4) 4
      if stop < prev ∨ body.length < stop then .error (corrupt "chunk index not monotone")
      else do
        let values ← decodeChunkOf ((body.drop prev).take (stop - prev)) (m.rowsOf i)
        if (values.getLastD 0).toNat ≠ field fences (i * 8) 8 then
          .error (corrupt "fence disagrees with chunk")
        else do
          let rest ← readChunks m index fences body n (i + 1) stop
          .ok (values ++ rest.1, rest.2)

/-- `read_segment`: the values it appends. -/
def readSegment (crc32c : Bytes → BitVec 32) (pin : Pin) (m : SegmentMeta) :
    Checked ZuError (List Word) := do
  let payload ← readPayload crc32c pin m
  Checked.ofExcept do
    let parts ← indexAndBody m payload
    let fences := (payload.drop (4 + m.chunkCount * 4)).take (m.chunkCount * 8)
    let chunks ← readChunks m parts.1 fences parts.2 m.chunkCount 0 0
    if chunks.2 ≠ parts.2.length then .error (corrupt "trailing bytes after last chunk")
    else if 0 < m.valueCount.toNat ∧ (least chunks.1 ≠ m.min ∨ greatest chunks.1 ≠ m.max) then
      .error (corrupt "zone disagrees with values")
    else .ok chunks.1

/-! ### Writing -/

/-- A payload under way. -/
structure Laid where
  body : Bytes := []
  ends : List ℕ := []
  fences : List Word := []

/-- What the writers do after the bytes of a chunk are on the body. No chunk is empty. -/
def pushChunk (l : Laid) (chunk : List Word) (bytes : Bytes) : Except ZuError Laid :=
  let body := l.body ++ bytes
  if 2 ^ 32 - 1 < body.length then
    .error (.invalidArgument "segment body exceeds the u32 chunk index range")
  else .ok { body, ends := l.ends ++ [body.length], fences := l.fences ++ [chunk.getLastD 0] }

/-- `store`: the payload, placed, and the meta of it. -/
def store (crc32c : Bytes → BitVec 32) (f : PackFile) (values : List Word) (l : Laid) :
    Checked ZuError (SegmentMeta × PackFile) := do
  Checked.withCapacity (4 + l.ends.length * 12 + l.body.length) 1
  let payload := leBytes 4 l.ends.length ++ (l.ends.flatMap (leBytes 4) ++
    ((l.fences.flatMap fun w => leBytes 8 w.toNat) ++ l.body))
  let placed := f.packBytes payload
  .ok ({ valueCount := BitVec.ofNat 64 values.length
         payloadLen := BitVec.ofNat 64 payload.length
         uncompressedBytes := BitVec.ofNat 64 (values.length * 8)
         min := least values
         max := greatest values
         crc := crc32c payload
         structural := .miniBlock
         sorted := decide (values.IsChain (· ≤ ·))
         start := BitVec.ofNat 32 placed.2.1
         blocks := placed.1 }, placed.2.2)

def writeSegment (crc32c : Bytes → BitVec 32) (f : PackFile) (values : Slice Word 8) :
    Checked ZuError (SegmentMeta × PackFile) := do
  let laid ← Checked.ofExcept ((chunks chunkRows values.items).foldlM
    (fun l chunk => pushChunk l chunk (encodeAuto chunk)) {})
  store crc32c f values.items laid

/-- The old chunk `i`, where it is kept, and where the chunks before the next one end. -/
def oldChunk (old : SegmentMeta) (index body : Bytes) (dirty : Finset ℕ) (i prev rows : ℕ) :
    Except ZuError (Option Bytes × ℕ) :=
  if i < old.chunkCount then
    let stop := field index (i * 4) 4
    if stop < prev ∨ body.length < stop then .error (corrupt "chunk index not monotone")
    else if i ∉ dirty ∧ old.rowsOf i = rows then
      .ok (some ((body.drop prev).take (stop - prev)), stop)
    else .ok (none, stop)
  else .ok (none, prev)

/-- The loop of `rewrite_segment` from the chunk `i` on. -/
def rewriteChunks (old : SegmentMeta) (index body : Bytes) (dirty : Finset ℕ) :
    ℕ → ℕ → Laid → List (List Word) → Except ZuError Laid
  | _, _, l, [] => .ok l
  | i, prev, l, chunk :: rest => do
      let kept ← oldChunk old index body dirty i prev chunk.length
      let l ← pushChunk l chunk (kept.1.getD (encodeAuto chunk))
      rewriteChunks old index body dirty (i + 1) kept.2 l rest

def rewriteSegment (crc32c : Bytes → BitVec 32) (pin : Pin) (f : PackFile) (old : SegmentMeta)
    (values : Slice Word 8) (dirty : Finset ℕ) : Checked ZuError (SegmentMeta × PackFile) :=
  if old.structural ≠ .miniBlock then writeSegment crc32c f values
  else do
    let payload ← readPayload crc32c pin old
    let parts ← Checked.ofExcept (indexAndBody old payload)
    let laid ← Checked.ofExcept
      (rewriteChunks old parts.1 parts.2 dirty 0 0 {} (chunks chunkRows values.items))
    store crc32c f values.items laid

end MiniBlock

end Segment

end Zu
