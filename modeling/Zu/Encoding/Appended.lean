import Zu.Encoding.Segment
import Zu.Lib.Pull

/-!
# What a decoder leaves in its vector

A decoder appends to a vector of its caller, and here it says what that vector holds
when it fails. Runs and frequencies put it back as it was. A frame of reference, the
deltas over one and the codes of a dictionary append chunk by chunk, and what they
appended before a bad chunk stays.
-/

namespace Zu.Encoding

open Lib ForBitpack

/-- The vector of a caller and whether the decoder returned. -/
abbrev Appended := Except ZuError Unit × List Word

/-- A decoder that checks everything before it appends. -/
def appendAtEnd (x : Except ZuError (List Word)) (out : List Word) : Appended :=
  attempt x out fun values => (.ok (), out ++ values)

/-- A decoder that truncates its vector when it fails. -/
def truncated (out : List Word) (r : Appended) : Appended :=
  match r.1 with
  | .error e => (.error e, r.2.take out.length)
  | .ok _ => r

namespace ForBitpack

def ChunkCursor.step (c : ChunkCursor) :
    Except ZuError (Option ((Word × List Word × ℕ) × ChunkCursor)) :=
  match c.next with
  | .error e => .error e
  | .ok (none, _) => .ok none
  | .ok (some chunk, c) => .ok (some (chunk, c))

variable {σ : Type}

/-- A sink that does not fail. -/
def total (sink : σ → Word → List Word → ℕ → σ) (s : σ) (chunk : Word × List Word × ℕ) :
    Except ZuError Unit × σ := (.ok (), sink s chunk.1 chunk.2.1 chunk.2.2)

/-- `decode_chunks`, and where its sink was left. -/
def decodeChunksInto (bytes : Bytes) (maxValues : ℕ) (sink : σ → Word → List Word → ℕ → σ)
    (s : σ) : Except ZuError Unit × σ :=
  attempt (ChunkCursor.new bytes maxValues) s fun c =>
    pull ChunkCursor.step (total sink) c.remaining c s

/-- What `decode` appends for a chunk. -/
def appendChunk (out : List Word) (min : Word) (scratch : List Word) (take : ℕ) : List Word :=
  out ++ (scratch.take take).map fun v => min + v

/-- `for_bitpack::decode`. -/
def decodeInto (bytes : Bytes) (maxValues : ℕ) (out : List Word) : Appended :=
  decodeChunksInto bytes maxValues appendChunk out

end ForBitpack

namespace Delta

/-- What `decode` appends for a chunk of deltas, and the value before the next. -/
def appendDeltas (s : Word × List Word) (min : Word) (scratch : List Word) (take : ℕ) :
    Word × List Word :=
  let read := undeltas s.1 ((scratch.take take).map fun v => min + v)
  (read.getLastD s.1, s.2 ++ read)

/-- `delta::decode`. -/
def decodeInto (bytes : Bytes) (maxValues : ℕ) (out : List Word) : Appended :=
  if bytes.length < 8 then (.error (.corrupt "delta" "truncated base"), out)
  else
    let base := BitVec.ofNat 64 (fromLe (bytes.take 8))
    let r := decodeChunksInto (bytes.drop 8) maxValues appendDeltas (base, out)
    (r.1, r.2.2)

end Delta

namespace Patch

/-- Where a patched container is: the values left and the bytes left. -/
abbrev Place := ℕ × Bytes

/-- A patched container as a source of chunks. -/
def step (c : Place) : Except ZuError (Option ((List Word × ℕ) × Place)) :=
  if c.1 = 0 then .ok none
  else
    match readChunk c.1 c.2 with
    | .error e => .error e
    | .ok (chunk, bytes) => .ok (some (chunk, (c.1 - chunk.2, bytes)))

/-- What `decode_chunks` finds in front of the chunks. -/
def start (bytes : Bytes) (maxValues : ℕ) : Except ZuError Place :=
  if bytes.length < 4 then .error (.corrupt "patch" "truncated count")
  else
    let count := fromLe (bytes.take 4)
    if maxValues < count then
      .error (.corrupt "patch" s!"claims {count} values, caller allows {maxValues}")
    else .ok (count, bytes.drop 4)

variable {σ : Type}

/-- A sink that does not fail. -/
def total (sink : σ → List Word → ℕ → σ) (s : σ) (chunk : List Word × ℕ) :
    Except ZuError Unit × σ := (.ok (), sink s chunk.1 chunk.2)

/-- `patch::decode_chunks`, and where its sink was left. -/
def decodeChunksInto (bytes : Bytes) (maxValues : ℕ) (sink : σ → List Word → ℕ → σ) (s : σ) :
    Except ZuError Unit × σ :=
  attempt (start bytes maxValues) s fun c => pull step (total sink) c.1 c s

end Patch

namespace DeltaPatch

/-- What `decode` appends for a chunk of deltas, and the value before the next. -/
def appendDeltas (s : Word × List Word) (ds : List Word) (take : ℕ) : Word × List Word :=
  let read := undeltas s.1 (ds.take take)
  (read.getLastD s.1, s.2 ++ read)

/-- `delta_patch::decode`. -/
def decodeInto (bytes : Bytes) (maxValues : ℕ) (out : List Word) : Appended :=
  if bytes.length < 8 then (.error (.corrupt "delta_patch" "truncated base"), out)
  else
    let base := BitVec.ofNat 64 (fromLe (bytes.take 8))
    let r := Patch.decodeChunksInto (bytes.drop 8) maxValues appendDeltas (base, out)
    (r.1, r.2.2)

end DeltaPatch

namespace Dict

/-- Puts the entries in place of their codes, up to the first code that names none. -/
def replaceCodes (dict : List Word) : List Word → Appended
  | [] => (.ok (), [])
  | code :: codes =>
      match dict[code.toNat]? with
      | none => (.error (.corrupt "dict" "code out of range"), code :: codes)
      | some v =>
          let r := replaceCodes dict codes
          (r.1, v :: r.2)

/-- The bytes of the dictionary and those of the codes. -/
def split (bytes : Bytes) : Except ZuError (Bytes × Bytes) :=
  if bytes.length < 4 then .error (.corrupt "dict" "truncated header")
  else
    let dictLen := fromLe (bytes.take 4)
    if bytes.length < 4 + dictLen then .error (.corrupt "dict" "truncated dictionary")
    else .ok ((bytes.drop 4).take dictLen, bytes.drop (4 + dictLen))

/-- `dict::decode`. -/
def decodeInto (bytes : Bytes) (maxValues : ℕ) (out : List Word) : Appended :=
  attempt (split bytes) out fun parts =>
    attempt (ForBitpack.decode parts.1 (min maxEntries maxValues)) out fun dict =>
      let r := ForBitpack.decodeInto parts.2 maxValues out
      match r.1 with
      | .error e => (.error e, r.2)
      | .ok _ =>
          let replaced := replaceCodes dict (r.2.drop out.length)
          (replaced.1, r.2.take out.length ++ replaced.2)

end Dict

/-- The chunks of two cursors in lockstep. -/
def stepBoth (early : ZuError) (c : ChunkCursor × ChunkCursor) :
    Except ZuError (Option (List (Word × Word) × (ChunkCursor × ChunkCursor))) :=
  match c.1.next with
  | .error e => .error e
  | .ok (none, _) => .ok none
  | .ok (some (min, scratch, take), first) =>
      match c.2.next with
      | .error e => .error e
      | .ok (none, _) => .error early
      | .ok (some (min', scratch', take'), second) =>
          .ok (some (((scratch.take (Nat.min take take')).zip scratch').map
            (fun p => (min + p.1, min' + p.2)), (first, second)))

namespace Rle

/-- Appends runs while their total is within the ceiling, and says where it stopped. -/
def pushRunsInto (maxValues : ℕ) (s : ℕ × List Word) : List (Word × Word) →
    Except ZuError Unit × (ℕ × List Word)
  | [] => (.ok (), s)
  | (v, len) :: runs =>
      let total := s.1 + len.toNat
      if 2 ^ 64 ≤ total then (.error (.corrupt "rle" "total length overflow"), s)
      else if maxValues < total then
        (.error (.corrupt "rle" s!"claims {total} values, caller allows {maxValues}"), s)
      else pushRunsInto maxValues (total, s.2 ++ List.replicate len.toNat v) runs

/-- The two containers of a run encoding. -/
def cursors (bytes : Bytes) (maxValues : ℕ) : Except ZuError (ChunkCursor × ChunkCursor) := do
  if bytes.length < 8 then throw (.corrupt "rle" "truncated header")
  let runCount := fromLe (bytes.take 4)
  let valuesLen := fromLe ((bytes.drop 4).take 4)
  if maxValues < runCount then
    throw (.corrupt "rle" s!"claims {runCount} runs, caller allows {maxValues} values")
  if bytes.length < 8 + valuesLen then throw (.corrupt "rle" "truncated values")
  let values ← ChunkCursor.new ((bytes.drop 8).take valuesLen) runCount
  let lengths ← ChunkCursor.new (bytes.drop (8 + valuesLen)) runCount
  if values.count ≠ runCount ∨ lengths.count ≠ runCount then
    throw (.corrupt "rle" "stream length mismatch")
  return (values, lengths)

/-- `rle::decode`. -/
def decodeInto (bytes : Bytes) (maxValues : ℕ) (out : List Word) : Appended :=
  attempt (cursors bytes maxValues) out fun c =>
    let r := pull (stepBoth (.corrupt "rle" "length stream ended early"))
      (pushRunsInto maxValues) c.1.remaining c (0, out)
    truncated out (r.1, r.2.2)

end Rle

namespace Frequency

/-- Puts exceptions back behind the `base` values that were there, and says where it
stopped. -/
def putBackInto (base count : ℕ) (out : List Word) : List (Word × Word) → Appended
  | [] => (.ok (), out)
  | (pos, v) :: rest =>
      if count ≤ pos.toNat then
        (.error (.corrupt "frequency" "position past the value count"), out)
      else putBackInto base count (out.set (base + pos.toNat) v) rest

/-- The count, the dominant value and the two containers. -/
def header (bytes : Bytes) (maxValues : ℕ) :
    Except ZuError (ℕ × Word × (ChunkCursor × ChunkCursor)) := do
  if bytes.length < 16 then throw (.corrupt "frequency" "truncated header")
  let count := fromLe (bytes.take 4)
  let top := BitVec.ofNat 64 (fromLe ((bytes.drop 4).take 8))
  let positionsLen := fromLe ((bytes.drop 12).take 4)
  if maxValues < count then throw (.corrupt "frequency" "count above the caller ceiling")
  if bytes.length < 16 + positionsLen then throw (.corrupt "frequency" "truncated positions")
  let positions ← ChunkCursor.new ((bytes.drop 16).take positionsLen) count
  let values ← ChunkCursor.new (bytes.drop (16 + positionsLen)) count
  if positions.count ≠ values.count then
    throw (.corrupt "frequency" "stream length mismatch")
  return (count, top, positions, values)

/-- `frequency::decode`. -/
def decodeInto (bytes : Bytes) (maxValues : ℕ) (out : List Word) : Appended :=
  attempt (header bytes maxValues) out fun h =>
    truncated out (pull (stepBoth (.corrupt "frequency" "value stream ended early"))
      (putBackInto out.length h.1) h.2.2.1.remaining h.2.2 (out ++ List.replicate h.1 h.2.1))

end Frequency

/-- `decode_any`, with the vector it appends to. -/
def decodeAnyInto (bytes : Bytes) (maxValues : ℕ) (out : List Word) : Appended :=
  match bytes with
  | [] => (.error (.corrupt "segment" "empty"), out)
  | id :: payload =>
      attempt (EncodingId.ofByte id.toNat) out fun
        | .plain => appendAtEnd (Plain.decode payload maxValues) out
        | .constant => appendAtEnd (Constant.decode payload maxValues) out
        | .rle => Rle.decodeInto payload maxValues out
        | .dict => Dict.decodeInto payload maxValues out
        | .forBitPack => ForBitpack.decodeInto payload maxValues out
        | .deltaBitPack => Delta.decodeInto payload maxValues out
        | .deltaPatch => DeltaPatch.decodeInto payload maxValues out
        | .boolBitpack => appendAtEnd (BoolBitpack.decode payload maxValues) out
        | .frequency => Frequency.decodeInto payload maxValues out
        | other => (.error (.unsupported "segment encoding" other.toByte), out)

end Zu.Encoding
