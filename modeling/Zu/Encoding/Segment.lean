import Zu.Encoding.Patch
import Zu.Encoding.Frequency
import Zu.Encoding.Dict

/-!
# The cascade

`encodeAuto` reads the values once, prices every encoding that is legal for them off
what that pass found, and encodes with the cheapest, or plainly when that came out
larger than plain. One byte in front says which it was.
-/

namespace Zu.Encoding

open Lib

/-! ### Plain, constant, and binary values -/

namespace Plain

def encode (values : List Word) : Bytes := leBytes 4 values.length ++ wordBytes values

/-- `decode_plain`: the values it appends to `out`. -/
def decode (bytes : Bytes) (maxValues : ℕ) : Except ZuError (List Word) := do
  if bytes.length < 4 then throw (.corrupt "plain" "truncated count")
  let count := fromLe (bytes.take 4)
  if maxValues < count then throw (.corrupt "plain" "count above the caller ceiling")
  if bytes.length < 4 + count * 8 then throw (.corrupt "plain" "truncated body")
  return wordsOf ((bytes.drop 4).take (count * 8))

end Plain

namespace Constant

/-- `encode_constant`, of values that are not empty. -/
def encode (values : List Word) : Bytes :=
  leBytes 4 values.length ++ leBytes 8 (values.headD 0).toNat

/-- `decode_constant`: the values it appends to `out`. -/
def decode (bytes : Bytes) (maxValues : ℕ) : Except ZuError (List Word) := do
  if bytes.length < 12 then throw (.corrupt "constant" "truncated")
  let count := fromLe (bytes.take 4)
  if maxValues < count then throw (.corrupt "constant" "count above the caller ceiling")
  return List.replicate count (BitVec.ofNat 64 (fromLe ((bytes.drop 4).take 8)))

end Constant

namespace BoolBitpack

/-- Up to eight binary values as a byte, the first one lowest. -/
def packByte : List Word → ℕ
  | [] => 0
  | v :: values => v.toNat % 2 + 2 * packByte values

/-- `bool_bitpack::encode`, of values that are 0 or 1. -/
def encode (values : List Word) : Bytes :=
  leBytes 4 values.length ++ (chunks 8 values).map fun chunk => UInt8.ofNat (packByte chunk)

/-- The low `n` bits of a byte, as values. -/
def unpackByte (n : ℕ) (byte : UInt8) : List Word :=
  (List.range n).map fun bit => BitVec.ofNat 64 (byte.toNat / 2 ^ bit % 2)

/-- `bool_bitpack::decode`: the values it appends to `out`. -/
def decode (bytes : Bytes) (maxValues : ℕ) : Except ZuError (List Word) := do
  if bytes.length < 4 then throw (.corrupt "bool_bitpack" "truncated count")
  let count := fromLe (bytes.take 4)
  if maxValues < count then throw (.corrupt "bool_bitpack" "count above the caller ceiling")
  if bytes.length < 4 + (count + 7) / 8 then throw (.corrupt "bool_bitpack" "truncated body")
  let body := (bytes.drop 4).take ((count + 7) / 8)
  let full := count / 8
  return (body.take full).flatMap (unpackByte 8) ++ unpackByte (count % 8) (body.getD full 0)

end BoolBitpack

/-! ### What one pass says -/

inductive EncodingId
  | plain
  | constant
  | rle
  | dict
  | forBitPack
  | deltaBitPack
  | alp
  | alpRd
  | fsst
  | boolBitpack
  | frequency
  | zstd
  | deltaPatch
  deriving DecidableEq, Repr

namespace EncodingId

def toByte : EncodingId → ℕ
  | plain => 0
  | constant => 1
  | rle => 2
  | dict => 3
  | forBitPack => 4
  | deltaBitPack => 5
  | alp => 6
  | alpRd => 7
  | fsst => 8
  | boolBitpack => 9
  | frequency => 10
  | zstd => 11
  | deltaPatch => 12

/-- `EncodingId::try_from`. -/
def ofByte : ℕ → Except ZuError EncodingId
  | 0 => .ok plain
  | 1 => .ok constant
  | 2 => .ok rle
  | 3 => .ok dict
  | 4 => .ok forBitPack
  | 5 => .ok deltaBitPack
  | 6 => .ok alp
  | 7 => .ok alpRd
  | 8 => .ok fsst
  | 9 => .ok boolBitpack
  | 10 => .ok frequency
  | 11 => .ok zstd
  | 12 => .ok deltaPatch
  | other => .error (.unsupported "encoding" other)

end EncodingId

/-- `u64::MAX`. -/
def wordMax : Word := BitVec.allOnes 64

def minWord (a b : Word) : Word := if b.toNat < a.toNat then b else a

def maxWord (a b : Word) : Word := if a.toNat < b.toNat then b else a

/-- `Shape`: what one pass over a chunk says. -/
structure Shape where
  len : ℕ
  min : Word := wordMax
  max : Word := 0
  /-- Every value the same. -/
  constant : Bool := true
  /-- Every value 0 or 1. -/
  binary : Bool := true
  /-- What the frame of reference container costs. -/
  forBytes : ℕ := 4
  /-- The same container over the zigzag deltas. -/
  deltaBytes : ℕ := 4
  /-- The patched container over those deltas. -/
  patchBytes : ℕ := 4
  runs : ℕ := 0
  runLenMin : ℕ := 2 ^ 64 - 1
  runLenMax : ℕ := 0
  /-- Distinct values, or none past the cap of a dictionary. -/
  distinct : Option ℕ := none
  /-- How often the most common value appears. -/
  topCount : ℕ := 0

/-- `Shape::close_run`. -/
def Shape.closeRun (s : Shape) (len : ℕ) : Shape :=
  if 0 < len then
    { s with
      runs := s.runs + 1
      runLenMin := Nat.min s.runLenMin len
      runLenMax := Nat.max s.runLenMax len }
  else s

/-- A pass under way: the value before, and how long the run it is in has been. -/
structure Scan where
  shape : Shape
  prev : Word
  run : ℕ := 0

/-- What a pass keeps of one block. -/
structure BlockScan where
  bmin : Word := wordMax
  bmax : Word := 0
  dmin : Word := wordMax
  dmax : Word := 0
  hist : ℕ → ℕ := fun _ => 0
  wide : ℕ := 0

/-- What a block keeps of a value and the delta that leads to it. -/
def BlockScan.see (b : BlockScan) (v zz : Word) : BlockScan :=
  { bmin := minWord b.bmin v
    bmax := maxWord b.bmax v
    dmin := minWord b.dmin zz
    dmax := maxWord b.dmax zz
    hist := Function.update b.hist (bitsNeeded zz) (b.hist (bitsNeeded zz) + 1)
    wide := Nat.max b.wide (bitsNeeded zz) }

/-- What the pass does with a value. -/
def Scan.see (first : Word) (s : Scan) (v : Word) : Scan :=
  let shape :=
    { s.shape with
      constant := s.shape.constant && decide (v = first)
      binary := s.shape.binary && decide (v.toNat ≤ 1) }
  if v = s.prev ∧ 0 < s.run then { shape, prev := v, run := s.run + 1 }
  else { shape := shape.closeRun s.run, prev := v, run := 1 }

/-- `patch_body`: what the patched container's body costs for one chunk. -/
def patchBodyFrom (hist : ℕ → ℕ) (wide take : ℕ) : ℕ → ℕ × ℕ → ℕ
  | 0, s => s.1
  | width + 1, (best, exceptions) =>
      let exceptions := exceptions + hist (width + 1)
      let cost := packedBytes width take + packedBytes 1 take + packedBytes wide exceptions
      patchBodyFrom hist wide take width (Nat.min best cost, exceptions)

def patchBody (hist : ℕ → ℕ) (wide take : ℕ) : ℕ :=
  patchBodyFrom hist wide take wide (packedBytes wide take + packedBytes 1 take, 0)

/-- What the pass does with a block. -/
def Scan.block (first : Word) (s : Scan) (block : List Word) : Scan :=
  let (s, b) := block.foldl
    (fun (s, b) v => (s.see first v, b.see v (zigzag (v - s.prev)))) (s, ({} : BlockScan))
  { s with
    shape :=
      { s.shape with
        min := minWord s.shape.min b.bmin
        max := maxWord s.shape.max b.bmax
        forBytes := s.shape.forBytes +
          (9 + packedBytes (bitsNeeded (b.bmax - b.bmin)) block.length)
        deltaBytes := s.shape.deltaBytes +
          (9 + packedBytes (bitsNeeded (b.dmax - b.dmin)) block.length)
        patchBytes := s.shape.patchBytes + (2 + patchBody b.hist b.wide block.length) } }

/-- `Shape::read`, of values that are not empty. -/
def Shape.read (values : List Word) : Shape :=
  let first := values.headD 0
  let s := (chunks chunkLen values).foldl (Scan.block first)
    { shape := { len := values.length }, prev := first }
  let counts := count values Dict.maxEntries
  { s.shape.closeRun s.run with distinct := counts.distinct, topCount := counts.topCount }

/-- `for_bytes`: what a frame of reference container costs. -/
def forBytes (count width : ℕ) : ℕ :=
  4 + (count + chunkLen - 1) / chunkLen * 9 + packedBytes width count

/-- `Shape::price`: what an encoding would cost, when the format allows it. -/
def Shape.price (s : Shape) : EncodingId → Option ℕ
  | .boolBitpack => if s.binary then some (4 + (s.len + 7) / 8) else none
  | .forBitPack => some s.forBytes
  | .deltaBitPack => some (8 + s.deltaBytes)
  | .deltaPatch => some (8 + s.patchBytes)
  | .rle => some (8 + Encoding.forBytes s.runs (bitsNeeded (s.max - s.min)) +
      Encoding.forBytes s.runs (bitsNeeded (BitVec.ofNat 64 (s.runLenMax - s.runLenMin))))
  | .dict => s.distinct.map fun d => 4 + Encoding.forBytes d (bitsNeeded (s.max - s.min)) +
      Encoding.forBytes s.len (bitsNeeded (BitVec.ofNat 64 (d - 1)))
  | .frequency => some (16 +
      Encoding.forBytes (s.len - s.topCount) (bitsNeeded (BitVec.ofNat 64 s.len)) +
      Encoding.forBytes (s.len - s.topCount) (bitsNeeded (s.max - s.min)))
  | _ => none

attribute [grind =] Shape.price

/-- The encodings that are priced, ties going to the earlier. -/
def candidates : List EncodingId :=
  [.boolBitpack, .forBitPack, .deltaBitPack, .deltaPatch, .rle, .dict, .frequency]

/-- What a candidate does to the best so far and its price. -/
def Shape.weigh (s : Shape) (best : EncodingId × ℕ) (id : EncodingId) : EncodingId × ℕ :=
  match s.price id with
  | none => best
  | some size => if size < best.2 then (id, size) else best

def choose (values : List Word) : EncodingId :=
  if values = [] then .plain
  else
    let shape := Shape.read values
    if shape.constant then .constant
    else (candidates.foldl shape.weigh (.plain, 4 + values.length * 8)).1

def encodeWith : EncodingId → List Word → Bytes
  | .plain, values => Plain.encode values
  | .constant, values => Constant.encode values
  | .rle, values => Rle.encode values
  | .dict, values => Dict.encode values
  | .forBitPack, values => ForBitpack.encode values
  | .deltaBitPack, values => Delta.encode values
  | .deltaPatch, values => DeltaPatch.encode values
  | .boolBitpack, values => BoolBitpack.encode values
  | .frequency, values => Frequency.encode values
  -- `choose` returns no other
  | _, _ => []

/-- The id that is used, and not only chosen: the sample can mislead, and nothing
larger than plain is shipped. -/
def shipped (values : List Word) : EncodingId :=
  let id := choose values
  if 9 + values.length * 8 < 1 + (encodeWith id values).length then .plain else id

/-- `encode_auto`: what it appends to `out`. -/
def encodeAuto (values : List Word) : Bytes :=
  leBytes 1 (shipped values).toByte ++ encodeWith (shipped values) values

/-- `decode_any`: the values it appends to `out`. -/
def decodeAny (bytes : Bytes) (maxValues : ℕ) : Except ZuError (List Word) :=
  match bytes with
  | [] => .error (.corrupt "segment" "empty")
  | id :: payload => do
      match ← EncodingId.ofByte id.toNat with
      | .plain => Plain.decode payload maxValues
      | .constant => Constant.decode payload maxValues
      | .rle => Rle.decode payload maxValues
      | .dict => Dict.decode payload maxValues
      | .forBitPack => ForBitpack.decode payload maxValues
      | .deltaBitPack => Delta.decode payload maxValues
      | .deltaPatch => DeltaPatch.decode payload maxValues
      | .boolBitpack => BoolBitpack.decode payload maxValues
      | .frequency => Frequency.decode payload maxValues
      | other => throw (.unsupported "segment encoding" other.toByte)

end Zu.Encoding
