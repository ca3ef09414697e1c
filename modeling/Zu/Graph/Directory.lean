import Zu.File.Chain

/-!
# The directories of a graph's tables

A node table's storage is a property directory; a rel table's is a group
directory, which may name a property directory of its own. A directory names the
blocks its segments live in. `SegmentMeta β` is a segment whose blocks are given
as `β`: block pointers in what the file holds, and what is in the blocks in what
a reader finds.
-/

namespace Zu.Graph

open Lib

export File (BlockPtr nullBlock)

inductive Structural
  | miniBlock
  | fullZip
  | stride
  deriving DecidableEq, Repr

structure SegmentMeta (β : Type) where
  valueCount : ℕ
  payloadLen : ℕ
  uncompressedBytes : ℕ
  min : ℕ
  max : ℕ
  crc : UInt32
  structural : Structural
  sorted : Bool
  /-- Byte offset the payload starts at inside the first block. -/
  start : ℕ
  blocks : List β
  deriving DecidableEq

/-- `LogicalType`, as far as the planes of a column depend on it: any other type is
carried as it is encoded. -/
inductive LogicalType
  | zonedTime
  | zonedDatetime
  | other (encoded : Bytes)
  deriving DecidableEq, Repr

/-- `zoned`: whether a column of the type carries a zone plane. -/
def LogicalType.zoned : LogicalType → Bool
  | .zonedTime | .zonedDatetime => true
  | .other _ => false

/-- `PropColumn`, with its `meta` as `colMeta`. -/
@[ext] structure PropColumn (β : Type) where
  name : String
  ty : LogicalType
  colMeta : SegmentMeta β
  /-- One bit per row; `none` is a column with a value in every row. -/
  validity : Option (SegmentMeta β)
  fixedLen : Option ℕ
  countWidth : ℕ
  /-- One word a row, the offset from UTC the row's value was written with. -/
  zones : Option (SegmentMeta β)
  /-- The type says whether the plane is there. -/
  zones_isSome : zones.isSome = ty.zoned
  deriving DecidableEq

/-- `PropsDirectory`. -/
@[ext] structure PropsDirectory (β : Type) where
  nodeCount : ℕ
  columns : List (PropColumn β)
  /-- The label bitset, one word per row. -/
  labels : Option (SegmentMeta β)
  deriving DecidableEq

/-- `KeyIndex`. -/
structure KeyIndex (β : Type) where
  keys : SegmentMeta β
  rows : SegmentMeta β
  deriving DecidableEq

structure DirectionMeta (β : Type) where
  offsets : SegmentMeta β
  neighbors : SegmentMeta β
  deriving DecidableEq

structure GroupMeta (β : Type) where
  rowCount : ℕ
  edgeBase : ℕ
  fwd : DirectionMeta β
  bwd : DirectionMeta β
  deriving DecidableEq

/-- `Directory`, with its edge properties given as `π`: the root of their directory
in what the file holds, and that directory in what a reader finds. -/
structure Directory (β π : Type) where
  fromCount : ℕ
  toCount : ℕ
  edgeCount : ℕ
  keys : Option (KeyIndex β)
  props : π
  groups : List (GroupMeta β)
  deriving DecidableEq

/-! ### The segments of a directory -/

section

variable {β γ δ π ρ : Type}

/-- The payloads of a column besides its zone plane. -/
def PropColumn.planes (c : PropColumn β) : List (SegmentMeta β) := c.colMeta :: c.validity.toList

def PropColumn.segments (c : PropColumn β) : List (SegmentMeta β) :=
  c.planes ++ c.zones.toList

/-- The label bitset, and the payloads of the columns besides their zone planes. -/
def PropsDirectory.planes (d : PropsDirectory β) : List (SegmentMeta β) :=
  d.labels.toList ++ d.columns.flatMap PropColumn.planes

def PropsDirectory.zonePlanes (d : PropsDirectory β) : List (SegmentMeta β) :=
  d.columns.flatMap fun c => c.zones.toList

/-- Every payload of a property directory. -/
def PropsDirectory.segments (d : PropsDirectory β) : List (SegmentMeta β) :=
  d.labels.toList ++ d.columns.flatMap PropColumn.segments

def KeyIndex.segments (k : KeyIndex β) : List (SegmentMeta β) := [k.keys, k.rows]

def GroupMeta.segments (g : GroupMeta β) : List (SegmentMeta β) :=
  [g.fwd.offsets, g.bwd.offsets, g.fwd.neighbors, g.bwd.neighbors]

/-- Every payload of a group directory. -/
def Directory.segments (d : Directory β π) : List (SegmentMeta β) :=
  d.keys.toList.flatMap KeyIndex.segments ++ d.groups.flatMap GroupMeta.segments

def blocksOf (segs : List (SegmentMeta β)) : List β := segs.flatMap SegmentMeta.blocks

/-! ### The same directory over other blocks -/

def SegmentMeta.map (f : β → γ) (m : SegmentMeta β) : SegmentMeta γ :=
  { valueCount := m.valueCount, payloadLen := m.payloadLen,
    uncompressedBytes := m.uncompressedBytes, min := m.min, max := m.max, crc := m.crc,
    structural := m.structural, sorted := m.sorted, start := m.start,
    blocks := m.blocks.map f }

/-- A column with its zone plane over blocks of its own. -/
def PropColumn.bimap (f g : β → γ) (c : PropColumn β) : PropColumn γ :=
  { name := c.name, ty := c.ty, colMeta := c.colMeta.map f,
    validity := c.validity.map (SegmentMeta.map f), fixedLen := c.fixedLen,
    countWidth := c.countWidth, zones := c.zones.map (SegmentMeta.map g),
    zones_isSome := by rw [Option.isSome_map, c.zones_isSome] }

def PropsDirectory.bimap (f g : β → γ) (d : PropsDirectory β) : PropsDirectory γ :=
  { nodeCount := d.nodeCount, columns := d.columns.map (PropColumn.bimap f g),
    labels := d.labels.map (SegmentMeta.map f) }

def PropsDirectory.map (f : β → γ) : PropsDirectory β → PropsDirectory γ :=
  PropsDirectory.bimap f f

def KeyIndex.map (f : β → γ) (k : KeyIndex β) : KeyIndex γ :=
  { keys := k.keys.map f, rows := k.rows.map f }

def DirectionMeta.map (f : β → γ) (m : DirectionMeta β) : DirectionMeta γ :=
  { offsets := m.offsets.map f, neighbors := m.neighbors.map f }

def GroupMeta.map (f : β → γ) (g : GroupMeta β) : GroupMeta γ :=
  { rowCount := g.rowCount, edgeBase := g.edgeBase, fwd := g.fwd.map f, bwd := g.bwd.map f }

def Directory.map (f : β → γ) (props : ρ) (d : Directory β π) : Directory γ ρ :=
  { fromCount := d.fromCount, toCount := d.toCount, edgeCount := d.edgeCount,
    keys := d.keys.map (KeyIndex.map f), props, groups := d.groups.map (GroupMeta.map f) }

end

end Zu.Graph
