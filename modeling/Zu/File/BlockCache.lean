import Zu.File.Chain
import Zu.Lib.Checked

/-!
# The block cache

Blocks are read through frames that are kept in shards: a map from a block to the slot
it is in, the slots, and a hand that looks for a slot to take when a shard is full. A
pin keeps a frame alive. A write of a block makes its shard forget it, so what is
mapped is what the file holds.
-/

namespace Zu.File

open Lib

def shards : ℕ := 64

/-- An allocation of a block's bytes. -/
abbrev Frame := ℕ

/-- `Slot`: a frame and the block it holds, `NULL_BLOCK` for none. -/
structure Slot where
  ptr : BlockPtr
  visited : Bool
  frame : Frame

structure Shard where
  map : BlockPtr → Option ℕ := fun _ => none
  slots : List Slot := []
  hand : ℕ := 0

namespace Shard

def put (s : Shard) (i : ℕ) (slot : Slot) : Shard := { s with slots := s.slots.set i slot }

/-- Forgets the block a slot holds. -/
def vacate (s : Shard) (i : ℕ) (slot : Slot) : Shard where
  map := if slot.ptr = nullBlock then s.map else Function.update s.map slot.ptr none
  slots := s.slots.set i { slot with ptr := nullBlock }
  hand := s.hand

def occupy (s : Shard) (i : ℕ) (slot : Slot) (ptr : BlockPtr) : Shard where
  map := Function.update s.map ptr (some i)
  slots := s.slots.set i { slot with ptr, visited := false }
  hand := s.hand

def push (s : Shard) (frame : Frame) : Shard :=
  { s with slots := s.slots ++ [{ ptr := nullBlock, visited := false, frame }] }

def advance (s : Shard) : Shard := { s with hand := (s.hand + 1) % s.slots.length }

/-- The looks of the hand that are left: a visited slot is unvisited, a pinned one is
passed, and the first other one is emptied and taken. -/
def sweep (pinned : Frame → Prop) [DecidablePred pinned] :
    ℕ → Shard → Checked ZuError (Option ℕ × Shard)
  | 0, s => .ok (none, s)
  | n + 1, s => do
      let slot ← Checked.index s.slots s.hand
      if slot.visited then
        sweep pinned n (s.advance.put s.hand { slot with visited := false })
      else if pinned slot.frame then sweep pinned n s.advance
      else .ok (some s.hand, s.advance.vacate s.hand slot)

/-- `evict`: two full sweeps. -/
def evict (pinned : Frame → Prop) [DecidablePred pinned] (s : Shard) :
    Checked ZuError (Option ℕ × Shard) := s.sweep pinned (2 * s.slots.length)

def remove (s : Shard) (ptr : BlockPtr) : Checked ZuError Shard :=
  match s.map ptr with
  | none => .ok s
  | some i => do
      let slot ← Checked.index s.slots i
      .ok { s with
        map := Function.update s.map ptr none
        slots := s.slots.set i { slot with ptr := nullBlock, visited := false } }

end Shard

/-- The file, the cache over it, the bytes of every frame there is, and who holds one:
pins that were handed out, and the pin the handle keeps of the last block it read. -/
structure Cached where
  disk : BlockPtr → Bytes
  blockCount : ℕ
  perShard : ℕ
  shard : ℕ → Shard
  bytes : Frame → Bytes
  fresh : Frame
  pins : List Frame
  memo : Option (BlockPtr × Frame)

namespace Cached

/-- A frame someone but its slot holds: its count is above one. -/
def Pinned (c : Cached) (f : Frame) : Prop := f ∈ c.pins ∨ f ∈ c.memo.map Prod.snd

instance (c : Cached) : DecidablePred c.Pinned := fun _ => instDecidableOr

/-- `BlockCache::new`, under a budget of bytes, on a file. -/
def new (budget : ℕ) (disk : BlockPtr → Bytes) (blockCount : ℕ) : Cached where
  disk
  blockCount
  perShard := (max (budget / blockSize) shards + shards - 1) / shards
  shard := fun _ => {}
  bytes := fun _ => []
  fresh := 0
  pins := []
  memo := none

def setShard (c : Cached) (ptr : BlockPtr) (s : Shard) : Cached :=
  { c with shard := Function.update c.shard (ptr % shards) s }

def home (c : Cached) (ptr : BlockPtr) : Shard := c.shard (ptr % shards)

def fill (c : Cached) (f : Frame) (data : Bytes) : Cached :=
  { c with bytes := Function.update c.bytes f data }

def pin (c : Cached) (f : Frame) : Cached := { c with pins := f :: c.pins }

/-- A hit: the slot is visited, and its frame pinned. -/
def hit (c : Cached) (ptr : BlockPtr) (i : ℕ) : Checked ZuError (Frame × Cached) := do
  let slot ← Checked.index (c.home ptr).slots i
  .ok (slot.frame, (c.setShard ptr ((c.home ptr).put i { slot with visited := true })).pin slot.frame)

/-- What reading a block off the file comes to: its bytes, or a failure that leaves
something in the frame. -/
abbrev Fill := Option Bytes

/-- What is in the frame after it. -/
def Fill.left (torn : Fill) (data : Bytes) : Bytes := torn.getD data

/-- `insert`, into the slot `i`. -/
def insertAt (c : Cached) (ptr : BlockPtr) (i : ℕ) (torn : Fill) :
    Checked ZuError (Option Frame × Cached) := do
  let slot ← Checked.index (c.home ptr).slots i
  if c.Pinned slot.frame then .error .panicked
  else
    let c := c.fill slot.frame (torn.left (c.disk ptr))
    if torn.isSome then
      .ok (none, c.setShard ptr ((c.home ptr).put i { slot with ptr := nullBlock }))
    else .ok (some slot.frame, (c.setShard ptr ((c.home ptr).occupy i slot ptr)).pin slot.frame)

/-- `insert`, past the pool: the frame is in no slot. -/
def transient (c : Cached) (ptr : BlockPtr) (torn : Fill) : Option Frame × Cached :=
  let c' := { c.fill c.fresh (torn.left (c.disk ptr)) with fresh := c.fresh + 1 }
  if torn.isSome then (none, c') else (some c.fresh, c'.pin c.fresh)

/-- A new frame in a new slot. -/
def grow (c : Cached) (ptr : BlockPtr) : Cached :=
  { c.setShard ptr ((c.home ptr).push c.fresh) with fresh := c.fresh + 1 }

/-- `insert`. No frame is handed out where the fill failed. -/
def insert (c : Cached) (ptr : BlockPtr) (torn : Fill) :
    Checked ZuError (Option Frame × Cached) :=
  match (c.home ptr).map ptr with
  | some i => do
      let (f, c) ← c.hit ptr i
      .ok (some f, c)
  | none =>
      if (c.home ptr).slots.length < c.perShard then
        (c.grow ptr).insertAt ptr (c.home ptr).slots.length torn
      else do
        let (taken, s) ← (c.home ptr).evict c.Pinned
        match taken with
        | some i => (c.setShard ptr s).insertAt ptr i torn
        | none => .ok ((c.setShard ptr s).transient ptr torn)

/-- A read through the cache: `get`, and `insert` on a miss. -/
def fetch (c : Cached) (ptr : BlockPtr) (torn : Fill) :
    Checked ZuError (Option Frame × Cached) :=
  match (c.home ptr).map ptr with
  | some i => do
      let (f, c) ← c.hit ptr i
      .ok (some f, c)
  | none => c.insert ptr torn

/-- Keeps a pin of the block that was read. -/
def remember (c : Cached) (ptr : BlockPtr) (f : Frame) : Cached := { c with memo := some (ptr, f) }

/-- `pin_block`: the kept pin answers for its block, and the cache for the others. -/
def pinBlock (c : Cached) (ptr : BlockPtr) (torn : Fill) :
    Checked ZuError (Option Frame × Cached) := do
  Checked.ofExcept (checkPtr c.blockCount ptr)
  match c.memo with
  | some (p, f) =>
      if p = ptr then .ok (some f, c.pin f)
      else do
        let (got, c) ← c.fetch ptr torn
        .ok (got, got.elim c (c.remember ptr))
  | none => do
      let (got, c) ← c.fetch ptr torn
      .ok (got, got.elim c (c.remember ptr))

/-- `write_block`, of a block of the right size. A write that fails leaves something in
the block. -/
def writeBlock (c : Cached) (ptr : BlockPtr) (data : Bytes) (torn : Fill) :
    Checked ZuError Cached := do
  Checked.ofExcept (checkPtr c.blockCount ptr)
  let s ← (c.home ptr).remove ptr
  .ok { ({ c with memo := none }).setShard ptr s with
    disk := Function.update c.disk ptr (torn.left data) }

end Cached

/-- What can be done with a cached file: a read by the handle that writes it, a read by
another handle on the same cache, a write, a block more, a pin copied, and a pin dropped. -/
inductive CacheOp
  | pin (ptr : BlockPtr) (torn : Cached.Fill)
  | peer (ptr : BlockPtr) (torn : Cached.Fill)
  | write (ptr : BlockPtr) (data : Bytes) (torn : Cached.Fill)
  | allocate
  | clone (f : Frame)
  | unpin (f : Frame)

namespace CacheOp

/-- One operation: the frame it hands out, if any. -/
def run (c : Cached) : CacheOp → Checked ZuError (Option Frame × Cached)
  | .pin ptr torn => c.pinBlock ptr torn
  | .peer ptr torn => do
      Checked.ofExcept (checkPtr c.blockCount ptr)
      c.fetch ptr torn
  | .write ptr data torn => do
      let c ← c.writeBlock ptr data torn
      .ok (none, c)
  | .allocate => .ok (none, { c with blockCount := c.blockCount + 1 })
  | .clone f => .ok (if f ∈ c.pins then (some f, c.pin f) else (none, c))
  | .unpin f => .ok (none, { c with pins := c.pins.erase f })

/-- The same, where a refusal leaves everything as it was. -/
def step (c : Cached) (op : CacheOp) : Checked ZuError (Option Frame × Cached) :=
  match op.run c with
  | .ok out => .ok out
  | .error (.refused _) => .ok (none, c)
  | .error .panicked => .error .panicked

/-- One operation after another. -/
def runAll (c : Cached) : List CacheOp → Checked ZuError Cached
  | [] => .ok c
  | op :: ops => do
      let (_, c) ← op.step c
      runAll c ops

end CacheOp

end Zu.File
