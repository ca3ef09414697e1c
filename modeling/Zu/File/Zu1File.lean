import Zu.File.Chain

/-!
# An open database file

`Zu1File` is a handle: the header it works from, the lists blocks move between,
and what an open transaction holds. Blocks are written as they are staged; a
checkpoint writes the list of free blocks, syncs, and flips the header into the
slot that is not in use. Caches, packing scopes and forked handles are left out.
-/

namespace Zu.File

open Lib

/-- `Interrupted`: what a transaction the process died inside left on a file. -/
structure Interrupted where
  published : Epoch
  logFloor : Epoch
  deriving DecidableEq, Repr

/-- `Savepoint`: what a file looked like before a transaction started. -/
structure Savepoint where
  db : DatabaseHeader
  free : List BlockPtr
  freeChain : List BlockPtr
  /-- The blocks the transaction may write into. -/
  reusable : List BlockPtr
  logFloor : Epoch
  /-- Whether the kept state is on disk. -/
  marked : Bool := false
  acrossStatements : Bool
  published : Bool := false
  beganAt : Epoch
  deriving DecidableEq, Repr

/-- `Zu1File`. -/
@[ext] structure Zu1File where
  device : Device
  path : String
  db : DatabaseHeader
  activeSlot : Fin 2
  /-- Free blocks, reusable at once. -/
  free : List BlockPtr := []
  /-- Freed since the last checkpoint, and still reached by the header on disk. -/
  pendingFree : List BlockPtr := []
  /-- The blocks of the committed free-list chain. -/
  freeChain : List BlockPtr := []
  /-- Free blocks a transaction may not write into. -/
  frozen : List BlockPtr := []
  writable : Bool := true
  savepoint : Option Savepoint := none
  /-- Free blocks that an older epoch still reads, with that epoch. -/
  retained : List (Epoch × List BlockPtr) := []
  deferReclaim : Bool := false
  /-- Blocks allocated since the last checkpoint. -/
  unpublished : ℕ := 0
  interrupted : Option Interrupted := none

/-- A program over an open file. -/
abbrev FileM := Fallible ZuError Zu1File

def Zu1File.withDevice (f : Zu1File) (device : Device) : Zu1File := { f with device }

/-- Runs a program over the file's device. -/
def onDevice {α : Type} (x : Fallible ZuError Device α) : FileM α := fun f =>
  ((x f.device).1, f.withDevice (x f.device).2)

def writeAllAt (w : Write) : FileM Unit := onDevice (CrashDisk.write .io w)

def syncAll : FileM Unit := onDevice (CrashDisk.sync .io)

/-- A check that changes nothing. -/
def check (e : Except ZuError Unit) : FileM Unit :=
  match e with
  | .ok _ => pure ()
  | .error err => throw err

def checkWritable (what : String) : FileM Unit := do
  let f ← get
  if f.writable then pure ()
  else throw (.invalidArgument s!"{what} on {f.path}, which is open read-only")

/-- The largest block count whose last block has a byte offset. -/
def maxBlockCount : ℕ := (2 ^ 64 - 1) / blockSize

/-- `DatabaseHeader::decode`, of a slot whose checksum holds or does not. -/
def decodeSlot (slot : Option DatabaseHeader) : Option DatabaseHeader :=
  slot.filter fun h => h.blockCount ≤ maxBlockCount

def decodeMarker (slot : Option Marker) : Option Marker :=
  slot.filter fun m => m.1.blockCount ≤ maxBlockCount

/-- The valid header with the highest epoch, and its slot. -/
def newestSlot (d : Disk) : Option (DatabaseHeader × Fin 2) :=
  match decodeSlot (d.slots 0), decodeSlot (d.slots 1) with
  | some a, some b => if b.epoch ≤ a.epoch then some (a, 0) else some (b, 1)
  | some a, none => some (a, 0)
  | none, some b => some (b, 1)
  | none, none => none

/-- The header an open adopts, and what a transaction left open: the kept header,
unless nothing the transaction did is published. -/
def adoptHeader (db : DatabaseHeader) (marker : Option Marker) :
    DatabaseHeader × Option Interrupted :=
  match decodeMarker marker with
  | some (held, logFloor) =>
      if held.epoch ≤ db.epoch then
        (held, some { published := db.epoch, logFloor })
      else (db, some { published := db.epoch, logFloor })
  | none => (db, none)

section

variable (crc : Bytes → UInt32)

def loadFreeList (db : DatabaseHeader) (blocks : BlockPtr → Bytes) :
    Except ZuError (List BlockPtr × List BlockPtr) :=
  if db.freeListRoot = nullBlock then .ok ([], [])
  else do
    let bytes ← readChain crc db.blockCount blocks db.freeListRoot
    let free ← decodeFreeList bytes db.blockCount
    let freeChain ← chainBlocks crc db.blockCount blocks db.freeListRoot
    return (free, freeChain)

def openKind (path : String) (writable : Bool) (device : Device) :
    Except ZuError Zu1File :=
  match newestSlot device.view with
  | none =>
      .error (.corrupt "database header" s!"{path}: no valid header in either slot")
  | some (newest, activeSlot) => do
      let (db, interrupted) := adoptHeader newest device.view.marker
      let (free, freeChain) ← loadFreeList crc db device.view.blocks
      return { device, path, db, activeSlot, free, freeChain, writable, interrupted }

/-- `create_on`, on a file that holds its file header and nothing else. -/
def create (path : String) : Zu1File :=
  let db : DatabaseHeader := { epoch := 1 }
  { device :=
      { durable := { slots := Function.update (fun _ => none) 0 (some db), marker := none,
                     blocks := fun _ => [] }
        pending := [], plan := [] }
    path, db, activeSlot := 0 }

/-- `allocate_block`: a free block when there is one, and otherwise one past the
high-water mark. -/
def allocateBlock : FileM BlockPtr := do
  modify fun f => { f with unpublished := f.unpublished + 1 }
  let f ← get
  match f.free.getLast? with
  | some ptr =>
      set { f with free := f.free.dropLast }
      return ptr
  | none =>
      set { f with db := { f.db with blockCount := f.db.blockCount + 1 } }
      return f.db.blockCount + 1

def freeBlock (ptr : BlockPtr) : FileM Unit := do
  let f ← get
  check (checkPtr f.db.blockCount ptr)
  set { f with pendingFree := f.pendingFree ++ [ptr] }

/-- `write_block`, of a block of the right size. -/
def writeBlock (ptr : BlockPtr) (data : Bytes) : FileM Unit := do
  checkWritable "write"
  let f ← get
  check (checkPtr f.db.blockCount ptr)
  writeAllAt (.block ptr data)

def allocateBlocks : List Bytes → FileM (List (BlockPtr × Bytes))
  | [] => pure []
  | part :: parts => do
      let ptr ← allocateBlock
      let links ← allocateBlocks parts
      return (ptr, part) :: links

/-- Writes the blocks of a chain, each with the one after it as its next. -/
def writeLinks : List (BlockPtr × Bytes) → FileM Unit
  | [] => pure ()
  | (ptr, part) :: rest => do
      writeBlock ptr (encodeLink crc (rest.head?.elim nullBlock Prod.fst) part)
      writeLinks rest

/-- `write_chain`: the payload as a chain of fresh blocks, and its head. -/
def writeChain (payload : Bytes) : FileM BlockPtr := do
  let links ← allocateBlocks (chunks chainCapacity payload)
  writeLinks crc links
  return links.head?.elim nullBlock Prod.fst

/-- `stage_fold`: the roots have moved and are not on disk. -/
def stageFold : FileM Unit := modify fun f =>
  { f with
    db := { f.db with epoch := f.db.epoch + 1 }
    savepoint := f.savepoint.map fun s => { s with published := true } }

/-- `stage_deferred`: a commit went to the log and nothing folded it. -/
def stageDeferred : FileM Unit := modify fun f =>
  { f with savepoint := f.savepoint.map fun s => { s with published := true } }

/-- `begin_savepoint`: keeps what the file is now. -/
def beginSavepoint (acrossStatements : Bool) (logFloor : Epoch) : FileM Unit := do
  checkWritable "a transaction"
  let f ← get
  if f.savepoint.isSome then
    throw (.invalidArgument s!"{f.path} is already inside a transaction")
  set { f with
    savepoint := some
      { db := f.db, free := f.free, freeChain := f.freeChain, reusable := f.free, logFloor,
        acrossStatements, beganAt := f.db.epoch } }

/-- Whether the marker has to go down before the next publish. -/
def Savepoint.due (s : Savepoint) : Bool :=
  !s.marked && (s.acrossStatements || s.published)

/-- `keep_savepoint`: puts the state a savepoint keeps on the file. -/
def keepSavepoint : FileM Unit := do
  let f ← get
  match f.savepoint with
  | some held =>
      if held.due then do
        writeAllAt (.marker (some (held.db, held.logFloor)))
        syncAll
        modify fun f =>
          { f with savepoint := f.savepoint.map fun s => { s with marked := true } }
      else pure ()
  | none => pure ()

/-- `forget_kept`: says that no transaction is open. -/
def forgetKept : FileM Unit := do
  writeAllAt (.marker none)
  syncAll

/-- `release_retained`: gives back the blocks whose epoch is below `floor`. -/
def Zu1File.releaseRetained (floor : Epoch) (f : Zu1File) : Zu1File :=
  let ready := (f.retained.filter fun e => e.1 < floor).flatMap Prod.snd
  let f := { f with retained := f.retained.filter fun e => ¬ e.1 < floor }
  match f.savepoint with
  | some saved =>
      { f with
        free := f.free ++ ready.filter (· ∈ saved.reusable)
        frozen := f.frozen ++ ready.filter (· ∉ saved.reusable) }
  | none => { f with free := f.free ++ ready }

def u64Max : Epoch := 2 ^ 64 - 1

/-- With nobody counting the readers there are none. -/
def Zu1File.reclaim (f : Zu1File) : Zu1File :=
  if f.deferReclaim then f else f.releaseRetained u64Max

/-- The chain blocks a list of `len` free blocks is given: enough to carry what is
left of it. -/
def reserveFrom : ℕ → ℕ → ℕ → ℕ
  | 0, _, c => c
  | fuel + 1, len, c =>
      if c * chainCapacity < (len - c) * 8 then reserveFrom fuel len (c + 1) else c

def reserveCount (len : ℕ) : ℕ := reserveFrom len len 0

/-- Writes the list of free blocks: its root, and the blocks that are free. Its
own blocks are taken from the first `safe` of them when those can hold it. -/
def writeFreeList (all : List BlockPtr) (safe : ℕ) : FileM (List BlockPtr) :=
  if all = [] then do
    modify fun f => { f with db := { f.db with freeListRoot := nullBlock } }
    return []
  else do
    let c := reserveCount all.length
    let taken := if c ≤ safe ∧ c < all.length then c else 0
    modify fun f => { f with free := all.take taken }
    let root ← writeChain crc (encodeFreeList (all.drop taken))
    let f ← get
    set { f with free := [], db := { f.db with freeListRoot := root } }
    return all.drop taken ++ f.free

/-- What a checkpoint makes of the lists once the header is out. -/
def Zu1File.settle (all reached : List BlockPtr) (superseded : Epoch) (f : Zu1File) :
    Zu1File :=
  let held := all.filter (· ∈ reached)
  let rest := all.filter (· ∉ reached)
  let f := if held = [] then f else { f with retained := f.retained ++ [(superseded, held)] }
  let f := match f.savepoint with
    | some saved =>
        { f with
          savepoint := some { saved with published := true }
          free := rest.filter (· ∈ saved.reusable)
          frozen := rest.filter (· ∉ saved.reusable) }
    | none => { f with free := rest }
  { f.reclaim with unpublished := 0 }

def readFreeChain : FileM Unit := do
  let f ← get
  if f.db.freeListRoot = nullBlock then pure ()
  else
    match chainBlocks crc f.db.blockCount f.device.view.blocks f.db.freeListRoot with
    | .ok freeChain => set { f with freeChain }
    | .error e => throw e

/-- Writes the header into the slot that is not in use, and makes that the slot in
use. -/
def flipHeader : FileM Unit := do
  let f ← get
  writeAllAt (.slot (1 - f.activeSlot) f.db)
  syncAll
  modify fun f => { f with activeSlot := 1 - f.activeSlot }

/-- What a checkpoint does once the kept state is down: the list, the data, the
header. -/
def publish : FileM Unit := do
  let f ← get
  set { f with free := [], frozen := [], pendingFree := [], freeChain := [] }
  let all ← writeFreeList crc (f.free ++ f.frozen ++ f.pendingFree ++ f.freeChain) f.free.length
  syncAll
  modify fun g => { g with db := { g.db with epoch := g.db.epoch + 1 } }
  flipHeader
  readFreeChain crc
  modify (Zu1File.settle all (f.pendingFree ++ f.freeChain) f.db.epoch)

/-- `checkpoint`: publishes the staged state, after the kept one if that has to be
down first. -/
def checkpoint : FileM Unit := do
  checkWritable "checkpoint"
  keepSavepoint
  publish crc

/-- `release_savepoint`: ends the transaction by keeping what it did. -/
def releaseSavepoint : FileM Unit := do
  let f ← get
  let freed := f.frozen
  let g := { f with savepoint := none }
  set (if freed = [] then g
    else
      Zu1File.reclaim
        { g with
          frozen := []
          retained := g.retained ++ [((f.savepoint.map Savepoint.beganAt).getD f.db.epoch,
            freed)] })
  if f.savepoint.any Savepoint.marked then forgetKept else pure ()

/-- `finish_rollback`: publishes the state that a transaction the process died
inside was holding, and says the transaction is over. -/
def finishRollback : FileM Unit := do
  let f ← get
  match f.interrupted with
  | none => pure ()
  | some left => do
      set { f with interrupted := none }
      checkWritable "the rollback a crash left behind"
      if f.db.epoch < left.published then do
        modify fun g => { g with db := { g.db with epoch := left.published } }
        checkpoint crc
      forgetKept

/-- `rollback_savepoint`: puts the file back where the transaction started and
publishes that. -/
def rollbackSavepoint : FileM Unit := do
  let f ← get
  match f.savepoint with
  | none => throw (.invalidArgument s!"{f.path} is not inside a transaction")
  | some saved => do
      set { f with
        savepoint := none
        db := saved.db
        free := saved.free
        freeChain := saved.freeChain
        pendingFree := []
        frozen := []
        retained := f.retained.filter fun e => e.1 < saved.db.epoch }
      if f.db.epoch ≠ saved.db.epoch then do
        modify fun g => { g with db := { g.db with epoch := f.db.epoch } }
        checkpoint crc
      if saved.marked then forgetKept else pure ()

end

end Zu.File
