import Zu.Wal.Commits

/-!
# The write side of a file

What a session holds while it writes: the file that allocates and the writer that
logs. A header stands for the changes its roots reach, and a writer for the changes
it has committed since its last fold, so that the state a reader is handed is a list
of changes. Changes are numbered in the order they are made; the blocks, the cells and
the retained blocks are other modules' matter.
-/

namespace Zu.Shared

/-- What a database header says of the changes: those its roots reach, and how far
into the log it has folded. -/
structure Header where
  roots : List ℕ
  walSeq : ℕ
  epoch : ℕ
  deriving DecidableEq, Repr

/-- The state a rollback goes back to. -/
structure Savepoint where
  db : Header
  logFloor : ℕ
  marked : Bool
  acrossStatements : Bool
  published : Bool
  deriving DecidableEq, Repr

structure File where
  db : Header
  savepoint : Option Savepoint
  /-- The newest header on the disk. -/
  disk : Header
  /-- The kept header in the transaction slot of the disk, with its log floor. -/
  kept : Option (Header × ℕ)
  deriving DecidableEq, Repr

namespace File

def inSavepoint (f : File) : Bool := f.savepoint.isSome

def beginSavepoint (f : File) (acrossStatements : Bool) (logFloor : ℕ) : File :=
  { f with
    savepoint := some
      { db := f.db, logFloor, marked := false, acrossStatements, published := false } }

/-- `stage_deferred`, and what `stage_fold` does to an open savepoint. -/
def stageDeferred (f : File) : File :=
  { f with savepoint := f.savepoint.map fun saved => { saved with published := true } }

def stageFold (f : File) : File :=
  { f.stageDeferred with db := { f.db with epoch := f.db.epoch + 1 } }

/-- Puts the state a savepoint keeps on the disk, where it is owed to it. -/
def keepSavepoint (f : File) : File :=
  match f.savepoint with
  | none => f
  | some held =>
      if !held.marked && (held.acrossStatements || held.published) then
        { f with
          kept := some (held.db, held.logFloor)
          savepoint := some { held with marked := true } }
      else f

/-- Publishes the staged state: its header is the newest on the disk. -/
def checkpoint (f : File) : File :=
  let f := f.keepSavepoint
  let db := { f.db with epoch := f.db.epoch + 1 }
  { f.stageDeferred with db, disk := db }

/-- Ends the transaction by keeping what it did. Where `ended` is false, saying on the
disk that it is over has failed. -/
def releaseSavepoint (f : File) (ended : Bool) : File :=
  match f.savepoint with
  | none => f
  | some held =>
      { f with
        savepoint := none
        kept := if held.marked && ended then none else f.kept }

/-- Ends the transaction by putting the file back where it started. -/
def rollbackSavepoint (f : File) : File :=
  match f.savepoint with
  | none => f
  | some saved =>
      let kept := if saved.marked then none else f.kept
      if f.db.epoch = saved.db.epoch then { f with db := saved.db, savepoint := none, kept }
      else
        let db := { saved.db with epoch := f.db.epoch + 1 }
        { db, savepoint := none, disk := db, kept }

/-- The header an open savepoint goes back to. -/
def saved (f : File) : Option Header := f.savepoint.map Savepoint.db

@[simp] theorem stageDeferred_saved (f : File) : f.stageDeferred.saved = f.saved := by
  cases hs : f.savepoint <;> simp [saved, stageDeferred, hs]

@[simp] theorem stageDeferred_db (f : File) : f.stageDeferred.db = f.db := rfl

@[simp] theorem keepSavepoint_saved (f : File) : f.keepSavepoint.saved = f.saved := by
  cases hs : f.savepoint with
  | none => simp [saved, keepSavepoint, hs]
  | some held =>
      simp only [saved, keepSavepoint, hs]
      split_ifs <;> simp [hs]

@[simp] theorem keepSavepoint_db (f : File) : f.keepSavepoint.db = f.db := by
  unfold keepSavepoint
  split
  · rfl
  · split_ifs <;> rfl

@[simp] theorem stageFold_saved (f : File) : f.stageFold.saved = f.saved :=
  stageDeferred_saved f

@[simp] theorem checkpoint_saved (f : File) : f.checkpoint.saved = f.saved :=
  (stageDeferred_saved f.keepSavepoint).trans (keepSavepoint_saved f)

@[simp] theorem checkpoint_db (f : File) :
    f.checkpoint.db = { f.db with epoch := f.db.epoch + 1 } := by
  simp [checkpoint]

@[simp] theorem inSavepoint_saved (f : File) : f.saved.isSome = f.inSavepoint := by
  cases hs : f.savepoint <;> simp [saved, inSavepoint, hs]

end File

/-- A committed transaction in the log: its change, its epoch, and the byte its commit
frame ends at. -/
structure Frame where
  change : ℕ
  epoch : ℕ
  fin : ℕ
  deriving DecidableEq, Repr

def endOf (log : List Frame) : ℕ := (log.getLast?.map Frame.fin).getD 0

/-- What `rollback_above(floor)` leaves of the log. -/
def cutAbove (floor : ℕ) (log : List Frame) : List Frame :=
  log.takeWhile fun f => decide (f.epoch ≤ floor)

/-- What replay delivers above the floor of a header. -/
def replayed (walSeq : ℕ) (log : List Frame) : List ℕ :=
  (log.filter fun f => decide (walSeq < f.epoch)).map Frame.change

structure Writer where
  /-- Which opening of the log its `Commits` belongs to. -/
  gen : ℕ
  epoch : ℕ
  /-- The changes committed since the last fold. -/
  overlay : List ℕ
  /-- Those of them the readers are handed. -/
  patches : List ℕ
  deriving DecidableEq, Repr

structure WriteSide where
  file : File
  writer : Option Writer
  /-- What the sidecar holds. -/
  log : List Frame
  deriving DecidableEq, Repr

namespace WriteSide

def epoch (side : WriteSide) : ℕ :=
  match side.writer with
  | some writer => writer.epoch
  | none => side.file.db.epoch

def patches (side : WriteSide) : List ℕ := (side.writer.map Writer.patches).getD []

/-- The changes the state of the write side holds. -/
def changes (side : WriteSide) : List ℕ := side.file.db.roots ++ side.patches

/-- Whether a fold finds nothing to do. -/
def folded (side : WriteSide) (writer : Writer) : Bool :=
  writer.overlay.isEmpty && side.log.isEmpty

/-- The roots take in what the writer has committed, and the floor of the log moves
with them. -/
def foldRoots (side : WriteSide) (writer : Writer) : WriteSide :=
  { side with
    file :=
      { side.file with
        db :=
          { side.file.db with
            roots := side.file.db.roots ++ writer.overlay
            walSeq := writer.epoch } }
    writer := some { writer with overlay := [], patches := [] } }

/-- `staged_fold`: the fold stops before the header flip. -/
def stagedFold (side : WriteSide) (writer : Writer) : WriteSide :=
  let side := side.foldRoots writer
  { side with file := side.file.stageFold }

/-- `checkpoint_fold`, where there is something to fold: the header is published and
the log emptied. -/
def checkpointFold (side : WriteSide) (writer : Writer) : WriteSide :=
  let side := side.foldRoots writer
  { side with file := side.file.checkpoint, log := [] }

/-- A writer that has recovered what the log holds above the header. -/
def recovered (side : WriteSide) (gen : ℕ) : Writer where
  gen := gen
  epoch := (side.log.map Frame.epoch).foldl max side.file.db.walSeq
  overlay := replayed side.file.db.walSeq side.log
  patches := []

end WriteSide

/-- What the write side has published for the readers to pick up. -/
structure Published where
  header : Header
  patches : List ℕ
  version : ℕ
  staged : ℕ
  deriving DecidableEq, Repr

/-- The changes a published state holds. -/
def Published.changes (p : Published) : List ℕ := p.header.roots ++ p.patches

end Zu.Shared
