import Zu.Wal.Frame
import Zu.Wal.Commits
import Zu.Lib.FaultyFile

/-!
# The open log

`Log` is the open sidecar log: how much of the file is frames, how much of it is
room that was zeroed ahead, and the frames that are staged and not written.
Nothing is written before the staging buffer spills or a commit pushes it, and a
write or a sync that fails leaves the buffer as it was. A read is taken not to
fail.
-/

namespace Zu.Wal

open Lib

/-- `Wal`: the open log. -/
structure Log where
  file : FaultyFile
  commits : Marks
  /-- Where the frames in the file end. -/
  len : ℕ
  /-- Bytes the file has been given and zeroed. -/
  reserved : ℕ
  /-- Frames appended and not pushed at the file. -/
  buf : Bytes

/-- How large the staging buffer may get before it goes to the file. -/
def spill : ℕ := 256 * 1024

/-- The first reservation. -/
def reserveMin : ℕ := 64 * 1024

/-- The largest single reservation. -/
def reserveMax : ℕ := 1024 * 1024

/-- A program over the open log. -/
abbrev WalM := Fallible ZuError Log

/-- Runs a program over the log's file. -/
def onFile {α : Type} (x : Fallible ZuError FaultyFile α) : WalM α := fun w =>
  ((x w.file).1, { w with file := (x w.file).2 })

/-- The chunks of `erase`; a chunk is at least one byte. -/
def eraseFrom : ℕ → ℕ → ℕ → WalM Unit
  | 0, _, _ => pure ()
  | fuel + 1, pos, stop =>
      if pos < stop then do
        let span := min (stop - pos) reserveMax
        onFile (FaultyFile.writeAllAt .io (zeros span) pos)
        eraseFrom fuel (pos + span) stop
      else pure ()

/-- `Wal::erase`: zeros over `[pos, stop)`, in chunks. -/
def erase (pos stop : ℕ) : WalM Unit := eraseFrom (stop - pos) pos stop

/-- The loop of `reserve`: steps from `stop` until `need` is inside. -/
def growTo : ℕ → ℕ → ℕ → ℕ → ℕ
  | 0, _, stop, _ => stop
  | fuel + 1, need, stop, step =>
      if stop < need then
        growTo fuel need (stop + step) (min (step * 2) reserveMax)
      else stop

/-- `Wal::reserve`: zeroed room for `need` bytes past the end of the log. -/
def reserve (need : ℕ) : WalM Unit := do
  let w ← get
  if w.len + need ≤ w.reserved then
    pure ()
  else do
    let stop := growTo (w.len + need) (w.len + need) w.reserved
      (max reserveMin (min w.reserved reserveMax))
    erase w.reserved stop
    onFile (FaultyFile.sync .io)
    modify fun w => { w with reserved := stop }

/-- What `flush` notes once the buffer is in the file. -/
def Log.flushed (w : Log) : Log :=
  { w with
    len := w.len + w.buf.length
    buf := []
    commits := w.commits.stagedTo (w.len + w.buf.length) }

/-- `Wal::flush`: pushes the staged frames at the file, without syncing. -/
def flush : WalM Unit := do
  let w ← get
  if w.buf = [] then
    pure ()
  else do
    reserve w.buf.length
    onFile (FaultyFile.writeAllAt .io w.buf w.len)
    modify Log.flushed

/-- Puts a frame on the end of the staging buffer. -/
def Log.stageFrame (f : Bytes) (w : Log) : Log := { w with buf := w.buf ++ f }

section

variable (crc : Bytes → UInt32)

/-- `Wal::append`: stages one frame, and spills a full buffer. -/
def append (epoch : Epoch) (r : WalRecord) : WalM Unit := do
  modify (Log.stageFrame (frame crc (body epoch r)))
  let w ← get
  if spill ≤ w.buf.length then flush else pure ()

/-- `Wal::stage_commit`: stages the `TxnCommit` frame and writes out everything
the transaction staged. -/
def stageCommit (epoch : Epoch) : WalM ℕ := do
  append crc epoch .txnCommit
  flush
  let w ← get
  return w.len

/-- `Commits::sync_through` for a caller that shares the sync with nobody; `took` is
how long the sync takes. -/
def syncThrough (took need : ℕ) : WalM Unit := fun w =>
  if w.commits.reached need then (.ok (), w)
  else
    let (marks, target) := (w.commits.enlist false).lead
    match (FaultyFile.sync ZuError.io).exec w.file with
    | (.ok _, file) => (.ok (), { w with file, commits := marks.finish target true took })
    | (.error e, file) =>
        (.error e, { w with file, commits := marks.finish target false took })

/-- `Wal::commit`: the commit frame, and the wait for the platter. -/
def commit (epoch : Epoch) (took : ℕ) : WalM Unit := do
  let need ← stageCommit crc epoch
  syncThrough took need

/-- `Wal::open_on`: the log starts at the last intact frame, and what is past it
is zeroed unless it is zeros already. -/
def openOn (file : FaultyFile) : Except ZuError Log :=
  let found := scan crc file.bytes
  let w : Log :=
    { file, commits := Marks.new found.2, len := found.2,
      reserved := file.bytes.length, buf := [] }
  if (file.bytes.drop found.2).any (· ≠ 0) then
    match (do
      erase found.2 file.bytes.length
      onFile (FaultyFile.sync .io) : WalM Unit).exec w with
    | (.ok _, w) => .ok w
    | (.error e, _) => .error e
  else .ok w

/-- `Wal::truncate`: empties the log after a checkpoint. -/
def truncate : WalM Unit := do
  modify fun w => { w with buf := [] }
  let w ← get
  erase 0 w.len
  modify fun w => { w with len := 0, commits := w.commits.reset 0 false }

/-- `Wal::replay`, first pass: a checkpoint note raises the floor. -/
def noteFloor (floor : Epoch) (bodies : List Bytes) : Epoch :=
  bodies.foldl
    (fun floor b =>
      if bodyKind b = kindCheckpointNote then max floor (bodyEpoch b) else floor)
    floor

/-- The records of an unfinished transaction, and what the sink has made of the
finished ones. -/
abbrev ReplayState (β : Type) := List (Epoch × WalRecord) × β

def replayRecord {β : Type} (floor : Epoch)
    (sink : β → Epoch × WalRecord → Except ZuError β) (st : ReplayState β)
    (epoch : Epoch) : WalRecord → Except ZuError (ReplayState β)
  | .checkpointNote => .ok st
  | .txnBegin => .ok ([(epoch, .txnBegin)], st.2)
  | .txnCommit =>
      if floor < epoch then do
        let acc ← st.1.foldlM sink st.2
        let acc ← sink acc (epoch, .txnCommit)
        return ([], acc)
      else .ok ([], st.2)
  | r => .ok (st.1 ++ [(epoch, r)], st.2)

def replayBody {β : Type} (floor : Epoch)
    (sink : β → Epoch × WalRecord → Except ZuError β) (st : ReplayState β)
    (b : Bytes) : Except ZuError (ReplayState β) := do
  let r ← bodyRecord b
  replayRecord floor sink st (bodyEpoch b) r

/-- `Wal::replay`: delivers the committed transactions above the floor to the
sink, in log order. -/
def replay {β : Type} (w : Log) (floor : Epoch)
    (sink : β → Epoch × WalRecord → Except ZuError β) (init : β) :
    Except ZuError β := do
  if w.file.bytes.length < w.len then throw .io
  let bodies := (scan crc (w.file.bytes.take w.len)).1
  let st ← bodies.foldlM (replayBody (noteFloor floor bodies) sink) ([], init)
  return st.2

end

end Zu.Wal
