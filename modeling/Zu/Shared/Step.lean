import Zu.Shared.WriteSide

/-!
# Sessions on one file

Any number of sessions share one write side. `step` takes one atomic section of one of
them: what `enter`, `hold`, `write`, `share`, `stage_side`, `sync`, `leave`, `settle`
and `durable` do between two moments at which another session can move. The side is a
lock, so a session that holds it moves through its statement alone, but the threads in
`sync_through` and the states waiting to be installed do not need it.

Which session waits for the side in which order is not part of the model: any of them
may take it once it is free. What is recorded beside the source's own state is which
changes each transaction made, which were committed in which order, which opening of
the log a change was logged to, and which a published header holds.
-/

namespace Zu.Shared

open Wal (upd)

/-- What `hold` answers: whether the statement owns the savepoint, and whether it took
the write side. -/
structure Held where
  savepoint : Bool
  entered : Bool
  deriving DecidableEq, Repr

/-- Who asked for the write side: a statement that writes, or a call of `write` on its
own. -/
inductive Call
  | statement
  | write
  deriving DecidableEq, Repr

/-- Where a session is once `share`, `stage_side` and `sync` are behind it. -/
inductive Point
  /-- `enter` has returned. -/
  | entered (call : Call) (taken : Bool)
  /-- The clauses of a statement run; `ok` is false once one has raised. -/
  | body (held : Held) (ok : Bool)
  /-- The statement has been undone. -/
  | undone (taken : Bool)
  /-- What was written is staged, and the side is to be given back. -/
  | leaving (call : Call) (taken ok : Bool)
  /-- The word that ends a transaction has undone it. -/
  | ended
  deriving DecidableEq, Repr

inductive Phase
  | idle
  /-- `share` is to read the marks. -/
  | sharing (p : Point)
  /-- `share` found the log owing nothing. -/
  | publishing (p : Point)
  /-- `stage_side` is to capture the side. -/
  | staging (p : Point)
  /-- It has captured this state and not read the marks. -/
  | flagging (p : Point) (captured : Published)
  /-- `sync` is next. -/
  | following (p : Point)
  | reached (p : Point)
  /-- `durable` is next. -/
  | ending (ok : Bool)
  /-- In `sync_through` for this change in this opening of the log. -/
  | waiting (ok : Bool) (pending : Option (Published × Bool)) (gen change : ℕ)
  deriving DecidableEq, Repr

/-- Where a session goes when `sync` has returned. -/
def Point.next : Point → Bool → Phase
  | .entered call taken, true => .reached (.entered call taken)
  | .entered _ _, false => .idle
  | .body held ok, synced => .reached (.body held (ok && synced))
  | .undone taken, _ => .staging (.leaving .statement taken false)
  | .leaving call taken ok, synced => .reached (.leaving call taken (ok && synced))
  | .ended, true => .reached .ended
  | .ended, false => .idle

/-- Whether a session in this phase has the write side. -/
def Phase.holding : Phase → Bool
  | .idle | .ending _ | .waiting _ _ _ _ => false
  | _ => true

structure Session where
  phase : Phase
  /-- Whether an explicit transaction is running. -/
  txn : Bool
  pending : Option (Published × Bool)
  /-- The sync it owes: the opening of the log and the change it waits for. -/
  owed : Option (ℕ × ℕ)
  /-- The roots and the patches its readers are on. -/
  header : Header
  patches : List ℕ
  seen : ℕ
  /-- What its last call answered. -/
  answer : Option Bool
  deriving DecidableEq, Repr

/-- The changes a session reads. -/
def Session.view (se : Session) : List ℕ := se.header.roots ++ se.patches

structure Sys where
  side : WriteSide
  holder : Option ℕ
  published : Published
  /-- How many states have been staged. -/
  staged : ℕ
  /-- The `Commits` of each opening of the log. -/
  logs : ℕ → Wal.Sys
  gens : ℕ
  /-- How many changes have been made. -/
  next : ℕ
  sessions : ℕ → Session
  /-- The opening of the log a change was logged to, `none` for one that was not. -/
  opening : ℕ → Option ℕ
  /-- Whether a header on the disk has held a change. -/
  sealed : ℕ → Bool
  /-- The changes of the committed transactions, in commit order. -/
  done : List (List ℕ)
  /-- The changes of the transaction that is running. -/
  running : List ℕ

/-- A file that has just been registered, with its log replayed. -/
def Sys.new (epoch : ℕ) : Sys where
  side :=
    { file :=
        { db := { roots := [], walSeq := 0, epoch }
          savepoint := none
          disk := { roots := [], walSeq := 0, epoch }
          kept := none }
      writer := none
      log := [] }
  holder := none
  published :=
    { header := { roots := [], walSeq := 0, epoch }, patches := [], version := 1, staged := 0 }
  staged := 0
  logs := fun _ => Wal.Sys.new 0
  gens := 0
  next := 0
  sessions := fun _ =>
    { phase := .idle, txn := false, pending := none, owed := none
      header := { roots := [], walSeq := 0, epoch }, patches := [], seen := 1
      answer := none }
  opening := fun _ => none
  sealed := fun _ => false
  done := []
  running := []

/-- What a transaction that reaches the log comes to. -/
inductive Outcome
  /-- The closure raised, or staged nothing. -/
  | raised (ok : Bool)
  /-- The readers are handed the change and no fold runs. -/
  | deferred
  /-- It is folded, and the header is not published. -/
  | folded
  /-- It is folded and published, and the log is emptied. -/
  | sealed
  /-- Its frames are in the log and what was to take them further raised. -/
  | unfolded
  deriving DecidableEq, Repr

def Outcome.ok : Outcome → Bool
  | .raised ok => ok
  | .unfolded => false
  | _ => true

namespace Sys

/-- Changes one session. -/
def on (s : Sys) (i : ℕ) (f : Session → Session) : Sys :=
  { s with sessions := upd s.sessions i (f (s.sessions i)) }

def goto (s : Sys) (i : ℕ) (phase : Phase) : Sys := s.on i fun se => { se with phase }

/-- A call returns. -/
def answer (s : Sys) (i : ℕ) (ok : Bool) : Sys :=
  s.on i fun se => { se with phase := .idle, answer := some ok }

def settled (s : Sys) : Bool :=
  match s.side.writer with
  | none => true
  | some writer => (s.logs writer.gen).marks.settled

/-- The header of the write side is on the disk: the changes its roots reach are
sealed. -/
def sealRoots (s : Sys) : Sys :=
  { s with sealed := fun c => s.sealed c || decide (c ∈ s.side.file.db.roots) }

def cutLog (s : Sys) (gen len : ℕ) (synced : Bool) : Sys :=
  let log := s.logs gen
  { s with
    logs := upd s.logs gen
      { log with
        marks := log.marks.reset len synced
        ghost := log.ghost.reset log.pc len synced } }

def stagedFold (s : Sys) (writer : Writer) : Sys :=
  { s with side := s.side.stagedFold writer }

def fold (s : Sys) (writer : Writer) : Sys :=
  if s.side.folded writer then s
  else
    ({ s with side := s.side.checkpointFold writer }.sealRoots).cutLog writer.gen 0 false

/-- `WriteSide::open_writer`, where there is none: it recovers what the log holds and
folds it. -/
def openWriter (s : Sys) : Sys :=
  let writer := s.side.recovered s.gens
  { s with
    side := { s.side with writer := some writer }
    logs := upd s.logs s.gens (Wal.Sys.new (endOf s.side.log))
    gens := s.gens + 1 }.fold writer

/-- The side with its writer, opened where there is none. -/
def withWriter (s : Sys) : Sys := if s.side.writer.isSome then s else s.openWriter

def publish (s : Sys) : Sys :=
  { s with
    published :=
      { header := s.side.file.db, patches := s.side.patches
        version := s.published.version + 1, staged := s.staged } }

def stage (s : Sys) : Published × Sys :=
  ({ header := s.side.file.db, patches := s.side.patches, version := 0, staged := s.staged + 1 },
    { s with staged := s.staged + 1 })

def publishStaged (s : Sys) (next : Published) : Sys :=
  if next.staged ≤ s.published.staged then s
  else { s with published := { next with version := s.published.version + 1 } }

/-- A change is made by the transaction that is open, or is one by itself. -/
def record (s : Sys) (c : ℕ) : Sys :=
  if s.side.file.inSavepoint then { s with running := s.running ++ [c] }
  else { s with done := s.done ++ [[c]] }

/-- The frames of the next change go to the log, behind the marker an open savepoint
owes the file. -/
def logFrames (s : Sys) (writer : Writer) (fin : ℕ) : Option Sys :=
  (Wal.step (s.logs writer.gen) (.stage s.next fin)).map fun log =>
    let frame : Frame := { change := s.next, epoch := writer.epoch + 1, fin }
    { s with
      side :=
        { file := s.side.file.keepSavepoint
          writer := some
            { writer with epoch := writer.epoch + 1, overlay := writer.overlay ++ [s.next] }
          log := s.side.log ++ [frame] }
      logs := upd s.logs writer.gen log
      next := s.next + 1
      opening := upd s.opening s.next (some writer.gen) }.record s.next

/-- `stage_patch`: the readers are handed the change. -/
def stagePatch (s : Sys) (writer : Writer) (c : ℕ) : Sys :=
  { s with
    side :=
      { s.side with
        file := s.side.file.stageDeferred
        writer := some { writer with patches := writer.patches ++ [c] } } }

/-- Session `i` owes the sync of a change. -/
def owes (s : Sys) (i gen c : ℕ) : Sys := s.on i fun se => { se with owed := some (gen, c) }

/-- What becomes of the change `c` once its frames are in the log. -/
def carry (s : Sys) (i : ℕ) (writer : Writer) (c : ℕ) : Outcome → Sys
  | .deferred => (s.stagePatch writer c).owes i writer.gen c
  | .folded => (s.stagedFold writer).owes i writer.gen c
  -- the log is shorter than the commit, so nothing is owed
  | .sealed => s.fold writer
  | .raised _ | .unfolded => s

/-- `Session::write` up to `stage_side`. -/
def write (s : Sys) (i : ℕ) (out : Outcome) (fin : ℕ) : Option Sys :=
  let s := s.withWriter
  match out with
  | .raised _ => some s
  | .deferred | .folded | .sealed | .unfolded =>
      s.side.writer.bind fun writer =>
        (s.logFrames writer fin).bind fun s' =>
          s'.side.writer.map fun writer' => s'.carry i writer' s.next out

/-- A change of the catalog, stored in the file and published with it. -/
def store (s : Sys) : Sys :=
  let db := s.side.file.db
  let file := { s.side.file with db := { db with roots := db.roots ++ [s.next] } }
  ({ s with side := { s.side with file := file.checkpoint }, next := s.next + 1 }.sealRoots).record
    s.next

def foldPatches (s : Sys) : Sys :=
  match s.side.writer with
  | some writer => s.fold writer
  | none => s

/-- `Session::sync`, up to where it reloads; what it reloads is that the patches
follow the roots. -/
def follow (s : Sys) (i : ℕ) (ok : Bool) : Sys :=
  let se := s.sessions i
  let ahead :=
    if s.holder = some i then some (s.side.file.db, s.side.patches)
    else if s.published.version ≠ se.seen then some (s.published.header, s.published.patches)
    else none
  match ahead with
  | none => s
  | some (header, patches) =>
      s.on i fun se =>
        { se with
          seen := s.published.version
          header
          patches := if ok then patches else se.patches }

/-- `WriteSide::discard_above`: the log is cut above the floor and the writer
dropped. -/
def discardAbove (s : Sys) (floor : ℕ) : Sys :=
  match s.side.writer with
  | none => s
  | some writer =>
      let log := cutAbove floor s.side.log
      let cut := { s with side := { s.side with writer := none, log } }
      if log.length = s.side.log.length then cut else cut.cutLog writer.gen (endOf log) true

/-- `Zu1File::release_savepoint`: the transaction that is running is committed. -/
def release (s : Sys) (ended : Bool) : Sys :=
  { s with
    side := { s.side with file := s.side.file.releaseSavepoint ended }
    done := s.done ++ [s.running]
    running := [] }

/-- `Zu1File::rollback_savepoint`. It publishes the kept header where the epoch has
moved. -/
def rollbackSavepoint (s : Sys) (saved : Savepoint) : Sys :=
  let back :=
    { s with
      side := { s.side with file := s.side.file.rollbackSavepoint }
      running := [] }
  if s.side.file.db.epoch = saved.db.epoch then back else back.sealRoots

/-- `Session::undo`, up to its `share`. Where `reopened` is false, opening the writer
again has raised. -/
def undo (s : Sys) (reopened : Bool) : Sys :=
  match s.side.file.savepoint with
  | none => s
  | some saved =>
      let back := (s.discardAbove saved.logFloor).rollbackSavepoint saved
      if s.side.writer.isSome && reopened then back.openWriter else back

def leave (s : Sys) (taken : Bool) : Sys :=
  if taken && !s.side.file.inSavepoint then { s with holder := none } else s

/-- `START TRANSACTION`. -/
def start (s : Sys) (i : ℕ) : Sys :=
  s.on i fun se => { se with txn := true, answer := some (!se.txn) }

/-- `COMMIT`. A release that fails returns before the side is given back. -/
def commit (s : Sys) (i : ℕ) (ended : Bool) : Sys :=
  if (s.sessions i).txn then
    let s := s.on i fun se => { se with txn := false }
    if s.holder = some i ∧ s.side.file.inSavepoint then
      ((s.release ended).leave ended).answer i ended
    else s.answer i true
  else s.answer i false

/-- `ROLLBACK`, up to the `share` of its undo. -/
def rollback (s : Sys) (i : ℕ) (reopened : Bool) : Sys :=
  if (s.sessions i).txn then
    let s := s.on i fun se => { se with txn := false }
    if s.holder = some i ∧ s.side.file.inSavepoint then
      let back := s.undo reopened
      if s.side.writer.isNone || reopened then back.goto i (.sharing .ended)
      else back.answer i false
    else s.answer i true
  else s.answer i false

/-- `Session::enter`, up to its `share`. Where the log cannot be opened the side goes
back. -/
def enter (s : Sys) (i : ℕ) (call : Call) (opened : Bool) : Option Sys :=
  match s.holder with
  | some j => if j = i then some (s.goto i (.reached (.entered call false))) else none
  | none =>
      if s.side.writer.isSome then
        some ({ s with holder := some i }.goto i (.sharing (.entered call true)))
      else if opened then
        some ({ s.openWriter with holder := some i }.goto i (.sharing (.entered call true)))
      else some (s.answer i false)

/-- `Session::hold`, behind its `enter`. -/
def hold (s : Sys) (i : ℕ) (taken : Bool) : Sys :=
  if s.side.file.inSavepoint then
    s.goto i (.reached (.body { savepoint := false, entered := taken } true))
  else
    let inside := (s.sessions i).txn
    let file := s.side.file.beginSavepoint inside s.side.epoch
    { s with side := { s.side with file } }.goto i
      (.reached (.body { savepoint := !inside, entered := taken } true))

/-- `Session::settle`, up to its `stage_side` or to the `share` of its undo. -/
def settle (s : Sys) (i : ℕ) (held : Held) (out ended : Bool) : Sys :=
  if held.savepoint then
    if out then (s.release ended).goto i (.staging (.leaving .statement held.entered ended))
    else
      (s.undo ended).goto i
        (if s.side.writer.isNone || ended then .sharing (.undone held.entered)
          else .staging (.leaving .statement held.entered false))
  else s.goto i (.staging (.leaving .statement held.entered out))

/-- What follows `leave`: a write on its own waits only once the side has gone back. -/
def afterLeave (s : Sys) (i : ℕ) (call : Call) (ok : Bool) : Sys :=
  if call = .write ∧ s.holder = some i then s.answer i ok else s.goto i (.ending ok)

/-- Installs what was pending, if the wait or the marks say that it may be. -/
def installPending (s : Sys) (pending : Option (Published × Bool)) (waited : Bool) : Sys :=
  match pending with
  | some (next, settled) => if waited || settled then s.publishStaged next else s
  | none => s

/-- `Session::durable`, up to its `sync_through`. -/
def durable (s : Sys) (i : ℕ) (ok : Bool) : Option Sys :=
  let pending := (s.sessions i).pending
  let taken := s.on i fun se => { se with pending := none, owed := none }
  match (s.sessions i).owed with
  | some (gen, c) =>
      (Wal.step (s.logs gen) (.call c)).map fun log =>
        { taken with logs := upd s.logs gen log }.goto i (.waiting ok pending gen c)
  | none => some ((taken.installPending pending false).answer i ok)

/-- `sync_through` has returned. -/
def landed (s : Sys) (i : ℕ) (ok : Bool) (pending : Option (Published × Bool))
    (gen c : ℕ) : Option Sys :=
  match (s.logs gen).pc c with
  | .returned _ true => some ((s.installPending pending true).answer i ok)
  | .returned _ false => some (s.answer i false)
  | _ => none

end Sys

/-- The atomic sections. -/
inductive Act
  /-- A thread in `sync_through` moves, in one opening of the log. -/
  | log (gen : ℕ) (a : Wal.Act)
  /-- A statement that only reads begins. -/
  | read (i : ℕ)
  /-- `START TRANSACTION`. -/
  | start (i : ℕ)
  | commit (i : ℕ) (ended : Bool)
  | rollback (i : ℕ) (reopened : Bool)
  | enter (i : ℕ) (call : Call) (opened : Bool)
  /-- `share` or `stage_side` reads the marks. -/
  | marks (i : ℕ)
  | install (i : ℕ)
  | capture (i : ℕ)
  | follow (i : ℕ) (ok : Bool)
  | hold (i : ℕ)
  | write (i : ℕ) (out : Outcome) (fin : ℕ)
  | store (i : ℕ)
  | publishSide (i : ℕ)
  | foldPatches (i : ℕ)
  /-- The clauses are done: `out` is what they answered and `ended` whether releasing
  the savepoint, or opening the writer again after an undo, goes through. -/
  | settle (i : ℕ) (out ended : Bool)
  | leave (i : ℕ)
  | durable (i : ℕ)
  /-- `sync_through` has returned. -/
  | landed (i : ℕ)
  deriving DecidableEq, Repr

/-- The steps of `sync_through`. -/
def syncs : Wal.Act → Bool
  | .turn _ | .wake _ | .gathered _ | .syncBegin _ | .syncEnd _ _ | .finish _ _ => true
  | _ => false

/-- One atomic section, `none` where it is not enabled. -/
def step (s : Sys) : Act → Option Sys
  | .log gen a =>
      if syncs a then
        (Wal.step (s.logs gen) a).map fun log => { s with logs := upd s.logs gen log }
      else none
  | .read i =>
      match (s.sessions i).phase with
      | .idle => some (s.follow i true)
      | _ => none
  | .start i =>
      match (s.sessions i).phase with
      | .idle => some (s.start i)
      | _ => none
  | .commit i ended =>
      match (s.sessions i).phase with
      | .idle => some (s.commit i ended)
      | _ => none
  | .rollback i reopened =>
      match (s.sessions i).phase with
      | .idle => some (s.rollback i reopened)
      | _ => none
  | .enter i call opened =>
      match (s.sessions i).phase with
      | .idle => s.enter i call opened
      | _ => none
  | .marks i =>
      match (s.sessions i).phase with
      | .sharing p => some (s.goto i (if s.settled then .publishing p else .following p))
      | .flagging p captured =>
          some (s.on i fun se =>
            { se with pending := some (captured, s.settled), phase := .following p })
      | _ => none
  | .install i =>
      match (s.sessions i).phase with
      | .publishing p => some (s.publish.goto i (.following p))
      | _ => none
  | .capture i =>
      match (s.sessions i).phase with
      | .staging p => some (s.stage.2.goto i (.flagging p s.stage.1))
      | _ => none
  | .follow i ok =>
      match (s.sessions i).phase with
      | .following p =>
          let s := (s.follow i ok).goto i (p.next ok)
          some (if p.next ok = .idle then s.answer i false else s)
      | _ => none
  | .hold i =>
      match (s.sessions i).phase with
      | .reached (.entered .statement taken) => some (s.hold i taken)
      | _ => none
  | .write i out fin =>
      match (s.sessions i).phase with
      | .reached (.body held true) =>
          (s.write i out fin).map fun s => s.goto i (.staging (.body held out.ok))
      | .reached (.entered .write taken) =>
          (s.write i out fin).map fun s => s.goto i (.staging (.leaving .write taken out.ok))
      | _ => none
  | .store i =>
      match (s.sessions i).phase with
      | .reached (.body _ true) => some s.store
      | _ => none
  | .publishSide i =>
      match (s.sessions i).phase with
      | .reached (.body held true) => some (s.goto i (.sharing (.body held true)))
      | _ => none
  | .foldPatches i =>
      match (s.sessions i).phase with
      | .reached (.body _ true) => some s.foldPatches
      | _ => none
  | .settle i out ended =>
      match (s.sessions i).phase with
      | .reached (.body held ok) => some (s.settle i held (out && ok) ended)
      | _ => none
  | .leave i =>
      match (s.sessions i).phase with
      | .reached (.leaving call taken ok) => some ((s.leave taken).afterLeave i call ok)
      | .reached .ended => some ((s.leave true).answer i true)
      | _ => none
  | .durable i =>
      match (s.sessions i).phase with
      | .ending ok => s.durable i ok
      | _ => none
  | .landed i =>
      match (s.sessions i).phase with
      | .waiting ok pending gen c => s.landed i ok pending gen c
      | _ => none

attribute [grind =] step

end Zu.Shared
