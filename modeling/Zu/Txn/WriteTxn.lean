import Zu.Txn.Mvcc
import Zu.Wal.Log

/-!
# The write transaction

A transaction stages ops and, when it commits, lowers them to log records:
inserts go out as they come, cell updates are batched by table, row group and
column, edge updates by table and column, label changes by runs of one shape,
and removals by table. A batch goes out as one record for each run of values of
one kind. The overlays are changed once every frame is in the log.
-/

namespace Zu.Txn

open Lib Wal

/-- The kind of one staged cell. -/
inductive Kind
  | int
  | str
  | null
  deriving DecidableEq

def kindOf : Cell → Kind
  | .int _ => .int
  | .str _ => .str
  | .null => .null

def Cell.word : Cell → UInt64
  | .int x => x
  | _ => 0

def Cell.bytes : Cell → Bytes
  | .str s => s
  | _ => []

/-- Cells of one kind as the values of one logged column; the count of absences
is cut to 32 bits. -/
def cellValues (cells : List Cell) : Except ZuError WalValues :=
  let first := cells.head?.elim .int kindOf
  if cells.any fun c => kindOf c ≠ first then
    .error (.invalidArgument "a logged column cannot mix values of different kinds")
  else
    .ok
      (match first with
      | .int => .int (cells.map Cell.word)
      | .str => .str (cells.map Cell.bytes)
      | .null => .null (UInt32.ofNat cells.length))

/-- The values of a run of cells of one kind, where `cell_values` is expected not
to fail. -/
def runValues (cells : List Cell) : WalValues :=
  (cellValues cells).toOption.getD (.int [])

/-- One staging call. -/
inductive Call
  | insertNodes (table : UInt32) (cols : List (UInt32 × List Cell))
  | insertRel (rel : UInt32) (src dst : UInt64)
  | insertRelCarrying (rel : UInt32) (src dst : UInt64) (cols : List (UInt32 × Cell))
  | update (table : UInt32) (offset : UInt64) (col : UInt32) (value : Cell)
  | delete (table : UInt32) (offset : UInt64)
  | deleteRel (rel : UInt32) (src dst : UInt64)
  | updateRel (rel : UInt32) (src dst : UInt64) (col : UInt32) (value : Cell)
  | updateLabels (table : UInt32) (row add remove : UInt64)
  deriving DecidableEq

/-- `insert_nodes`: a columnar batch of new rows, one count for every column. -/
def insertNodes (table : UInt32) (cols : List (UInt32 × List Cell)) :
    Except ZuError Op := do
  let rows := cols.head?.elim 0 fun c => c.2.length
  if cols.any fun c => c.2.length ≠ rows then
    throw (.invalidArgument "ragged node insert: columns disagree on row count")
  let cols ← cols.mapM fun c => do
    return ({ col := c.1, values := ← cellValues c.2 } : WalColumn)
  return .insertNodes table cols rows

/-- `update_labels`: the bits to set and the bits to clear are disjoint. -/
def updateLabels (table : UInt32) (row add remove : UInt64) : Except ZuError Op :=
  if add &&& remove ≠ 0 then
    .error (.invalidArgument "a label change cannot both set and clear the same label")
  else .ok (.updateLabels table row add remove)

def Call.op : Call → Except ZuError Op
  | .insertNodes table cols => Txn.insertNodes table cols
  | .insertRel rel src dst => .ok (.insertRel rel src dst [])
  | .insertRelCarrying rel src dst cols => .ok (.insertRel rel src dst cols)
  | .update table offset col value => .ok (.update table offset col value)
  | .delete table offset => .ok (.delete table offset)
  | .deleteRel rel src dst => .ok (.deleteRel rel src dst)
  | .updateRel rel src dst col value => .ok (.updateRel rel src dst col value)
  | .updateLabels table row add remove => Txn.updateLabels table row add remove

/-- The ops a transaction has staged after its calls; one that is refused stages
nothing. -/
def staged (calls : List Call) : List Op :=
  calls.filterMap fun c => c.op.toOption

def groupRows : ℕ := 131072

def groupOf (offset : UInt64) : UInt64 := UInt64.ofNat (offset.toNat / groupRows)

/-- The key a cell update is batched under. -/
abbrev BatchKey := UInt32 × UInt64 × UInt32

abbrev batchOrder : BatchKey → BatchKey → Ordering :=
  pairCmp compare (pairCmp compare compare)

/-- What `build_records` accumulates over the ops. -/
structure Lowering where
  out : List WalRecord := []
  updates : Std.ExtTreeMap BatchKey (List (UInt64 × Cell)) batchOrder := {}
  edgeUpdates : Std.ExtTreeMap (UInt32 × UInt32) (List (Pair × Cell))
    (pairCmp compare compare) := {}
  labels : List ((UInt32 × UInt64 × UInt64) × List UInt64) := []
  deletes : Std.ExtTreeMap UInt32 (List UInt64) := {}
  detaches : Std.ExtTreeMap UInt32 (List Pair) := {}

/-- Adds a row to the last run of label changes if it has that shape, and starts
a run otherwise. -/
def pushLabel (shape : UInt32 × UInt64 × UInt64) (row : UInt64) :
    List ((UInt32 × UInt64 × UInt64) × List UInt64) →
      List ((UInt32 × UInt64 × UInt64) × List UInt64)
  | [] => [(shape, [row])]
  | [(last, rows)] =>
      if last = shape then [(last, rows ++ [row])] else [(last, rows), (shape, [row])]
  | run :: runs => run :: pushLabel shape row runs

def Lowering.push (l : Lowering) : Op → Lowering
  | .insertNodes table cols _ => { l with out := l.out ++ [.nodeInsert table cols] }
  | .insertRel rel src dst cols =>
      { l with
        out := l.out ++ [.relInsert rel [src] [dst]
          (cols.map fun c => { col := c.1, values := runValues [c.2] })] }
  | .update table offset col value =>
      { l with
        updates := entry l.updates (table, groupOf offset, col) []
          fun batch => batch ++ [(offset, value)] }
  | .delete table offset =>
      { l with deletes := entry l.deletes table [] fun ids => ids ++ [offset] }
  | .deleteRel rel src dst =>
      { l with detaches := entry l.detaches rel [] fun pairs => pairs ++ [(src, dst)] }
  | .updateRel rel src dst col value =>
      { l with
        edgeUpdates := entry l.edgeUpdates (rel, col) []
          fun batch => batch ++ [((src, dst), value)] }
  | .updateLabels table row add remove =>
      { l with labels := pushLabel (table, add, remove) row l.labels }

def kindRuns {α : Type} : List (α × Cell) → List (List (α × Cell))
  | [] => []
  | x :: xs =>
      match kindRuns xs with
      | (y :: run) :: runs =>
          if kindOf x.2 = kindOf y.2 then (x :: y :: run) :: runs
          else [x] :: (y :: run) :: runs
      | runs => [x] :: runs

def updateRecord (key : BatchKey) (run : List (UInt64 × Cell)) : WalRecord :=
  .update key.1 key.2.1 key.2.2 (run.map Prod.fst) (runValues (run.map Prod.snd))

def edgeUpdateRecord (key : UInt32 × UInt32) (run : List (Pair × Cell)) : WalRecord :=
  .relUpdate key.1 key.2 (run.map fun e => e.1.1) (run.map fun e => e.1.2)
    (runValues (run.map Prod.snd))

/-- The records of a lowering: the batches follow the inserts, in key order, and
the edges that go away do so before the rows. -/
def Lowering.records (l : Lowering) : List WalRecord :=
  l.out ++
    l.updates.toList.flatMap (fun e => (kindRuns e.2).map (updateRecord e.1)) ++
    l.edgeUpdates.toList.flatMap (fun e => (kindRuns e.2).map (edgeUpdateRecord e.1)) ++
    l.labels.map (fun e => .labelUpdate e.1.1 e.2 e.1.2.1 e.1.2.2) ++
    l.detaches.toList.map
      (fun e => .relDelete e.1 (e.2.map Prod.fst) (e.2.map Prod.snd)) ++
    l.deletes.toList.map fun e => .delete e.1 e.2

/-- `build_records`: lowers staged ops to log records. -/
def buildRecords (ops : List Op) : List WalRecord :=
  (ops.foldl Lowering.push {}).records

section

variable (crc : Bytes → UInt32)

/-- Appends records one after another, up to the first that fails. -/
def appendAll (epoch : Epoch) : List WalRecord → WalM Unit
  | [] => pure ()
  | r :: rs => do
      append crc epoch r
      appendAll epoch rs

/-- `WriteTxn::stage_commit`: the frames go to the log and then the overlays
change. What comes back is the store and what was returned: the epoch and the
byte the log has to be durable through, nothing of which is owed by a
transaction that staged nothing. -/
def stageCommit (m : Mvcc) (ops : List Op) : WalM (Mvcc × Epoch × Option ℕ) :=
  if ops = [] then pure (m, m.epoch, none)
  else do
    let epoch := m.epoch + 1
    appendAll crc epoch (.txnBegin :: buildRecords ops)
    let need ← Wal.stageCommit crc epoch
    return (m.apply epoch ops, epoch, some need)

end

end Zu.Txn
