import Zu.Lib.Entry
import Zu.Wal.Record

/-!
# Overlays

Committed state is the base file and, for each table, what was committed since
the last fold: appended rows, tombstones, chains of values written onto cells,
label changes, and the edges added, removed and written to. Every entry carries
the epoch that committed it, and a reader at an epoch sees the entries at or
below it. Offsets and table ids are the source's words; row counts and epochs
are numbers.
-/

namespace Zu.Txn

open Lib Wal

/-- One overlay cell value. -/
inductive Cell
  | int (word : UInt64)
  | str (bytes : Bytes)
  /-- The absence a `REMOVE` leaves behind. -/
  | null
  deriving DecidableEq, Repr

/-- The value of one row of a logged column. A column of absences carries no
values at all, and the length of the others is checked where they are read. -/
def cellAt (values : WalValues) (row : ℕ) : Cell :=
  match values with
  | .int words => (words[row]?).elim .null .int
  | .str strs => (strs[row]?).elim .null .str
  | .null _ => .null

/-- One committed batch of appended rows. -/
structure AppendBatch where
  epoch : Epoch
  cols : List WalColumn
  rows : ℕ
  deriving DecidableEq

/-- Values written onto one cell, newest last. -/
abbrev Chain := List (Epoch × Cell)

/-- What is committed and not yet folded of one node table. -/
structure TableOverlay where
  appended : List AppendBatch := []
  /-- The epoch each deleted row was deleted at. -/
  tombstones : Std.ExtTreeMap UInt64 Epoch := {}
  updates : Std.ExtTreeMap (UInt64 × UInt32) Chain (pairCmp compare compare) := {}
  /-- The masks put on and taken off a row's labels, newest last. -/
  labels : Std.ExtTreeMap UInt64 (List (Epoch × UInt64 × UInt64)) := {}

/-- One committed edge the base does not hold yet. -/
structure OverlayEdge where
  epoch : Epoch
  src : UInt64
  dst : UInt64
  cols : List (UInt32 × Cell)
  deriving DecidableEq

/-- The rows an edge runs between, which is the name it has. -/
abbrev Pair := UInt64 × UInt64

abbrev pairOrder : Pair → Pair → Ordering := pairCmp compare compare

abbrev edgeCellOrder : Pair × UInt32 → Pair × UInt32 → Ordering :=
  pairCmp pairOrder compare

/-- What is committed and not yet folded of one rel table. -/
structure RelOverlay where
  edges : List OverlayEdge := []
  /-- Every epoch that removed a pair, ascending. -/
  dead : Std.ExtTreeMap Pair (List Epoch) pairOrder := {}
  updates : Std.ExtTreeMap (Pair × UInt32) Chain edgeCellOrder := {}

/-- The overlays of every table. -/
structure Overlays where
  tables : Std.ExtTreeMap UInt32 TableOverlay := {}
  rels : Std.ExtTreeMap UInt32 RelOverlay := {}

/-- One change a reader can be shown before a fold has sealed it. -/
inductive Deferred
  | cell (table : UInt32) (offset : UInt64) (col : UInt32) (value : Cell)
  | relCell (rel : UInt32) (src dst : UInt64) (col : UInt32) (value : Cell)
  | edge (rel : UInt32) (src dst : UInt64) (cols : List (UInt32 × Cell))
  | gone (table : UInt32) (offset : UInt64)
  | deadRel (rel : UInt32) (src dst : UInt64)
  | rows (table : UInt32) (cells : List (List (UInt32 × Cell)))
  | labels (table : UInt32) (row add remove : UInt64)
  deriving DecidableEq

/-- The committed overlay store and the epoch counter. -/
structure Mvcc extends Overlays where
  epoch : Epoch
  /-- Manifest roots of ingests not yet folded. -/
  ingests : List (Epoch × UInt64) := []
  /-- Whether everything published here can be read without a fold. -/
  soft : Bool := true
  /-- What the last commit published. -/
  deferred : List Deferred := []

/-- One staged mutation. -/
inductive Op
  | insertNodes (table : UInt32) (cols : List WalColumn) (rows : ℕ)
  | insertRel (rel : UInt32) (src dst : UInt64) (cols : List (UInt32 × Cell))
  | update (table : UInt32) (offset : UInt64) (col : UInt32) (value : Cell)
  | delete (table : UInt32) (offset : UInt64)
  | deleteRel (rel : UInt32) (src dst : UInt64)
  | updateRel (rel : UInt32) (src dst : UInt64) (col : UInt32) (value : Cell)
  | updateLabels (table : UInt32) (row add remove : UInt64)
  deriving DecidableEq

namespace TableOverlay

def append (o : TableOverlay) (b : AppendBatch) : TableOverlay :=
  { o with appended := o.appended ++ [b] }

/-- The first epoch that deletes a row is the one it keeps. -/
def bury (o : TableOverlay) (offset : UInt64) (epoch : Epoch) : TableOverlay :=
  { o with tombstones := entry o.tombstones offset epoch id }

def write (o : TableOverlay) (offset : UInt64) (col : UInt32) (epoch : Epoch)
    (value : Cell) : TableOverlay :=
  { o with
    updates := entry o.updates (offset, col) [] fun chain => chain ++ [(epoch, value)] }

def label (o : TableOverlay) (row : UInt64) (epoch : Epoch) (add remove : UInt64) :
    TableOverlay :=
  { o with
    labels := entry o.labels row [] fun chain => chain ++ [(epoch, add, remove)] }

end TableOverlay

/-- Puts an epoch on the end of a pair's delete stamps, unless it is there. -/
def stamp (epoch : Epoch) (stamps : List Epoch) : List Epoch :=
  if stamps.getLast? = some epoch then stamps else stamps ++ [epoch]

namespace RelOverlay

def insert (o : RelOverlay) (e : OverlayEdge) : RelOverlay :=
  { o with edges := o.edges ++ [e] }

def kill (o : RelOverlay) (src dst : UInt64) (epoch : Epoch) : RelOverlay :=
  { o with dead := entry o.dead (src, dst) [] (stamp epoch) }

def write (o : RelOverlay) (src dst : UInt64) (col : UInt32) (epoch : Epoch)
    (value : Cell) : RelOverlay :=
  { o with
    updates := entry o.updates ((src, dst), col) []
      fun chain => chain ++ [(epoch, value)] }

end RelOverlay

namespace Overlays

/-- Changes the overlay of a node table, which starts empty. -/
def table (o : Overlays) (t : UInt32) (f : TableOverlay → TableOverlay) : Overlays :=
  { o with tables := entry o.tables t {} f }

/-- Changes the overlay of a rel table, which starts empty. -/
def rel (o : Overlays) (r : UInt32) (f : RelOverlay → RelOverlay) : Overlays :=
  { o with rels := entry o.rels r {} f }

/-- What publishing one staged op at `epoch` does to the overlays. -/
def publish (epoch : Epoch) (o : Overlays) : Op → Overlays
  | .insertNodes table cols rows =>
      o.table table fun t => t.append { epoch, cols, rows }
  | .insertRel rel src dst cols => o.rel rel fun r => r.insert { epoch, src, dst, cols }
  | .update table offset col value => o.table table fun t => t.write offset col epoch value
  | .delete table offset => o.table table fun t => t.bury offset epoch
  | .deleteRel rel src dst => o.rel rel fun r => r.kill src dst epoch
  | .updateRel rel src dst col value => o.rel rel fun r => r.write src dst col epoch value
  | .updateLabels table row add remove =>
      o.table table fun t => t.label row epoch add remove

end Overlays

/-- `appended`: the rows one node append is adding, a cell per column per row. -/
def appendedCells (cols : List WalColumn) (rows : ℕ) : List (List (UInt32 × Cell)) :=
  (List.range rows).map fun row => cols.map fun c => (c.col, cellAt c.values row)

/-- The change a reader can be handed for an op, if it is one of the shapes that
need no fold. A write of nothing changes the validity mask, which no patch
carries. -/
def Op.deferred : Op → Option Deferred
  | .update _ _ _ .null => none
  | .update table offset col value => some (.cell table offset col value)
  | .updateRel _ _ _ _ .null => none
  | .updateRel rel src dst col value => some (.relCell rel src dst col value)
  | .insertRel rel src dst cols => some (.edge rel src dst cols)
  | .delete table offset => some (.gone table offset)
  | .deleteRel rel src dst => some (.deadRel rel src dst)
  | .insertNodes table cols rows => some (.rows table (appendedCells cols rows))
  | .updateLabels table row add remove => some (.labels table row add remove)

namespace Mvcc

/-- A store with no overlays at the given committed epoch. -/
def new (epoch : Epoch) : Mvcc := { epoch }

/-- Notes the change an op makes for the readers, and publishes it. -/
def publish (epoch : Epoch) (m : Mvcc) (op : Op) : Mvcc :=
  let noted :=
    match m.soft, op.deferred with
    | true, some d => { m with deferred := m.deferred ++ [d] }
    | _, _ => { m with soft := false, deferred := [] }
  { noted with toOverlays := m.toOverlays.publish epoch op }

/-- `Mvcc::apply`: publishes a committed transaction's staged ops. -/
def apply (m : Mvcc) (epoch : Epoch) (ops : List Op) : Mvcc :=
  { ops.foldl (publish epoch) { m with deferred := [] } with epoch }

/-- Rows appended to a table and visible at `epoch`. -/
def appendedRows (m : Mvcc) (table : UInt32) (epoch : Epoch) : ℕ :=
  (m.tables[table]?).elim 0 fun t =>
    ((t.appended.filter fun b => b.epoch ≤ epoch).map AppendBatch.rows).sum

def isDeleted (m : Mvcc) (table : UInt32) (offset : UInt64) (epoch : Epoch) : Bool :=
  ((m.tables[table]?).bind fun t => t.tombstones[offset]?).any (· ≤ epoch)

/-- The rows a table has lost by `epoch`, ascending. -/
def tombstones (m : Mvcc) (table : UInt32) (epoch : Epoch) : List UInt64 :=
  (m.tables[table]?).elim [] fun t =>
    (t.tombstones.toList.filter fun e => e.2 ≤ epoch).map Prod.fst

/-- The newest entry of a chain at or below `epoch`. -/
def newest (chain : Chain) (epoch : Epoch) : Option Cell :=
  (chain.reverse.find? fun e => e.1 ≤ epoch).map Prod.snd

/-- The batch loop of `cell`: an appended row's stored column. -/
def appendedCell (col : UInt32) (epoch : Epoch) (offset : ℕ) :
    ℕ → List AppendBatch → Option Cell
  | _, [] => none
  | pos, b :: bs =>
      if b.epoch ≤ epoch ∧ offset < pos + b.rows then
        (b.cols.find? fun c => c.col = col).map fun c => cellAt c.values (offset - pos)
      else appendedCell col epoch offset (if b.epoch ≤ epoch then pos + b.rows else pos) bs

/-- The newest overlay value of one cell at `epoch`: a chain entry first, then an
appended row's stored column. -/
def cell (m : Mvcc) (table : UInt32) (baseCount : ℕ) (offset : UInt64) (col : UInt32)
    (epoch : Epoch) : Option Cell :=
  (m.tables[table]?).bind fun t =>
    match (t.updates[(offset, col)]?).bind fun chain => newest chain epoch with
    | some value => some value
    | none =>
        if offset.toNat < baseCount then none
        else appendedCell col epoch offset.toNat baseCount t.appended

/-- The rows of one column of the base that the overlay holds a value for at
`epoch`, ascending. -/
def colUpdates (m : Mvcc) (table col : UInt32) (baseCount : ℕ) (epoch : Epoch) :
    List (UInt64 × Cell) :=
  (m.tables[table]?).elim [] fun t =>
    let written := t.updates.toList.filter fun e => e.1.2 = col ∧ e.1.1.toNat < baseCount
    (written.filterMap fun e =>
      (newest e.2 epoch).map fun value => (e.1.1, value)).mergeSort fun a b => a.1 ≤ b.1

/-- Whether an edge over two rows that has stood since `since` is gone for a
reader at `epoch`. -/
def edgeGone (m : Mvcc) (rel : UInt32) (src dst : UInt64) (since epoch : Epoch) : Bool :=
  ((m.rels[rel]?).bind fun r => r.dead[(src, dst)]?).any fun stamps =>
    stamps.any fun e => since ≤ e && e ≤ epoch

/-- Overlay edges visible at `epoch` with what they carry. -/
def edgeCells (m : Mvcc) (rel : UInt32) (epoch : Epoch) :
    List (UInt64 × UInt64 × List (UInt32 × Cell)) :=
  (m.rels[rel]?).elim [] fun r =>
    (r.edges.filter fun e =>
      e.epoch ≤ epoch && !m.edgeGone rel e.src e.dst e.epoch epoch).map
        fun e => (e.src, e.dst, e.cols)

/-- Overlay neighbors of `node` visible at `epoch`. -/
def neighbors (m : Mvcc) (rel : UInt32) (node : UInt64) (reversed : Bool)
    (epoch : Epoch) : List UInt64 :=
  (m.rels[rel]?).elim [] fun r =>
    r.edges.filterMap fun e =>
      if epoch < e.epoch ∨ m.edgeGone rel e.src e.dst e.epoch epoch then none
      else if !reversed ∧ e.src = node then some e.dst
      else if reversed ∧ e.dst = node then some e.src
      else none

/-- The pairs a rel table has lost by `epoch`, ascending. -/
def deadEdges (m : Mvcc) (rel : UInt32) (epoch : Epoch) : List Pair :=
  (m.rels[rel]?).elim [] fun r =>
    (r.dead.toList.filter fun e => e.2.head?.any (· ≤ epoch)).map Prod.fst

/-- What a rel table has had written onto its edges by `epoch`. -/
def edgeUpdates (m : Mvcc) (rel : UInt32) (epoch : Epoch) :
    Std.ExtTreeMap (Pair × UInt32) Cell edgeCellOrder :=
  (m.rels[rel]?).elim {} fun r => r.updates.filterMap fun _ chain => newest chain epoch

/-- Composes a chain of label changes into one pair of masks. -/
def composeLabels (chain : List (Epoch × UInt64 × UInt64)) : UInt64 × UInt64 :=
  chain.foldl
    (fun (add, remove) (_, add', remove') =>
      ((add &&& ~~~remove') ||| add', (remove &&& ~~~add') ||| remove')) (0, 0)

/-- What a table has had put on its rows' labels and taken off them by `epoch`. -/
def labelChanges (m : Mvcc) (table : UInt32) (epoch : Epoch) :
    Std.ExtTreeMap UInt64 (UInt64 × UInt64) :=
  (m.tables[table]?).elim {} fun t =>
    t.labels.filterMap fun _ chain =>
      let seen := chain.filter fun e => e.1 ≤ epoch
      if seen = [] then none else some (composeLabels seen)

end Mvcc

end Zu.Txn
