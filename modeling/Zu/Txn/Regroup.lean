import Zu.Txn.Runs
import Zu.Txn.Commit
import Zu.Lib.Batch
import Zu.Lib.Trace

/-!
# What the batching of records keeps

An op acts on one key: the rows of a table, the edges of a rel table, one cell,
one row, one pair. Ops at different keys commute, and the records a transaction
is lowered to stand for its ops in an order that is the staged one at every key,
so publishing the records publishes the ops.
-/

namespace Zu.Txn

open Lib Wal

/-- What an op acts on. -/
inductive OpKey
  | rows (table : UInt32)
  | edges (rel : UInt32)
  | cell (table : UInt32) (offset : UInt64) (col : UInt32)
  | row (table : UInt32) (offset : UInt64)
  | pair (rel : UInt32) (src dst : UInt64)
  | edgeCell (rel : UInt32) (src dst : UInt64) (col : UInt32)
  | labels (table : UInt32) (row : UInt64)
  deriving DecidableEq

def opKey : Op → OpKey
  | .insertNodes table _ _ => .rows table
  | .insertRel rel _ _ _ => .edges rel
  | .update table offset col _ => .cell table offset col
  | .delete table offset => .row table offset
  | .deleteRel rel src dst => .pair rel src dst
  | .updateRel rel src dst col _ => .edgeCell rel src dst col
  | .updateLabels table row _ _ => .labels table row

namespace TableOverlay

theorem write_comm (o : TableOverlay) {x y : UInt64 × UInt32} (h : x ≠ y)
    (epoch : Epoch) (v w : Cell) :
    (o.write y.1 y.2 epoch w).write x.1 x.2 epoch v =
      (o.write x.1 x.2 epoch v).write y.1 y.2 epoch w := by
  simp only [write]
  rw [entry_comm o.updates x y [] _ _ fun hxy => absurd hxy h]

theorem bury_comm (o : TableOverlay) {x y : UInt64} (h : x ≠ y) (epoch : Epoch) :
    (o.bury y epoch).bury x epoch = (o.bury x epoch).bury y epoch := by
  simp only [bury]
  rw [entry_comm o.tombstones x y epoch _ _ fun hxy => absurd hxy h]

theorem label_comm (o : TableOverlay) {x y : UInt64} (h : x ≠ y) (epoch : Epoch)
    (add remove add' remove' : UInt64) :
    (o.label y epoch add' remove').label x epoch add remove =
      (o.label x epoch add remove).label y epoch add' remove' := by
  simp only [label]
  rw [entry_comm o.labels x y [] _ _ fun hxy => absurd hxy h]

end TableOverlay

namespace RelOverlay

theorem kill_comm (o : RelOverlay) {x y : Pair} (h : x ≠ y) (epoch : Epoch) :
    (o.kill y.1 y.2 epoch).kill x.1 x.2 epoch =
      (o.kill x.1 x.2 epoch).kill y.1 y.2 epoch := by
  simp only [kill]
  rw [entry_comm o.dead x y [] _ _ fun hxy => absurd hxy h]

theorem write_comm (o : RelOverlay) {x y : Pair × UInt32} (h : x ≠ y)
    (epoch : Epoch) (v w : Cell) :
    (o.write y.1.1 y.1.2 y.2 epoch w).write x.1.1 x.1.2 x.2 epoch v =
      (o.write x.1.1 x.1.2 x.2 epoch v).write y.1.1 y.1.2 y.2 epoch w := by
  simp only [write]
  rw [entry_comm o.updates x y [] _ _ fun hxy => absurd hxy h]

end RelOverlay

namespace Overlays

theorem table_comm (o : Overlays) (t t' : UInt32) (f g : TableOverlay → TableOverlay)
    (h : t = t' → ∀ v, f (g v) = g (f v)) :
    (o.table t' g).table t f = (o.table t f).table t' g := by
  rw [table, table, table, table]
  simp only [entry_comm o.tables t t' {} f g h]

theorem rel_comm (o : Overlays) (r r' : UInt32) (f g : RelOverlay → RelOverlay)
    (h : r = r' → ∀ v, f (g v) = g (f v)) :
    (o.rel r' g).rel r f = (o.rel r f).rel r' g := by
  rw [rel, rel, rel, rel]
  simp only [entry_comm o.rels r r' {} f g h]

/-- Ops at different keys commute. -/
theorem publish_comm (epoch : Epoch) (o : Overlays) (a b : Op)
    (h : opKey a ≠ opKey b) :
    (o.publish epoch a).publish epoch b = (o.publish epoch b).publish epoch a := by
  cases a <;> cases b <;> simp only [publish]
  -- an op on a node table and one on a rel table change different maps
  all_goals first
    | rfl
    | (refine table_comm _ _ _ _ _ fun ht v => ?_; subst ht)
    | (refine rel_comm _ _ _ _ _ fun hr v => ?_; subst hr)
  -- on one table they change different fields, or one field at different keys
  all_goals try first
    | rfl
    | exact absurd rfl h
  case update.update offset col _ table offset' col' _ =>
    exact TableOverlay.write_comm (x := (offset', col')) (y := (offset, col)) v
      (fun hxy => h (by simp_all [opKey])) epoch _ _
  case delete.delete =>
    exact TableOverlay.bury_comm v (fun hxy => h (by simp_all [opKey])) epoch
  case updateLabels.updateLabels =>
    exact TableOverlay.label_comm v (fun hxy => h (by simp_all [opKey])) epoch _ _ _ _
  case deleteRel.deleteRel src dst rel src' dst' =>
    exact RelOverlay.kill_comm (x := (src', dst')) (y := (src, dst)) v
      (fun hxy => h (by simp_all [opKey])) epoch
  case updateRel.updateRel src dst col _ rel src' dst' col' _ =>
    exact RelOverlay.write_comm (x := ((src', dst'), col')) (y := ((src, dst), col)) v
      (fun hxy => h (by simp_all [opKey])) epoch _ _

end Overlays

def recordOps : WalRecord → List Op
  | .nodeInsert table cols =>
      [.insertNodes table cols (cols.head?.elim 0 fun c => c.values.len)]
  | .relInsert rel src dst cols =>
      (src.zip dst).zipIdx.map fun e =>
        .insertRel rel e.1.1 e.1.2 (cols.map fun c => (c.col, cellAt c.values e.2))
  | .update table _ col offsets values =>
      offsets.zipIdx.map fun e => .update table e.1 col (cellAt values e.2)
  | .delete table ids => ids.map (.delete table)
  | .relDelete rel src dst => (src.zip dst).map fun e => .deleteRel rel e.1 e.2
  | .relUpdate rel col src dst values =>
      (src.zip dst).zipIdx.map fun e =>
        .updateRel rel e.1.1 e.1.2 col (cellAt values e.2)
  | .labelUpdate table offsets add remove =>
      offsets.map fun row => .updateLabels table row add remove
  | _ => []

/-- A record the lowering may build: it names a row or an edge at least, its
columns agree on a row count, and it is one of the kinds replay puts back. -/
def Replayable : WalRecord → Prop
  | .nodeInsert _ cols =>
      ∀ c ∈ cols, c.values.len = cols.head?.elim 0 fun c => c.values.len
  | .ddlCatalog _ | .ingestRef .. => False
  | .txnBegin | .txnCommit | .checkpointNote => True
  | r => recordOps r ≠ []

namespace Overlays

theorem foldl_table {α : Type} (g : α → TableOverlay → TableOverlay) (t : UInt32)
    (as : List α) (has : as ≠ []) (o : Overlays) :
    as.foldl (fun o a => o.table t (g a)) o =
      o.table t fun v => as.foldl (fun v a => g a v) v := by
  induction as generalizing o with
  | nil => exact absurd rfl has
  | cons a as ih =>
      cases as with
      | nil => rfl
      | cons b as =>
          rw [List.foldl_cons, ih (by simp)]
          simp only [table, entry_entry, List.foldl_cons]

theorem foldl_rel {α : Type} (g : α → RelOverlay → RelOverlay) (r : UInt32)
    (as : List α) (has : as ≠ []) (o : Overlays) :
    as.foldl (fun o a => o.rel r (g a)) o =
      o.rel r fun v => as.foldl (fun v a => g a v) v := by
  induction as generalizing o with
  | nil => exact absurd rfl has
  | cons a as ih =>
      cases as with
      | nil => rfl
      | cons b as =>
          rw [List.foldl_cons, ih (by simp)]
          simp only [rel, entry_entry, List.foldl_cons]

end Overlays

/-- What replay puts back for a record is what publishing its ops does. -/
theorem replayed_eq (epoch : Epoch) (o : Overlays) {r : WalRecord}
    (h : Replayable r) :
    replayed epoch o r = .ok ((recordOps r).foldl (Overlays.publish epoch) o) := by
  cases r with
  | txnBegin => rfl
  | txnCommit => rfl
  | checkpointNote => rfl
  | ddlCatalog delta => exact h.elim
  | ingestRef table ptrs => exact h.elim
  | nodeInsert table cols =>
      have hagree : (cols.any fun c =>
          c.values.len ≠ cols.head?.elim 0 fun c => c.values.len) = false := by
        rw [List.any_eq_false]
        intro c hc
        simp [h c hc]
      simp only [replayed, hagree]
      rfl
  | relInsert rel src dst cols =>
      have hne : (src.zip dst).zipIdx ≠ [] := by
        intro hnil
        simp [Replayable, recordOps, hnil] at h
      simp only [replayed, recordOps, recordedEdges, List.foldl_map, Overlays.publish]
      rw [Overlays.foldl_rel _ rel _ hne]
  | update table group col offsets values =>
      have hne : offsets.zipIdx ≠ [] := by
        intro hnil
        simp [Replayable, recordOps, hnil] at h
      simp only [replayed, recordOps, List.foldl_map, Overlays.publish]
      rw [Overlays.foldl_table _ table _ hne]
  | delete table ids =>
      have hne : ids ≠ [] := by
        intro hnil
        simp [Replayable, recordOps, hnil] at h
      simp only [replayed, recordOps, List.foldl_map, Overlays.publish]
      rw [Overlays.foldl_table _ table _ hne]
  | relDelete rel src dst =>
      have hne : src.zip dst ≠ [] := by
        intro hnil
        simp [Replayable, recordOps, hnil] at h
      simp only [replayed, recordOps, List.foldl_map, Overlays.publish]
      rw [Overlays.foldl_rel _ rel _ hne]
  | relUpdate rel col src dst values =>
      have hne : (src.zip dst).zipIdx ≠ [] := by
        intro hnil
        simp [Replayable, recordOps, hnil] at h
      simp only [replayed, recordOps, List.foldl_map, Overlays.publish]
      rw [Overlays.foldl_rel _ rel _ hne]
  | labelUpdate table offsets add remove =>
      have hne : offsets ≠ [] := by
        intro hnil
        simp [Replayable, recordOps, hnil] at h
      simp only [replayed, recordOps, List.foldl_map, Overlays.publish]
      rw [Overlays.foldl_table _ table _ hne]

end Zu.Txn
