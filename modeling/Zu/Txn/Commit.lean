import Zu.Txn.WriteTxn

/-!
# Recovery

Replay hands the records of each committed transaction to a sink that puts them
back in the overlays. A record stands for a list of ops (`recordOps`), and what
the sink does with it is to publish them.
-/

namespace Zu

namespace Txn

open Lib Wal

/-- The payload of one resolved ingest. -/
inductive IngestPayload
  | nodes (cols : List WalColumn) (rows : ℕ)
  | edges (src dst : List UInt64)

/-- `publish_ingest`: the payload enters the overlays as a committed transaction
would have put it there. -/
def Mvcc.publishIngest (m : Mvcc) (epoch : Epoch) (table : UInt32)
    (payload : IngestPayload) (root : UInt64) : Mvcc :=
  let overlays :=
    match payload with
    | .nodes cols rows => m.table table fun t => t.append { epoch, cols, rows }
    | .edges src dst =>
        m.rel table fun r =>
          (src.zip dst).foldl (fun r e => r.insert { epoch, src := e.1, dst := e.2, cols := [] }) r
  { m with
    toOverlays := overlays
    ingests := m.ingests ++ [(epoch, root)]
    epoch := max m.epoch epoch
    soft := false
    deferred := [] }

/-- A rel insert read back: edge `i` takes value `i` of every column. -/
def recordedEdges (epoch : Epoch) (src dst : List UInt64) (cols : List WalColumn) :
    List OverlayEdge :=
  (src.zip dst).zipIdx.map fun e =>
    { epoch, src := e.1.1, dst := e.1.2,
      cols := cols.map fun c => (c.col, cellAt c.values e.2) }

/-- What the sink of `recover_with` puts back in the overlays for one record. -/
def replayed (epoch : Epoch) (o : Overlays) : WalRecord → Except ZuError Overlays
  | .nodeInsert table cols => do
      let rows := cols.head?.elim 0 fun c => c.values.len
      if cols.any fun c => c.values.len ≠ rows then
        throw (.corrupt "wal record" s!"ragged node insert into table {table.toNat}")
      return o.table table fun t => t.append { epoch, cols, rows }
  | .relInsert rel src dst cols =>
      .ok (o.rel rel fun r => (recordedEdges epoch src dst cols).foldl RelOverlay.insert r)
  | .update table _ col offsets values =>
      .ok (o.table table fun t =>
        offsets.zipIdx.foldl (fun t e => t.write e.1 col epoch (cellAt values e.2)) t)
  | .delete table ids =>
      .ok (o.table table fun t => ids.foldl (fun t id => t.bury id epoch) t)
  | .relDelete rel src dst =>
      .ok (o.rel rel fun r => (src.zip dst).foldl (fun r e => r.kill e.1 e.2 epoch) r)
  | .relUpdate rel col src dst values =>
      .ok (o.rel rel fun r =>
        (src.zip dst).zipIdx.foldl
          (fun r e => r.write e.1.1 e.1.2 col epoch (cellAt values e.2)) r)
  | .labelUpdate table offsets add remove =>
      .ok (o.table table fun t =>
        offsets.foldl (fun t row => t.label row epoch add remove) t)
  | .ddlCatalog _ => .error (.unsupported "wal replay kind" 0)
  | .txnBegin | .txnCommit | .checkpointNote | .ingestRef .. => .ok o

/-- The sink of `recover_with`. -/
def recoverRecord
    (resolve : UInt32 → List UInt64 → Except ZuError (IngestPayload × UInt64))
    (m : Mvcc) (e : Epoch × WalRecord) : Except ZuError Mvcc := do
  let m := { m with epoch := max m.epoch e.1 }
  match e.2 with
  | .ingestRef table ptrs => do
      let (payload, root) ← resolve table ptrs
      return m.publishIngest e.1 table payload root
  | r => do
      let overlays ← replayed e.1 m.toOverlays r
      return { m with toOverlays := overlays }

/-- `Mvcc::recover_with`: rebuilds the overlays from the log. -/
def recoverWith (crc : Bytes → UInt32) (w : Log) (floor : Epoch)
    (resolve : UInt32 → List UInt64 → Except ZuError (IngestPayload × UInt64)) :
    Except ZuError Mvcc :=
  replay crc w floor (recoverRecord resolve) (Mvcc.new floor)

/-- An ingest cannot be resolved without the database file. -/
def unresolved (_ : UInt32) (_ : List UInt64) : Except ZuError (IngestPayload × UInt64) :=
  .error (.unsupported "resolving an IngestRef without the database file" 0)

/-- `Mvcc::recover`: an ingest in the log is an error here. -/
def recover (crc : Bytes → UInt32) (w : Log) (floor : Epoch) : Except ZuError Mvcc :=
  recoverWith crc w floor unresolved

end Txn

end Zu

/-!
## Commits

The write side is the store and its log. A commit is a transaction, or the frame
that puts sealed ingest blocks in the log; either changes the store once its
frames are in the log and leaves it as it was when a call on the file fails. The
wait for the platter comes after the store has changed, and does not change it.
-/

namespace Zu

namespace Txn

open Lib Wal

/-- The store and its log. -/
structure Side where
  mvcc : Mvcc
  log : Log

/-- What is committed. An ingest names the table, the manifest its blocks hang off,
and how many blocks the file has. -/
inductive Change
  | txn (calls : List Call)
  | ingest (table : UInt32) (root blockCount : UInt64) (payload : IngestPayload)

/-- One commit: what it commits, how the calls on the log's file turn out, and how
long the sync takes. -/
structure Commit where
  change : Change
  plan : List Outcome
  took : ℕ

variable (crc : Bytes → UInt32)

/-- `commit_ref`: the store changes once the frames are on the platter. -/
def commitRef (m : Mvcc) (table : UInt32) (root blockCount : UInt64)
    (payload : IngestPayload) (took : ℕ) : WalM (Mvcc × Epoch) := do
  let epoch := m.epoch + 1
  append crc epoch .txnBegin
  append crc epoch (.ingestRef table [root, blockCount])
  Wal.commit crc epoch took
  return (m.publishIngest epoch table payload root, epoch)

/-- The store a change leaves, where its calls succeed. -/
def Change.stage (m : Mvcc) (took : ℕ) : Change → WalM Mvcc
  | .txn calls => do
      let (mvcc, _, _) ← stageCommit crc m (staged calls)
      return mvcc
  | .ingest table root blockCount payload => do
      let (mvcc, _) ← commitRef crc m table root blockCount payload took
      return mvcc

/-- What a commit leaves of the store and the log, whatever it returns. -/
def Side.commit (s : Side) (c : Commit) : Side :=
  let log := { s.log with file := { s.log.file with plan := c.plan } }
  match (c.change.stage crc s.mvcc c.took).exec log with
  | (.ok mvcc, log) => { mvcc, log }
  | (.error _, log) => { s with log }

/-- A commit as a step; one past the last epoch overflows and is none. -/
def Side.step (s : Side) (c : Commit) : Option Side :=
  if s.mvcc.epoch + 1 < 2 ^ 64 then some (s.commit crc c) else none

variable {crc}

/-- A transaction that returned has published its ops, or had none. -/
theorem stageCommit_ok {m m' : Mvcc} {ops : List Op} {w w' : Log} {epoch : Epoch}
    {owed : Option ℕ} (h : (stageCommit crc m ops).exec w = (.ok (m', epoch, owed), w')) :
    m' = m ∨ m' = m.apply (m.epoch + 1) ops := by
  rw [stageCommit] at h
  split_ifs at h with hops
  · cases h
    exact Or.inl rfl
  · obtain ⟨_, _, -, h⟩ := exec_bind_ok h
    obtain ⟨_, _, -, h⟩ := exec_bind_ok h
    cases h
    exact Or.inr rfl

/-- An ingest that returned has published its payload. -/
theorem commitRef_ok {m m' : Mvcc} {table : UInt32} {root blockCount : UInt64}
    {payload : IngestPayload} {took : ℕ} {w w' : Log} {epoch : Epoch}
    (h : (commitRef crc m table root blockCount payload took).exec w =
      (.ok (m', epoch), w')) :
    m' = m.publishIngest (m.epoch + 1) table payload root := by
  rw [commitRef] at h
  obtain ⟨_, _, -, h⟩ := exec_bind_ok h
  obtain ⟨_, _, -, h⟩ := exec_bind_ok h
  obtain ⟨_, _, -, h⟩ := exec_bind_ok h
  cases h
  rfl

/-- All a commit can do to the store: nothing, or publish a change at the next
epoch. -/
theorem Side.commit_cases (s : Side) (c : Commit) :
    (s.commit crc c).mvcc = s.mvcc ∨
      (∃ ops, (s.commit crc c).mvcc = s.mvcc.apply (s.mvcc.epoch + 1) ops) ∨
      ∃ table payload root, (s.commit crc c).mvcc =
        s.mvcc.publishIngest (s.mvcc.epoch + 1) table payload root := by
  rw [Side.commit]
  split
  · rename_i mvcc log hexec
    cases hchange : c.change with
    | txn calls =>
        rw [hchange, Change.stage] at hexec
        obtain ⟨⟨m', epoch, owed⟩, _, hstage, hpure⟩ := exec_bind_ok hexec
        cases hpure
        rcases stageCommit_ok hstage with rfl | rfl
        · exact Or.inl rfl
        · exact Or.inr (Or.inl ⟨_, rfl⟩)
    | ingest table root blockCount payload =>
        rw [hchange, Change.stage] at hexec
        obtain ⟨⟨m', epoch⟩, _, hstage, hpure⟩ := exec_bind_ok hexec
        cases hpure
        exact Or.inr (Or.inr ⟨table, payload, root, commitRef_ok hstage⟩)
  · exact Or.inl rfl

end Txn

end Zu
