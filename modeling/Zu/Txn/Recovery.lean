import Zu.Txn.History

/-!
# Recovery gives back what was published

The store that a log's transactions were published into and the store recovered
from that log have the same overlays, so they agree on every read. What the
encoding loses is the number of rows of an insert whose columns are all absences
once it takes more than 32 bits.
-/

namespace Zu.Txn

open Lib Wal

variable {crc : Bytes → UInt32}

/-- Two stores that no read tells apart, at any epoch and over any base. -/
structure SameReads (m m' : Mvcc) : Prop where
  epoch : m.epoch = m'.epoch
  cell : ∀ table baseCount offset col epoch,
    m.cell table baseCount offset col epoch = m'.cell table baseCount offset col epoch
  appendedRows : ∀ table epoch, m.appendedRows table epoch = m'.appendedRows table epoch
  isDeleted : ∀ table offset epoch,
    m.isDeleted table offset epoch = m'.isDeleted table offset epoch
  neighbors : ∀ rel node reversed epoch,
    m.neighbors rel node reversed epoch = m'.neighbors rel node reversed epoch
  edgeCells : ∀ rel epoch, m.edgeCells rel epoch = m'.edgeCells rel epoch
  edgeUpdates : ∀ rel epoch, m.edgeUpdates rel epoch = m'.edgeUpdates rel epoch
  deadEdges : ∀ rel epoch, m.deadEdges rel epoch = m'.deadEdges rel epoch
  edgeGone : ∀ rel src dst since epoch,
    m.edgeGone rel src dst since epoch = m'.edgeGone rel src dst since epoch
  labelChanges : ∀ table epoch, m.labelChanges table epoch = m'.labelChanges table epoch

theorem SameReads.of_overlays {m m' : Mvcc} (h : m.toOverlays = m'.toOverlays)
    (hepoch : m.epoch = m'.epoch) : SameReads m m' := by
  obtain ⟨o, e, _, _, _⟩ := m
  obtain ⟨o', e', _, _, _⟩ := m'
  cases h
  exact ⟨hepoch, fun _ _ _ _ _ => rfl, fun _ _ => rfl, fun _ _ _ => rfl, fun _ _ _ _ => rfl,
    fun _ _ => rfl, fun _ _ => rfl, fun _ _ => rfl, fun _ _ _ _ _ => rfl, fun _ _ => rfl⟩

theorem foldl_publish_overlays (epoch : Epoch) (ops : List Op) (m : Mvcc) :
    (ops.foldl (Mvcc.publish epoch) m).toOverlays =
      ops.foldl (Overlays.publish epoch) m.toOverlays := by
  induction ops generalizing m with
  | nil => rfl
  | cons op ops ih => rw [List.foldl_cons, ih, List.foldl_cons, Mvcc.publish]

/-- The records of a transaction publish what its ops publish. -/
theorem foldl_recordOps {ops : List Op} (h : ∀ op ∈ ops, op.Built ∧ op.RowsFit)
    (epoch : Epoch) (o : Overlays) :
    ((buildRecords ops).flatMap recordOps).foldl (Overlays.publish epoch) o =
      ops.foldl (Overlays.publish epoch) o :=
  foldl_eq_of_filter_eq (fun o a b hkey => Overlays.publish_comm epoch o a b hkey)
    (filter_recordOps h) o

section

variable (resolve : UInt32 → List UInt64 → Except ZuError (IngestPayload × UInt64))

theorem recoverRecord_eq (m : Mvcc) (epoch : Epoch) {r : WalRecord} (h : Replayable r) :
    recoverRecord resolve m (epoch, r) =
      .ok { m with
        toOverlays := (recordOps r).foldl (Overlays.publish epoch) m.toOverlays
        epoch := max m.epoch epoch } := by
  have hreplay := replayed_eq epoch m.toOverlays h
  cases r
  case ingestRef => exact h.elim
  all_goals
    rw [recoverRecord]
    simp only [hreplay]
    rfl

/-- The records of a transaction at the store's own epoch only change the
overlays. -/
theorem foldlM_recoverRecord {records : List WalRecord} (h : ∀ r ∈ records, Replayable r)
    (m : Mvcc) :
    (records.map fun r => (m.epoch, r)).foldlM (recoverRecord resolve) m =
      .ok { m with toOverlays :=
        (records.flatMap recordOps).foldl (Overlays.publish m.epoch) m.toOverlays } := by
  induction records generalizing m with
  | nil => rfl
  | cons r records ih =>
      rw [List.map_cons, List.foldlM_cons, recoverRecord_eq _ _ _ (h r List.mem_cons_self),
        ok_bind, max_self]
      have hrest := ih (fun r hr => h r (List.mem_cons_of_mem _ hr))
        { m with toOverlays := (recordOps r).foldl (Overlays.publish m.epoch) m.toOverlays }
      rw [List.flatMap_cons, List.foldl_append]
      exact hrest

/-- A committed transaction is recovered as it was published. -/
theorem foldlM_txnRecords {ops : List Op} (h : ∀ op ∈ ops, op.Built ∧ op.RowsFit)
    {m : Mvcc} {epoch : Epoch} (hepoch : m.epoch ≤ epoch) :
    (txnRecords epoch (buildRecords ops)).foldlM (recoverRecord resolve) m =
      .ok { m with
        toOverlays := ops.foldl (Overlays.publish epoch) m.toOverlays
        epoch } := by
  have hbegin : recoverRecord resolve m (epoch, .txnBegin) = .ok { m with epoch } := by
    rw [recoverRecord_eq _ _ _ (by trivial), max_eq_right hepoch]
    rfl
  have hdata := foldlM_recoverRecord resolve (replayable_buildRecords h) { m with epoch }
  rw [txnRecords, List.foldlM_append, List.foldlM_cons, hbegin, ok_bind, hdata, ok_bind,
    List.foldlM_cons, recoverRecord_eq _ _ _ (by trivial), foldl_recordOps h]
  simp only [max_self]
  rfl

end

/-- What recovery makes of the log is what was published. -/
def Republished (floor : Epoch) (ds : List (Epoch × WalRecord)) (db : Db) : Prop :=
  ∃ m, ds.foldlM (recoverRecord unresolved) (Mvcc.new floor) = .ok m ∧
    m.toOverlays = db.mvcc.toOverlays ∧ m.epoch = db.mvcc.epoch

variable (crc)

/-- A clean attempt of which every node insert can count its rows. -/
def Recoverable (db : Db) (a : Attempt) : Prop :=
  Clean crc db a ∧ ∀ op ∈ a.ops, op.RowsFit

variable {crc}

theorem Republished.attempt {floor : Epoch} {ds₀ : List (Epoch × WalRecord)} {db : Db}
    {a : Attempt} (h : Republished floor (ds₀ ++ db.ackedRecords) db)
    (hinv : Inv crc floor ds₀ db) (ha : Recoverable crc db a) :
    Republished floor (ds₀ ++ (db.attempt crc a).2.ackedRecords) (db.attempt crc a).2 := by
  obtain ⟨done, us, hold, -⟩ := hinv
  obtain ⟨⟨-, hok | ⟨hearly, -⟩⟩, hrows⟩ := ha
  · by_cases hops : a.ops = []
    · rw [attempt_nil hops]
      exact h
    obtain ⟨w, need, hattempt, -⟩ := attempt_ok hops hok hold
    rw [hattempt]
    obtain ⟨m, hm, hover, hepoch⟩ := h
    have hops' : ∀ op ∈ a.ops, op.Built ∧ op.RowsFit := fun op hop =>
      ⟨built_staged a.calls op hop, hrows op hop⟩
    refine ⟨{ m with
      toOverlays := a.ops.foldl (Overlays.publish (db.mvcc.epoch + 1)) m.toOverlays
      epoch := db.mvcc.epoch + 1 }, ?_, ?_, rfl⟩
    · rw [Db.ackedRecords, List.flatMap_append, List.flatMap_singleton, ← List.append_assoc ds₀,
        List.foldlM_append]
      change (ds₀ ++ db.ackedRecords).foldlM _ _ >>= _ = _
      rw [hm, ok_bind]
      exact foldlM_txnRecords unresolved hops' (hepoch.le.trans (Nat.le_succ _))
    · rw [hover, Mvcc.apply, foldl_publish_overlays]
  · obtain ⟨e, w, vs, hattempt, -⟩ := attempt_early hearly hold
    rw [hattempt]
    exact h

/-- Recovery rebuilds what the commits published, from the log as it is and from
the log opened again: no read tells the two stores apart. -/
theorem recover_sameReads {floor : Epoch} {db₀ db : Db} (hopen : Opened crc floor db₀)
    (hrec : recover crc db₀.log floor = .ok db₀.mvcc)
    (hrun : Run (step crc) (Recoverable crc) db₀ db) :
    ∃ m, recover crc db.log floor = .ok m ∧
      (restart crc db.log >>= fun w => recover crc w floor) = .ok m ∧
      SameReads m db.mvcc := by
  obtain ⟨ds₀, h₀, hinv₀⟩ := hopen.inv
  have hpub₀ : Republished floor (ds₀ ++ db₀.ackedRecords) db₀ := by
    refine ⟨db₀.mvcc, ?_, rfl, rfl⟩
    rw [Db.ackedRecords, hopen.acked_nil, List.flatMap_nil, List.append_nil]
    exact (h₀ _ _).symm.trans hrec
  have hkeep : ∀ db a db', (Inv crc floor ds₀ db ∧
      Republished floor (ds₀ ++ db.ackedRecords) db) → Recoverable crc db a →
        step crc db a = some db' → Inv crc floor ds₀ db' ∧
          Republished floor (ds₀ ++ db'.ackedRecords) db' := by
    intro db a db' h ha hstep
    have hinv := h.1.of_step ha.1 hstep
    obtain ⟨-, rfl⟩ := step_eq_some hstep
    exact ⟨hinv, h.2.attempt h.1 ha⟩
  obtain ⟨hinv, m, hm, hover, hepoch⟩ := hrun.invariant hkeep ⟨hinv₀, hpub₀⟩
  obtain ⟨hopenReplay, hrestart⟩ := hinv.replay (recoverRecord unresolved) (Mvcc.new floor)
  exact ⟨m, hopenReplay.trans hm, hrestart.trans hm, SameReads.of_overlays hover hepoch⟩

/-- Two rows with a name each, an edge, a new value on a row and the other row
deleted. -/
def mixed : Attempt where
  calls := [.insertNodes 1 [(0, [.int 10, .int 20]), (1, [.str [97], .str [107]])],
    .insertRel 9 5 6, .update 1 5 1 (.str [103]), .delete 1 6]
  plan := []

theorem mixed_fits : RecordsFit mixed.ops ∧ ∀ op ∈ mixed.ops, op.RowsFit := by
  decide +kernel

theorem recover_sameReads_mixed :
    ∃ m, recover crc32c (emptyDb.attempt crc32c mixed).2.log 0 = .ok m ∧
      (restart crc32c (emptyDb.attempt crc32c mixed).2.log >>= fun w =>
        recover crc32c w 0) = .ok m ∧
      SameReads m (emptyDb.attempt crc32c mixed).2.mvcc :=
  recover_sameReads opened_emptyDb rfl
    ((Run.refl emptyDb).tail
      ⟨⟨mixed_fits.1, Or.inl (succeeds_of_no_failure emptyDb rfl)⟩, mixed_fits.2⟩
      (if_pos (by decide)))

/-- A batch of rows that hold nothing in their only column. -/
def nullRows (n : ℕ) : Attempt where
  calls := [.insertNodes 0 [(0, List.replicate n .null)]]
  plan := []

theorem ops_nullRows {n : ℕ} (hn : 0 < n) :
    (nullRows n).ops =
      [.insertNodes 0 [{ col := 0, values := .null (UInt32.ofNat n) }] n] := by
  have hfirst : (List.replicate n Cell.null).head?.elim .int kindOf = .null := by
    rw [List.head?_replicate, if_neg hn.ne']
    rfl
  have hvalues : cellValues (List.replicate n .null) = .ok (.null (UInt32.ofNat n)) := by
    have hkinds : ((List.replicate n Cell.null).any fun c => kindOf c ≠ .null) = false := by
      simp [List.any_replicate, kindOf]
    rw [cellValues]
    simp only [hfirst, hkinds, List.length_replicate]
    rfl
  have hop : Txn.insertNodes 0 [(0, List.replicate n .null)] =
      .ok (.insertNodes 0 [{ col := 0, values := .null (UInt32.ofNat n) }] n) := by
    rw [Txn.insertNodes]
    simp [hvalues]
  simp [Attempt.ops, nullRows, staged, Call.op, hop, Except.toOption]

/-- The column of `2 ^ 32` absences as it is logged. -/
def forgottenRows : List WalColumn := [{ col := 0, values := .null 0 }]

theorem exists_forgottenRows : ∃ a : Attempt,
    a.plan = [] ∧ a.ops = [.insertNodes 0 forgottenRows (2 ^ 32)] :=
  ⟨nullRows (2 ^ 32), rfl, ops_nullRows (by decide)⟩

theorem recovered_forgottenRows : ∃ m,
    (txnRecords 1 [.nodeInsert 0 forgottenRows]).foldlM (recoverRecord unresolved)
      (Mvcc.new 0) = .ok m ∧ m.appendedRows 0 1 = 0 :=
  ⟨_, rfl, rfl⟩

/-- The rows of a commit that adds `2 ^ 32` of them are not recovered. -/
theorem not_recover_sameReads :
    ∃ db, Run (step crc32c) (Commits crc32c) emptyDb db ∧
      ∃ m, recover crc32c db.log 0 = .ok m ∧
        m.appendedRows 0 1 = 0 ∧ db.mvcc.appendedRows 0 1 = 2 ^ 32 := by
  obtain ⟨a, hplan, hops⟩ := exists_forgottenRows
  have hbuild : buildRecords a.ops = [.nodeInsert 0 forgottenRows] := by
    rw [hops]
    rfl
  have hok : Succeeds crc32c emptyDb a := succeeds_of_no_failure emptyDb hplan
  have hfit : RecordsFit a.ops := by
    rw [RecordsFit, hbuild]
    decide +kernel
  obtain ⟨ds₀, h₀, hinv⟩ := opened_emptyDb.inv
  obtain ⟨done, us, hold, -⟩ := id hinv
  obtain ⟨w, need, hattempt, -⟩ := attempt_ok (by simp [hops]) hok hold
  have hafter := hinv.attempt_ok (by decide) hfit hok
  refine ⟨_, (Run.refl emptyDb).tail ⟨hfit, hok⟩ (if_pos (by decide)), ?_⟩
  rw [hattempt] at hafter ⊢
  have hreplay := (hafter.replay (recoverRecord unresolved) (Mvcc.new 0)).1
  rw [List.foldlM_append, ← h₀, Db.ackedRecords, List.flatMap_append, List.flatMap_singleton,
    hbuild] at hreplay
  obtain ⟨m, hm, hrows⟩ := recovered_forgottenRows
  have hpublished : ((Mvcc.new 0).apply 1
      [.insertNodes 0 forgottenRows (2 ^ 32)]).appendedRows 0 1 = 2 ^ 32 := rfl
  rw [← hops] at hpublished
  exact ⟨m, hreplay.trans hm, hrows, hpublished⟩

end Zu.Txn
