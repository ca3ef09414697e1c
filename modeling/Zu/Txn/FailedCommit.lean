import Zu.Txn.History

/-!
# A commit that fails

A commit may fail anywhere between its first append and the end of its flush. If
it fails before its `TxnCommit` frame is staged it leaves frames that end no
transaction, and the next `TxnBegin` drops them. If it fails afterwards, that
frame is in the staging buffer or in the file, and the next commit pushes it out.
-/

namespace Zu.Txn

open Lib Wal

variable {crc : Bytes → UInt32}

variable (crc) in
/-- The attempt leaves the store as it was, and a restart after any commits that
follow delivers the transactions that were acknowledged and no other. -/
def LeavesNoTrace (floor : Epoch) (db₀ db : Db) (a : Attempt) : Prop :=
  (db.attempt crc a).2.mvcc = db.mvcc ∧
    ∀ db', Run (step crc) (Commits crc) (db.attempt crc a).2 db' →
      ReplaysAcked crc floor db₀ db'

theorem leavesNoTrace_of_early {floor : Epoch} {ds₀ : List (Epoch × WalRecord)}
    {db₀ db : Db} {a : Attempt} (h : Inv crc floor ds₀ db)
    (h₀ : DeliveredAt crc floor db₀ ds₀) (hfit : RecordsFit a.ops)
    (htears : TearsDetected crc db a) (hearly : FailsEarly crc db a) :
    LeavesNoTrace crc floor db₀ db a := by
  have hinv := h.attempt_early hfit hearly htears
  refine ⟨?_, fun db' hrun => (hinv.run (clean_of_commits hrun)).replaysAcked h₀⟩
  obtain ⟨done, us, hold, -⟩ := h
  obtain ⟨e, w, vs, hattempt, -⟩ := attempt_early hearly hold
  rw [hattempt]

/-- The transaction that deletes the first row of the first table. -/
def deleteFirst : Attempt := { calls := [.delete 0 0], plan := [] }

theorem recordsFit_deleteFirst : RecordsFit deleteFirst.ops := by
  decide +kernel

/-- The sink that keeps what it is handed. -/
def collect (acc : List (Epoch × WalRecord)) (d : Epoch × WalRecord) :
    Except ZuError (List (Epoch × WalRecord)) := .ok (acc ++ [d])

theorem foldlM_collect (ds acc : List (Epoch × WalRecord)) :
    ds.foldlM collect acc = .ok (acc ++ ds) := by
  induction ds generalizing acc with
  | nil => rw [List.append_nil]; rfl
  | cons d ds ih =>
      rw [List.foldlM_cons, collect, ok_bind, ih, List.append_assoc, List.singleton_append]

/-- A commit that fails late is delivered after the next commit that succeeds. -/
theorem not_leavesNoTrace_of_late {floor : Epoch} {ds₀ : List (Epoch × WalRecord)}
    {db₀ db : Db} {a : Attempt} (h : Inv crc floor ds₀ db)
    (h₀ : DeliveredAt crc floor db₀ ds₀) (hepoch : db.mvcc.epoch + 1 < 2 ^ 64)
    (hfit : RecordsFit a.ops) (hfail : Fails crc db a)
    (hlate : ¬ FailsEarly crc db a) : ¬ LeavesNoTrace crc floor db₀ db a := by
  rintro ⟨-, htrace⟩
  obtain ⟨done, us, hold, hdone, hus, hle, hds⟩ := h
  obtain ⟨e, w, hattempt, hw⟩ := attempt_late hfail hlate hold
  rw [hattempt] at htrace
  have hbuilt := built_staged a.calls
  have hbodies := bodies_txnBodies hbuilt hfit (db.mvcc.epoch + 1)
  set db₁ : Db := { db with log := w } with hdb₁
  have hok : Succeeds crc db₁ deleteFirst := succeeds_of_no_failure db₁ rfl
  obtain ⟨w', need, hattempt', hw', hbuf⟩ :=
    attempt_ok (by decide : deleteFirst.ops ≠ []) hok hw
  have hbodies' := bodies_txnBodies (built_staged deleteFirst.calls) recordsFit_deleteFirst
    (db.mvcc.epoch + 1)
  have hstep : step crc db₁ deleteFirst = some (db₁.attempt crc deleteFirst).2 := if_pos hepoch
  have hacked := htrace _ ((Run.refl db₁).tail ⟨recordsFit_deleteFirst, hok⟩ hstep)
    collect []
  rw [hattempt'] at hacked
  -- the log delivers the failed transaction and then the one after it
  set failed := txnBodies (db.mvcc.epoch + 1) (buildRecords a.ops)
  set last := txnBodies (db.mvcc.epoch + 1) (buildRecords deleteFirst.ops)
  have hmore : ∀ b ∈ us ++ failed ++ last, BodyFits b ∧ bodyKind b ≠ kindCheckpointNote := by
    intro b hb
    rcases List.mem_append.1 hb with hb | hb
    · rcases List.mem_append.1 hb with hb | hb
      · exact ⟨(hus b hb).1, (hus b hb).2.1.1⟩
      · exact hbodies b hb
    · exact hbodies' b hb
  have hdeliver : Delivers (noteFloor floor (done ++ (us ++ failed ++ last)))
      (done ++ (us ++ failed ++ last))
      (ds₀ ++ db.ackedRecords ++ txnRecords (db.mvcc.epoch + 1) (buildRecords a.ops) ++
        txnRecords (db.mvcc.epoch + 1) (buildRecords deleteFirst.ops)) := by
    rw [noteFloor_append fun b hb => (hmore b hb).2, ← List.append_assoc, ← List.append_assoc]
    have habove := Nat.lt_succ_of_le hle
    exact ((hds.append_uncommitted fun b hb => (hus b hb).2.1).append_txn habove hepoch
      fun r hr => ⟨readsBack_buildRecords hbuilt hfit r hr, isData_buildRecords _ r hr⟩).append_txn
        habove hepoch fun r hr =>
          ⟨readsBack_buildRecords (built_staged _) recordsFit_deleteFirst r hr,
            isData_buildRecords _ r hr⟩
  have hfits : ∀ b ∈ done ++ (us ++ failed ++ last), BodyFits b := fun b hb =>
    (List.mem_append.1 hb).elim (hdone b) fun hb => (hmore b hb).1
  have hreplay := restart_replay (hw'.all_done hbuf) hfits (by simp) hdeliver collect []
  change (restart crc w' >>= fun w => replay crc w floor collect []) = _ at hacked
  rw [hreplay, h₀, foldlM_collect, foldlM_collect, ok_bind, foldlM_collect] at hacked
  have hlen := congrArg List.length (Except.ok.inj hacked)
  simp only [Db.ackedRecords, hdb₁, List.flatMap_append, List.flatMap_singleton,
    List.length_append, txnRecords, List.length_cons] at hlen
  omega

/-- A failed commit leaves no trace exactly when it fails before its `TxnCommit`
frame is staged. -/
theorem failedCommit_leavesNoTrace_iff {floor : Epoch} {db₀ db : Db} {a : Attempt}
    (hopen : Opened crc floor db₀) (hrun : Run (step crc) (Clean crc) db₀ db)
    (hepoch : db.mvcc.epoch + 1 < 2 ^ 64) (hfit : RecordsFit a.ops)
    (htears : TearsDetected crc db a) (hfail : Fails crc db a) :
    LeavesNoTrace crc floor db₀ db a ↔ FailsEarly crc db a := by
  obtain ⟨ds₀, h₀, hinv⟩ := hopen.inv
  have hdb := hinv.run hrun
  refine ⟨fun h => ?_, leavesNoTrace_of_early hdb h₀ hfit htears⟩
  by_contra hlate
  exact not_leavesNoTrace_of_late hdb h₀ hepoch hfit hfail hlate h

/-- The transaction that deletes a row, with no room for the log to grow into. -/
def deleteNoRoom : Attempt := { calls := [.delete 0 0], plan := [.fails 0] }

/-- What the failed deletion does: the `TxnCommit` frame is staged and the log cannot grow. -/
theorem deleteNoRoom_runs :
    RecordsFit deleteNoRoom.ops ∧ (emptyDb.attempt crc32c deleteNoRoom).1.toOption = none ∧
      ((appendAll crc32c (emptyDb.mvcc.epoch + 1) (.txnBegin :: buildRecords deleteNoRoom.ops)).exec
        (emptyDb.planned deleteNoRoom)).1.toOption = some () ∧
      TearsDetected crc32c emptyDb deleteNoRoom := by
  unfold TearsDetected
  decide +kernel

theorem fails_deleteNoRoom : Fails crc32c emptyDb deleteNoRoom := by
  have herr := deleteNoRoom_runs.2.1
  cases h : (emptyDb.attempt crc32c deleteNoRoom).1 with
  | ok r => rw [h] at herr; cases herr
  | error e => exact ⟨e, h⟩

theorem not_failsEarly_deleteNoRoom : ¬ FailsEarly crc32c emptyDb deleteNoRoom := by
  rintro ⟨-, e, w, h⟩
  have hok := deleteNoRoom_runs.2.2.1
  rw [h] at hok
  cases hok

theorem failedCommit_leavesNoTrace_iff_deleteNoRoom :
    LeavesNoTrace crc32c 0 emptyDb emptyDb deleteNoRoom ↔
      FailsEarly crc32c emptyDb deleteNoRoom :=
  failedCommit_leavesNoTrace_iff opened_emptyDb (Run.refl emptyDb) (by decide)
    deleteNoRoom_runs.1 deleteNoRoom_runs.2.2.2 fails_deleteNoRoom

/-- The failed deletion is delivered after the next commit. -/
theorem not_failedCommit_leavesNoTrace :
    Opened crc32c 0 emptyDb ∧ Fails crc32c emptyDb deleteNoRoom ∧
      ¬ LeavesNoTrace crc32c 0 emptyDb emptyDb deleteNoRoom := by
  obtain ⟨ds₀, h₀, hinv⟩ := opened_emptyDb.inv
  exact ⟨opened_emptyDb, fails_deleteNoRoom,
    not_leavesNoTrace_of_late hinv h₀ (by decide) deleteNoRoom_runs.1 fails_deleteNoRoom
      not_failsEarly_deleteNoRoom⟩

end Zu.Txn
