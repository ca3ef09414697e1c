import Zu.Txn.Lowered

/-!
# A store and its log over many commits

`Db` is a store and its log, with a record of the transactions whose commit
returned `Ok`. An attempt stages some calls and commits them while the file
behaves as its plan says. `Inv` is what every attempt keeps that succeeds or
fails before its `TxnCommit` frame is staged: the log holds what it held when it
was opened and then the acknowledged transactions, and whatever else it holds
ends no transaction.
-/

namespace Zu.Txn

open Lib Wal

/-- A store and its log. `acked` is not in the source: it lists the epoch and the
ops of every commit that returned `Ok` and wrote something. -/
structure Db where
  mvcc : Mvcc
  log : Log
  acked : List (Epoch × List Op)

/-- One commit: what it stages, and how the calls on the file turn out. -/
structure Attempt where
  calls : List Call
  plan : List Outcome
  deriving DecidableEq

def Attempt.ops (a : Attempt) : List Op := staged a.calls

variable (crc : Bytes → UInt32)

def Db.planned (db : Db) (a : Attempt) : Log :=
  { db.log with file := { db.log.file with plan := a.plan } }

/-- Stages a commit: what it returns and what it leaves. -/
def Db.attempt (db : Db) (a : Attempt) : Except ZuError (Epoch × Option ℕ) × Db :=
  match (stageCommit crc db.mvcc a.ops).exec (db.planned a) with
  | (.ok (mvcc, epoch, owed), log) =>
      (.ok (epoch, owed),
        { mvcc, log, acked :=
            if owed.isSome then db.acked ++ [(epoch, a.ops)] else db.acked })
  | (.error e, log) => (.error e, { db with log })

/-- An attempt as a step; a commit past the last epoch overflows and is none. -/
def step (db : Db) (a : Attempt) : Option Db :=
  if db.mvcc.epoch + 1 < 2 ^ 64 then some (db.attempt crc a).2 else none

def Succeeds (db : Db) (a : Attempt) : Prop := ∃ r, (db.attempt crc a).1 = .ok r

def Fails (db : Db) (a : Attempt) : Prop := ∃ e, (db.attempt crc a).1 = .error e

/-- The failure is in the frames that go before the `TxnCommit` frame: a spill of
the staging buffer in the middle of the transaction. -/
def FailsEarly (db : Db) (a : Attempt) : Prop :=
  a.ops ≠ [] ∧ ∃ e w,
    (appendAll crc (db.mvcc.epoch + 1) (.txnBegin :: buildRecords a.ops)).exec
      (db.planned a) = (.error e, w)

/-- Torn frames of the attempt do not verify. -/
def TearsDetected (db : Db) (a : Attempt) : Prop :=
  ∀ b ∈ txnBodies (db.mvcc.epoch + 1) (buildRecords a.ops), TornFrameFails crc b

/-- A log opened on a file, and the store that goes with it: every frame of the
log parses, and its epochs are not past the store's. -/
structure Opened (floor : Epoch) (db : Db) : Prop where
  opened : ∃ bytes, openOn crc { bytes, plan := [] } = .ok db.log
  parses : ∀ b ∈ (scan crc db.log.file.bytes).1, ∃ r, bodyRecord b = .ok r
  epoch_le : noteFloor floor (scan crc db.log.file.bytes).1 ≤ db.mvcc.epoch
  acked_nil : db.acked = []

/-- What the acknowledged transactions deliver. -/
def Db.ackedRecords (db : Db) : List (Epoch × WalRecord) :=
  db.acked.flatMap fun t => txnRecords t.1 (buildRecords t.2)

/-- Replaying the log after a restart delivers what it delivered when it was
opened, and then exactly the acknowledged transactions. -/
def ReplaysAcked (floor : Epoch) (db₀ db : Db) : Prop :=
  ∀ {β : Type} (sink : β → Epoch × WalRecord → Except ZuError β) (init : β),
    (restart crc db.log >>= fun w => replay crc w floor sink init) =
      (replay crc db₀.log floor sink init >>= fun acc => db.ackedRecords.foldlM sink acc)

variable {crc}

theorem noteFloor_append {floor : Epoch} {bs us : List Bytes}
    (h : ∀ b ∈ us, bodyKind b ≠ kindCheckpointNote) :
    noteFloor floor (bs ++ us) = noteFloor floor bs := by
  rw [noteFloor, List.foldl_append]
  change us.foldl _ (noteFloor floor bs) = _
  generalize noteFloor floor bs = f
  induction us generalizing f with
  | nil => rfl
  | cons b us ih =>
      rw [List.foldl_cons, if_neg (h b List.mem_cons_self)]
      exact ih (fun c hc => h c (List.mem_cons_of_mem b hc)) f

theorem kind_ne_note {r : WalRecord} (h : r ≠ .checkpointNote) :
    r.kind ≠ kindCheckpointNote := by
  cases r
  case checkpointNote => exact absurd rfl h
  all_goals simp [WalRecord.kind, kindCheckpointNote]

/-- The bodies before the commit frame of a transaction end none. -/
theorem uncommitted_body {ops : List Op} (hbuilt : ∀ op ∈ ops, op.Built)
    (hfit : RecordsFit ops) (epoch : Epoch) :
    ∀ r ∈ WalRecord.txnBegin :: buildRecords ops, Uncommitted (body epoch r) := by
  intro r hr
  have hreads : ReadsBack r ∧ r ≠ .txnCommit ∧ r ≠ .checkpointNote := by
    rcases List.mem_cons.1 hr with rfl | hr
    · exact ⟨readsBack_begin, by simp, by simp⟩
    · have hdata := isData_buildRecords ops r hr
      refine ⟨readsBack_buildRecords hbuilt hfit r hr, ?_, ?_⟩ <;>
        (rintro rfl; exact hdata.elim)
  refine ⟨?_, r, hreads.1.bodyRecord epoch, hreads.2⟩
  rw [bodyKind_body]
  exact kind_ne_note hreads.2.2

theorem built_staged (calls : List Call) : ∀ op ∈ staged calls, op.Built := by
  intro op hop
  obtain ⟨c, -, hc⟩ := List.mem_filterMap.1 hop
  cases h : c.op with
  | error e => rw [h] at hc; cases hc
  | ok op' =>
      rw [h] at hc
      cases hc
      exact built_of_op h

/-- Appending records leaves their bodies in the log, all of them or the first
few. -/
theorem appendAll_triple (done bs : List Bytes) (epoch : Epoch) (rs : List WalRecord) :
    Triple (Holds crc done bs) (appendAll crc epoch rs)
      (fun _ => Holds crc done (bs ++ rs.map (body epoch)))
      (fun w => ∃ us, us <+: rs ∧ Holds crc done (bs ++ us.map (body epoch)) w) := by
  induction rs generalizing bs with
  | nil => exact Triple.pure fun w hw => by rwa [List.map_nil, List.append_nil]
  | cons r rs ih =>
      refine Triple.bind (Q := fun _ => Holds crc done (bs ++ [body epoch r]))
        ((append_triple done bs epoch r).weaken (fun _ h => h) (fun _ _ h => h)
          fun w hw => ⟨[r], by simp, by simpa using hw⟩) fun _ => ?_
      refine (ih (bs ++ [body epoch r])).weaken (fun _ h => h) (fun _ w hw => ?_) ?_
      · simpa using hw
      · rintro w ⟨us, hus, hw⟩
        exact ⟨r :: us, List.cons_prefix_cons.2 ⟨rfl, hus⟩, by simpa using hw⟩

/-- What an attempt that keeps the log clean keeps: the log holds `done` in the
file, which delivers what the log delivered at first and the acknowledged
transactions, and after it bodies that end no transaction. -/
def Inv (crc : Bytes → UInt32) (floor : Epoch) (ds₀ : List (Epoch × WalRecord))
    (db : Db) : Prop :=
  ∃ done us, Holds crc done us db.log ∧
    (∀ b ∈ done, BodyFits b) ∧
    (∀ b ∈ us, BodyFits b ∧ Uncommitted b ∧ TornFrameFails crc b) ∧
    noteFloor floor done ≤ db.mvcc.epoch ∧
    Delivers (noteFloor floor done) done (ds₀ ++ db.ackedRecords)

theorem holds_planned {done us : List Bytes} {db : Db} (h : Holds crc done us db.log)
    (a : Attempt) : Holds crc done us (db.planned a) := by
  obtain ⟨mid, suf, k, m, hus, hw⟩ := h
  exact ⟨mid, suf, k, m, hus, hw.len_eq, hw.buf_eq, hw.bytes_eq, hw.torn_le, hw.room,
    hw.given⟩

@[simp] theorem apply_epoch (m : Mvcc) (epoch : Epoch) (ops : List Op) :
    (m.apply epoch ops).epoch = epoch := rfl

theorem attempt_nil {db : Db} {a : Attempt} (hops : a.ops = []) :
    db.attempt crc a = (.ok (db.mvcc.epoch, none), { db with log := db.planned a }) := by
  rw [Db.attempt, stageCommit, if_pos hops]
  rfl

/-- An attempt that succeeds has every body of its transaction in the file. -/
theorem attempt_ok {db : Db} {a : Attempt} {done us : List Bytes} (hops : a.ops ≠ [])
    (h : Succeeds crc db a) (hold : Holds crc done us db.log) :
    ∃ w need, db.attempt crc a = (.ok (db.mvcc.epoch + 1, some need),
        { mvcc := db.mvcc.apply (db.mvcc.epoch + 1) a.ops, log := w,
          acked := db.acked ++ [(db.mvcc.epoch + 1, a.ops)] }) ∧
      Holds crc done (us ++ txnBodies (db.mvcc.epoch + 1) (buildRecords a.ops)) w ∧
      w.buf = [] := by
  obtain ⟨r, hr⟩ := h
  rw [Db.attempt, stageCommit, if_neg hops] at hr ⊢
  simp only [exec_bind] at hr ⊢
  cases hall : (appendAll crc (db.mvcc.epoch + 1)
      (.txnBegin :: buildRecords a.ops)).exec (db.planned a) with
  | mk out w =>
      rw [hall] at hr
      cases out with
      | error e => cases hr
      | ok u =>
          have hall' := ((appendAll_triple done us _ _) _ (holds_planned hold a)).1 u w hall
          simp only at hr ⊢
          cases hcommit : (Wal.stageCommit crc (db.mvcc.epoch + 1)).exec w with
          | mk out' w' =>
              rw [hcommit] at hr
              cases out' with
              | error e => cases hr
              | ok need =>
                  have hspec := ((stageCommit_triple done _ _) w hall').1 need w' hcommit
                  rw [List.append_assoc] at hspec
                  exact ⟨w', need, rfl, hspec⟩

/-- An attempt that fails early leaves the first of its bodies. -/
theorem attempt_early {db : Db} {a : Attempt} {done us : List Bytes}
    (h : FailsEarly crc db a) (hold : Holds crc done us db.log) :
    ∃ e w vs, db.attempt crc a = (.error e, { db with log := w }) ∧
      vs <+: .txnBegin :: buildRecords a.ops ∧
      Holds crc done (us ++ vs.map (body (db.mvcc.epoch + 1))) w := by
  obtain ⟨hops, e, w, hall⟩ := h
  obtain ⟨vs, hvs, hw⟩ :=
    ((appendAll_triple done us _ _) _ (holds_planned hold a)).2 e w hall
  refine ⟨e, w, vs, ?_, hvs, hw⟩
  rw [Db.attempt, stageCommit, if_neg hops]
  simp only [exec_bind, hall]

/-- An attempt that fails late leaves every body of its transaction. -/
theorem attempt_late {db : Db} {a : Attempt} {done us : List Bytes} (h : Fails crc db a)
    (hlate : ¬ FailsEarly crc db a) (hold : Holds crc done us db.log) :
    ∃ e w, db.attempt crc a = (.error e, { db with log := w }) ∧
      Holds crc done (us ++ txnBodies (db.mvcc.epoch + 1) (buildRecords a.ops)) w := by
  obtain ⟨err, herr⟩ := h
  have hops : a.ops ≠ [] := by
    intro hnil
    rw [attempt_nil hnil] at herr
    cases herr
  rw [Db.attempt, stageCommit, if_neg hops] at herr ⊢
  simp only [exec_bind] at herr ⊢
  cases hall : (appendAll crc (db.mvcc.epoch + 1)
      (.txnBegin :: buildRecords a.ops)).exec (db.planned a) with
  | mk out w =>
      rw [hall] at herr
      cases out with
      | error e => exact absurd ⟨hops, e, w, hall⟩ hlate
      | ok u =>
          have hall' := ((appendAll_triple done us _ _) _ (holds_planned hold a)).1 u w hall
          simp only at herr ⊢
          cases hcommit : (Wal.stageCommit crc (db.mvcc.epoch + 1)).exec w with
          | mk out' w' =>
              rw [hcommit] at herr
              cases out' with
              | ok need => cases herr
              | error e =>
                  have hspec := ((stageCommit_triple done _ _) w hall').2 e w' hcommit
                  rw [List.append_assoc] at hspec
                  exact ⟨e, w', rfl, hspec⟩

/-- The bodies of a committed transaction fit their frames and raise no floor. -/
theorem bodies_txnBodies {ops : List Op} (hbuilt : ∀ op ∈ ops, op.Built)
    (hfit : RecordsFit ops) (epoch : Epoch) :
    ∀ b ∈ txnBodies epoch (buildRecords ops),
      BodyFits b ∧ bodyKind b ≠ kindCheckpointNote := by
  intro b hb
  rcases List.mem_append.1 hb with hb | hb
  · obtain ⟨r, hr, rfl⟩ : ∃ r ∈ WalRecord.txnBegin :: buildRecords ops, body epoch r = b :=
      List.mem_map.1 (by rwa [List.map_cons])
    refine ⟨?_, (uncommitted_body hbuilt hfit epoch r hr).1⟩
    rcases List.mem_cons.1 hr with rfl | hr
    · exact readsBack_begin.bodyFits epoch
    · exact (readsBack_buildRecords hbuilt hfit r hr).bodyFits epoch
  · rw [List.mem_singleton.1 hb]
    refine ⟨readsBack_commit.bodyFits epoch, ?_⟩
    rw [bodyKind_body]
    exact kind_ne_note (by simp)

theorem Inv.attempt_ok {floor : Epoch} {ds₀ : List (Epoch × WalRecord)} {db : Db}
    {a : Attempt} (h : Inv crc floor ds₀ db) (hepoch : db.mvcc.epoch + 1 < 2 ^ 64)
    (hfit : RecordsFit a.ops) (hok : Succeeds crc db a) :
    Inv crc floor ds₀ (db.attempt crc a).2 := by
  obtain ⟨done, us, hold, hdone, hus, hle, hds⟩ := h
  by_cases hops : a.ops = []
  · rw [attempt_nil hops]
    exact ⟨done, us, holds_planned hold a, hdone, hus, hle, hds⟩
  obtain ⟨w, need, hattempt, hw, hbuf⟩ := Txn.attempt_ok hops hok hold
  rw [hattempt]
  have hbuilt := built_staged a.calls
  have hbodies := bodies_txnBodies hbuilt hfit (db.mvcc.epoch + 1)
  have hnote : noteFloor floor (done ++ (us ++ txnBodies (db.mvcc.epoch + 1)
      (buildRecords a.ops))) = noteFloor floor done := by
    refine noteFloor_append fun b hb => ?_
    rcases List.mem_append.1 hb with hb | hb
    · exact (hus b hb).2.1.1
    · exact (hbodies b hb).2
  refine ⟨_, [], hw.all_done hbuf, fun b hb => ?_, by simp, ?_, ?_⟩
  · rcases List.mem_append.1 hb with hb | hb
    · exact hdone b hb
    rcases List.mem_append.1 hb with hb | hb
    · exact (hus b hb).1
    · exact (hbodies b hb).1
  · rw [hnote, apply_epoch]
    exact hle.trans (Nat.le_succ _)
  · rw [hnote, ← List.append_assoc]
    have hdeliver := (hds.append_uncommitted fun b hb => (hus b hb).2.1).append_txn
      (Nat.lt_succ_of_le hle) hepoch
      fun r hr => ⟨readsBack_buildRecords hbuilt hfit r hr, isData_buildRecords a.ops r hr⟩
    rw [Db.ackedRecords, List.flatMap_append, List.flatMap_singleton, ← List.append_assoc ds₀]
    exact hdeliver

/-- A commit that fails early is never delivered. -/
theorem Inv.attempt_early {floor : Epoch} {ds₀ : List (Epoch × WalRecord)} {db : Db}
    {a : Attempt} (h : Inv crc floor ds₀ db) (hfit : RecordsFit a.ops)
    (hearly : FailsEarly crc db a) (htears : TearsDetected crc db a) :
    Inv crc floor ds₀ (db.attempt crc a).2 := by
  obtain ⟨done, us, hold, hdone, hus, hle, hds⟩ := h
  obtain ⟨e, w, vs, hattempt, hvs, hw⟩ := Txn.attempt_early hearly hold
  rw [hattempt]
  refine ⟨done, _, hw, hdone, fun b hb => ?_, hle, hds⟩
  rcases List.mem_append.1 hb with hb | hb
  · exact hus b hb
  obtain ⟨r, hr, rfl⟩ := List.mem_map.1 hb
  have hrecord := hvs.subset hr
  have hbody : body (db.mvcc.epoch + 1) r ∈
      txnBodies (db.mvcc.epoch + 1) (buildRecords a.ops) :=
    List.mem_append_left _ (by
      rw [← List.map_cons]
      exact List.mem_map_of_mem hrecord)
  have hbuilt := built_staged a.calls
  exact ⟨(bodies_txnBodies hbuilt hfit _ _ hbody).1,
    uncommitted_body hbuilt hfit _ r hrecord, htears _ hbody⟩

theorem replay_of_delivers {bs suf : List Bytes} {k m : ℕ} {w : Log} {floor : Epoch}
    {ds : List (Epoch × WalRecord)} (hw : HoldsAs crc bs suf k m w)
    (hfits : ∀ b ∈ bs, BodyFits b) (hds : Delivers (noteFloor floor bs) bs ds)
    {β : Type} (sink : β → Epoch × WalRecord → Except ZuError β) (init : β) :
    replay crc w floor sink init = ds.foldlM sink init := by
  obtain ⟨pending, hds⟩ := hds
  rw [replay_eq hw hfits, hds]
  cases ds.foldlM sink init <;> rfl

theorem Opened.holdsAs {floor : Epoch} {db : Db} (h : Opened crc floor db) :
    ∃ bs m ds, HoldsAs crc bs [] 0 m db.log ∧ (∀ b ∈ bs, BodyFits b) ∧
      noteFloor floor bs ≤ db.mvcc.epoch ∧ Delivers (noteFloor floor bs) bs ds := by
  obtain ⟨bytes, hopen⟩ := h.opened
  obtain ⟨hfits, hbytes, hlen, hstop⟩ := scan_spec crc bytes
  set bs := (scan crc bytes).1 with hbs
  have hend : nextFrame crc (framed crc bs ++ bytes.drop (scan crc bytes).2)
      (framed crc bs).length = none := by
    rw [← hbytes, ← hlen]
    exact hstop
  obtain ⟨w, m, hopen', hw⟩ := openOn_framed hfits hend
  rw [← hbytes, hopen] at hopen'
  cases hopen'
  have hscan : (scan crc db.log.file.bytes).1 = bs := by
    rw [hw.bytes_eq, framed_nil, List.take_nil, List.nil_append, scan_framed_zeros hfits]
  have hparses := h.parses
  have hle := h.epoch_le
  rw [hscan] at hparses hle
  obtain ⟨ds, hds⟩ : ∃ ds, Delivers (noteFloor floor bs) bs ds := exists_delivers hparses
  exact ⟨bs, m, ds, hw, hfits, hle, hds⟩

/-- What the log delivered when it was opened. -/
def DeliveredAt (crc : Bytes → UInt32) (floor : Epoch) (db₀ : Db)
    (ds₀ : List (Epoch × WalRecord)) : Prop :=
  ∀ {β : Type} (sink : β → Epoch × WalRecord → Except ZuError β) (init : β),
    replay crc db₀.log floor sink init = ds₀.foldlM sink init

theorem Opened.inv {floor : Epoch} {db₀ : Db} (h : Opened crc floor db₀) :
    ∃ ds₀, DeliveredAt crc floor db₀ ds₀ ∧ Inv crc floor ds₀ db₀ := by
  obtain ⟨bs, m, ds, hw, hfits, hle, hds⟩ := h.holdsAs
  refine ⟨ds, fun sink init => replay_of_delivers hw hfits hds sink init, bs, [], ?_,
    hfits, by simp, hle, ?_⟩
  · exact ⟨[], [], 0, m, rfl, by rwa [List.append_nil]⟩
  · rwa [Db.ackedRecords, h.acked_nil, List.flatMap_nil, List.append_nil]

/-- A restart delivers what the frames in the file deliver, when what was appended
after them ends no transaction. -/
theorem restart_replay {floor : Epoch} {done us : List Bytes} {w : Log}
    {ds : List (Epoch × WalRecord)} (hold : Holds crc done us w)
    (hdone : ∀ b ∈ done, BodyFits b)
    (hus : ∀ b ∈ us, BodyFits b ∧ Uncommitted b ∧ TornFrameFails crc b)
    (hds : Delivers (noteFloor floor done) done ds) {β : Type}
    (sink : β → Epoch × WalRecord → Except ZuError β) (init : β) :
    (restart crc w >>= fun w => replay crc w floor sink init) = ds.foldlM sink init := by
  obtain ⟨mid, suf, k, m, hmem, hw⟩ := hold
  have hmid : ∀ b ∈ mid, b ∈ us := fun b hb => hmem ▸ List.mem_append_left _ hb
  have hsuf : ∀ b ∈ suf, b ∈ us := fun b hb => hmem ▸ List.mem_append_right _ hb
  have hpre : ∀ b ∈ done ++ mid, BodyFits b := fun b hb =>
    (List.mem_append.1 hb).elim (hdone b) fun hb => (hus b (hmid b hb)).1
  obtain ⟨whole, w', m', hwhole, hrestart, hw'⟩ := restart_spec hw hpre
    (fun b hb => (hus b (hsuf b hb)).1) fun b hb => (hus b (hsuf b hb)).2.2
  rw [List.append_assoc] at hw'
  have hrest : ∀ b ∈ mid ++ whole, BodyFits b ∧ Uncommitted b := fun b hb =>
    (List.mem_append.1 hb).elim (fun hb => ⟨(hus b (hmid b hb)).1, (hus b (hmid b hb)).2.1⟩)
      fun hb =>
        have hb := hsuf b (hwhole.subset hb)
        ⟨(hus b hb).1, (hus b hb).2.1⟩
  have hfits : ∀ b ∈ done ++ (mid ++ whole), BodyFits b := fun b hb =>
    (List.mem_append.1 hb).elim (hdone b) fun hb => (hrest b hb).1
  have hdeliver : Delivers (noteFloor floor (done ++ (mid ++ whole)))
      (done ++ (mid ++ whole)) ds := by
    rw [noteFloor_append fun b hb => (hrest b hb).2.1]
    exact hds.append_uncommitted fun b hb => (hrest b hb).2
  rw [hrestart, ok_bind, replay_of_delivers hw' hfits hdeliver]

/-- The log delivers the same while it is open. -/
theorem open_replay {floor : Epoch} {done us : List Bytes} {w : Log}
    {ds : List (Epoch × WalRecord)} (hold : Holds crc done us w)
    (hdone : ∀ b ∈ done, BodyFits b) (hus : ∀ b ∈ us, BodyFits b ∧ Uncommitted b)
    (hds : Delivers (noteFloor floor done) done ds) {β : Type}
    (sink : β → Epoch × WalRecord → Except ZuError β) (init : β) :
    replay crc w floor sink init = ds.foldlM sink init := by
  obtain ⟨mid, suf, k, m, hmem, hw⟩ := hold
  have hmid : ∀ b ∈ mid, BodyFits b ∧ Uncommitted b := fun b hb =>
    hus b (hmem ▸ List.mem_append_left _ hb)
  have hdeliver : Delivers (noteFloor floor (done ++ mid)) (done ++ mid) ds := by
    rw [noteFloor_append fun b hb => (hmid b hb).2.1]
    exact hds.append_uncommitted fun b hb => (hmid b hb).2
  exact replay_of_delivers hw
    (fun b hb => (List.mem_append.1 hb).elim (hdone b) fun hb => (hmid b hb).1)
    hdeliver sink init

/-- Where the invariant holds the log delivers what was acknowledged, open or
opened again. -/
theorem Inv.replay {floor : Epoch} {ds₀ : List (Epoch × WalRecord)} {db : Db}
    (h : Inv crc floor ds₀ db) {β : Type}
    (sink : β → Epoch × WalRecord → Except ZuError β) (init : β) :
    Wal.replay crc db.log floor sink init = (ds₀ ++ db.ackedRecords).foldlM sink init ∧
      (restart crc db.log >>= fun w => Wal.replay crc w floor sink init) =
        (ds₀ ++ db.ackedRecords).foldlM sink init := by
  obtain ⟨done, us, hold, hdone, hus, -, hds⟩ := h
  exact ⟨open_replay hold hdone (fun b hb => ⟨(hus b hb).1, (hus b hb).2.1⟩) hds sink init,
    restart_replay hold hdone hus hds sink init⟩

theorem Inv.replaysAcked {floor : Epoch} {ds₀ : List (Epoch × WalRecord)} {db₀ db : Db}
    (h : Inv crc floor ds₀ db) (h₀ : DeliveredAt crc floor db₀ ds₀) :
    ReplaysAcked crc floor db₀ db := by
  intro β sink init
  rw [(h.replay sink init).2, h₀, List.foldlM_append]

variable (crc)

/-- A commit that succeeds or fails early. -/
def Clean (db : Db) (a : Attempt) : Prop :=
  RecordsFit a.ops ∧
    (Succeeds crc db a ∨ FailsEarly crc db a ∧ TearsDetected crc db a)

def Commits (db : Db) (a : Attempt) : Prop := RecordsFit a.ops ∧ Succeeds crc db a

variable {crc}

theorem step_eq_some {db db' : Db} {a : Attempt} (h : step crc db a = some db') :
    db.mvcc.epoch + 1 < 2 ^ 64 ∧ (db.attempt crc a).2 = db' := by
  unfold step at h
  split_ifs at h with hepoch
  exact ⟨hepoch, Option.some.inj h⟩

theorem Inv.of_step {floor : Epoch} {ds₀ : List (Epoch × WalRecord)} {db db' : Db}
    {a : Attempt} (h : Inv crc floor ds₀ db) (hclean : Clean crc db a)
    (hstep : step crc db a = some db') : Inv crc floor ds₀ db' := by
  obtain ⟨hepoch, rfl⟩ := step_eq_some hstep
  obtain ⟨hfit, hok | ⟨hearly, htears⟩⟩ := hclean
  · exact h.attempt_ok hepoch hfit hok
  · exact h.attempt_early hfit hearly htears

theorem Inv.run {floor : Epoch} {ds₀ : List (Epoch × WalRecord)} {db db' : Db}
    (h : Inv crc floor ds₀ db) (hrun : Run (step crc) (Clean crc) db db') :
    Inv crc floor ds₀ db' :=
  hrun.invariant (fun _ _ _ h hclean hstep => h.of_step hclean hstep) h

theorem clean_of_commits {db db' : Db} (h : Run (step crc) (Commits crc) db db') :
    Run (step crc) (Clean crc) db db' := by
  induction h with
  | refl => exact Run.refl _
  | tail _ hok hstep ih => exact ih.tail ⟨hok.1, Or.inl hok.2⟩ hstep

theorem appendAll_reliable (epoch : Epoch) (rs : List WalRecord) :
    NeverFails (appendAll crc epoch rs) := by
  induction rs with
  | nil => exact Triple.pure fun _ hw => hw
  | cons r rs ih => exact (append_reliable epoch r).bind fun _ => ih

theorem succeeds_of_no_failure (db : Db) {a : Attempt} (hplan : a.plan = []) :
    Succeeds crc db a := by
  have hreliable : NeverFails (stageCommit crc db.mvcc a.ops) := by
    refine Triple.ite (fun _ => Triple.pure fun _ hw => hw) fun _ => ?_
    exact (appendAll_reliable _ _).bind fun _ =>
      (stageCommit_reliable _).bind fun _ => Triple.pure fun _ hw => hw
  obtain ⟨⟨mvcc, epoch, owed⟩, w, hexec, -⟩ := hreliable.returns (s := db.planned a) hplan
  exact ⟨(epoch, owed), by rw [Db.attempt, hexec]⟩

/-- A new store and its empty log. -/
def emptyDb : Db where
  mvcc := Mvcc.new 0
  log := { file := { bytes := [], plan := [] }, commits := Marks.new 0, len := 0,
           reserved := 0, buf := [] }
  acked := []

theorem opened_emptyDb : Opened crc32c 0 emptyDb where
  opened := ⟨[], rfl⟩
  parses := by
    have hscan : (scan crc32c emptyDb.log.file.bytes).1 = [] := by decide
    simp [hscan]
  epoch_le := by decide
  acked_nil := rfl

end Zu.Txn
