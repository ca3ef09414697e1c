import Zu.Txn.FailedCommit
import Zu.Wal.Cut

/-!
# A log that was torn

A log is what transactions appended to it: each whole, or left off somewhere before
its commit frame by a writer that died. Whatever is done to its bytes from some byte
on, opening it and replaying it hands over a first few of the committed transactions,
and what is appended from there on comes after them, as long as the frame of every
record can say how long the record is.
-/

namespace Zu.Txn

open Lib Wal

variable {crc : Bytes → UInt32}

/-- What a transaction logs: records that are neither its begin nor its commit, and
that are of one shape with what their frame can hold. -/
structure LoggedTxn where
  epoch : Epoch
  records : List WalRecord
  epoch_lt : epoch < 2 ^ 64
  data : ∀ r ∈ records,
    IsData r ∧ (minBody + r.encodePayload.length < 2 ^ 32 → r.WellShaped)

namespace LoggedTxn

/-- The transaction a writer commits with these calls. -/
def ofCalls (epoch : Epoch) (calls : List Call) (h : epoch < 2 ^ 64) : LoggedTxn where
  epoch := epoch
  records := buildRecords (staged calls)
  epoch_lt := h
  data r hr := ⟨isData_buildRecords _ r hr, wellShaped_buildRecords (built_staged calls) r hr⟩

/-- The frame that puts an ingest in the log. -/
def ofIngest (epoch : Epoch) (table : UInt32) (ptrs : List UInt64) (h : epoch < 2 ^ 64) :
    LoggedTxn where
  epoch := epoch
  records := [.ingestRef table ptrs]
  epoch_lt := h
  data r hr := by
    rw [List.mem_singleton.1 hr]
    exact ⟨trivial, fun _ => trivial⟩

/-- The first few records of the transaction. -/
def cut (t : LoggedTxn) (n : ℕ) : LoggedTxn where
  epoch := t.epoch
  records := t.records.take n
  epoch_lt := t.epoch_lt
  data r hr := t.data r (List.mem_of_mem_take hr)

/-- What the transaction puts in the log. -/
def bodies (t : LoggedTxn) : List Bytes := txnBodies t.epoch t.records

/-- What the transaction is replayed as. -/
def delivered (t : LoggedTxn) : List (Epoch × WalRecord) := txnRecords t.epoch t.records

/-- The frame of every record can say how long it is. -/
def Fits (t : LoggedTxn) : Prop :=
  ∀ r ∈ t.records, minBody + r.encodePayload.length < 2 ^ 32

instance (t : LoggedTxn) : Decidable t.Fits := by
  unfold Fits
  infer_instance

end LoggedTxn

/-- What a writer leaves in the log: a transaction, or the begin and the records of
one it never committed. -/
inductive Entry
  | committed (t : LoggedTxn)
  | unfinished (t : LoggedTxn)

namespace Entry

def txn : Entry → LoggedTxn
  | committed t => t
  | unfinished t => t

def bodies : Entry → List Bytes
  | committed t => t.bodies
  | unfinished t => (.txnBegin :: t.records).map (body t.epoch)

/-- The entry with only its first `n` bodies, where it has more. -/
def cut (e : Entry) : ℕ → List Entry
  | 0 => []
  | n + 1 => [unfinished (e.txn.cut n)]

end Entry

def logBodies (es : List Entry) : List Bytes := es.flatMap Entry.bodies

def committedAbove (floor : Epoch) (es : List Entry) : List LoggedTxn :=
  es.filterMap fun e =>
    match e with
    | .committed t => if floor < t.epoch then some t else none
    | .unfinished _ => none

/-- The entries of a log of which only the first `n` bodies are left. -/
def cutLog : List Entry → ℕ → List Entry
  | [], _ => []
  | e :: es, n =>
      if e.bodies.length ≤ n then e :: cutLog es (n - e.bodies.length) else e.cut n

section

variable (crc)

/-- Appends an entry. The wait for the platter that ends a commit writes no byte. -/
def appendEntry : Entry → WalM Unit
  | .committed t => do
      appendAll crc t.epoch (.txnBegin :: t.records)
      let _ ← Wal.stageCommit crc t.epoch
      return ()
  | .unfinished t => appendAll crc t.epoch (.txnBegin :: t.records)

def appendEntries : List Entry → WalM Unit
  | [] => pure ()
  | e :: es => do
      appendEntry crc e
      appendEntries es

/-- The log that appending the entries to an empty one leaves. -/
def Logged (es : List Entry) (w : Log) : Prop :=
  ∃ n w₀, openOn crc { bytes := zeros n, plan := [] } = .ok w₀ ∧
    (appendEntries crc es).exec w₀ = (.ok (), w)

/-- Replaying the log hands over these transactions, each whole and in order. -/
def Replays (w : Log) (floor : Epoch) (ts : List LoggedTxn) : Prop :=
  ∀ ⦃β : Type⦄ (sink : β → Epoch × WalRecord → Except ZuError β) (init : β),
    replay crc w floor sink init = (ts.flatMap LoggedTxn.delivered).foldlM sink init

/-- The damaged log opens, and replays as a first few of the transactions above the
floor, those with no frame past `reach` among them. The new ones come after them. -/
def Tolerates (floor : Epoch) (es : List Entry) (reach : ℕ) (damaged : Bytes)
    (new : List LoggedTxn) : Prop :=
  ∃ kept w, openOn crc { bytes := damaged, plan := [] } = .ok w ∧
    kept <+: committedAbove floor es ∧
    (∀ n, (framed crc (logBodies (es.take n))).length ≤ reach →
      (∀ b ∈ logBodies (es.take n), BodyFits b) →
        committedAbove floor (es.take n) <+: kept) ∧
    Replays crc w floor kept ∧
    ∃ w', (appendEntries crc (new.map .committed)).exec w = (.ok (), w') ∧
      Replays crc w' floor (kept ++ new)

end

/-! ### What the bodies are -/

theorem logBodies_append (es es' : List Entry) :
    logBodies (es ++ es') = logBodies es ++ logBodies es' :=
  List.flatMap_append

theorem logBodies_cons (e : Entry) (es : List Entry) :
    logBodies (e :: es) = e.bodies ++ logBodies es :=
  List.flatMap_cons

theorem committedAbove_append (floor : Epoch) (es es' : List Entry) :
    committedAbove floor (es ++ es') = committedAbove floor es ++ committedAbove floor es' :=
  List.filterMap_append

theorem readsBack_of_fits {epoch : Epoch} {r : WalRecord}
    (h : minBody + r.encodePayload.length < 2 ^ 32 → r.WellShaped)
    (hfits : BodyFits (body epoch r)) : ReadsBack r := by
  have hlen := hfits.2
  rw [length_body] at hlen
  exact ⟨hlen, h hlen⟩

theorem LoggedTxn.uncommitted (t : LoggedTxn)
    (hfits : ∀ b ∈ (Entry.unfinished t).bodies, BodyFits b) :
    ∀ b ∈ (Entry.unfinished t).bodies, Uncommitted b := by
  intro b hb
  obtain ⟨r, hr, rfl⟩ := List.mem_map.1 hb
  rcases List.mem_cons.1 hr with rfl | hr'
  · refine ⟨?_, .txnBegin, readsBack_begin.bodyRecord _, by simp, by simp⟩
    rw [bodyKind_body]
    exact kind_ne_note (by simp)
  · obtain ⟨hdata, hshape⟩ := t.data r hr'
    have hreads := readsBack_of_fits hshape (hfits _ hb)
    have hcommit : r ≠ .txnCommit := by
      rintro rfl
      exact hdata
    have hnote : r ≠ .checkpointNote := by
      rintro rfl
      exact hdata
    refine ⟨?_, r, hreads.bodyRecord _, hcommit, hnote⟩
    rw [bodyKind_body]
    exact kind_ne_note hnote

theorem LoggedTxn.bodies_eq (t : LoggedTxn) :
    t.bodies = (Entry.unfinished t).bodies ++ [body t.epoch .txnCommit] := by
  rw [LoggedTxn.bodies, txnBodies, Entry.bodies, List.map_cons]

/-- A log of whole frames delivers its committed transactions above the floor. -/
theorem delivers_entries (floor : Epoch) {es : List Entry}
    (hfits : ∀ b ∈ logBodies es, BodyFits b) :
    Delivers floor (logBodies es) ((committedAbove floor es).flatMap LoggedTxn.delivered) := by
  induction es using List.reverseRecOn with
  | nil => exact ⟨[], fun _ _ => rfl⟩
  | append_singleton es e ih =>
      rw [logBodies_append] at hfits ⊢
      have hds := ih fun b hb => hfits b (List.mem_append_left _ hb)
      have hlast : ∀ b ∈ e.bodies, BodyFits b := fun b hb =>
        hfits b (List.mem_append_right _ (by simpa [logBodies] using hb))
      have hone : logBodies [e] = e.bodies := by simp [logBodies]
      rw [hone, committedAbove_append, List.flatMap_append]
      cases e with
      | unfinished t =>
          have hnone : committedAbove floor [.unfinished t] = [] := rfl
          rw [hnone, List.flatMap_nil, List.append_nil]
          exact hds.append_uncommitted (t.uncommitted hlast)
      | committed t =>
          have hbodies : (Entry.committed t).bodies = t.bodies := rfl
          rw [hbodies] at hlast ⊢
          rw [t.bodies_eq] at hlast
          have hrecords : ∀ b ∈ (Entry.unfinished t).bodies, BodyFits b := fun b hb =>
            hlast b (List.mem_append_left _ hb)
          by_cases habove : floor < t.epoch
          · have hsome : committedAbove floor [.committed t] = [t] := by
              simp [committedAbove, habove]
            rw [hsome, List.flatMap_singleton]
            refine hds.append_txn habove t.epoch_lt fun r hr => ?_
            obtain ⟨hdata, hshape⟩ := t.data r hr
            have hmem : body t.epoch r ∈ (Entry.unfinished t).bodies :=
              List.mem_map_of_mem (List.mem_cons_of_mem _ hr)
            exact ⟨readsBack_of_fits hshape (hrecords _ hmem), hdata⟩
          · have hnone : committedAbove floor [.committed t] = [] := by
              simp [committedAbove, habove]
            rw [hnone, List.flatMap_nil, List.append_nil, t.bodies_eq, ← List.append_assoc]
            exact (hds.append_uncommitted (t.uncommitted hrecords)).append_folded
              (Nat.not_lt.1 habove) t.epoch_lt

/-! ### The entries a cut leaves -/

theorem Entry.bodies_cut (e : Entry) {n : ℕ} (h : n < e.bodies.length) :
    logBodies (e.cut n) = e.bodies.take n := by
  cases n with
  | zero => rfl
  | succ n =>
      have hcut : logBodies (e.cut (n + 1)) = (Entry.unfinished (e.txn.cut n)).bodies := by
        simp [logBodies, Entry.cut]
      rw [hcut]
      cases e with
      | unfinished t => simp [Entry.bodies, Entry.txn, LoggedTxn.cut, List.map_take]
      | committed t =>
          have hle : n ≤ (t.records.map (body t.epoch)).length := by
            rw [show (Entry.committed t).bodies = t.bodies from rfl, t.bodies_eq] at h
            simp [Entry.bodies] at h ⊢
            omega
          rw [show (Entry.committed t).bodies = t.bodies from rfl, t.bodies_eq]
          simp only [Entry.bodies, Entry.txn, LoggedTxn.cut, List.map_cons, List.cons_append,
            List.take_succ_cons, List.map_take]
          rw [List.take_append_of_le_length hle]

theorem logBodies_cutLog (es : List Entry) (n : ℕ) :
    logBodies (cutLog es n) = (logBodies es).take n := by
  induction es generalizing n with
  | nil => simp [cutLog, logBodies]
  | cons e es ih =>
      rw [cutLog, logBodies_cons, List.take_append]
      split_ifs with h
      · rw [logBodies_cons, ih, List.take_of_length_le h]
      · have hzero : n - e.bodies.length = 0 := by omega
        rw [e.bodies_cut (Nat.not_le.1 h), hzero, List.take_zero, List.append_nil]

theorem committedAbove_cut (floor : Epoch) (e : Entry) (n : ℕ) :
    committedAbove floor (e.cut n) = [] := by
  cases n <;> rfl

theorem committedAbove_cons (floor : Epoch) (e : Entry) (es : List Entry) :
    committedAbove floor (e :: es) = committedAbove floor [e] ++ committedAbove floor es :=
  committedAbove_append floor [e] es

theorem committedAbove_cutLog (floor : Epoch) (es : List Entry) (n : ℕ) :
    committedAbove floor (cutLog es n) <+: committedAbove floor es := by
  induction es generalizing n with
  | nil => exact List.prefix_rfl
  | cons e es ih =>
      rw [cutLog]
      split_ifs with h
      · rw [committedAbove_cons, committedAbove_cons floor e es]
        exact (List.prefix_append_right_inj _).2 (ih _)
      · rw [committedAbove_cut]
        exact List.nil_prefix

theorem committedAbove_take_cutLog (floor : Epoch) (es : List Entry) {n i : ℕ}
    (h : (logBodies (es.take n)).length ≤ i) :
    committedAbove floor (es.take n) <+: committedAbove floor (cutLog es i) := by
  induction es generalizing n i with
  | nil => simp [cutLog]
  | cons e es ih =>
      cases n with
      | zero => exact List.nil_prefix
      | succ n =>
          rw [List.take_succ_cons] at h ⊢
          rw [logBodies_cons, List.length_append] at h
          rw [cutLog, if_pos (by omega), committedAbove_cons,
            committedAbove_cons floor e (cutLog es _)]
          exact (List.prefix_append_right_inj _).2 (ih (by omega))

/-! ### Appending -/

theorem appendCommitted_triple (done us : List Bytes) (t : LoggedTxn) :
    Triple (Holds crc done us) (appendEntry crc (.committed t))
      (fun _ w => Holds crc done (us ++ t.bodies) w ∧ w.buf = []) fun _ => True := by
  have hbodies : us ++ t.bodies =
      us ++ (.txnBegin :: t.records).map (body t.epoch) ++ [body t.epoch .txnCommit] := by
    rw [t.bodies_eq, ← List.append_assoc]
    rfl
  rw [hbodies]
  refine Triple.bind ((appendAll_triple done us t.epoch (.txnBegin :: t.records)).weaken
    (fun _ h => h) (fun _ _ h => h) fun _ _ => trivial) fun _ => ?_
  refine Triple.bind ((stageCommit_triple done _ t.epoch).weaken
    (fun _ h => h) (fun _ _ h => h) fun _ _ => trivial) fun _ => ?_
  exact Triple.pure fun _ h => h

theorem appendEntry_triple (done us : List Bytes) (e : Entry) :
    Triple (Holds crc done us) (appendEntry crc e)
      (fun _ => Holds crc done (us ++ e.bodies)) fun _ => True := by
  cases e with
  | unfinished t =>
      exact (appendAll_triple done us t.epoch (.txnBegin :: t.records)).weaken
        (fun _ h => h) (fun _ _ h => h) fun _ _ => trivial
  | committed t =>
      exact (appendCommitted_triple done us t).weaken (fun _ h => h) (fun _ _ h => h.1)
        fun _ h => h

theorem appendEntries_triple (done us : List Bytes) (es : List Entry) :
    Triple (Holds crc done us) (appendEntries crc es)
      (fun _ => Holds crc done (us ++ logBodies es)) fun _ => True := by
  induction es generalizing us with
  | nil =>
      refine Triple.pure fun w h => ?_
      rwa [logBodies, List.flatMap_nil, List.append_nil]
  | cons e es ih =>
      rw [logBodies_cons, ← List.append_assoc]
      exact (appendEntry_triple done us e).bind fun _ => ih _

theorem appendEntry_reliable (e : Entry) : NeverFails (appendEntry crc e) := by
  cases e with
  | unfinished t => exact appendAll_reliable _ _
  | committed t =>
      exact (appendAll_reliable _ _).bind fun _ =>
        (stageCommit_reliable _).bind fun _ => Triple.pure fun _ h => h

theorem appendEntries_reliable (es : List Entry) : NeverFails (appendEntries crc es) := by
  induction es with
  | nil => exact Triple.pure fun _ h => h
  | cons e es ih => exact (appendEntry_reliable e).bind fun _ => ih

theorem appendEntries_flushed (done us : List Bytes) (ts : List LoggedTxn) :
    Triple (fun w => Holds crc done us w ∧ w.buf = [])
      (appendEntries crc (ts.map .committed))
      (fun _ w => Holds crc done (us ++ logBodies (ts.map .committed)) w ∧ w.buf = [])
      fun _ => True := by
  induction ts generalizing us with
  | nil =>
      refine Triple.pure fun w h => ?_
      rwa [List.map_nil, logBodies, List.flatMap_nil, List.append_nil]
  | cons t ts ih =>
      rw [List.map_cons, logBodies_cons, ← List.append_assoc]
      exact ((appendCommitted_triple done us t).weaken (fun _ h => h.1) (fun _ _ h => h)
        fun _ h => h).bind fun _ => ih _

theorem holdsAs_of_flushed {done bs : List Bytes} {w : Log} (h : Holds crc done bs w)
    (hbuf : w.buf = []) : ∃ k m, HoldsAs crc (done ++ bs) [] k m w := by
  obtain ⟨mid, suf, k, m, hnil, hw⟩ := h.all_done hbuf
  obtain ⟨rfl, rfl⟩ := List.append_eq_nil_iff.1 hnil
  rw [List.append_nil] at hw
  exact ⟨k, m, hw⟩

/-! ### Replaying -/

theorem bodyKind_logBodies (es : List Entry) :
    ∀ b ∈ logBodies es, bodyKind b ≠ kindCheckpointNote := by
  intro b hb
  obtain ⟨e, -, hb⟩ := List.mem_flatMap.1 hb
  have hrecord : ∃ r, r ≠ .checkpointNote ∧ ∃ epoch, body epoch r = b := by
    have hunfinished : ∀ t : LoggedTxn, b ∈ (Entry.unfinished t).bodies →
        ∃ r, r ≠ .checkpointNote ∧ ∃ epoch, body epoch r = b := by
      intro t hb
      obtain ⟨r, hr, rfl⟩ := List.mem_map.1 hb
      refine ⟨r, ?_, t.epoch, rfl⟩
      rintro rfl
      exact (t.data _ (by simpa using hr)).1
    cases e with
    | unfinished t => exact hunfinished t hb
    | committed t =>
        rw [show (Entry.committed t).bodies = t.bodies from rfl, t.bodies_eq] at hb
        rcases List.mem_append.1 hb with hb | hb
        · exact hunfinished t hb
        · exact ⟨.txnCommit, by simp, t.epoch, (List.mem_singleton.1 hb).symm⟩
  obtain ⟨r, hnote, epoch, rfl⟩ := hrecord
  rw [bodyKind_body]
  exact kind_ne_note hnote

/-- Replay hands over the transactions of the entries in front of where the scan of the
file stops. -/
theorem replays_scan {bs suf : List Bytes} {k m : ℕ} {w : Log} {floor : Epoch}
    {good : List Entry} {tail : Bytes} (hw : HoldsAs crc bs suf k m w)
    (hsplit : framed crc bs = framed crc (logBodies good) ++ tail)
    (hfits : ∀ b ∈ logBodies good, BodyFits b)
    (hstop : nextFrame crc (framed crc (logBodies good) ++ tail)
      (framed crc (logBodies good)).length = none) :
    Replays crc w floor (committedAbove floor good) := by
  intro β sink init
  obtain ⟨pending, hds⟩ := delivers_entries floor hfits
  have hnote : noteFloor floor (logBodies good) = floor := by
    have happend : noteFloor floor ([] ++ logBodies good) = noteFloor floor [] :=
      noteFloor_append (bodyKind_logBodies good)
    rwa [List.nil_append] at happend
  rw [replay_scan hw hsplit hfits hstop, hnote, hds]
  cases ((committedAbove floor good).flatMap LoggedTxn.delivered).foldlM sink init <;> rfl

/-- A log of whole frames replays all its committed transactions above the floor. -/
theorem replays_of_fits {es : List Entry} {suf : List Bytes} {k m : ℕ} {w : Log}
    {floor : Epoch} (hw : HoldsAs crc (logBodies es) suf k m w)
    (hfits : ∀ b ∈ logBodies es, BodyFits b) :
    Replays crc w floor (committedAbove floor es) :=
  replays_scan hw (List.append_nil _).symm hfits (nextFrame_zeros (framed crc (logBodies es)) 0)

theorem Replays.unique {w : Log} {floor : Epoch} {ts ts' : List LoggedTxn}
    (h : Replays crc w floor ts) (h' : Replays crc w floor ts') :
    ts.flatMap LoggedTxn.delivered = ts'.flatMap LoggedTxn.delivered := by
  have hsame := (h collect []).symm.trans (h' collect [])
  rw [foldlM_collect, foldlM_collect] at hsame
  simpa using Except.ok.inj hsame

/-! ### The damaged log -/

theorem exists_reopened {es : List Entry} {damaged : Bytes}
    (hdet : Detects crc (logBodies es) damaged) :
    ∃ i w m tail, openOn crc { bytes := damaged, plan := [] } = .ok w ∧
      HoldsAs crc (logBodies (cutLog es i)) [] 0 m w ∧
      (∀ b ∈ logBodies (cutLog es i), BodyFits b) ∧
      damaged = framed crc ((logBodies es).take i) ++ tail ∧
      nextFrame crc (framed crc ((logBodies es).take i) ++ tail)
        (framed crc ((logBodies es).take i)).length = none := by
  obtain ⟨i, tail, hbytes, hfits, hstop⟩ := scan_detects hdet
  obtain ⟨w, m, hopen, hw⟩ := openOn_framed hfits hstop
  rw [← logBodies_cutLog] at hw
  refine ⟨i, w, m, tail, ?_, hw, ?_, hbytes, hstop⟩
  · rw [hbytes]
    exact hopen
  · rw [logBodies_cutLog]
    exact hfits

theorem prefix_of_reached {es : List Entry} {w : Log} {k n : ℕ} {junk : Bytes}
    (hlog : Logged crc es w)
    (hreach : (framed crc (logBodies (es.take n))).length ≤ min k w.len) :
    framed crc (logBodies (es.take n)) <+: w.file.bytes.take k ++ junk := by
  obtain ⟨z, w₀, hopen, happend⟩ := hlog
  have hnone : ∀ b ∈ ([] : List Bytes), BodyFits b := fun b hb => nomatch hb
  obtain ⟨w₁, m₁, hopen', hw₁⟩ := openOn_framed hnone (nextFrame_zeros (framed crc []) z)
  rw [framed_nil, List.nil_append, hopen] at hopen'
  cases hopen'
  have hstart : Holds crc [] [] w₀ := ⟨[], [], 0, m₁, rfl, hw₁⟩
  obtain ⟨mid, suf, j, m, hall, hw⟩ :=
    ((appendEntries_triple [] [] es) w₀ hstart).1 _ _ happend
  rw [List.nil_append] at hall hw
  have htake : logBodies es = logBodies (es.take n) ++ logBodies (es.drop n) := by
    rw [← logBodies_append, List.take_append_drop]
  have hprefix : framed crc (logBodies (es.take n)) <+: framed crc (logBodies es) := by
    rw [htake, framed_append]
    exact List.prefix_append _ _
  have hmid : framed crc mid <+: framed crc (logBodies es) := by
    rw [← hall, framed_append]
    exact List.prefix_append _ _
  have hlen : (framed crc (logBodies (es.take n))).length ≤ (framed crc mid).length := by
    rw [← hw.len_eq]
    exact hreach.trans (min_le_right _ _)
  have hfile : framed crc (logBodies (es.take n)) <+: w.file.bytes := by
    rw [hw.bytes_eq]
    exact (List.prefix_of_prefix_length_le hprefix hmid hlen).trans (List.prefix_append _ _)
  have hk : framed crc (logBodies (es.take n)) <+: w.file.bytes.take k :=
    List.prefix_take_iff.2 ⟨hfile, hreach.trans (min_le_left _ _)⟩
  exact hk.trans (List.prefix_append _ _)

theorem LoggedTxn.Fits.unfinished {t : LoggedTxn} (h : t.Fits) :
    ∀ b ∈ (Entry.unfinished t).bodies, BodyFits b := by
  intro b hb
  obtain ⟨r, hr, rfl⟩ := List.mem_map.1 hb
  rcases List.mem_cons.1 hr with rfl | hr
  · exact readsBack_begin.bodyFits _
  · rw [BodyFits, length_body]
    exact ⟨Nat.le_add_right _ _, h r hr⟩

theorem LoggedTxn.Fits.bodies {t : LoggedTxn} (h : t.Fits) : ∀ b ∈ t.bodies, BodyFits b := by
  intro b hb
  rw [t.bodies_eq] at hb
  rcases List.mem_append.1 hb with hb | hb
  · exact h.unfinished b hb
  · rw [List.mem_singleton.1 hb]
    exact readsBack_commit.bodyFits _

theorem fits_logBodies {ts : List LoggedTxn} (h : ∀ t ∈ ts, t.Fits) :
    ∀ b ∈ logBodies (ts.map .committed), BodyFits b := by
  intro b hb
  obtain ⟨e, he, hb⟩ := List.mem_flatMap.1 hb
  obtain ⟨t, ht, rfl⟩ := List.mem_map.1 he
  exact (h t ht).bodies b hb

theorem committedAbove_committed {floor : Epoch} {ts : List LoggedTxn}
    (h : ∀ t ∈ ts, floor < t.epoch) : committedAbove floor (ts.map .committed) = ts := by
  induction ts with
  | nil => rfl
  | cons t ts ih =>
      have hfirst : committedAbove floor [.committed t] = [t] := by
        simp [committedAbove, h t List.mem_cons_self]
      rw [List.map_cons, committedAbove_cons, hfirst,
        ih fun u hu => h u (List.mem_cons_of_mem t hu)]
      rfl

theorem exists_first {α : Type} {p : α → Prop} [DecidablePred p] {l : List α}
    (h : ¬ ∀ a ∈ l, p a) : ∃ before a after, l = before ++ a :: after ∧
      (∀ c ∈ before, p c) ∧ ¬ p a := by
  have hsome : (l.find? fun a => !decide (p a)).isSome := by
    rw [List.find?_isSome]
    simpa using h
  obtain ⟨a, ha⟩ := Option.isSome_iff_exists.1 hsome
  obtain ⟨hpa, before, after, hl, hbefore⟩ := List.find?_eq_some_iff_append.1 ha
  refine ⟨before, a, after, hl, fun c hc => ?_, by simpa using hpa⟩
  simpa using hbefore c hc

/-- Where the frame of a record is too long, the transactions up to the one it is in
are replayed and no others. -/
theorem replays_overlong {es : List Entry} {before after : List LoggedTxn} {t : LoggedTxn}
    {k m : ℕ} {w : Log} {floor : Epoch}
    (hw : HoldsAs crc (logBodies (es ++ (before ++ t :: after).map .committed)) [] k m w)
    (hes : ∀ b ∈ logBodies es, BodyFits b) (hbefore : ∀ u ∈ before, u.Fits)
    (hlong : ¬ t.Fits) (hcut : ∀ r ∈ t.records, CutFails crc (body t.epoch r))
    (habove : ∀ u ∈ before, floor < u.epoch) :
    Replays crc w floor (committedAbove floor es ++ before) := by
  obtain ⟨rs, r, rs', hrecords, hrs, hr⟩ := exists_first hlong
  have hrmem : r ∈ t.records := by
    rw [hrecords]
    simp
  set begun := Entry.unfinished (t.cut rs.length) with hbegun
  have htake : (t.cut rs.length).records = rs := by
    simp [LoggedTxn.cut, hrecords]
  have hfits : ∀ b ∈ logBodies (es ++ before.map .committed ++ [begun]), BodyFits b := by
    intro b hb
    rw [logBodies_append, logBodies_append] at hb
    rcases List.mem_append.1 hb with hb | hb
    · rcases List.mem_append.1 hb with hb | hb
      · exact hes b hb
      · exact fits_logBodies hbefore b hb
    · have hcutFits : (t.cut rs.length).Fits := by
        rw [LoggedTxn.Fits, htake]
        exact hrs
      exact hcutFits.unfinished b (by simpa [logBodies] using hb)
  set rest := (rs'.map (body t.epoch) ++ [body t.epoch .txnCommit]) ++
    logBodies (after.map .committed) with hrest
  have hall : logBodies (es ++ (before ++ t :: after).map .committed) =
      logBodies (es ++ before.map .committed ++ [begun]) ++ body t.epoch r :: rest := by
    have ht : t.bodies = begun.bodies ++
        body t.epoch r :: (rs'.map (body t.epoch) ++ [body t.epoch .txnCommit]) := by
      rw [t.bodies_eq, hbegun, Entry.bodies, Entry.bodies, htake, hrecords]
      simp [LoggedTxn.cut]
    have hentry : (Entry.committed t).bodies = t.bodies := rfl
    rw [List.map_append, List.map_cons, logBodies_append, logBodies_append, logBodies_cons,
      logBodies_append, logBodies_append, hentry, ht, hrest]
    simp [logBodies]
  have hlen : 2 ^ 32 ≤ (body t.epoch r).length := by
    rw [length_body]
    exact Nat.not_lt.1 hr
  rw [hall] at hw
  have hreplays : Replays crc w floor _ := replays_scan hw (framed_append _ _) hfits (by
    rw [framed_cons]
    exact nextFrame_overlong _ hlen (hcut r hrmem) _)
  have hnone : committedAbove floor [begun] = [] := rfl
  rwa [committedAbove_append, committedAbove_append, hnone, List.append_nil,
    committedAbove_committed habove] at hreplays

/-- Appending transactions to the log that was opened puts their bodies in the file
after those it was opened on. -/
theorem exists_appended {es : List Entry} {w : Log} {m : ℕ} (new : List LoggedTxn)
    (hw : HoldsAs crc (logBodies es) [] 0 m w) (hreliable : Reliable w) :
    ∃ k' m' w', (appendEntries crc (new.map .committed)).exec w = (.ok (), w') ∧
      HoldsAs crc (logBodies (es ++ new.map .committed)) [] k' m' w' := by
  have hstart : Holds crc (logBodies es) [] w ∧ w.buf = [] :=
    ⟨⟨[], [], 0, m, rfl, by rwa [List.append_nil]⟩, hw.buf_eq⟩
  have hnever : NeverFails (appendEntries crc (new.map .committed)) := appendEntries_reliable _
  obtain ⟨u, w', hexec, -⟩ := hnever.returns hreliable
  obtain ⟨hold, hbuf⟩ := (appendEntries_flushed _ [] new w hstart).1 _ _ hexec
  obtain ⟨k', m', hw'⟩ := holdsAs_of_flushed hold hbuf
  rw [List.nil_append, ← logBodies_append] at hw'
  exact ⟨k', m', w', hexec, hw'⟩

/-- New transactions of which the frame of a record is too long are not all
replayed. -/
theorem fits_of_tolerates {es : List Entry} {floor : Epoch} {reach : ℕ} {damaged : Bytes}
    {new : List LoggedTxn} (hdet : Detects crc (logBodies es) damaged)
    (hcut : ∀ t ∈ new, ∀ r ∈ t.records, CutFails crc (body t.epoch r))
    (hnew : ∀ t ∈ new, floor < t.epoch)
    (h : Tolerates crc floor es reach damaged new) : ∀ t ∈ new, t.Fits := by
  obtain ⟨i, w₁, m, tail, hopen, hw₁, hfits, -⟩ := exists_reopened hdet
  have hkept : Replays crc w₁ floor _ := replays_of_fits hw₁ hfits
  obtain ⟨k₂, m₂, w₂, hexec, hw₂⟩ := exists_appended new hw₁ (openOn_reliable hopen)
  obtain ⟨kept, w', hopen', -, -, hreplay, w'', hexec', hreplay'⟩ := h
  rw [hopen] at hopen'
  cases hopen'
  rw [hexec] at hexec'
  cases hexec'
  by_contra hlong
  obtain ⟨before, t, after, hsplit, hbefore, ht⟩ := exists_first hlong
  have htnew : t ∈ new := by
    rw [hsplit]
    simp
  rw [hsplit] at hw₂
  have habove : ∀ u ∈ before, floor < u.epoch := fun u hu =>
    hnew u (by rw [hsplit]; exact List.mem_append_left _ hu)
  have hcutoff := replays_overlong hw₂ hfits hbefore ht (hcut t htnew) habove
  have hfirst := hreplay.unique hkept
  have hall := hreplay'.unique hcutoff
  rw [List.flatMap_append, List.flatMap_append, hfirst, List.append_cancel_left_eq, hsplit,
    List.flatMap_append, List.append_right_eq_self, List.flatMap_cons] at hall
  exact absurd (List.append_eq_nil_iff.1 hall).1 (by simp [LoggedTxn.delivered, txnRecords])

/-- A log damaged from some byte on takes new transactions whose frames fit after some
first of its own. -/
theorem tolerates_of_fits {es : List Entry} {w : Log} {floor : Epoch} {k : ℕ}
    {junk : Bytes} {new : List LoggedTxn} (hlog : Logged crc es w)
    (hdet : Detects crc (logBodies es) (w.file.bytes.take k ++ junk))
    (hnew : ∀ t ∈ new, floor < t.epoch) (hnewFits : ∀ t ∈ new, t.Fits) :
    Tolerates crc floor es (min k w.len) (w.file.bytes.take k ++ junk) new := by
  obtain ⟨i, w₁, m, tail, hopen, hw₁, hfits, hbytes, hstop⟩ := exists_reopened hdet
  obtain ⟨k₂, m₂, w₂, hexec, hw₂⟩ := exists_appended new hw₁ (openOn_reliable hopen)
  refine ⟨committedAbove floor (cutLog es i), w₁, hopen, committedAbove_cutLog floor es i,
    fun n hreach hwhole => ?_, replays_of_fits hw₁ hfits, w₂, hexec, ?_⟩
  · apply committedAbove_take_cutLog
    obtain ⟨rest, hrest⟩ : framed crc (logBodies (es.take n)) <+:
        w.file.bytes.take k ++ junk := prefix_of_reached hlog hreach
    have hsplit : logBodies es = logBodies (es.take n) ++ logBodies (es.drop n) := by
      rw [← logBodies_append, List.take_append_drop]
    have htake : logBodies (es.take n) =
        (logBodies es).take (logBodies (es.take n)).length := by
      rw [hsplit]
      exact List.take_left.symm
    rw [htake] at hwhole hrest
    have hsame : framed crc ((logBodies es).take i) ++ tail = framed crc
        ((logBodies es).take (logBodies (es.take n)).length) ++ rest := by
      rw [hrest, hbytes]
    apply le_of_stops hstop hsame hwhole
    rw [hsplit, List.length_append]
    exact Nat.le_add_right _ _
  · have hbodies : ∀ b ∈ logBodies (cutLog es i ++ new.map .committed), BodyFits b := by
      intro b hb
      rw [logBodies_append] at hb
      rcases List.mem_append.1 hb with hb | hb
      · exact hfits b hb
      · exact fits_logBodies hnewFits b hb
    have hreplays : Replays crc _ floor _ := replays_of_fits hw₂ hbodies
    rwa [committedAbove_append, committedAbove_committed hnew] at hreplays

/-- A log damaged from some byte on opens and replays as some first of its
transactions, and takes new ones after them exactly when the frames of the new ones
can say how long they are. -/
theorem tornLog_tolerated_iff {es : List Entry} {w : Log} {floor : Epoch} {k : ℕ}
    {junk : Bytes} {new : List LoggedTxn} (hlog : Logged crc es w)
    (hdet : Detects crc (logBodies es) (w.file.bytes.take k ++ junk))
    (hcut : ∀ t ∈ new, ∀ r ∈ t.records, CutFails crc (body t.epoch r))
    (hnew : ∀ t ∈ new, floor < t.epoch) :
    Tolerates crc floor es (min k w.len) (w.file.bytes.take k ++ junk) new ↔
      ∀ t ∈ new, t.Fits :=
  ⟨fits_of_tolerates hdet hcut hnew, tolerates_of_fits hlog hdet hnew⟩

theorem LoggedTxn.Fits.cutFails {t : LoggedTxn} (h : t.Fits) :
    ∀ r ∈ t.records, CutFails crc (body t.epoch r) := by
  intro r hr hlong
  rw [length_body] at hlong
  exact absurd (h r hr) (Nat.not_lt.2 hlong)

/-- What appending transactions to the empty log leaves. -/
def written (ts : List LoggedTxn) : Log :=
  ((appendEntries crc32c (ts.map .committed)).exec emptyDb.log).2

theorem holdsAs_emptyDb : HoldsAs crc32c (logBodies []) [] 0 0 emptyDb.log :=
  ⟨rfl, rfl, rfl, le_rfl, le_rfl, le_rfl⟩

theorem written_spec (ts : List LoggedTxn) :
    Logged crc32c (ts.map .committed) (written ts) ∧
      ∃ k m, HoldsAs crc32c (logBodies (ts.map .committed)) [] k m (written ts) := by
  obtain ⟨k, m, w, hexec, hw⟩ := exists_appended ts holdsAs_emptyDb rfl
  have hwritten : written ts = w := by rw [written, hexec]
  rw [hwritten]
  exact ⟨⟨0, emptyDb.log, rfl, hexec⟩, k, m, hw⟩

theorem take_written (ts : List LoggedTxn) {k : ℕ}
    (h : k ≤ (framed crc32c (logBodies (ts.map .committed))).length) :
    (written ts).file.bytes.take k =
      (framed crc32c (logBodies (ts.map .committed))).take k := by
  obtain ⟨-, j, m, hw⟩ := written_spec ts
  rw [hw.bytes_eq, List.take_append_of_le_length h]

def deleteRow (epoch : Epoch) (row : UInt64) (h : epoch < 2 ^ 64) : LoggedTxn :=
  .ofCalls epoch [.delete 0 row] h

/-- Two deletions, the second of which is torn in the middle of its record. -/
def deletions : List LoggedTxn := [deleteRow 1 3 (by decide), deleteRow 2 4 (by decide)]

/-- The frames of the deletions reach past the cut, a scan of what is left stops there, and the
deletion that follows fits. -/
theorem deletions_torn :
    120 ≤ (framed crc32c (logBodies (deletions.map .committed))).length ∧
      Detects crc32c (logBodies (deletions.map .committed))
        ((framed crc32c (logBodies (deletions.map .committed))).take 120 ++ [1, 2, 3]) ∧
      (deleteRow 2 5 (by decide)).Fits := by
  decide +kernel

theorem tornLog_tolerated_iff_deletions :
    Tolerates crc32c 0 (deletions.map .committed) (min 120 (written deletions).len)
        ((written deletions).file.bytes.take 120 ++ [1, 2, 3])
        [deleteRow 2 5 (by decide)] ↔
      ∀ t ∈ [deleteRow 2 5 (by decide)], t.Fits :=
  tornLog_tolerated_iff (written_spec deletions).1
    (by
      rw [take_written deletions deletions_torn.1]
      exact deletions_torn.2.1)
    (fun t ht => LoggedTxn.Fits.cutFails (by
      rw [List.mem_singleton.1 ht]
      exact deletions_torn.2.2))
    (by simp [deleteRow, LoggedTxn.ofCalls])

/-- A row whose one value is so long a string that the frame of the row would have to
say it is `2 ^ 32` bytes. -/
def longRow (n : ℕ) : LoggedTxn :=
  .ofCalls 1 [.insertNodes 0 [(0, [.str (List.replicate n 0)])]] (by decide)

theorem records_longRow (n : ℕ) :
    (longRow n).records = [.nodeInsert 0 [{ col := 0, values := .str [List.replicate n 0] }]] :=
  rfl

theorem length_body_longRow {n : ℕ} {r : WalRecord} (hr : r ∈ (longRow n).records) :
    (body 1 r).length = 30 + n := by
  rw [records_longRow] at hr
  rw [List.mem_singleton.1 hr, length_body]
  simp [WalRecord.encodePayload, WalColumn.encode, WalValues.encode, putU32, minBody]
  omega

theorem exists_longRow : ∃ t : LoggedTxn, (∃ n, t = longRow n) ∧ 0 < t.epoch ∧ ¬ t.Fits ∧
    ∀ r ∈ t.records, CutFails crc32c (body t.epoch r) := by
  refine ⟨longRow (2 ^ 32 - 30), ⟨_, rfl⟩, by decide, fun h => ?_, fun r hr _ => ?_⟩
  · have hlen := length_body_longRow (n := 2 ^ 32 - 30) List.mem_cons_self
    have hfits := h _ List.mem_cons_self
    rw [length_body] at hlen
    omega
  · left
    have hepoch : (longRow (2 ^ 32 - 30)).epoch = 1 := rfl
    rw [hepoch, length_body_longRow hr]
    decide

/-- A row with such a value is committed after a log was opened, and is not replayed. -/
theorem not_tornLog_tolerated :
    ∃ n, Logged crc32c [] emptyDb.log ∧
      Detects crc32c (logBodies []) (emptyDb.log.file.bytes.take 0 ++ []) ∧
      0 < (longRow n).epoch ∧
      ¬ Tolerates crc32c 0 [] (min 0 emptyDb.log.len)
        (emptyDb.log.file.bytes.take 0 ++ []) [longRow n] := by
  obtain ⟨t, ⟨n, rfl⟩, hepoch, hlong, hcut⟩ := exists_longRow
  have hdet : Detects crc32c (logBodies []) (emptyDb.log.file.bytes.take 0 ++ []) := by
    decide
  refine ⟨n, ⟨0, emptyDb.log, rfl, rfl⟩, hdet, hepoch, fun h => hlong ?_⟩
  exact fits_of_tolerates hdet (by simpa using hcut) (by simpa using hepoch) h _
    List.mem_cons_self

end Zu.Txn
