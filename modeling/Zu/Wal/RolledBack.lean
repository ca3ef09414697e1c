import Zu.Wal.Delivered

/-!
# Rolling the log back

`rollbackAbove` finds the cut by scanning frames, so what it keeps is a run of
bodies from the start of the log; that these are the bodies of the transactions up
to the floor is `takeWhile_eq_filter`, for epochs that only go up. `Spans` is what
the log is after the cut: the file holds exactly some frames and the buffer
exactly some more. Every write that returns takes `Spans` to `Spans`, and to which
one depends on the bodies alone (`Write.place`), so a log that was cut back and a
log that never held the rest end with the same frames in the same places.
-/

namespace Zu.Wal

open Lib

variable {crc : Bytes → UInt32}

/-- The bodies of the frames in the file. -/
def Log.bodies (crc : Bytes → UInt32) (w : Log) : List Bytes :=
  (scan crc (w.file.bytes.take w.len)).1

/-- The log's frames are inside what is reserved, and that is inside the file. -/
structure Log.Placed (w : Log) : Prop where
  room : w.len ≤ w.reserved
  given : w.reserved ≤ w.file.bytes.length

/-- The file holds the frames of `pre` and the buffer those of `suf`. What the file
has past the frames may be anything. -/
structure Spans (crc : Bytes → UInt32) (pre suf : List Bytes) (w : Log) : Prop
    extends w.Placed where
  len_eq : w.len = (framed crc pre).length
  take_eq : w.file.bytes.take w.len = framed crc pre
  buf_eq : w.buf = framed crc suf

theorem Spans.bodies_eq {pre suf : List Bytes} {w : Log} (h : Spans crc pre suf w)
    (hfits : ∀ b ∈ pre, BodyFits b) : w.bodies crc = pre := by
  have hscan : scan crc (framed crc pre ++ zeros 0) = (pre, _) := scan_framed_zeros hfits 0
  rw [zeros_zero, List.append_nil] at hscan
  rw [Log.bodies, h.take_eq, hscan]

/-- Where the bodies in the file and in the buffer are once `b` has been appended: a
buffer that is full goes to the file. -/
def stagePlace (crc : Bytes → UInt32) (at_ : List Bytes × List Bytes) (b : Bytes) :
    List Bytes × List Bytes :=
  if spill ≤ (framed crc (at_.2 ++ [b])).length then (at_.1 ++ (at_.2 ++ [b]), [])
  else (at_.1, at_.2 ++ [b])

/-- Where the bodies are once a commit has been staged: all of them in the file. -/
def commitPlace (crc : Bytes → UInt32) (at_ : List Bytes × List Bytes) (b : Bytes) :
    List Bytes × List Bytes :=
  ((stagePlace crc at_ b).1 ++ (stagePlace crc at_ b).2, [])

/-- One write to the log. -/
inductive Write
  | append (epoch : Epoch) (r : WalRecord)
  | commit (epoch : Epoch) (took : ℕ)

namespace Write

def run (crc : Bytes → UInt32) : Write → WalM Unit
  | append epoch r => Wal.append crc epoch r
  | commit epoch took => Wal.commit crc epoch took

/-- Where the write leaves the bodies. -/
def place (crc : Bytes → UInt32) (at_ : List Bytes × List Bytes) :
    Write → List Bytes × List Bytes
  | append epoch r => stagePlace crc at_ (body epoch r)
  | commit epoch _ => commitPlace crc at_ (body epoch .txnCommit)

/-- Does writes one after the other. -/
def runAll (crc : Bytes → UInt32) : List Write → WalM Unit
  | [] => pure ()
  | x :: xs => do
      x.run crc
      runAll crc xs

end Write

/-- One transaction of a log: what was written between its begin and its commit, and
whether the commit was written. -/
structure LoggedTxn where
  epoch : Epoch
  records : List WalRecord
  finished : Bool
  data : ∀ r ∈ records, IsData r

namespace LoggedTxn

/-- The records of a transaction, as the log has them. -/
def entries (t : LoggedTxn) : List (Epoch × WalRecord) :=
  ((t.epoch, .txnBegin) :: t.records.map fun r => (t.epoch, r)) ++
    if t.finished then [(t.epoch, .txnCommit)] else []

theorem ne_note_of_mem {t : LoggedTxn} {e : Epoch × WalRecord} (h : e ∈ t.entries) :
    e.2 ≠ .checkpointNote := by
  rw [entries, List.mem_append, List.mem_cons, List.mem_map] at h
  rcases h with (rfl | ⟨r, hr, rfl⟩) | h
  · exact nofun
  · intro hnote
    have hdata := t.data r hr
    rw [show r = .checkpointNote from hnote] at hdata
    exact hdata
  · split_ifs at h
    · rw [List.mem_singleton] at h
      rw [h]
      exact nofun
    · exact absurd h List.not_mem_nil

end LoggedTxn

/-- The epoch and the record a body says. -/
def Says (b : Bytes) (e : Epoch × WalRecord) : Prop :=
  bodyEpoch b = e.1 ∧ bodyRecord b = .ok e.2

/-- The bodies in the file are those of the transactions `ts`, in their order. -/
def Logs (crc : Bytes → UInt32) (ts : List LoggedTxn) (w : Log) : Prop :=
  List.Forall₂ Says (w.bodies crc) (ts.flatMap LoggedTxn.entries)

/-- A log that the records of `ts` were appended to has their transactions. -/
theorem Spans.logs {ts : List LoggedTxn} {suf : List Bytes} {w : Log}
    (h : Spans crc ((ts.flatMap LoggedTxn.entries).map fun e => body e.1 e.2) suf w)
    (hts : ∀ e ∈ ts.flatMap LoggedTxn.entries, e.1 < 2 ^ 64 ∧ ReadsBack e.2) :
    Logs crc ts w := by
  have hfits : ∀ b ∈ (ts.flatMap LoggedTxn.entries).map fun e => body e.1 e.2, BodyFits b := by
    intro b hb
    obtain ⟨e, he, rfl⟩ := List.mem_map.1 hb
    exact (hts e he).2.bodyFits e.1
  rw [Logs, h.bodies_eq hfits, List.forall₂_map_left_iff, List.forall₂_same]
  intro e he
  exact ⟨bodyEpoch_body (hts e he).1 _, (hts e he).2.bodyRecord e.1⟩

/-- What a replay above `floor` hands over: the finished transactions above it. -/
def delivered (floor : Epoch) (ts : List LoggedTxn) : List (Epoch × WalRecord) :=
  (ts.filter fun t => t.finished && decide (floor < t.epoch)).flatMap LoggedTxn.entries

theorem bodyKind_ne_note {b : Bytes} {r : WalRecord} (h : bodyRecord b = .ok r)
    (hr : r ≠ .checkpointNote) : bodyKind b ≠ kindCheckpointNote := by
  intro hkind
  rw [bodyRecord, hkind] at h
  apply hr
  have hdecode : ∀ bs : Bytes, bs = [] ∨ bs ≠ [] := fun bs => em _
  rcases hdecode (b.drop 9) with hnil | hcons
  · rw [hnil] at h
    cases h
    rfl
  · obtain ⟨c, cs, hcs⟩ := List.exists_cons_of_ne_nil hcons
    rw [hcs] at h
    cases h

theorem noteFloor_of_says {bs : List Bytes} {es : List (Epoch × WalRecord)}
    (h : List.Forall₂ Says bs es) (hes : ∀ e ∈ es, e.2 ≠ .checkpointNote) (floor : Epoch) :
    noteFloor floor bs = floor := by
  rw [noteFloor]
  induction h with
  | nil => rfl
  | cons hsays _ ih =>
      have hkind := bodyKind_ne_note hsays.2 (hes _ List.mem_cons_self)
      rw [List.foldl_cons, if_neg hkind]
      exact ih fun e he => hes e (List.mem_cons_of_mem _ he)

/-- What replay does with one record that has been read. -/
def replayEntry {β : Type} (floor : Epoch)
    (sink : β → Epoch × WalRecord → Except ZuError β) (st : ReplayState β)
    (e : Epoch × WalRecord) : Except ZuError (ReplayState β) :=
  replayRecord floor sink st e.1 e.2

theorem foldlM_says {bs : List Bytes} {es : List (Epoch × WalRecord)}
    (h : List.Forall₂ Says bs es) {β : Type} (floor : Epoch)
    (sink : β → Epoch × WalRecord → Except ZuError β) (st : ReplayState β) :
    bs.foldlM (replayBody floor sink) st = es.foldlM (replayEntry floor sink) st := by
  induction h generalizing st with
  | nil => rfl
  | cons hsays _ ih =>
      obtain ⟨hepoch, hrecord⟩ := hsays
      rw [List.foldlM_cons, List.foldlM_cons, replayBody, hrecord, hepoch, ok_bind,
        replayEntry]
      congr 1
      funext st
      exact ih st

theorem foldlM_records {epoch floor : Epoch} {records : List WalRecord}
    (h : ∀ r ∈ records, IsData r) {β : Type}
    (sink : β → Epoch × WalRecord → Except ZuError β) (pending : List (Epoch × WalRecord))
    (acc : β) :
    (records.map fun r => (epoch, r)).foldlM (replayEntry floor sink) (pending, acc) =
      .ok (pending ++ records.map fun r => (epoch, r), acc) := by
  induction records generalizing pending with
  | nil => rw [List.map_nil, List.append_nil]; rfl
  | cons r records ih =>
      rw [List.map_cons, List.foldlM_cons, replayEntry,
        replayRecord_data _ _ _ _ (h r List.mem_cons_self), ok_bind,
        ih fun r' hr' => h r' (List.mem_cons_of_mem r hr'), List.append_assoc]
      rfl

/-- A transaction's begin drops what was pending, and what follows it hands the
transaction over, or nothing. -/
theorem foldlM_entries (floor : Epoch) (t : LoggedTxn) {β : Type}
    (sink : β → Epoch × WalRecord → Except ZuError β) :
    ∃ pending', ∀ pending acc,
      t.entries.foldlM (replayEntry floor sink) (pending, acc) =
        (fun acc => (pending', acc)) <$> (delivered floor [t]).foldlM sink acc := by
  have hdata : ∀ pending acc,
      ((t.epoch, WalRecord.txnBegin) :: t.records.map fun r => (t.epoch, r)).foldlM
          (replayEntry floor sink) (pending, acc) =
        .ok ((t.epoch, .txnBegin) :: t.records.map fun r => (t.epoch, r), acc) := by
    intro pending acc
    rw [List.foldlM_cons, replayEntry, replayRecord, ok_bind, foldlM_records t.data]
    rfl
  generalize hrun : ((t.epoch, WalRecord.txnBegin) :: t.records.map fun r => (t.epoch, r)) =
    run at hdata
  cases hfinished : t.finished with
  | false =>
      have hnone : delivered floor [t] = [] := by simp [delivered, hfinished]
      refine ⟨run, fun pending acc => ?_⟩
      rw [hnone, LoggedTxn.entries, hfinished, hrun, if_neg Bool.false_ne_true,
        List.append_nil, hdata]
      rfl
  | true =>
      have hentries : t.entries = run ++ [(t.epoch, .txnCommit)] := by
        rw [LoggedTxn.entries, hfinished, hrun, if_pos rfl]
      refine ⟨[], fun pending acc => ?_⟩
      rw [hentries, List.foldlM_append, hdata, ok_bind, List.foldlM_cons, replayEntry,
        replayRecord]
      by_cases habove : floor < t.epoch
      · have hall : delivered floor [t] = run ++ [(t.epoch, .txnCommit)] := by
          simp [delivered, hfinished, habove, hentries]
        rw [hall, if_pos habove, List.foldlM_append]
        cases run.foldlM sink acc with
        | error e => rfl
        | ok acc =>
            rw [ok_bind, ok_bind, List.foldlM_cons]
            cases sink acc (t.epoch, WalRecord.txnCommit) <;> rfl
      · have hnone : delivered floor [t] = [] := by simp [delivered, habove]
        rw [hnone, if_neg habove]
        rfl

theorem delivered_cons (floor : Epoch) (t : LoggedTxn) (ts : List LoggedTxn) :
    delivered floor (t :: ts) = delivered floor [t] ++ delivered floor ts := by
  rw [delivered, delivered, delivered, ← List.flatMap_append, ← List.filter_append,
    List.singleton_append]

theorem foldlM_delivered (floor : Epoch) (ts : List LoggedTxn) {β : Type}
    (sink : β → Epoch × WalRecord → Except ZuError β) (st : ReplayState β) :
    Prod.snd <$> (ts.flatMap LoggedTxn.entries).foldlM (replayEntry floor sink) st =
      (delivered floor ts).foldlM sink st.2 := by
  induction ts generalizing st with
  | nil => rfl
  | cons t ts ih =>
      obtain ⟨pending', ht⟩ := foldlM_entries floor t sink
      rw [List.flatMap_cons, List.foldlM_append, ht, delivered_cons floor t ts,
        List.foldlM_append]
      cases (delivered floor [t]).foldlM sink st.2 with
      | error e => rfl
      | ok acc => exact ih (pending', acc)

/-- A replay delivers the finished transactions above its floor. -/
theorem Logs.replay_eq {ts : List LoggedTxn} {w : Log} (h : Logs crc ts w) (hw : w.Placed)
    {β : Type} (floor : Epoch) (sink : β → Epoch × WalRecord → Except ZuError β) (init : β) :
    replay crc w floor sink init = (delivered floor ts).foldlM sink init := by
  have hroom := hw.room
  have hgiven := hw.given
  have hfloor : noteFloor floor (w.bodies crc) = floor := by
    apply noteFloor_of_says h
    intro e he
    obtain ⟨t, -, he⟩ := List.mem_flatMap.1 he
    exact LoggedTxn.ne_note_of_mem he
  have hrun : replay crc w floor sink init = Prod.snd <$>
      (w.bodies crc).foldlM (replayBody (noteFloor floor (w.bodies crc)) sink) ([], init) := by
    rw [replay, if_neg (by omega)]
    change (do
      let st ← (w.bodies crc).foldlM (replayBody (noteFloor floor (w.bodies crc)) sink) ([], init)
      return st.2) = _
    cases (w.bodies crc).foldlM (replayBody (noteFloor floor (w.bodies crc)) sink) ([], init) <;>
      rfl
  rw [hrun, hfloor, foldlM_says h, foldlM_delivered]

/-- A log with a transaction that finished and one that did not, and a frame staged
after them. -/
def cutShort : Log :=
  { file :=
      { bytes := framed (fun _ => 0)
          [body 1 .txnBegin, body 1 .txnCommit, body 2 .txnBegin, body 2 (.delete 0 [])]
        plan := [] }
    commits := Marks.new 76
    len := 76
    reserved := 76
    buf := frame (fun _ => 0) (body 2 .txnCommit) }

end Zu.Wal
