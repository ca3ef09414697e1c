import Zu.Wal.Restart

/-!
# What a replay delivers

`Delivers floor bs ds` says that replaying the bodies `bs` hands `ds` to the
sink, whatever the sink is. Bodies of a transaction that never committed deliver
nothing, and the bodies of a committed one deliver its records between its begin
and its commit.
-/

namespace Zu.Wal

open Lib

/-- Replaying `bs` hands `ds` to the sink and leaves some records pending. -/
def Delivers (floor : Epoch) (bs : List Bytes) (ds : List (Epoch × WalRecord)) : Prop :=
  ∃ pending, ∀ {β : Type} (sink : β → Epoch × WalRecord → Except ZuError β) (init : β),
    bs.foldlM (replayBody floor sink) ([], init) =
      (fun acc => (pending, acc)) <$> ds.foldlM sink init

/-- A record that neither ends a transaction nor raises the floor. -/
def Uncommitted (b : Bytes) : Prop :=
  bodyKind b ≠ kindCheckpointNote ∧
    ∃ r, bodyRecord b = .ok r ∧ r ≠ .txnCommit ∧ r ≠ .checkpointNote

/-- The records of a transaction that are not its begin or its commit. -/
def IsData : WalRecord → Prop
  | .txnBegin | .txnCommit | .checkpointNote => False
  | _ => True

theorem isData_of_ne {r : WalRecord} (hbegin : r ≠ .txnBegin) (hcommit : r ≠ .txnCommit)
    (hnote : r ≠ .checkpointNote) : IsData r := by
  cases r
  case txnBegin => exact absurd rfl hbegin
  case txnCommit => exact absurd rfl hcommit
  case checkpointNote => exact absurd rfl hnote
  all_goals trivial

theorem replayRecord_data {β : Type} (floor : Epoch)
    (sink : β → Epoch × WalRecord → Except ZuError β) (st : ReplayState β)
    (epoch : Epoch) {r : WalRecord} (h : IsData r) :
    replayRecord floor sink st epoch r = .ok (st.1 ++ [(epoch, r)], st.2) := by
  cases r <;> first | rfl | exact h.elim

/-- Bodies that end no transaction hand nothing over. -/
theorem foldlM_uncommitted {us : List Bytes} (hus : ∀ b ∈ us, Uncommitted b)
    (floor : Epoch) (pending : List (Epoch × WalRecord)) :
    ∃ pending', ∀ {β : Type} (sink : β → Epoch × WalRecord → Except ZuError β)
      (acc : β), us.foldlM (replayBody floor sink) (pending, acc) = .ok (pending', acc) := by
  induction us generalizing pending with
  | nil => exact ⟨pending, fun _ _ => rfl⟩
  | cons b us ih =>
      obtain ⟨-, r, hr, hcommit, hnote⟩ := hus b List.mem_cons_self
      have hrest := fun p => ih (fun c hc => hus c (List.mem_cons_of_mem b hc)) p
      by_cases hbegin : r = .txnBegin
      · obtain ⟨pending', h⟩ := hrest [(bodyEpoch b, .txnBegin)]
        refine ⟨pending', fun sink acc => ?_⟩
        rw [List.foldlM_cons, replayBody, hr, hbegin]
        exact h sink acc
      · obtain ⟨pending', h⟩ := hrest (pending ++ [(bodyEpoch b, r)])
        refine ⟨pending', fun sink acc => ?_⟩
        have hdata := isData_of_ne hbegin hcommit hnote
        rw [List.foldlM_cons, replayBody, hr, ok_bind, replayRecord_data _ _ _ _ hdata]
        exact h sink acc

theorem Delivers.append_uncommitted {floor : Epoch} {bs us : List Bytes}
    {ds : List (Epoch × WalRecord)} (h : Delivers floor bs ds)
    (hus : ∀ b ∈ us, Uncommitted b) : Delivers floor (bs ++ us) ds := by
  obtain ⟨pending, hbs⟩ := h
  obtain ⟨pending', hrest⟩ := foldlM_uncommitted hus floor pending
  refine ⟨pending', fun sink init => ?_⟩
  rw [List.foldlM_append, hbs]
  cases ds.foldlM sink init with
  | error e => rfl
  | ok acc => exact hrest sink acc

def txnBodies (epoch : Epoch) (records : List WalRecord) : List Bytes :=
  (body epoch .txnBegin :: records.map (body epoch)) ++ [body epoch .txnCommit]

/-- What a committed transaction delivers. -/
def txnRecords (epoch : Epoch) (records : List WalRecord) : List (Epoch × WalRecord) :=
  ((epoch, .txnBegin) :: records.map fun r => (epoch, r)) ++ [(epoch, .txnCommit)]

/-- A record that is read back from its frame as it was written. -/
def ReadsBack (r : WalRecord) : Prop :=
  minBody + r.encodePayload.length < 2 ^ 32 ∧ r.WellShaped

theorem ReadsBack.bodyFits {r : WalRecord} (h : ReadsBack r) (epoch : Epoch) :
    BodyFits (body epoch r) := by
  rw [BodyFits, length_body]
  exact ⟨Nat.le_add_right _ _, h.1⟩

theorem ReadsBack.bodyRecord {r : WalRecord} (h : ReadsBack r) (epoch : Epoch) :
    bodyRecord (body epoch r) = .ok r :=
  bodyRecord_body epoch (WalRecord.fits_of_length ((Nat.le_add_left _ _).trans_lt h.1)) h.2

theorem readsBack_begin : ReadsBack .txnBegin := ⟨by decide, trivial⟩

theorem readsBack_commit : ReadsBack .txnCommit := ⟨by decide, trivial⟩

theorem replayBody_body {β : Type} (floor : Epoch)
    (sink : β → Epoch × WalRecord → Except ZuError β) (st : ReplayState β)
    {epoch : Epoch} (hepoch : epoch < 2 ^ 64) {r : WalRecord} (h : ReadsBack r) :
    replayBody floor sink st (body epoch r) = replayRecord floor sink st epoch r := by
  rw [replayBody, h.bodyRecord, bodyEpoch_body hepoch]
  rfl

theorem foldlM_data {epoch : Epoch} (hepoch : epoch < 2 ^ 64) {records : List WalRecord}
    (h : ∀ r ∈ records, ReadsBack r ∧ IsData r) {β : Type} (floor : Epoch)
    (sink : β → Epoch × WalRecord → Except ZuError β)
    (pending : List (Epoch × WalRecord)) (acc : β) :
    (records.map (body epoch)).foldlM (replayBody floor sink) (pending, acc) =
      .ok (pending ++ records.map (fun r => (epoch, r)), acc) := by
  induction records generalizing pending with
  | nil => simp; rfl
  | cons r records ih =>
      obtain ⟨hreads, hdata⟩ := h r List.mem_cons_self
      rw [List.map_cons, List.foldlM_cons, replayBody_body _ _ _ hepoch hreads,
        replayRecord_data _ _ _ _ hdata, ok_bind, ih fun r' hr' => h r' (List.mem_cons_of_mem r hr'), List.append_assoc]
      rfl

theorem Delivers.append_txn {floor epoch : Epoch} {bs : List Bytes}
    {ds : List (Epoch × WalRecord)} (h : Delivers floor bs ds) (habove : floor < epoch)
    (hepoch : epoch < 2 ^ 64) {records : List WalRecord}
    (hrecords : ∀ r ∈ records, ReadsBack r ∧ IsData r) :
    Delivers floor (bs ++ txnBodies epoch records) (ds ++ txnRecords epoch records) := by
  obtain ⟨pending, hbs⟩ := h
  refine ⟨[], fun sink init => ?_⟩
  rw [List.foldlM_append, hbs, List.foldlM_append]
  cases ds.foldlM sink init with
  | error e => rfl
  | ok acc =>
      have hbegin : replayBody floor sink (pending, acc) (body epoch .txnBegin) =
          .ok ([(epoch, WalRecord.txnBegin)], acc) := by
        rw [replayBody_body _ _ _ hepoch readsBack_begin]
        rfl
      have hcommit : ∀ st : ReplayState _,
          replayBody floor sink st (body epoch .txnCommit) = do
            let acc ← st.1.foldlM sink st.2
            let acc ← sink acc (epoch, .txnCommit)
            return ([], acc) := by
        intro st
        rw [replayBody_body _ _ _ hepoch readsBack_commit, replayRecord, if_pos habove]
      have hmap : ∀ {γ : Type} (x : γ),
          ((fun acc => (pending, acc)) <$> (Except.ok x : Except ZuError γ)) =
            .ok (pending, x) := fun _ => rfl
      rw [hmap, ok_bind, ok_bind, txnBodies, List.cons_append, List.foldlM_cons, hbegin,
        ok_bind, List.foldlM_append, foldlM_data hepoch hrecords, ok_bind,
        List.foldlM_cons, hcommit, txnRecords, List.singleton_append]
      generalize (epoch, WalRecord.txnBegin) :: records.map (fun r => (epoch, r)) = body
      rw [List.foldlM_append]
      cases body.foldlM sink acc with
      | error e => rfl
      | ok acc =>
          rw [ok_bind, ok_bind, List.foldlM_cons]
          cases sink acc (epoch, WalRecord.txnCommit) <;> rfl

/-- The commit of a transaction at or below the floor delivers nothing. -/
theorem Delivers.append_folded {floor epoch : Epoch} {bs : List Bytes}
    {ds : List (Epoch × WalRecord)} (h : Delivers floor bs ds) (hbelow : epoch ≤ floor)
    (hepoch : epoch < 2 ^ 64) : Delivers floor (bs ++ [body epoch .txnCommit]) ds := by
  obtain ⟨pending, hbs⟩ := h
  refine ⟨[], fun sink init => ?_⟩
  have hcommit : ∀ st : ReplayState _,
      replayBody floor sink st (body epoch .txnCommit) = .ok ([], st.2) := by
    intro st
    rw [replayBody_body _ _ _ hepoch readsBack_commit, replayRecord,
      if_neg (Nat.not_lt.2 hbelow)]
  rw [List.foldlM_append, hbs]
  cases ds.foldlM sink init with
  | error e => rfl
  | ok acc =>
      have hmap : ((fun acc => (pending, acc)) <$> (Except.ok acc : Except ZuError _)) =
          .ok (pending, acc) := rfl
      rw [hmap, ok_bind, List.foldlM_cons, hcommit, ok_bind]
      rfl

theorem Delivers.append_body {floor : Epoch} {bs : List Bytes}
    {ds : List (Epoch × WalRecord)} (h : Delivers floor bs ds) {b : Bytes}
    {r : WalRecord} (hr : bodyRecord b = .ok r) : ∃ ds', Delivers floor (bs ++ [b]) ds' := by
  obtain ⟨pending, hbs⟩ := h
  have hbody : ∀ {β : Type} (sink : β → Epoch × WalRecord → Except ZuError β) (init : β),
      (bs ++ [b]).foldlM (replayBody floor sink) ([], init) =
        ds.foldlM sink init >>= fun acc =>
          replayRecord floor sink (pending, acc) (bodyEpoch b) r := by
    intro β sink init
    rw [List.foldlM_append, hbs]
    cases ds.foldlM sink init with
    | error e => rfl
    | ok acc =>
        have hlast : List.foldlM (replayBody floor sink) (pending, acc) [b] =
            replayRecord floor sink (pending, acc) (bodyEpoch b) r := by
          rw [List.foldlM_cons, replayBody, hr, ok_bind]
          cases replayRecord floor sink (pending, acc) (bodyEpoch b) r <;> rfl
        exact hlast
  by_cases hnote : r = .checkpointNote
  · subst hnote
    exact ⟨ds, pending, hbody⟩
  by_cases hbegin : r = .txnBegin
  · subst hbegin
    exact ⟨ds, [(bodyEpoch b, .txnBegin)], hbody⟩
  by_cases hcommit : r = .txnCommit
  · subst hcommit
    by_cases habove : floor < bodyEpoch b
    · refine ⟨ds ++ (pending ++ [(bodyEpoch b, .txnCommit)]), [], fun sink init => ?_⟩
      rw [hbody, List.foldlM_append]
      cases ds.foldlM sink init with
      | error e => rfl
      | ok acc =>
          rw [ok_bind, ok_bind, replayRecord, if_pos habove, List.foldlM_append]
          cases pending.foldlM sink acc with
          | error e => rfl
          | ok acc =>
              rw [ok_bind, ok_bind, List.foldlM_cons]
              cases sink acc (bodyEpoch b, WalRecord.txnCommit) <;> rfl
    · refine ⟨ds, [], fun sink init => ?_⟩
      rw [hbody]
      cases ds.foldlM sink init with
      | error e => rfl
      | ok acc =>
          rw [ok_bind, replayRecord, if_neg habove]
          rfl
  · refine ⟨ds, pending ++ [(bodyEpoch b, r)], fun sink init => ?_⟩
    rw [hbody]
    cases ds.foldlM sink init with
    | error e => rfl
    | ok acc =>
        rw [ok_bind, replayRecord_data _ _ _ _ (isData_of_ne hbegin hcommit hnote)]
        rfl

theorem exists_delivers {floor : Epoch} {bs : List Bytes}
    (h : ∀ b ∈ bs, ∃ r, bodyRecord b = .ok r) : ∃ ds, Delivers floor bs ds := by
  induction bs using List.reverseRecOn with
  | nil => exact ⟨[], [], fun _ _ => rfl⟩
  | append_singleton bs b ih =>
      obtain ⟨ds, hds⟩ := ih fun c hc => h c (List.mem_append_left _ hc)
      obtain ⟨r, hr⟩ := h b (by simp)
      exact hds.append_body hr

end Zu.Wal
