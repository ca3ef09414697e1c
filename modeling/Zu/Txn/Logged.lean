import Zu.Txn.Lowered
import Zu.Wal.Metered

/-!
# Records and their payloads

What a transaction logs is read back as it was logged when every list and string of it
has fewer than `2 ^ 32` elements, and only then; what is read at all is the payload of
the record it is read as; and reading is safe on every payload.
-/

namespace Zu.Txn

open Lib Wal

/-- The records of a transaction whose counts fit run lists of one length beside each
other. -/
theorem wellShaped_of_fits {ops : List Op} (hbuilt : ∀ op ∈ ops, op.Built) :
    ∀ r ∈ buildRecords ops, r.Fits → r.WellShaped := by
  apply wellShaped_of_short hbuilt
  all_goals
    intro key run hfits
    simpa using (hfits.1 : (List.map _ run).length < 2 ^ 32)

theorem built_of_mem_staged {calls : List Call} : ∀ op ∈ staged calls, op.Built := by
  intro op hop
  obtain ⟨call, -, hcall⟩ := List.mem_filterMap.1 hop
  cases h : call.op with
  | error e =>
      rw [h] at hcall
      cases hcall
  | ok op' =>
      rw [h] at hcall
      cases hcall
      exact built_of_op h

def atStart (payload : Bytes) : Cursor where
  buf := payload
  pos := 0
  asked := []

theorem safe_atStart (payload : Bytes) : (atStart payload).Safe where
  pos_le := Nat.zero_le _
  asked_le := fun _ hn => absurd hn List.not_mem_nil

/-- A record is read back from its payload exactly when it fits and is well shaped, and
what a transaction logs exactly when it fits. A payload that is accepted is the payload
of the record it is read as. The run in place returns or is refused as the reader says,
so it does not panic, and asks for room for no more elements than the payload has
bytes. -/
theorem records_exact (r : WalRecord) (calls : List Call) (kind : ℕ) (payload : Bytes) :
    (WalRecord.decode r.kind r.encodePayload = .ok (r, []) ↔ r.Fits ∧ r.WellShaped) ∧
    (∀ s ∈ buildRecords (staged calls),
      WalRecord.decode s.kind s.encodePayload = .ok (s, []) ↔ s.Fits) ∧
    (∀ (rest : Bytes) (s : WalRecord), WalRecord.decode kind payload = .ok (s, rest) →
      rest = [] ∧ s.kind = kind ∧ s.encodePayload = payload) ∧
    Outcome.Matches (WalRecord.decode kind payload)
      ((Metered.record kind).exec (atStart payload)) ∧
    ((Metered.record kind).exec (atStart payload)).1 ≠ .error .panicked ∧
    ∀ n ∈ ((Metered.record kind).exec (atStart payload)).2.asked, n ≤ payload.length := by
  refine ⟨WalRecord.decode_encodePayload_iff r, ?_, ?_, ?_⟩
  · intro s hs
    rw [WalRecord.decode_encodePayload_iff]
    exact ⟨And.left, fun h => ⟨h, wellShaped_of_fits built_of_mem_staged s hs h⟩⟩
  · intro rest s h
    obtain ⟨hrest, hkind, -, hpayload⟩ := WalRecord.decode_ok h
    exact ⟨hrest, hkind, hpayload⟩
  · obtain ⟨hsafe, hbuf, hmatch⟩ :=
      Metered.follows_record kind (atStart payload) (safe_atStart payload)
    refine ⟨hmatch, ?_, fun n hn => ?_⟩
    · intro hpanic
      cases hread : WalRecord.decode kind (atStart payload).left with
      | error e =>
          rw [hread] at hmatch
          exact nomatch hpanic.symm.trans hmatch
      | ok out =>
          rw [hread] at hmatch
          exact nomatch hpanic.symm.trans hmatch.1
    · have hle := hsafe.asked_le n hn
      rwa [hbuf] at hle

def writeStr (s : Bytes) : List Call := [.update 1 0 0 (.str s)]

theorem buildRecords_writeStr (s : Bytes) :
    buildRecords (staged (writeStr s)) = [.update 1 0 0 [0] (.str [s])] := rfl

theorem longString_not_read_back : ¬ ∀ (calls : List Call), ∀ r ∈ buildRecords (staged calls),
    WalRecord.decode r.kind r.encodePayload = .ok (r, []) := by
  intro h
  have hread := h (writeStr (List.replicate (2 ^ 32) 0)) _
    (buildRecords_writeStr _ ▸ List.mem_singleton_self _)
  have hfits := ((WalRecord.decode_encodePayload_iff _).1 hread).1.2.2 _ (List.mem_singleton_self _)
  rw [List.length_replicate] at hfits
  exact lt_irrefl _ hfits

end Zu.Txn
