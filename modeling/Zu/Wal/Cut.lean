import Zu.Wal.Restart

/-!
# A damaged log

Opening a log scans whatever bytes are there. `Detects` is what the checksum is relied
on for: where a frame was written, and nothing in front of it has changed, it verifies
only the body that was framed there. The scan then finds the first few of the bodies
that were framed. A body of `2 ^ 32` bytes or more is framed under a length it does not
have, and the scan stops at it.
-/

namespace Zu.Wal

open Lib

variable {crc : Bytes → UInt32}

/-- Where the frames before it are whole, only the body that was framed verifies. -/
def Detects (crc : Bytes → UInt32) (bs : List Bytes) (bytes : Bytes) : Prop :=
  ∀ i < bs.length + 1,
    bytes.take (framed crc (bs.take i)).length = framed crc (bs.take i) →
      ∀ b ∈ (nextFrame crc bytes (framed crc (bs.take i)).length).map Prod.fst,
        bs[i]? = some b

instance (crc : Bytes → UInt32) (bs : List Bytes) (bytes : Bytes) :
    Decidable (Detects crc bs bytes) := by
  unfold Detects
  infer_instance

/-- A scan of damaged bytes finds the first few of the bodies that were framed, and
every one whose frame, and all before it, is whole. -/
theorem scan_detects {bs : List Bytes} {bytes : Bytes} (h : Detects crc bs bytes) :
    ∃ i tail, bytes = framed crc (bs.take i) ++ tail ∧ (∀ b ∈ bs.take i, BodyFits b) ∧
      nextFrame crc (framed crc (bs.take i) ++ tail) (framed crc (bs.take i)).length =
        none := by
  obtain ⟨hfits, hbytes, hlen, hstop⟩ := scan_spec crc bytes
  set cs := (scan crc bytes).1
  set tail := bytes.drop (scan crc bytes).2
  have hagree : ∀ j ≤ cs.length, cs.take j = bs.take j ∧ j ≤ bs.length := by
    intro j hj
    induction j with
    | zero => simp
    | succ j ih =>
        obtain ⟨hsame, hle⟩ := ih (Nat.le_of_succ_le hj)
        have hsplit : cs = cs.take j ++ cs[j] :: cs.drop (j + 1) := by
          rw [← List.drop_eq_getElem_cons, List.take_append_drop]
        have hframes : bytes = framed crc (cs.take j) ++
            (frame crc cs[j] ++ (framed crc (cs.drop (j + 1)) ++ tail)) := by
          conv_lhs => rw [hbytes, hsplit]
          rw [framed_append, framed_cons, List.append_assoc, List.append_assoc]
        have hnext := nextFrame_frame crc (framed crc (cs.take j))
          (hfits cs[j] (List.getElem_mem hj)) (framed crc (cs.drop (j + 1)) ++ tail)
        rw [← hframes, hsame] at hnext
        have hwhole : bytes.take (framed crc (bs.take j)).length = framed crc (bs.take j) := by
          rw [← hsame]
          conv_lhs => rw [hframes]
          exact List.take_left
        have hbody := h j (Nat.lt_succ_of_le hle) hwhole cs[j] (by rw [hnext]; rfl)
        obtain ⟨hlt, hget⟩ := List.getElem?_eq_some_iff.1 hbody
        refine ⟨?_, hlt⟩
        rw [← List.take_append_getElem hj, ← List.take_append_getElem hlt, hsame, hget]
  obtain ⟨hcs, -⟩ := hagree cs.length le_rfl
  rw [List.take_length] at hcs
  refine ⟨cs.length, tail, ?_, ?_, ?_⟩
  · rw [← hcs]
    exact hbytes
  · rw [← hcs]
    exact hfits
  · rw [← hcs, ← hbytes, ← hlen]
    exact hstop

theorem le_of_stops {bs : List Bytes} {i n : ℕ} {tail rest : Bytes}
    (hstop : nextFrame crc (framed crc (bs.take i) ++ tail) (framed crc (bs.take i)).length =
      none)
    (hsame : framed crc (bs.take i) ++ tail = framed crc (bs.take n) ++ rest)
    (hfits : ∀ b ∈ bs.take n, BodyFits b) (hn : n ≤ bs.length) : n ≤ i := by
  by_contra hlt
  have hi : i < n := Nat.not_le.1 hlt
  have hib : i < bs.length := hi.trans_le hn
  have hsplit : bs.take n = bs.take i ++ bs[i] :: (bs.take n).drop (i + 1) := by
    have hlen : i < (bs.take n).length := by
      rw [List.length_take]
      omega
    have hget : (bs.take n)[i] = bs[i] := List.getElem_take
    rw [← hget, ← List.drop_eq_getElem_cons hlen]
    have htake : bs.take i = (bs.take n).take i := by
      rw [List.take_take, min_eq_left hi.le]
    rw [htake, List.take_append_drop]
  have hmem : bs[i] ∈ bs.take n := by
    rw [hsplit]
    simp
  rw [hsame, hsplit, framed_append, framed_cons, List.append_assoc, List.append_assoc,
    nextFrame_frame crc _ (hfits _ hmem)] at hstop
  cases hstop

/-- What is read of a body under the length it was cut to does not verify. -/
def CutFails (crc : Bytes → UInt32) (b : Bytes) : Prop :=
  2 ^ 32 ≤ b.length →
    b.length % 2 ^ 32 < minBody ∨ crc (b.take (b.length % 2 ^ 32)) ≠ crc b

/-- The scan stops at a body that is too long for its frame. -/
theorem nextFrame_overlong (pre : Bytes) {b : Bytes} (hlong : 2 ^ 32 ≤ b.length)
    (hcut : CutFails crc b) (rest : Bytes) :
    nextFrame crc (pre ++ (frame crc b ++ rest)) pre.length = none := by
  have hrest : (pre ++ (frame crc b ++ rest)).drop pre.length = frame crc b ++ rest :=
    List.drop_left
  have h4 : (putU32 b.length).length = 4 := length_leBytes 4 _
  have h4' : (putU32 (crc b).toNat).length = 4 := length_leBytes 4 _
  have hshape : frame crc b ++ rest =
      putU32 b.length ++ (putU32 (crc b).toNat ++ (b ++ rest)) := by
    simp only [frame, List.append_assoc]
  have hlen : fromLe ((frame crc b ++ rest).take 4) = b.length % 2 ^ 32 := by
    rw [hshape, List.take_append_of_le_length h4.ge, List.take_of_length_le h4.le]
    exact fromLe_leBytes 4 b.length
  have hdrop : (frame crc b ++ rest).drop 4 = putU32 (crc b).toNat ++ (b ++ rest) := by
    rw [hshape, List.drop_append_of_le_length h4.ge, List.drop_eq_nil_of_le h4.le,
      List.nil_append]
  have hstored : fromLe (((frame crc b ++ rest).drop 4).take 4) = (crc b).toNat := by
    rw [hdrop, List.take_append_of_le_length h4'.ge, List.take_of_length_le h4'.le]
    exact fromLe_leBytes_of_lt (crc b).toNat_lt
  have hbody : ((frame crc b ++ rest).drop prefixLen).take (b.length % 2 ^ 32) =
      b.take (b.length % 2 ^ 32) := by
    have hle : b.length % 2 ^ 32 ≤ b.length := Nat.mod_le _ _
    rw [prefixLen, show 8 = 4 + 4 from rfl, ← List.drop_drop, hdrop,
      List.drop_append_of_le_length h4'.ge, List.drop_eq_nil_of_le h4'.le, List.nil_append,
      List.take_append_of_le_length hle]
  unfold nextFrame
  simp only [hrest, hlen, hstored, hbody]
  split_ifs with hshort hsmall hsame
  · rfl
  · rfl
  · rfl
  · rcases hcut hlong with hmin | hne
    · exact absurd (Or.inl hmin) hsmall
    · exact absurd (UInt32.toNat_inj.1 (not_not.1 hsame)) hne

/-- Replay reads the bodies up to where the scan of the file stops. -/
theorem replay_scan {bs good suf : List Bytes} {k m : ℕ} {w : Log} {tail : Bytes}
    (hw : HoldsAs crc bs suf k m w) (hsplit : framed crc bs = framed crc good ++ tail)
    (hfits : ∀ b ∈ good, BodyFits b)
    (hstop : nextFrame crc (framed crc good ++ tail) (framed crc good).length = none)
    {β : Type} (floor : Epoch) (sink : β → Epoch × WalRecord → Except ZuError β) (init : β) :
    replay crc w floor sink init =
      Prod.snd <$> good.foldlM (replayBody (noteFloor floor good) sink) ([], init) := by
  have hlen : ¬ w.file.bytes.length < w.len := by
    have hroom := hw.room
    have hgiven := hw.given
    omega
  have htake : w.file.bytes.take w.len = framed crc good ++ tail := by
    rw [hw.bytes_eq, hw.len_eq, List.take_left, hsplit]
  rw [replay, if_neg hlen, htake, scan_framed hfits hstop]
  cases h : good.foldlM (replayBody (noteFloor floor good) sink) ([], init) with
  | error e => simp only [h]; rfl
  | ok st => simp only [h]; rfl

/-- A log that is opened with no call failing has none failing after it. -/
theorem openOn_reliable {bytes : Bytes} {w : Log}
    (h : openOn crc { bytes, plan := [] } = .ok w) : Reliable w := by
  rw [openOn] at h
  simp only [] at h
  split_ifs at h with hdirty
  · have hnever : NeverFails (do
        erase (scan crc bytes).2 bytes.length
        onFile (FaultyFile.sync .io) : WalM Unit) :=
      (eraseFrom_reliable _ _ _).bind fun _ => onFile_reliable (FaultyFile.sync_reliable _)
    split at h
    · rename_i u w' hexec
      cases h
      exact (hnever _ (by exact rfl)).1 _ _ hexec
    · cases h
  · cases h
    rfl

end Zu.Wal
