import Zu.Encoding.Untouched

/-!
# Refused segments

What `decode_any` leaves in the vector of its caller when it refuses a segment: what
was there, unless the encoding appends chunk by chunk and its first chunk is whole.
-/

namespace Zu.Encoding

open Lib ForBitpack

/-- What a decoder leaves depends on what was there only in that it is in front. -/
def Prepends (decoder : List Word → Appended) : Prop :=
  ∀ out, decoder out = ((decoder []).1, out ++ (decoder []).2)

theorem truncated_untouched {out : List Word} {decoder : List Word → Appended}
    (h : Prepends decoder) {e : ZuError} (herr : (truncated out (decoder out)).1 = .error e) :
    (truncated out (decoder out)).2 = out := by
  rw [h out] at herr ⊢
  cases hr : (decoder []).1 with
  | error e =>
      simp only [truncated]
      exact List.take_left
  | ok u =>
      rw [hr] at herr
      cases herr

namespace Rle

theorem pushRunsInto_append (out : List Word) (maxValues : ℕ) (s : ℕ × List Word)
    (runs : List (Word × Word)) : pushRunsInto maxValues (s.1, out ++ s.2) runs =
      ((pushRunsInto maxValues s runs).1, ((pushRunsInto maxValues s runs).2.1,
        out ++ (pushRunsInto maxValues s runs).2.2)) := by
  induction runs generalizing s with
  | nil => rfl
  | cons r runs ih =>
      rw [pushRunsInto, pushRunsInto]
      simp only
      split
      · rfl
      · split
        · rfl
        · rw [List.append_assoc]
          exact ih (s.1 + r.2.toNat, s.2 ++ List.replicate r.2.toNat r.1)

/-- What `decode` does once its two containers are open, without the truncation. -/
def expandInto (maxValues : ℕ) (c : ChunkCursor × ChunkCursor) (out : List Word) : Appended :=
  let r := pull (stepBoth (.corrupt "rle" "length stream ended early"))
    (pushRunsInto maxValues) c.1.remaining c (0, out)
  (r.1, r.2.2)

theorem prepends_expandInto (maxValues : ℕ) (c : ChunkCursor × ChunkCursor) :
    Prepends (expandInto maxValues c) := by
  intro out
  have h := @pull_map _ _ _ _ _ (stepBoth (.corrupt "rle" "length stream ended early"))
    (pushRunsInto maxValues) (pushRunsInto maxValues) (fun s : ℕ × List Word => (s.1, out ++ s.2))
    (pushRunsInto_append out maxValues) c.1.remaining c (0, [])
  rw [List.append_nil] at h
  rw [expandInto, expandInto, h]

theorem decodeInto_untouched {bytes : Bytes} {maxValues : ℕ} {out : List Word} {e : ZuError}
    (herr : (decodeInto bytes maxValues out).1 = .error e) :
    (decodeInto bytes maxValues out).2 = out := by
  rw [decodeInto] at herr ⊢
  cases hc : cursors bytes maxValues with
  | error err => rfl
  | ok c =>
      rw [hc] at herr
      exact truncated_untouched (prepends_expandInto maxValues c) herr

end Rle

namespace Frequency

theorem putBackInto_append (out : List Word) (count : ℕ) (values : List Word)
    (ps : List (Word × Word)) : putBackInto out.length count (out ++ values) ps =
      ((putBackInto 0 count values ps).1, out ++ (putBackInto 0 count values ps).2) := by
  induction ps generalizing values with
  | nil => rfl
  | cons p ps ih =>
      rw [putBackInto, putBackInto]
      split
      · rfl
      · rw [List.set_append_right _ _ (Nat.le_add_right _ _), Nat.add_sub_cancel_left, Nat.zero_add]
        exact ih (values.set p.1.toNat p.2)

/-- What `decode` does once its two containers are open, without the truncation. -/
def patchInto (h : ℕ × Word × (ChunkCursor × ChunkCursor)) (out : List Word) : Appended :=
  pull (stepBoth (.corrupt "frequency" "value stream ended early"))
    (putBackInto out.length h.1) h.2.2.1.remaining h.2.2 (out ++ List.replicate h.1 h.2.1)

theorem prepends_patchInto (h : ℕ × Word × (ChunkCursor × ChunkCursor)) :
    Prepends (patchInto h) :=
  fun out => pull_map (putBackInto_append out h.1) h.2.2.1.remaining h.2.2
    (List.replicate h.1 h.2.1)

theorem decodeInto_untouched {bytes : Bytes} {maxValues : ℕ} {out : List Word} {e : ZuError}
    (herr : (decodeInto bytes maxValues out).1 = .error e) :
    (decodeInto bytes maxValues out).2 = out := by
  rw [decodeInto] at herr ⊢
  cases hheader : header bytes maxValues with
  | error err => rfl
  | ok h =>
      rw [hheader] at herr
      exact truncated_untouched (prepends_patchInto h) herr

end Frequency

namespace Dict

/-- Whether the parts of a segment are there, its dictionary reads, and the container
of its codes opens. -/
def opens (bytes : Bytes) (maxValues : ℕ) : Bool :=
  let dictLen := fromLe (bytes.take 4)
  4 + dictLen ≤ bytes.length &&
    (ForBitpack.decode ((bytes.drop 4).take dictLen) (min maxEntries maxValues)).isOk &&
    ForBitpack.opens (bytes.drop (4 + dictLen)) maxValues

theorem replaceCodes_ne_nil {dict codes : List Word} {e : ZuError}
    (h : (replaceCodes dict codes).1 = .error e) : (replaceCodes dict codes).2 ≠ [] := by
  cases codes with
  | nil => cases h
  | cons code codes =>
      rw [replaceCodes]
      cases dict[code.toNat]? with
      | none => exact List.cons_ne_nil _ _
      | some v => exact List.cons_ne_nil _ _

/-- What `decode` does once it has the dictionary. -/
def lookUpInto (codes : Bytes) (maxValues : ℕ) (dict out : List Word) : Appended :=
  let r := ForBitpack.decodeInto codes maxValues out
  match r.1 with
  | .error e => (.error e, r.2)
  | .ok _ =>
      let replaced := replaceCodes dict (r.2.drop out.length)
      (replaced.1, r.2.take out.length ++ replaced.2)

theorem lookUpInto_untouched_iff {codes : Bytes} {maxValues : ℕ} {dict out : List Word}
    {e : ZuError} (herr : (lookUpInto codes maxValues dict out).1 = .error e) :
    (lookUpInto codes maxValues dict out).2 = out ↔ ForBitpack.opens codes maxValues = false := by
  rw [← @ForBitpack.decodeInto_untouched_iff codes maxValues out]
  rw [lookUpInto] at herr ⊢
  rw [ForBitpack.decodeInto_eq codes maxValues out] at herr ⊢
  cases hr : ForBitpack.decodeInto codes maxValues [] with
  | mk r left =>
      rw [hr] at herr
      cases r with
      | error err => exact Iff.rfl
      | ok u =>
          simp only at herr ⊢
          rw [List.drop_left] at herr ⊢
          rw [List.take_left]
          have hne := replaceCodes_ne_nil herr
          have hleft : left ≠ [] := by
            intro hnil
            rw [hnil] at hne
            exact hne rfl
          apply iff_of_false
          · exact fun h => hne (List.append_right_eq_self.1 h)
          · exact fun h => hleft (List.append_right_eq_self.1 h)

theorem decodeInto_untouched_iff {bytes : Bytes} {maxValues : ℕ} {out : List Word} {e : ZuError}
    (herr : (decodeInto bytes maxValues out).1 = .error e) :
    (decodeInto bytes maxValues out).2 = out ↔ opens bytes maxValues = false := by
  rw [decodeInto, split] at herr ⊢
  rw [opens]
  simp only
  by_cases hdict : bytes.length < 4 + fromLe (bytes.take 4)
  · rw [decide_eq_false (Nat.not_le.2 hdict)]
    by_cases hheader : bytes.length < 4
    · rw [if_pos hheader]
      exact iff_of_true rfl rfl
    · rw [if_neg hheader, if_pos hdict]
      exact iff_of_true rfl rfl
  · have hheader : ¬ bytes.length < 4 := by omega
    rw [if_neg hheader, if_neg hdict] at herr
    rw [if_neg hheader, if_neg hdict, decide_eq_true (Nat.not_lt.1 hdict), Bool.true_and]
    simp only [attempt] at herr ⊢
    cases hd : ForBitpack.decode ((bytes.drop 4).take (fromLe (bytes.take 4)))
        (min maxEntries maxValues) with
    | error err => exact iff_of_true rfl rfl
    | ok dict =>
        rw [hd] at herr
        exact lookUpInto_untouched_iff herr

end Dict

/-- Whether a segment is of an encoding that appends chunk by chunk and its first
chunk is whole. -/
def firstChunkReads (bytes : Bytes) (maxValues : ℕ) : Bool :=
  match bytes with
  | [] => false
  | id :: payload =>
      match EncodingId.ofByte id.toNat with
      | .ok .dict => Dict.opens payload maxValues
      | .ok .forBitPack => ForBitpack.opens payload maxValues
      | .ok .deltaBitPack => ForBitpack.opens (payload.drop 8) maxValues
      | .ok .deltaPatch => Patch.opens (payload.drop 8) maxValues
      | _ => false

theorem appendAtEnd_untouched {x : Except ZuError (List Word)} {out : List Word} {e : ZuError}
    (herr : (appendAtEnd x out).1 = .error e) : (appendAtEnd x out).2 = out := by
  cases x with
  | error err => rfl
  | ok values => cases herr

/-- A segment that is refused has left the vector of the caller as it was, unless it is
of an encoding that appends chunk by chunk and its first chunk is whole; then it has
not. -/
theorem refused_untouched_iff (bytes : Bytes) (maxValues : ℕ) (out : List Word) (e : ZuError)
    (herr : (decodeAnyInto bytes maxValues out).1 = .error e) :
    (decodeAnyInto bytes maxValues out).2 = out ↔ firstChunkReads bytes maxValues = false := by
  cases bytes with
  | nil => exact iff_of_true rfl rfl
  | cons id payload =>
      rw [decodeAnyInto] at herr ⊢
      rw [firstChunkReads]
      cases hid : EncodingId.ofByte id.toNat with
      | error err => exact iff_of_true rfl rfl
      | ok id =>
          rw [hid] at herr
          cases id with
          | plain => exact iff_of_true (appendAtEnd_untouched herr) rfl
          | constant => exact iff_of_true (appendAtEnd_untouched herr) rfl
          | boolBitpack => exact iff_of_true (appendAtEnd_untouched herr) rfl
          | rle => exact iff_of_true (Rle.decodeInto_untouched herr) rfl
          | frequency => exact iff_of_true (Frequency.decodeInto_untouched herr) rfl
          | dict => exact Dict.decodeInto_untouched_iff herr
          | forBitPack => exact ForBitpack.decodeInto_untouched_iff
          | deltaBitPack => exact Delta.decodeInto_untouched_iff
          | deltaPatch => exact DeltaPatch.decodeInto_untouched_iff
          | alp => exact iff_of_true rfl rfl
          | alpRd => exact iff_of_true rfl rfl
          | fsst => exact iff_of_true rfl rfl
          | zstd => exact iff_of_true rfl rfl

/-- A dictionary of no entries, and one code. -/
def badCode : Bytes := [3, 4, 0, 0, 0, 0, 0, 0, 0, 1, 0, 0, 0, 0, 0, 0, 0, 0, 0, 0, 0, 0]

theorem decodeAnyInto_badCode : decodeAnyInto badCode 1 [] =
    (.error (.corrupt "dict" "code out of range"), [0]) := by decide +kernel

theorem badCode_leaves_code : ¬ ∀ (bytes : Bytes) (maxValues : ℕ) (out : List Word) (e : ZuError),
    (decodeAnyInto bytes maxValues out).1 = .error e →
      (decodeAnyInto bytes maxValues out).2 = out := by
  intro h
  have hleft := h badCode 1 [] (.corrupt "dict" "code out of range")
    (congrArg Prod.fst decodeAnyInto_badCode)
  rw [decodeAnyInto_badCode] at hleft
  cases hleft

theorem refused_badCode :
    (decodeAnyInto badCode 1 []).2 = [] ↔ firstChunkReads badCode 1 = false :=
  refused_untouched_iff badCode 1 [] (.corrupt "dict" "code out of range")
    (congrArg Prod.fst decodeAnyInto_badCode)

end Zu.Encoding
