import Zu.Encoding.ForBitpack

/-!
# Deltas

The first value, and the zigzag of each difference in a frame of reference. The
running previous value starts at the first one, so the first delta is zero.
-/

namespace Zu.Encoding

open Lib

/-- `zigzag`, of a difference read as signed. -/
def zigzag (v : Word) : Word := (v <<< 1) ^^^ v.sshiftRight 63

def unzigzag (v : Word) : Word := (v >>> 1) ^^^ -(v &&& 1)

/-- The zigzag deltas of values after `prev`. -/
def deltas : Word → List Word → List Word
  | _, [] => []
  | prev, v :: values => zigzag (v - prev) :: deltas v values

/-- The values that deltas after `prev` lead to. -/
def undeltas : Word → List Word → List Word
  | _, [] => []
  | prev, d :: ds => (prev + unzigzag d) :: undeltas (prev + unzigzag d) ds

namespace Delta

def encode (values : List Word) : Bytes :=
  let base := values.headD 0
  leBytes 8 base.toNat ++ ForBitpack.encode (deltas base values)

/-- `delta::decode`: the values it appends to `out`. -/
def decode (bytes : Bytes) (maxValues : ℕ) : Except ZuError (List Word) := do
  if bytes.length < 8 then throw (.corrupt "delta" "truncated base")
  let base := BitVec.ofNat 64 (fromLe (bytes.take 8))
  let (_, out) ← ForBitpack.decodeChunks (bytes.drop 8) maxValues
    (fun (prev, out) min scratch take =>
      let read := undeltas prev ((scratch.take take).map fun v => min + v)
      (read.getLastD prev, out ++ read))
    (base, [])
  return out

end Delta

/-! ### Differences -/

theorem getLsbD_zigzag (v : Word) {j : ℕ} (hj : j < 64) :
    (zigzag v).getLsbD j = ((decide (0 < j) && v.getLsbD (j - 1)) ^^ v.msb) := by
  rw [zigzag, BitVec.getLsbD_xor, BitVec.getLsbD_shiftLeft, BitVec.getLsbD_sshiftRight]
  by_cases hpos : 0 < j
  · simp [hj, hpos, BitVec.msb_eq_getLsbD_last, show ¬ 63 + j < 64 by omega,
      show ¬ 64 ≤ j by omega, show ¬ j = 0 by omega]
  · have hzero : j = 0 := Nat.eq_zero_of_not_pos hpos
    subst hzero
    simp [BitVec.msb_eq_getLsbD_last]

theorem unzigzag_zigzag (v : Word) : unzigzag (zigzag v) = v := by
  have hlow : (zigzag v &&& 1) = if v.msb then 1 else 0 := by
    apply BitVec.eq_of_getLsbD_eq
    intro j hj
    rw [BitVec.getLsbD_and, getLsbD_zigzag v hj]
    by_cases hpos : j = 0
    · subst hpos
      cases v.msb <;> rfl
    · have hone : (1 : Word).getLsbD j = false := by
        change (1#64).getLsbD j = false
        simp [BitVec.getLsbD_one, hpos]
      rw [hone, Bool.and_false]
      split
      · rw [hone]
      · exact BitVec.getLsbD_zero.symm
  have hsign : ∀ j, j < 64 → (-(zigzag v &&& 1)).getLsbD j = v.msb := by
    intro j hj
    rw [hlow]
    cases v.msb with
    | false => simp
    | true =>
        have hall : -(1 : Word) = BitVec.allOnes 64 := by decide
        simp only [if_true]
        rw [hall, BitVec.getLsbD_allOnes]
        exact decide_eq_true hj
  apply BitVec.eq_of_getLsbD_eq
  intro j hj
  rw [unzigzag, BitVec.getLsbD_xor, hsign j hj, BitVec.getLsbD_ushiftRight]
  by_cases hlast : 1 + j < 64
  · have hidx : 1 + j - 1 = j := by omega
    rw [getLsbD_zigzag v hlast, hidx, decide_eq_true (by omega), Bool.true_and, Bool.xor_assoc,
      Bool.xor_self, Bool.xor_false]
  · have hlastj : j = 63 := by omega
    subst hlastj
    rw [BitVec.getLsbD_of_ge _ _ (by omega), Bool.false_xor, BitVec.msb_eq_getLsbD_last]

@[simp] theorem length_deltas (prev : Word) (values : List Word) :
    (deltas prev values).length = values.length := by
  induction values generalizing prev with
  | nil => rfl
  | cons v values ih => rw [deltas, List.length_cons, ih, List.length_cons]

theorem undeltas_deltas (prev : Word) (values : List Word) :
    undeltas prev (deltas prev values) = values := by
  induction values generalizing prev with
  | nil => rfl
  | cons v values ih =>
      have hnext : prev + (v - prev) = v := by
        rw [BitVec.add_comm, BitVec.sub_add_cancel]
      rw [deltas, undeltas, unzigzag_zigzag, hnext, ih]

theorem undeltas_append (prev : Word) (ds es : List Word) :
    undeltas prev (ds ++ es) =
      undeltas prev ds ++ undeltas ((undeltas prev ds).getLastD prev) es := by
  induction ds generalizing prev with
  | nil => rfl
  | cons d ds ih =>
      rw [List.cons_append, undeltas, ih, undeltas, List.cons_append, List.getLastD_cons]

theorem getLastD_append (a b : List Word) (d : Word) :
    (a ++ b).getLastD d = b.getLastD (a.getLastD d) := by
  induction a generalizing d with
  | nil => rfl
  | cons x a ih => rw [List.cons_append, List.getLastD_cons, ih, List.getLastD_cons]

/-- A decoder that keeps the last value gets from part to part what it would get
from the whole. -/
theorem foldl_undeltas (parts : List (List Word)) (prev : Word) (out : List Word) :
    parts.foldl (fun (s : Word × List Word) ds =>
        ((undeltas s.1 ds).getLastD s.1, s.2 ++ undeltas s.1 ds)) (prev, out) =
      ((undeltas prev parts.flatten).getLastD prev, out ++ undeltas prev parts.flatten) := by
  induction parts generalizing prev out with
  | nil =>
      rw [List.foldl_nil, List.flatten_nil, undeltas, List.append_nil]
      rfl
  | cons ds parts ih =>
      rw [List.foldl_cons, ih, List.flatten_cons, undeltas_append, getLastD_append,
        List.append_assoc]

namespace Delta

section

variable {values : List Word} (h : values.length < 2 ^ 32) (rest : Bytes) {maxValues : ℕ}

theorem encode_base (values : List Word) (rest : Bytes) :
    ((encode values ++ rest).take 8 = leBytes 8 (values.headD 0).toNat) ∧
      (encode values ++ rest).drop 8 =
        ForBitpack.encode (deltas (values.headD 0) values) ++ rest := by
  rw [encode, List.append_assoc, List.take_left' (length_leBytes 8 _),
    List.drop_left' (length_leBytes 8 _)]
  exact ⟨rfl, rfl⟩

theorem not_short (values : List Word) (rest : Bytes) : ¬ (encode values ++ rest).length < 8 := by
  rw [encode, List.length_append, List.length_append, length_leBytes]
  omega

include h

theorem decode_encode (hmax : values.length ≤ maxValues) :
    decode (encode values ++ rest) maxValues = .ok values := by
  obtain ⟨hbase, hbody⟩ := encode_base values rest
  have hfold := foldl_undeltas (chunks chunkLen (deltas (values.headD 0) values))
    (values.headD 0) []
  rw [flatten_chunks (by decide), undeltas_deltas, List.nil_append] at hfold
  rw [decode, if_neg (not_short values rest)]
  simp only [hbase, hbody, word_fromLe]
  rw [ForBitpack.decodeChunks_encode _ (by rwa [length_deltas]) rest (by rwa [length_deltas])]
  change Except.ok _ = Except.ok _
  have hsink : ∀ p ∈ chunks chunkLen (deltas (values.headD 0) values), ∀ s : Word × List Word,
      ForBitpack.sinkChunk (fun (s : Word × List Word) min scratch take =>
        ((undeltas s.1 ((scratch.take take).map fun v => min + v)).getLastD s.1,
          s.2 ++ undeltas s.1 ((scratch.take take).map fun v => min + v))) s p =
        ((undeltas s.1 p).getLastD s.1, s.2 ++ undeltas s.1 p) := by
    intro p hp s
    rw [ForBitpack.sinkChunk, ForBitpack.map_chunkRead (length_le_of_mem_chunks (by decide) hp)]
  have hcongr := List.foldl_ext _ _ (values.headD 0, ([] : List Word))
    (fun s p hp => hsink p hp s)
  rw [hfold] at hcongr
  exact congrArg (fun s : Word × List Word => Except.ok s.2) hcongr

theorem decode_encode_over (hmax : maxValues < values.length) :
    ∃ e, decode (encode values ++ rest) maxValues = .error e := by
  obtain ⟨hbase, hbody⟩ := encode_base values rest
  rw [decode, if_neg (not_short values rest)]
  simp only [hbase, hbody, word_fromLe]
  obtain ⟨e, he⟩ := @ForBitpack.decodeChunks_encode_over _
    (fun (s : Word × List Word) min scratch take =>
        ((undeltas s.1 ((scratch.take take).map fun v => min + v)).getLastD s.1,
          s.2 ++ undeltas s.1 ((scratch.take take).map fun v => min + v)))
    (deltas (values.headD 0) values) (by rwa [length_deltas]) rest maxValues
    (by rwa [length_deltas]) (values.headD 0, [])
  refine ⟨e, ?_⟩
  rw [he]
  rfl

end

end Delta

end Zu.Encoding
