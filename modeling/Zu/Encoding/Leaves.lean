import Zu.Encoding.Segment

/-!
# The encodings that nest nothing

Plain, constant and binary values come back from what was written, and a ceiling
below their count is refused.
-/

namespace Zu.Encoding

open Lib

/-! ### A count in front -/

section

variable {n : ℕ} (h : n < 2 ^ 32) (payload : Bytes)

theorem not_truncated : ¬ (leBytes 4 n ++ payload).length < 4 := by
  rw [List.length_append, length_leBytes]
  omega

theorem drop_count : (leBytes 4 n ++ payload).drop 4 = payload :=
  List.drop_left' (length_leBytes 4 n)

include h

theorem count_of_take : fromLe ((leBytes 4 n ++ payload).take 4) = n := by
  rw [List.take_left' (length_leBytes 4 n), fromLe_leBytes_of_lt h]

end

section

variable {values : List Word} (h : values.length < 2 ^ 32) {maxValues : ℕ}

include h

namespace Plain

theorem decode_encode (hmax : values.length ≤ maxValues) :
    decode (encode values) maxValues = .ok values := by
  have hbody : (wordBytes values).length = values.length * 8 := by
    rw [length_wordBytes, Nat.mul_comm]
  have htotal : ¬ (leBytes 4 values.length ++ wordBytes values).length <
      4 + values.length * 8 := by
    rw [List.length_append, length_leBytes, hbody]
    exact lt_irrefl _
  rw [decode, encode, if_neg (not_truncated _)]
  simp only [count_of_take h, drop_count]
  rw [if_neg (not_lt.2 hmax), if_neg htotal, ← hbody, List.take_length, wordsOf_wordBytes]
  rfl

theorem decode_encode_over (hmax : maxValues < values.length) :
    ∃ e, decode (encode values) maxValues = .error e := by
  rw [decode, encode, if_neg (not_truncated _)]
  simp only [count_of_take h]
  rw [if_pos hmax]
  exact ⟨_, rfl⟩

end Plain

namespace Constant

omit h in
theorem length_encode (values : List Word) : (encode values).length = 12 := by
  rw [encode, List.length_append, length_leBytes, length_leBytes]

theorem decode_encode (hall : ∀ v ∈ values, v = values.headD 0) (hmax : values.length ≤ maxValues) :
    decode (encode values) maxValues = .ok values := by
  have hshort : ¬ (encode values).length < 12 := by
    rw [length_encode]
    exact lt_irrefl 12
  have hvalue : ((encode values).drop 4).take 8 = leBytes 8 (values.headD 0).toNat := by
    rw [encode, drop_count, List.take_of_length_le (by rw [length_leBytes])]
  have hrep : List.replicate values.length (values.headD 0) = values :=
    (List.eq_replicate_iff.2 ⟨rfl, hall⟩).symm
  rw [decode, if_neg hshort]
  simp only [hvalue, word_fromLe]
  rw [encode, count_of_take h, if_neg (not_lt.2 hmax), hrep]
  rfl

theorem decode_encode_over (hmax : maxValues < values.length) :
    ∃ e, decode (encode values) maxValues = .error e := by
  have hshort : ¬ (encode values).length < 12 := by
    rw [length_encode]
    exact lt_irrefl 12
  rw [decode, if_neg hshort]
  simp only
  rw [encode, count_of_take h, if_pos hmax]
  exact ⟨_, rfl⟩

end Constant

namespace BoolBitpack

omit h in
theorem packByte_div (chunk : List Word) {i : ℕ} (hi : i < chunk.length) :
    packByte chunk / 2 ^ i % 2 = chunk[i].toNat % 2 := by
  induction chunk generalizing i with
  | nil => exact absurd hi (Nat.not_lt_zero i)
  | cons v chunk ih =>
      cases i with
      | zero =>
          rw [packByte, pow_zero, Nat.div_one, List.getElem_cons_zero]
          omega
      | succ i =>
          have hstep : (v.toNat % 2 + 2 * packByte chunk) / 2 = packByte chunk := by omega
          rw [packByte, pow_succ', ← Nat.div_div_eq_div_mul, hstep, List.getElem_cons_succ]
          exact ih (Nat.lt_of_succ_lt_succ hi)

omit h in
theorem packByte_lt (chunk : List Word) : packByte chunk < 2 ^ chunk.length := by
  induction chunk with
  | nil => exact Nat.one_pos
  | cons v chunk ih =>
      rw [packByte, List.length_cons, pow_succ]
      omega

omit h in
theorem unpackByte_packByte {chunk : List Word} (hlen : chunk.length ≤ 8)
    (hbin : ∀ v ∈ chunk, v.toNat ≤ 1) :
    unpackByte chunk.length (UInt8.ofNat (packByte chunk)) = chunk := by
  have hlt : packByte chunk < 256 :=
    (packByte_lt chunk).trans_le (Nat.pow_le_pow_right (by norm_num) hlen)
  have hval : (UInt8.ofNat (packByte chunk)).toNat = packByte chunk := by
    rw [UInt8.toNat_ofNat']
    exact Nat.mod_eq_of_lt hlt
  apply List.ext_getElem
  · rw [unpackByte, List.length_map, List.length_range]
  · intro i hi hi'
    have hbit := hbin chunk[i] (List.getElem_mem hi')
    simp only [unpackByte, List.getElem_map, List.getElem_range, hval]
    rw [packByte_div chunk hi', Nat.mod_eq_of_lt (by omega), BitVec.ofNat_toNat,
      BitVec.setWidth_eq]

omit h in
/-- The bytes of binary values, the last one by itself when it is not whole. -/
theorem unpack_body (hbin : ∀ v ∈ values, v.toNat ≤ 1) :
    ((((chunks 8 values).map fun chunk => UInt8.ofNat (packByte chunk)).take
        (values.length / 8)).flatMap (unpackByte 8)) ++
      unpackByte (values.length % 8)
        (((chunks 8 values).map fun chunk => UInt8.ofNat (packByte chunk)).getD
          (values.length / 8) 0) = values := by
  induction values using chunks_induction (n := 8) (by norm_num) with
  | nil => rfl
  | step values hne ih =>
      have hdrop : ∀ v ∈ values.drop 8, v.toNat ≤ 1 := fun v hv => hbin v (List.mem_of_mem_drop hv)
      have htake : ∀ v ∈ values.take 8, v.toNat ≤ 1 := fun v hv => hbin v (List.mem_of_mem_take hv)
      have hback := unpackByte_packByte (List.length_take_le 8 values) htake
      rw [chunks_of_ne_nil (by norm_num) hne, List.map_cons]
      by_cases hfull : 8 ≤ values.length
      · have hdiv : values.length / 8 = (values.drop 8).length / 8 + 1 := by
          rw [List.length_drop]
          omega
        have hmod : values.length % 8 = (values.drop 8).length % 8 := by
          rw [List.length_drop]
          omega
        rw [List.length_take, Nat.min_eq_left hfull] at hback
        rw [hdiv, hmod, List.take_succ_cons, List.flatMap_cons, hback, List.getD_cons_succ,
          List.append_assoc, ih hdrop, List.take_append_drop]
      · have hdiv : values.length / 8 = 0 := Nat.div_eq_of_lt (not_le.1 hfull)
        have hmod : values.length % 8 = values.length := Nat.mod_eq_of_lt (not_le.1 hfull)
        have hwhole : values.take 8 = values := List.take_of_length_le (not_le.1 hfull).le
        rw [hwhole] at hback ⊢
        rw [hdiv, hmod, List.take_zero, List.flatMap_nil, List.nil_append, List.getD_cons_zero,
          hback]

omit h in
theorem length_body (values : List Word) :
    ((chunks 8 values).map fun chunk => UInt8.ofNat (packByte chunk)).length =
      (values.length + 7) / 8 := by
  rw [List.length_map, length_chunks (by norm_num)]
  rfl

theorem decode_encode (hbin : ∀ v ∈ values, v.toNat ≤ 1) (hmax : values.length ≤ maxValues) :
    decode (encode values) maxValues = .ok values := by
  have htotal : ¬ (leBytes 4 values.length ++ (chunks 8 values).map fun chunk =>
      UInt8.ofNat (packByte chunk)).length < 4 + (values.length + 7) / 8 := by
    rw [List.length_append, length_leBytes, length_body]
    exact lt_irrefl _
  have hbody := length_body values
  rw [decode, encode, if_neg (not_truncated _)]
  simp only [count_of_take h, drop_count]
  rw [if_neg (not_lt.2 hmax), if_neg htotal, ← hbody, List.take_length, unpack_body hbin]
  rfl

theorem decode_encode_over (hmax : maxValues < values.length) :
    ∃ e, decode (encode values) maxValues = .error e := by
  rw [decode, encode, if_neg (not_truncated _)]
  simp only [count_of_take h]
  rw [if_pos hmax]
  exact ⟨_, rfl⟩

end BoolBitpack

end

end Zu.Encoding
