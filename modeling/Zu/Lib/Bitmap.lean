import Mathlib

/-!
# Bitmaps

A bit a node, sixty-four in a word.
-/

namespace Zu

namespace Lib

abbrev Bitmap := List (BitVec 64)

namespace Bitmap

def bit (v : ℕ) : BitVec 64 := 1#64 <<< (v % 64)

/-- The words of `n` bits, all zero. -/
def empty (n : ℕ) : Bitmap := List.replicate ((n + 63) / 64) 0

def test (b : Bitmap) (v : ℕ) : Bool := b.getD (v / 64) 0 &&& bit v != 0

/-- The bit of a node is set from now on. -/
def insert (b : Bitmap) (v : ℕ) : Bitmap := b.modify (v / 64) (· ||| bit v)

variable {b : Bitmap} {n v w : ℕ}

theorem getLsbD_bit (v k : ℕ) : (bit v).getLsbD k = decide (k = v % 64) := by
  have hv : v % 64 < 64 := Nat.mod_lt v (by decide)
  rw [bit, BitVec.getLsbD_shiftLeft, BitVec.getLsbD_one]
  by_cases hk : k = v % 64
  · simp [hk, hv]
  · simp [hk]
    omega

theorem and_bit_eq_zero (x : BitVec 64) (v : ℕ) :
    x &&& bit v = 0 ↔ x.getLsbD (v % 64) = false := by
  constructor
  · intro h
    have hbit := congrArg (fun y : BitVec 64 => y.getLsbD (v % 64)) h
    simpa [getLsbD_bit] using hbit
  · intro h
    apply BitVec.eq_of_getLsbD_eq
    intro i hi
    rw [BitVec.getLsbD_and, getLsbD_bit]
    by_cases hv : i = v % 64
    · simp [hv, h]
    · simp [hv]

theorem test_eq (b : Bitmap) (v : ℕ) :
    b.test v = (b.getD (v / 64) 0).getLsbD (v % 64) := by
  rw [test]
  cases h : (b.getD (v / 64) 0).getLsbD (v % 64) with
  | false => simpa using (and_bit_eq_zero _ v).2 h
  | true =>
      rw [bne_iff_ne, Ne, and_bit_eq_zero, h]
      decide

theorem length_insert : (b.insert v).length = b.length := by
  rw [insert, List.length_modify]

theorem length_empty (n : ℕ) : (empty n).length = (n + 63) / 64 := by
  rw [empty, List.length_replicate]

theorem div_lt_length (h : v < n) : v / 64 < (n + 63) / 64 := by omega

/-- No bit is set at first. -/
theorem test_empty (n v : ℕ) : (empty n).test v = false := by
  rw [test_eq, empty, List.getD_eq_getElem?_getD, List.getElem?_replicate]
  split
  case isTrue => simp
  case isFalse => simp

/-- A bit that is set is the only one that changes. -/
theorem test_insert (h : v / 64 < b.length) :
    (b.insert v).test w = true ↔ w = v ∨ b.test w = true := by
  rw [test_eq, test_eq, insert, List.getD_eq_getElem?_getD, List.getElem?_modify,
    List.getD_eq_getElem?_getD]
  by_cases hword : v / 64 = w / 64
  · rw [hword] at h
    have hbits : w = v ↔ w % 64 = v % 64 := by omega
    simp [hword, List.getElem?_eq_getElem h, getLsbD_bit, hbits, or_comm]
  · have hne : w ≠ v := by
      rintro rfl
      exact hword rfl
    simp [hword, hne]

end Bitmap

end Lib

end Zu

/-!
## The bits of a mask

The loop that takes the lowest bit of a mask and clears it, until none is left.
-/

namespace Zu

namespace Lib

/-- The bits that are set, the lowest first. -/
def lanesOf : ℕ → BitVec 64 → List ℕ
  | 0, _ => []
  | fuel + 1, mask =>
      if mask = 0 then [] else mask.ctz.toNat :: lanesOf fuel (mask &&& (mask - 1))

variable {x : BitVec 64}

/-- A mask is its bits above the lowest, and the lowest. -/
theorem toNat_eq_ctz (h : x ≠ 0) :
    x.toNat = 2 ^ (x.ctz.toNat + 1) * (x.toNat / 2 ^ (x.ctz.toNat + 1)) + 2 ^ x.ctz.toNat := by
  have hmod : x.toNat % 2 ^ (x.ctz.toNat + 1) = 2 ^ x.ctz.toNat := by
    apply Nat.eq_of_testBit_eq
    intro i
    rw [Nat.testBit_mod_two_pow, Nat.testBit_two_pow, BitVec.testBit_toNat]
    rcases Nat.lt_trichotomy i x.ctz.toNat with hlt | heq | hgt
    · have hfalse := BitVec.getLsbD_false_of_lt_ctz hlt
      simp [hfalse]
      omega
    · have htrue := BitVec.getLsbD_true_ctz_of_ne_zero h
      rw [heq, htrue]
      simp
    · have hge : ¬ i < x.ctz.toNat + 1 := by omega
      have hne : x.ctz.toNat ≠ i := by omega
      rw [decide_eq_false hge, decide_eq_false hne, Bool.false_and]
  have hdiv := Nat.div_add_mod x.toNat (2 ^ (x.ctz.toNat + 1))
  rw [hmod] at hdiv
  exact hdiv.symm

/-- The lowest bit is cleared and every other is kept. -/
theorem getLsbD_clear (h : x ≠ 0) (i : ℕ) :
    (x &&& (x - 1)).getLsbD i = (x.getLsbD i && decide (i ≠ x.ctz.toNat)) := by
  obtain ⟨k, hk⟩ : ∃ k, k = x.ctz.toNat := ⟨_, rfl⟩
  obtain ⟨m, hm⟩ : ∃ m, m = x.toNat / 2 ^ (k + 1) := ⟨_, rfl⟩
  have hx : x.toNat = 2 ^ (k + 1) * m + 2 ^ k := by
    rw [hm, hk]
    exact toNat_eq_ctz h
  have hpow : 0 < 2 ^ k := Nat.two_pow_pos k
  have hpred : (x - 1).toNat = 2 ^ (k + 1) * m + (2 ^ k - 1) := by
    have hlt := x.isLt
    have hone : (1 : BitVec 64).toNat = 1 := rfl
    rw [BitVec.toNat_sub, hone]
    omega
  have hsucc : 2 ^ (k + 1) = 2 ^ k * 2 := Nat.pow_succ 2 k
  rw [BitVec.getLsbD_and, ← BitVec.testBit_toNat, ← BitVec.testBit_toNat, hx, hpred,
    Nat.testBit_two_pow_mul_add _ (by omega), Nat.testBit_two_pow_mul_add _ (by omega), ← hk]
  split
  case isTrue hlt =>
    rw [Nat.testBit_two_pow, Nat.testBit_two_pow_sub_one]
    by_cases hik : i = k
    · simp [hik]
    · have hne : k ≠ i := fun heq => hik heq.symm
      simp [hne]
  case isFalse hge =>
    have hne : i ≠ k := by omega
    simp [hne]

/-- Every bit from `low` on is listed once, where there is fuel for them. -/
theorem lanesOf_spec (fuel low : ℕ) (hlow : ∀ i < low, x.getLsbD i = false) (hfuel : 64 ≤ low + fuel) :
    (∀ i, i ∈ lanesOf fuel x ↔ x.getLsbD i = true) ∧ (lanesOf fuel x).Nodup := by
  induction fuel generalizing x low with
  | zero =>
      refine ⟨fun i => ?_, List.nodup_nil⟩
      rw [lanesOf]
      simp only [List.not_mem_nil, false_iff, Bool.not_eq_true]
      rcases Nat.lt_or_ge i low with hlt | hge
      · exact hlow i hlt
      · exact BitVec.getLsbD_of_ge x i (by omega)
  | succ fuel ih =>
      rw [lanesOf]
      split
      case isTrue hzero =>
        rw [hzero]
        simp
      case isFalse hne =>
        have hctz := BitVec.getLsbD_true_ctz_of_ne_zero hne
        have hle : low ≤ x.ctz.toNat := by
          by_contra hlt
          rw [hlow _ (Nat.lt_of_not_le hlt)] at hctz
          cases hctz
        have hbelow : ∀ i < low + 1, (x &&& (x - 1)).getLsbD i = false := by
          intro i hi
          rw [getLsbD_clear hne]
          by_cases hic : i = x.ctz.toNat
          · simp [hic]
          · have hlt : i < x.ctz.toNat := by omega
            simp [BitVec.getLsbD_false_of_lt_ctz hlt]
        obtain ⟨hmem, hnodup⟩ := ih (low + 1) hbelow (by omega)
        constructor
        · intro i
          rw [List.mem_cons, hmem, getLsbD_clear hne]
          by_cases hic : i = x.ctz.toNat
          · rw [hic, hctz]
            simp
          · simp [hic]
        · rw [List.nodup_cons]
          refine ⟨?_, hnodup⟩
          rw [hmem, getLsbD_clear hne]
          simp

theorem mem_lanesOf {i : ℕ} : i ∈ lanesOf 64 x ↔ x.getLsbD i = true :=
  (lanesOf_spec 64 0 (fun _ hi => absurd hi (Nat.not_lt_zero _)) (Nat.le_refl 64)).1 i

theorem nodup_lanesOf : (lanesOf 64 x).Nodup :=
  (lanesOf_spec 64 0 (fun _ hi => absurd hi (Nat.not_lt_zero _)) (Nat.le_refl 64)).2

end Lib

end Zu

/-!
## Bits packed in bytes

A bit a row, eight in a byte, the lowest first.
-/

namespace Zu

namespace Lib

abbrev PackedBits := List (BitVec 8)

namespace PackedBits

def bit (i : ℕ) : BitVec 8 := 1#8 <<< (i % 8)

/-- How many bytes `n` bits take. -/
def bytesFor (n : ℕ) : ℕ := (n + 7) / 8

def test (b : PackedBits) (i : ℕ) : Bool := b.getD (i / 8) 0 &&& bit i != 0

def set (b : PackedBits) (i : ℕ) : PackedBits := b.modify (i / 8) (· ||| bit i)

def clear (b : PackedBits) (i : ℕ) : PackedBits := b.modify (i / 8) (· &&& ~~~bit i)

/-- The bits of the rows from `i` on whose flags are up. -/
def packFrom (b : PackedBits) : ℕ → List Bool → PackedBits
  | _, [] => b
  | i, flag :: flags => packFrom (if flag then b.set i else b) (i + 1) flags

def pack (flags : List Bool) : PackedBits :=
  packFrom (List.replicate (bytesFor flags.length) 0) 0 flags

variable {b : PackedBits} {i j : ℕ}

theorem getLsbD_bit (i k : ℕ) : (bit i).getLsbD k = decide (k = i % 8) := by
  have hi : i % 8 < 8 := Nat.mod_lt i (by decide)
  rw [bit, BitVec.getLsbD_shiftLeft, BitVec.getLsbD_one]
  by_cases hk : k = i % 8
  · simp [hk, hi]
  · simp [hk]
    omega

theorem test_eq (b : PackedBits) (i : ℕ) :
    b.test i = (b.getD (i / 8) 0).getLsbD (i % 8) := by
  have hand : ∀ x : BitVec 8, x &&& bit i = 0 ↔ x.getLsbD (i % 8) = false := by
    intro x
    constructor
    · intro h
      have hbit := congrArg (fun y : BitVec 8 => y.getLsbD (i % 8)) h
      simpa [getLsbD_bit] using hbit
    · intro h
      apply BitVec.eq_of_getLsbD_eq
      intro k hk
      rw [BitVec.getLsbD_and, getLsbD_bit]
      by_cases hi : k = i % 8
      · simp [hi, h]
      · simp [hi]
  rw [test]
  cases h : (b.getD (i / 8) 0).getLsbD (i % 8) with
  | false => simpa using (hand _).2 h
  | true =>
      rw [bne_iff_ne, Ne, hand, h]
      decide

@[simp] theorem length_set : (b.set i).length = b.length := List.length_modify ..

@[simp] theorem length_clear : (b.clear i).length = b.length := List.length_modify ..

theorem div_lt_bytesFor {n : ℕ} (h : i < n) : i / 8 < bytesFor n := by
  rw [bytesFor]
  omega

theorem test_set (h : i / 8 < b.length) : (b.set i).test j = (decide (j = i) || b.test j) := by
  rw [test_eq, test_eq, set, List.getD_eq_getElem?_getD, List.getElem?_modify,
    List.getD_eq_getElem?_getD]
  by_cases hbyte : i / 8 = j / 8
  · rw [hbyte] at h
    have hbits : j = i ↔ j % 8 = i % 8 := by omega
    simp [hbyte, List.getElem?_eq_getElem h, getLsbD_bit, hbits, Bool.or_comm]
  · have hne : j ≠ i := by
      rintro rfl
      exact hbyte rfl
    simp [hbyte, hne]

theorem test_clear (h : i / 8 < b.length) :
    (b.clear i).test j = (decide (j ≠ i) && b.test j) := by
  rw [test_eq, test_eq, clear, List.getD_eq_getElem?_getD, List.getElem?_modify,
    List.getD_eq_getElem?_getD]
  by_cases hbyte : i / 8 = j / 8
  · rw [hbyte] at h
    have hbits : j = i ↔ j % 8 = i % 8 := by omega
    have hj : j % 8 < 8 := Nat.mod_lt j (by decide)
    have hbit := getLsbD_bit i (j % 8)
    rw [BitVec.getLsbD_eq_getElem hj] at hbit
    simp [hbyte, List.getElem?_eq_getElem h, hbit, hbits, hj, Bool.and_comm]
  · have hne : j ≠ i := by
      rintro rfl
      exact hbyte rfl
    simp [hbyte, hne]

theorem test_packFrom {flags : List Bool} (h : i + flags.length ≤ 8 * b.length) :
    (packFrom b i flags).length = b.length ∧ ∀ j, (packFrom b i flags).test j =
      (b.test j || (decide (i ≤ j) && (flags[j - i]?).getD false)) := by
  induction flags generalizing b i with
  | nil => exact ⟨rfl, fun j => by simp [packFrom]⟩
  | cons flag flags ih =>
      rw [List.length_cons] at h
      have hroom : i / 8 < b.length := by omega
      have hlen : (if flag then b.set i else b).length = b.length := by
        split
        · exact length_set
        · rfl
      obtain ⟨hlen', htest⟩ := ih (b := if flag then b.set i else b) (i := i + 1)
        (by rw [hlen]; omega)
      rw [packFrom]
      refine ⟨hlen'.trans hlen, fun j => ?_⟩
      rw [htest]
      have hflag : (if flag then b.set i else b).test j = (b.test j || (decide (j = i) && flag)) := by
        cases flag with
        | true => rw [if_pos rfl, test_set hroom, Bool.and_true, Bool.or_comm]
        | false => rw [if_neg Bool.false_ne_true, Bool.and_false, Bool.or_false]
      rw [hflag, Bool.or_assoc]
      congr 1
      rcases Nat.lt_trichotomy j i with hlt | rfl | hgt
      · have hne : j ≠ i := Nat.ne_of_lt hlt
        simp [hne, Nat.not_le_of_lt hlt, Nat.not_le_of_lt (Nat.lt_succ_of_lt hlt)]
      · simp
      · have hne : j ≠ i := Nat.ne_of_gt hgt
        obtain ⟨k, rfl⟩ := Nat.exists_eq_add_of_lt hgt
        have hsub : i + k + 1 - (i + 1) = k := by omega
        have hsub' : i + k + 1 - i = k + 1 := by omega
        have hle : i + 1 ≤ i + k + 1 := by omega
        have hle' : i ≤ i + k + 1 := by omega
        simp [hne, hsub, hsub', hle, hle']

/-- What is packed is read back, row by row. -/
theorem test_pack (flags : List Bool) (i : ℕ) : (pack flags).test i = (flags[i]?).getD false := by
  have hlen : (List.replicate (bytesFor flags.length) (0 : BitVec 8)).length =
      bytesFor flags.length := List.length_replicate
  have hfit : 0 + flags.length ≤ 8 * (List.replicate (bytesFor flags.length) (0 : BitVec 8)).length := by
    rw [hlen, bytesFor]
    omega
  have hzero : test (List.replicate (bytesFor flags.length) 0) i = false := by
    rw [test_eq, List.getD_eq_getElem?_getD, List.getElem?_replicate]
    split
    · simp
    · simp
  rw [pack, (test_packFrom hfit).2, hzero]
  simp

end PackedBits

end Lib

end Zu
