import Zu.Lib.Checked

/-!
# Signed machine integers

The integers a signed word of `w` bits holds, and operations that are checked against
them.
-/

namespace Zu

namespace Lib

/-- A signed word of `w` bits holds the integer. -/
def Fits (w : ℕ) (n : ℤ) : Prop := -2 ^ (w - 1) ≤ n ∧ n < 2 ^ (w - 1)

instance (w : ℕ) (n : ℤ) : Decidable (Fits w n) := inferInstanceAs (Decidable (_ ∧ _))

/-- What a checked operation returns whose result is `n`. -/
def checked (w : ℕ) (n : ℤ) : Option ℤ := if Fits w n then some n else none

/-- A signed operation that is not checked overflows. -/
def Checked.signed {ε : Type} (w : ℕ) (n : ℤ) : Checked ε ℤ :=
  if Fits w n then .ok n else .error .panicked

/-- A computation that has no answer is refused. -/
def Checked.ofOption {α : Type} : Option α → Checked Unit α
  | some a => .ok a
  | none => .error (.refused ())

variable {w : ℕ} {n m : ℤ}

theorem Checked.signed_of_fits {ε : Type} (h : Fits w n) : (signed w n : Checked ε ℤ) = .ok n :=
  if_pos h

@[simp] theorem Checked.ofOption_some {α : Type} (a : α) : ofOption (some a) = .ok a := rfl

@[simp] theorem Checked.ofOption_none {α : Type} :
    ofOption (none : Option α) = .error (.refused ()) := rfl

theorem checked_of_fits (h : Fits w n) : checked w n = some n := if_pos h

theorem checked_eq_some : checked w n = some m ↔ Fits w n ∧ n = m := by
  rw [checked]
  split
  case isTrue h => simp [h]
  case isFalse h => simp [h]

theorem checked_eq_none : checked w n = none ↔ ¬ Fits w n := by
  rw [checked]
  split
  case isTrue h => simp [h]
  case isFalse h => simp [h]

theorem fits_zero : Fits w 0 := ⟨by simp, by positivity⟩

theorem fits_128 : Fits 128 n ↔
    -170141183460469231731687303715884105728 ≤ n ∧ n < 170141183460469231731687303715884105728 :=
  Iff.rfl

theorem fits_64 : Fits 64 n ↔ -9223372036854775808 ≤ n ∧ n < 9223372036854775808 := Iff.rfl

theorem fits_32 : Fits 32 n ↔ -2147483648 ≤ n ∧ n < 2147483648 := Iff.rfl

theorem fits_of_abs (h : Fits w |n|) : Fits w n :=
  ⟨by linarith [neg_abs_le n, h.2], (le_abs_self n).trans_lt h.2⟩

/-- Dividing by a positive number goes toward nought, so it cannot overflow. -/
theorem Fits.tdiv (h : Fits w n) {k : ℤ} (hk : 0 < k) : Fits w (n.tdiv k) := by
  obtain ⟨hlo, hhi⟩ := h
  rcases le_total 0 n with hn | hn
  · have hle : n.tdiv k ≤ n := by
      rw [Int.tdiv_eq_ediv_of_nonneg hn]
      exact Int.ediv_le_self _ hn
    have hpos : 0 ≤ n.tdiv k := Int.tdiv_nonneg hn hk.le
    exact ⟨by omega, by omega⟩
  · have hle : (-n).tdiv k ≤ -n := by
      rw [Int.tdiv_eq_ediv_of_nonneg (by omega)]
      exact Int.ediv_le_self _ (by omega)
    have hpos : 0 ≤ (-n).tdiv k := Int.tdiv_nonneg (by omega) hk.le
    rw [Int.neg_tdiv] at hle hpos
    have hpow : (0 : ℤ) < 2 ^ (w - 1) := by positivity
    exact ⟨by omega, by omega⟩

/-- What a division leaves over has the numerator's sign and is no larger. -/
theorem Fits.tmod_left (h : Fits w n) : Fits w (n.tmod m) := by
  obtain ⟨hlo, hhi⟩ := h
  have hle : (n.tmod m).natAbs ≤ n.natAbs := by
    rw [Int.natAbs_tmod]
    exact Nat.mod_le _ _
  have hpow : (0 : ℤ) < 2 ^ (w - 1) := by positivity
  rcases le_total 0 n with hn | hn
  · have := Int.tmod_nonneg m hn
    exact ⟨by omega, by omega⟩
  · have := Int.tmod_nonneg (a := -n) m (by omega)
    rw [Int.neg_tmod] at this
    exact ⟨by omega, by omega⟩

/-- What a division leaves over is smaller than the divisor. -/
theorem Fits.tmod_right (h : Fits w m) (hm : m ≠ 0) : Fits w (n.tmod m) := by
  obtain ⟨hlo, hhi⟩ := h
  have hlt : (n.tmod m).natAbs < m.natAbs := by
    rw [Int.natAbs_tmod]
    exact Nat.mod_lt _ (Int.natAbs_pos.2 hm)
  exact ⟨by omega, by omega⟩

end Lib

end Zu

/-!
## Words cut to their low bits

A word that is cut to its low bits comes back as itself where they say it: with zeros above
them, or with the highest of them above them.
-/

namespace Zu

namespace Lib

/-- The low `k` bits of a word, the highest of them above them. -/
def signExtend (k : ℕ) (x : BitVec 64) : BitVec 64 := (x <<< (64 - k)).sshiftRight (64 - k)

/-- A word is its low bits again: they and nothing, or they and their sign. -/
def FitsBits (k : ℕ) (signed : Bool) (x : BitVec 64) : Prop :=
  if signed then signExtend k x = x else x.toNat < 2 ^ k

instance (k : ℕ) (signed : Bool) (x : BitVec 64) : Decidable (FitsBits k signed x) := by
  unfold FitsBits
  exact inferInstance

/-- The word that low bits say. -/
def widen (k : ℕ) (signed : Bool) (n : ℕ) : BitVec 64 :=
  if signed then signExtend k (BitVec.ofNat 64 n) else BitVec.ofNat 64 n

variable {k : ℕ}

theorem toNat_shift (hk : k ≤ 64) (n : ℕ) :
    (BitVec.ofNat 64 n <<< (64 - k)).toNat = n % 2 ^ k * 2 ^ (64 - k) := by
  have hpow : 2 ^ 64 = 2 ^ k * 2 ^ (64 - k) := by rw [← Nat.pow_add, Nat.add_sub_cancel' hk]
  rw [BitVec.toNat_shiftLeft, BitVec.toNat_ofNat, Nat.shiftLeft_eq, Nat.mod_mul_mod, hpow,
    Nat.mul_mod_mul_right]

/-- Only the low bits are left of a word shifted to the top. -/
theorem shift_cut (hk : k ≤ 64) (n : ℕ) :
    BitVec.ofNat 64 (n % 2 ^ k) <<< (64 - k) = BitVec.ofNat 64 n <<< (64 - k) := by
  apply BitVec.eq_of_toNat_eq
  rw [toNat_shift hk, toNat_shift hk, Nat.mod_mod]

theorem shift_signExtend (x : BitVec 64) :
    signExtend k x <<< (64 - k) = x <<< (64 - k) := by
  apply BitVec.eq_of_getLsbD_eq
  intro i hi
  rw [BitVec.getLsbD_shiftLeft, signExtend, BitVec.getLsbD_sshiftRight]
  by_cases hlow : i < 64 - k
  · simp [hlow]
  · have hin : i - (64 - k) < 64 := by omega
    have hsum : 64 - k + (i - (64 - k)) = i := by omega
    simp [hi, hlow, hsum]
    exact fun _ => hin

/-- A word that fits is what its low bits say. -/
theorem widen_cut (hk : k ≤ 64) {signed : Bool} {x : BitVec 64} (h : FitsBits k signed x) :
    widen k signed (x.toNat % 2 ^ k) = x := by
  cases signed with
  | true =>
      rw [FitsBits, if_pos rfl] at h
      rw [widen, if_pos rfl, signExtend, shift_cut hk, BitVec.ofNat_toNat, BitVec.setWidth_eq]
      exact h
  | false =>
      rw [FitsBits, if_neg Bool.false_ne_true] at h
      rw [widen, if_neg Bool.false_ne_true, Nat.mod_eq_of_lt h, BitVec.ofNat_toNat, BitVec.setWidth_eq]

/-- What low bits say fits them. -/
theorem fits_widen (signed : Bool) {n : ℕ} (hn : n < 2 ^ k) :
    FitsBits k signed (widen k signed n) := by
  cases signed with
  | true =>
      rw [FitsBits, if_pos rfl, widen, if_pos rfl]
      conv_lhs => rw [signExtend, shift_signExtend]
      rfl
  | false =>
      rw [FitsBits, if_neg Bool.false_ne_true, widen, if_neg Bool.false_ne_true, BitVec.toNat_ofNat]
      exact (Nat.mod_le _ _).trans_lt hn

theorem cut_widen (hk : k ≤ 64) (signed : Bool) {n : ℕ} (hn : n < 2 ^ k) :
    (widen k signed n).toNat % 2 ^ k = n := by
  have hpow : 2 ^ k ≤ 2 ^ 64 := Nat.pow_le_pow_right (by decide) hk
  cases signed with
  | true =>
      rw [widen, if_pos rfl]
      have hshift := congrArg BitVec.toNat (shift_signExtend (k := k) (BitVec.ofNat 64 n))
      have hword : signExtend k (BitVec.ofNat 64 n) =
          BitVec.ofNat 64 (signExtend k (BitVec.ofNat 64 n)).toNat := by
        rw [BitVec.ofNat_toNat, BitVec.setWidth_eq]
      rw [hword, toNat_shift hk, toNat_shift hk, Nat.mod_eq_of_lt hn] at hshift
      exact Nat.eq_of_mul_eq_mul_right (Nat.two_pow_pos _) hshift
  | false =>
      rw [widen, if_neg Bool.false_ne_true, BitVec.toNat_ofNat, Nat.mod_eq_of_lt (hn.trans_le hpow),
        Nat.mod_eq_of_lt hn]

end Lib

end Zu
