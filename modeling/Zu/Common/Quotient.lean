import Zu.Common.Exact

/-!
# Quotients of decimals

Integers moved between scales, and what a quotient answers. A remainder that overflows when
it is doubled is not rounded.
-/

namespace Zu.Common

open Lib Checked

namespace Decimal

/-! ### Shifting -/

theorem tenTo_of_le {k : ℕ} (h : k ≤ maxDigits) : tenTo k = some (10 ^ k) := by
  have hword : (k : ℤ) < 2 ^ 32 := by
    have : k ≤ 38 := h
    omega
  rw [tenTo, if_pos ⟨Int.natCast_nonneg k, hword⟩, Int.toNat_natCast]
  exact checkedPow_of_le h

theorem tenTo_far {n : ℤ} (h : 38 < n) : tenTo n = none := by
  rw [tenTo]
  split
  case isTrue hn =>
    apply checked_eq_none.2
    intro hf
    have hle : (10 : ℤ) ^ 39 ≤ 10 ^ n.toNat := pow_le_pow_right₀ (by norm_num) (by omega)
    have hlt := hle.trans_lt hf.2
    norm_num at hlt
  case isFalse => rfl

theorem pow_pos_int (k : ℕ) : (0 : ℤ) < 10 ^ k := by positivity

theorem shift_up {digits written wanted : ℤ} {k : ℕ} (hf : Fits 128 digits) (hk : k ≤ maxDigits)
    (h : wanted - written = k) :
    shift digits written wanted = ofOption (checked 128 (digits * 10 ^ k)) := by
  have hword : Fits 64 (k : ℤ) := by
    have : k ≤ 38 := hk
    exact fits_64.2 ⟨by omega, by omega⟩
  rw [shift, h, checked_of_fits hword]
  rcases k.eq_zero_or_pos with rfl | hpos
  · rw [pow_zero, mul_one, checked_of_fits hf]
    rfl
  · have hne : (k : ℤ) ≠ 0 := by omega
    have hlt : (0 : ℤ) < k := by omega
    simp only [ofOption_some, ok_bind, if_neg hne, if_pos hlt, tenTo_of_le hk]

theorem shift_far {digits written wanted : ℤ} (hw : Fits 64 written) (h0 : 0 ≤ wanted)
    (h : 38 < |wanted - written|) : shift digits written wanted = .error (.refused ()) := by
  rw [shift]
  by_cases hf : Fits 64 (wanted - written)
  · rw [checked_of_fits hf]
    rw [fits_64] at hf hw
    rcases lt_or_ge (wanted - written) 0 with hneg | hpos
    · rw [abs_of_neg hneg] at h
      have hminus : Fits 64 (-(wanted - written)) := fits_64.2 ⟨by omega, by omega⟩
      simp only [ofOption_some, ok_bind, if_neg hneg.ne, if_neg (not_lt.2 hneg.le), signed_of_fits hminus,
        tenTo_far h]
      rfl
    · rw [abs_of_nonneg hpos] at h
      have hne : wanted - written ≠ 0 := by omega
      have hlt : 0 < wanted - written := by omega
      simp only [ofOption_some, ok_bind, if_neg hne, if_pos hlt, tenTo_far h]
      rfl
  · rw [checked_eq_none.2 hf]
    rfl

theorem tdiv_room {digits down : ℤ} (hf : Fits 128 digits) (hd : 2 ≤ down) :
    Fits 128 (digits.tdiv down - 1) ∧ Fits 128 (digits.tdiv down + 1) := by
  have hbound : 2 * |digits.tdiv down| ≤ |digits| := by
    have habs := Int.natAbs_tdiv digits down
    have hle : 2 * (digits.natAbs / down.natAbs) ≤ digits.natAbs :=
      (Nat.mul_le_mul_right _ (by omega)).trans (Nat.mul_div_le _ _)
    rw [Int.abs_eq_natAbs, Int.abs_eq_natAbs, habs]
    exact_mod_cast hle
  rw [fits_128] at hf
  have hdig : |digits| ≤ 2 ^ 127 := abs_le.2 ⟨by omega, by omega⟩
  obtain ⟨hlo, hhi⟩ := abs_le.1 (show |digits.tdiv down| ≤ 2 ^ 126 by omega)
  exact ⟨fits_128.2 ⟨by omega, by omega⟩, fits_128.2 ⟨by omega, by omega⟩⟩

/-- A number carried one away from nought, of a division that leaves room for it. -/
theorem carryAway_of_fits {digits down : ℤ} (hf : Fits 128 digits) (hd : 2 ≤ down)
    (ht : Fits 128 |digits.tmod down * 2|) :
    carryAway (decide (digits < 0)) (digits.tdiv down) down (digits.tmod down * 2) =
      .ok (roundAway ((digits : ℚ) / down)) := by
  obtain ⟨hless, hmore⟩ := tdiv_room hf hd
  rw [carryAway, signed_of_fits ht, roundAway_tdiv (by omega)]
  show ite _ _ _ = _
  split
  case isTrue h =>
    by_cases hn : digits < 0
    · rw [decide_eq_true hn, if_pos hn, if_pos rfl, checked_of_fits hless]
      rfl
    · rw [decide_eq_false hn, if_neg hn, if_neg Bool.false_ne_true, checked_of_fits hmore]
      rfl
  case isFalse h => rfl

theorem two_le_tenTo {k : ℕ} (h : 0 < k) : (2 : ℤ) ≤ 10 ^ k := by
  have hle : (10 : ℤ) ^ 1 ≤ 10 ^ k := pow_le_pow_right₀ (by norm_num) h
  rw [pow_one] at hle
  exact le_trans (by norm_num) hle

theorem shift_down {digits written wanted : ℤ} {k : ℕ} (hf : Fits 128 digits) (h0 : 0 ≤ digits)
    (hk : k ≤ maxDigits) (hpos : 0 < k) (h : wanted - written = -k) :
    shift digits written wanted = .ok
      (if Fits 128 (digits.tmod (10 ^ k) * 2) then roundAway ((digits : ℚ) / (10 ^ k : ℤ))
        else digits.tdiv (10 ^ k)) := by
  have hle : k ≤ 38 := hk
  have hword : Fits 64 (-(k : ℤ)) := fits_64.2 ⟨by omega, by omega⟩
  have hminus : Fits 64 (k : ℤ) := fits_64.2 ⟨by omega, by omega⟩
  have hne : -(k : ℤ) ≠ 0 := by omega
  have hnlt : ¬ 0 < -(k : ℤ) := by omega
  have hdown : (2 : ℤ) ≤ 10 ^ k := two_le_tenTo hpos
  have hrest := Int.tmod_nonneg (10 ^ k) h0
  rw [shift, h, checked_of_fits hword]
  simp only [ofOption_some, ok_bind, if_neg hne, if_neg hnlt]
  rw [neg_neg, signed_of_fits hminus, ok_bind, tenTo_of_le hk, ofOption_some, ok_bind]
  by_cases ht : Fits 128 (digits.tmod (10 ^ k) * 2)
  · rw [checked_of_fits ht, if_pos ht]
    exact carryAway_of_fits hf hdown (by rwa [abs_of_nonneg (by omega)])
  · rw [checked_eq_none.2 ht, if_neg ht]

/-! ### Quotients -/

/-- How many places the numerator of a quotient is moved up. -/
def places (a b : Decimal) : ℕ := quotientScale a b + b.scale - a.scale

/-- The numerator of a quotient, without its sign. -/
def numerator (a b : Decimal) : ℤ := a.unscaled.natAbs * 10 ^ places a b

/-- A quotient that every step of its computation has room for. -/
def Divides (a b : Decimal) : Prop :=
  places a b ≤ maxDigits ∧ Fits 128 (numerator a b) ∧ Fits 128 b.unscaled.natAbs ∧
    Fits 128 ((numerator a b).tmod b.unscaled.natAbs * 2)

theorem scale_le_quotientScale {a b : Decimal} (ha : a.scale ≤ maxDigits) :
    a.scale ≤ quotientScale a b := by
  rw [quotientScale]
  omega

theorem quotientUp_eq {a b : Decimal} (ha : a.scale ≤ maxDigits) :
    quotientUp a b = places a b := by
  have := scale_le_quotientScale (b := b) ha
  rw [quotientUp, places]
  omega

/-- The number with its sign put back. -/
def withSign (negative : Bool) (n : ℤ) : ℤ := if negative then -n else n

theorem withSign_natAbs (d : Decimal) : withSign d.negative d.unscaled.natAbs = d.unscaled := by
  rw [withSign, negative]
  split
  case isTrue h =>
    have := of_decide_eq_true h
    omega
  case isFalse h =>
    have := of_decide_eq_false (Bool.not_eq_true _ ▸ h)
    omega

theorem roundAway_withSign (negative : Bool) (q : ℚ) :
    roundAway (if negative then -q else q) = withSign negative (roundAway q) := by
  cases negative with
  | false => rfl
  | true => exact roundAway_neg q

/-- A quotient, rounded, is the quotient of the sizes with its sign put back. -/
theorem quotient_eq {a b : Decimal} (ha : a.scale ≤ maxDigits) :
    roundAway (a.toRat / b.toRat * 10 ^ quotientScale a b) =
      withSign (a.negative != b.negative)
        (roundAway ((numerator a b : ℚ) / (b.unscaled.natAbs : ℤ))) := by
  have hpow : (10 : ℚ) ^ quotientScale a b * 10 ^ b.scale = 10 ^ places a b * 10 ^ a.scale := by
    have hle := scale_le_quotientScale (b := b) ha
    rw [← pow_add, ← pow_add, places]
    congr 1
    omega
  have hq : a.toRat / b.toRat * 10 ^ quotientScale a b =
      (a.unscaled : ℚ) * 10 ^ places a b / b.unscaled := by
    rw [toRat, toRat, div_div_div_eq, div_mul_eq_mul_div, mul_assoc, mul_comm ((10 : ℚ) ^ b.scale),
      hpow, ← mul_assoc, mul_comm ((10 : ℚ) ^ a.scale), mul_div_mul_right _ _ (by positivity)]
  rw [← roundAway_withSign, hq, numerator, ← withSign_natAbs a, ← withSign_natAbs b]
  congr 1
  cases a.negative <;> cases b.negative <;> simp [withSign, neg_div, div_neg]

theorem withSign_fits {negative : Bool} {n : ℤ} (h0 : 0 ≤ n) (h : Fits 128 n) :
    Fits 128 (withSign negative n) := by
  cases negative with
  | false => exact h
  | true =>
      rw [fits_128] at h
      exact fits_128.2 ⟨by rw [withSign, if_pos rfl]; omega, by rw [withSign, if_pos rfl]; omega⟩

theorem withSign_succ_ne {negative : Bool} {n : ℤ} :
    withSign negative n ≠ withSign negative (n + 1) := by
  cases negative with
  | false =>
      show n ≠ n + 1
      omega
  | true =>
      show -n ≠ -(n + 1)
      omega

/-- The last digit of a quotient, whose remainder doubled may overflow. -/
theorem lastDigit_eq {n d : ℤ} (hn : 0 ≤ n) (hf : Fits 128 n) (hd : 0 < d) :
    lastDigit n d =
      .ok (if Fits 128 (n.tmod d * 2) then roundAway ((n : ℚ) / d) else n.tdiv d) := by
  have hrest := Int.tmod_nonneg d hn
  rw [lastDigit]
  by_cases ht : Fits 128 (n.tmod d * 2)
  · rw [checked_of_fits ht, if_pos ht]
    rcases (show d = 1 ∨ 2 ≤ d by omega) with rfl | h2
    · rw [Int.tmod_one, Int.tdiv_one, zero_mul, Int.cast_one, div_one, roundAway_intCast]
      exact if_neg (by decide)
    · rw [← carryAway_of_fits hf h2 (by rwa [abs_of_nonneg (by omega)]), carryAway,
        signed_of_fits (by rwa [abs_of_nonneg (by omega)]), abs_of_nonneg (by omega),
        decide_eq_false (not_lt.2 hn)]
      rfl
  · rw [checked_eq_none.2 ht, if_neg ht]

theorem roundAway_fits {n d : ℤ} (hn : 0 ≤ n) (hf : Fits 128 n) (hd : 0 < d) :
    0 ≤ roundAway ((n : ℚ) / d) ∧ Fits 128 (roundAway ((n : ℚ) / d)) := by
  have hrest := Int.tmod_nonneg d hn
  have hquot := Int.tdiv_nonneg hn hd.le
  have hq := hf.tdiv hd
  rw [roundAway_tdiv hd, abs_of_nonneg (by omega), if_neg (not_lt.2 hn)]
  split
  case isTrue h =>
    have hlt := Int.tmod_lt_of_pos n hd
    have h2 : 2 * n.tdiv d ≤ d * n.tdiv d := mul_le_mul_of_nonneg_right (by omega) hquot
    have heq := Int.mul_tdiv_add_tmod n d
    rw [fits_128] at hf
    exact ⟨by omega, fits_128.2 ⟨by omega, by omega⟩⟩
  case isFalse h => exact ⟨hquot, hq⟩

/-- Where the remainder doubled overflows, the last digit is one too small. -/
theorem roundAway_of_overflow {n d : ℤ} (hn : 0 ≤ n) (hd : 0 < d) (hf : Fits 128 d)
    (h : ¬ Fits 128 (n.tmod d * 2)) : roundAway ((n : ℚ) / d) = n.tdiv d + 1 := by
  have hrest := Int.tmod_nonneg d hn
  have hle : d ≤ n.tmod d * 2 := by
    by_contra hlt
    rw [fits_128] at h hf
    exact h ⟨by omega, by omega⟩
  rw [roundAway_tdiv hd, abs_of_nonneg (by omega), if_pos hle, if_neg (not_lt.2 hn)]

theorem ofSigned_of_fits {n : ℤ} {scale : ℕ} (h : Fits 128 n) :
    ofSigned n scale = ofOption (ofChecked n scale) := by
  rw [ofSigned, dif_pos h, ofChecked_of_fits h]
  rfl

theorem fits_of_numerator {a b : Decimal} (h : Fits 128 (numerator a b)) :
    Fits 128 (a.unscaled.natAbs : ℤ) := by
  have hpow : (1 : ℤ) ≤ 10 ^ places a b := pow_pos_int _
  have hle : (a.unscaled.natAbs : ℤ) * 1 ≤ numerator a b :=
    mul_le_mul_of_nonneg_left hpow (by omega)
  rw [fits_128] at h
  exact fits_128.2 ⟨by omega, by omega⟩

theorem numerator_eq {a b : Decimal} (ha : a.scale ≤ maxDigits) :
    (do
      let magnitude ← ofOption (checked 128 (a.unscaled.natAbs : ℤ))
      shift magnitude 0 (quotientUp a b)) =
      if places a b ≤ maxDigits ∧ Fits 128 (numerator a b) then .ok (numerator a b)
      else .error (.refused ()) := by
  have hup : quotientUp a b - 0 = places a b := by rw [quotientUp_eq ha, sub_zero]
  by_cases hf : Fits 128 (a.unscaled.natAbs : ℤ)
  · rw [checked_of_fits hf, ofOption_some, ok_bind]
    by_cases hp : places a b ≤ maxDigits
    · rw [shift_up hf hp hup, ← numerator, checked]
      by_cases hn : Fits 128 (numerator a b)
      · rw [if_pos hn, if_pos ⟨hp, hn⟩]
        rfl
      · rw [if_neg hn, if_neg fun h => hn h.2]
        rfl
    · rw [if_neg fun h => hp h.1]
      have hfar : 38 < |quotientUp a b - 0| := by
        rw [hup, Nat.abs_cast]
        exact_mod_cast not_le.1 hp
      exact shift_far fits_zero (by rw [quotientUp_eq ha]; omega) hfar
  · rw [checked_eq_none.2 hf, if_neg fun h => hf (fits_of_numerator h.2)]
    rfl

theorem div_eq {a b : Decimal} (ha : a.scale ≤ maxDigits) (hb : b.unscaled ≠ 0) :
    div a b =
      if (places a b ≤ maxDigits ∧ Fits 128 (numerator a b)) ∧ Fits 128 b.unscaled.natAbs then
        ofSigned (withSign (a.negative != b.negative)
          (if Fits 128 ((numerator a b).tmod b.unscaled.natAbs * 2) then
            roundAway ((numerator a b : ℚ) / (b.unscaled.natAbs : ℤ))
          else (numerator a b).tdiv b.unscaled.natAbs)) (quotientScale a b)
      else .error (.refused ()) := by
  have hzero : 0 ≤ numerator a b := by
    rw [numerator]
    positivity
  have hdiv : 0 < (b.unscaled.natAbs : ℤ) := by omega
  rw [div, if_neg hb, ← bind_assoc, numerator_eq ha]
  by_cases hn : places a b ≤ maxDigits ∧ Fits 128 (numerator a b)
  · rw [if_pos hn, ok_bind]
    by_cases hd : Fits 128 (b.unscaled.natAbs : ℤ)
    · rw [if_pos ⟨hn, hd⟩, checked_of_fits hd, ofOption_some, ok_bind,
        lastDigit_eq hzero hn.2 hdiv]
      rfl
    · rw [if_neg fun h => hd h.2, checked_eq_none.2 hd]
      rfl
  · rw [if_neg hn, if_neg fun h => hn h.1]
    rfl

/-- A last digit is right unless the remainder overflows when it is doubled. -/
theorem lastDigit_right_iff {n d : ℤ} {negative : Bool} {scale : ℕ} (hs : scale ≤ maxDigits)
    (hn : 0 ≤ n) (hf : Fits 128 n) (hd : 0 < d) (hfd : Fits 128 d) :
    Answers (ofSigned (withSign negative
          (if Fits 128 (n.tmod d * 2) then roundAway ((n : ℚ) / d) else n.tdiv d)) scale) scale
        (withSign negative (roundAway ((n : ℚ) / d)) / 10 ^ scale) ↔
      Fits 128 (n.tmod d * 2) := by
  obtain ⟨hpos, hfit⟩ := roundAway_fits hn hf hd
  rw [answers_iff hs]
  by_cases ht : Fits 128 (n.tmod d * 2)
  · rw [if_pos ht, iff_true_right ht]
    exact ofSigned_of_fits (withSign_fits hpos hfit)
  · rw [if_neg ht, iff_false_right ht]
    intro heq
    have hwhole : Fits 128 (withSign negative (n.tdiv d)) :=
      withSign_fits (Int.tdiv_nonneg hn hd.le) (hf.tdiv hd)
    rw [ofSigned_of_fits hwhole, ofChecked_of_fits hwhole,
      ofChecked_of_fits (withSign_fits hpos hfit)] at heq
    have hval : withSign _ _ = withSign _ _ := congrArg Decimal.unscaled (Except.ok.inj heq)
    rw [roundAway_of_overflow hn hd hfd ht] at hval
    exact withSign_succ_ne hval

/-- A quotient is answered where every step has room, and refused rightly where what it
comes to has none. -/
theorem div_right_iff {a b : Decimal} (ha : a.scale ≤ maxDigits) (hb : b.unscaled ≠ 0) :
    Answers (div a b) (quotientScale a b)
        (roundAway (a.toRat / b.toRat * 10 ^ quotientScale a b) / 10 ^ quotientScale a b) ↔
      Divides a b ∨ ¬ Fits 128 (roundAway (a.toRat / b.toRat * 10 ^ quotientScale a b)) := by
  have hs : quotientScale a b ≤ maxDigits := min_le_right _ _
  have hzero : 0 ≤ numerator a b := by
    rw [numerator]
    positivity
  have hdiv : 0 < (b.unscaled.natAbs : ℤ) := by omega
  rw [div_eq ha hb, quotient_eq ha]
  by_cases hn : (places a b ≤ maxDigits ∧ Fits 128 (numerator a b)) ∧ Fits 128 b.unscaled.natAbs
  · obtain ⟨⟨hp, hnum⟩, hden⟩ := hn
    have hfit := roundAway_fits hzero hnum hdiv
    rw [if_pos ⟨⟨hp, hnum⟩, hden⟩, lastDigit_right_iff hs hzero hnum hdiv hden,
      or_iff_left (not_not.2 (withSign_fits hfit.1 hfit.2))]
    exact ⟨fun h => ⟨hp, hnum, hden, h⟩, fun h => h.2.2.2⟩
  · rw [if_neg hn, answers_refused hs, or_iff_right fun h => hn ⟨⟨h.1, h.2.1⟩, h.2.2.1⟩]

end Decimal

end Zu.Common
