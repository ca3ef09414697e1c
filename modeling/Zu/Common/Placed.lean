import Zu.Common.Quotient

/-!
# Decimals rounded to a place

What rounding to a number of digits answers, on either side of the point.
-/

namespace Zu.Common

open Lib Checked

/-- The integer a fraction is rounded to. -/
def Round.apply : Round → ℚ → ℤ
  | .half => roundAway
  | .up => Int.ceil
  | .down => Int.floor

namespace Decimal

def placed (d : Decimal) (digits : ℤ) (mode : Round) : ℚ :=
  mode.apply (d.toRat * 10 ^ digits) / 10 ^ digits

/-- A rounding that every step of its computation has room for, or whose number does not
fit. -/
def Places (d : Decimal) (digits : ℤ) (mode : Round) : Prop :=
  if 2 ^ 16 ≤ digits then ¬ Fits 128 (d.units maxDigits)
  else if d.scale - digits ≤ 0 then True
  else if d.scale - digits ≤ maxDigits then
    mode = .half → Fits 128 |d.unscaled.tmod (10 ^ (d.scale - digits).toNat) * 2|
  else
    Fits 64 (d.scale - digits) ∧ digits < -maxDigits ∧
      (mode = .up ∧ 0 < d.unscaled ∨ mode = .down ∧ d.unscaled < 0)

theorem apply_intCast (mode : Round) (n : ℤ) : mode.apply n = n := by
  cases mode with
  | half => exact roundAway_intCast n
  | up => exact Int.ceil_intCast n
  | down => exact Int.floor_intCast n

theorem placedScale_le (digits : ℤ) : placedScale digits ≤ maxDigits := min_le_right _ _

theorem zpow_pos_ten (n : ℤ) : (0 : ℚ) < 10 ^ n := zpow_pos (by norm_num) n

/-- Where there is nothing to drop, rounding leaves the number. -/
theorem placed_of_le {d : Decimal} {digits : ℤ} {mode : Round} (h : d.scale - digits ≤ 0) :
    d.placed digits mode = d.toRat := by
  obtain ⟨k, hk⟩ := Int.exists_add_of_le (show (d.scale : ℤ) ≤ digits by omega)
  have hint : d.toRat * 10 ^ digits = ((d.unscaled * 10 ^ k : ℤ) : ℚ) := by
    rw [toRat, hk, zpow_add₀ (by norm_num), zpow_natCast, zpow_natCast, ← mul_assoc,
      div_mul_cancel₀ _ (by positivity)]
    push_cast
    rfl
  rw [placed, hint, apply_intCast, ← hint, mul_div_cancel_right₀ _ (zpow_pos_ten digits).ne']

theorem scaled_eq {d : Decimal} {digits : ℤ} {k : ℕ} (h : d.scale - digits = k) :
    d.toRat * 10 ^ digits = (d.unscaled : ℚ) / (10 ^ k : ℤ) := by
  have hpow : (10 : ℚ) ^ d.scale = 10 ^ digits * 10 ^ k := by
    rw [← zpow_natCast, ← zpow_natCast, ← zpow_add₀ (by norm_num)]
    congr 1
    omega
  rw [toRat, hpow, div_mul_eq_mul_div, mul_comm, mul_div_mul_left _ _ (zpow_pos_ten digits).ne']
  push_cast
  rfl

/-- The noughts a rounding left of the point stood on. -/
def zeros (digits : ℤ) : ℕ := (placedScale digits - digits).toNat

theorem placed_eq {d : Decimal} {digits : ℤ} {mode : Round} {k : ℕ} (hd : digits ≤ maxDigits)
    (h : d.scale - digits = k) :
    d.placed digits mode =
      ((mode.apply ((d.unscaled : ℚ) / (10 ^ k : ℤ)) * 10 ^ zeros digits : ℤ) : ℚ) /
        10 ^ placedScale digits := by
  have hpow : (10 : ℚ) ^ placedScale digits = 10 ^ digits * 10 ^ zeros digits := by
    rw [← zpow_natCast, ← zpow_natCast, ← zpow_add₀ (by norm_num)]
    congr 1
    rw [zeros, placedScale]
    omega
  rw [placed, scaled_eq h, hpow]
  push_cast
  rw [mul_div_mul_right _ _ (by positivity)]

/-- The digit carried, where doubling what is left over has room. -/
theorem carry_eq {d : Decimal} {factor : ℤ} {mode : Round} (hb : 2 ≤ factor)
    (ht : mode = .half → Fits 128 |d.unscaled.tmod factor * 2|) :
    d.carry factor mode = .ok (mode.apply ((d.unscaled : ℚ) / factor)) := by
  obtain ⟨hless, hmore⟩ := tdiv_room d.fits hb
  cases mode with
  | half =>
      have hf : Fits 128 (d.unscaled.tmod factor * 2) := fits_of_abs (ht rfl)
      rw [carry, checked_of_fits hf]
      exact carryAway_of_fits d.fits hb (ht rfl)
  | up =>
      rw [carry, Round.apply, ceil_tdiv (by omega)]
      split
      case isTrue => rw [checked_of_fits hmore, ofOption_some]
      case isFalse => rfl
  | down =>
      rw [carry, Round.apply, floor_tdiv (by omega)]
      split
      case isTrue => rw [checked_of_fits hless, ofOption_some]
      case isFalse => rfl

/-- Half of what a number can hold or more is left over of a number that has no whole part. -/
theorem carry_overflow {d : Decimal} {factor : ℤ} (ht : ¬ Fits 128 |d.unscaled.tmod factor * 2|) :
    d.carry factor .half = .error (.refused ()) ∨ d.carry factor .half = .error .panicked := by
  rw [carry]
  by_cases hf : Fits 128 (d.unscaled.tmod factor * 2)
  · right
    rw [checked_of_fits hf, ofOption_some, ok_bind, carryAway, signed, if_neg ht]
    rfl
  · left
    rw [checked_eq_none.2 hf]
    rfl

section Quantize

variable {d : Decimal} {digits : ℤ} {mode : Round}

theorem quantize_kept (hs : d.scale ≤ maxDigits) (hd : digits < 2 ^ 16)
    (h : d.scale - digits ≤ 0) :
    d.quantize digits mode =
      ofOption (ofChecked (d.units (placedScale digits)) (placedScale digits)) := by
  have hle : (d.scale : ℤ) ≤ 38 := by exact_mod_cast hs
  have hword : Fits 64 (d.scale - digits) := fits_64.2 ⟨by omega, by omega⟩
  have hscale : d.scale ≤ placedScale digits := by
    rw [placedScale]
    omega
  rw [quantize, if_neg (by omega), signed_of_fits hword, ok_bind, if_pos h,
    rescale_up hscale (placedScale_le digits)]

theorem zeros_le (hs : d.scale ≤ maxDigits) {k : ℕ} (h : d.scale - digits = k)
    (hle : k ≤ maxDigits) : zeros digits ≤ maxDigits := by
  rw [zeros, placedScale]
  rw [maxDigits] at hs hle ⊢
  omega

theorem quantize_dropped (hs : d.scale ≤ maxDigits) {k : ℕ} (h : d.scale - digits = k)
    (hk : 0 < k) (hle : k ≤ maxDigits) :
    d.quantize digits mode = (do
      let carried ← d.carry (10 ^ k) mode
      ofOption (ofChecked (carried * 10 ^ zeros digits) (placedScale digits))) := by
  have hs38 : d.scale ≤ 38 := hs
  have hk38 : k ≤ 38 := hle
  have hword : Fits 64 (k : ℤ) := fits_64.2 ⟨by omega, by omega⟩
  have hzeros : (placedScale digits : ℤ) - digits = zeros digits := by
    rw [zeros, placedScale]
    omega
  have hzle := zeros_le hs h hle
  have hzword : Fits 64 (zeros digits : ℤ) := by
    have hz38 : zeros digits ≤ 38 := hzle
    exact fits_64.2 ⟨by omega, by omega⟩
  rw [quantize, if_neg (by omega), h, signed_of_fits hword, ok_bind, if_neg (by omega),
    tenTo_of_le hle, ofOption_some, ok_bind]
  cases d.carry (10 ^ k) mode with
  | error e => rfl
  | ok carried =>
      rw [ok_bind, ok_bind, hzeros, signed_of_fits hzword, ok_bind, tenTo_of_le hzle,
        ofOption_some, ok_bind]

theorem quantize_far (hd : digits < 2 ^ 16) (h : 38 < d.scale - digits) :
    d.quantize digits mode =
      if Fits 64 (d.scale - digits) then .error (.refused ()) else .error .panicked := by
  rw [quantize, if_neg (by omega), signed]
  split
  case isTrue hf =>
    rw [ok_bind, if_neg (by omega), tenTo_far h]
    rfl
  case isFalse hf => rfl

theorem apply_far {k : ℕ} (hk : 38 < k) :
    mode.apply ((d.unscaled : ℚ) / (10 ^ k : ℤ)) =
      if mode = .up ∧ 0 < d.unscaled then 1
      else if mode = .down ∧ d.unscaled < 0 then -1 else 0 := by
  have hpow : (10 : ℤ) ^ 39 ≤ 10 ^ k := pow_le_pow_right₀ (by norm_num) hk
  have hfits := fits_128.1 d.fits
  have habs : 2 * |d.unscaled| < 10 ^ k :=
    lt_of_lt_of_le (by rw [← abs_two, ← abs_mul, abs_lt]; constructor <;> norm_num <;> omega) hpow
  have hq : d.unscaled.tdiv (10 ^ k) = 0 := by
    rw [← Int.natAbs_eq_zero, Int.natAbs_tdiv]
    apply Nat.div_eq_of_lt
    omega
  have hr : d.unscaled.tmod (10 ^ k) = d.unscaled := by
    have heq := Int.mul_tdiv_add_tmod d.unscaled (10 ^ k)
    rwa [hq, mul_zero, zero_add] at heq
  have hpos := pow_pos_int k
  cases mode with
  | half =>
      rw [Round.apply, roundAway_tdiv hpos, hr, hq, abs_mul, abs_two, if_neg (by omega)]
      rfl
  | up =>
      rw [Round.apply, ceil_tdiv hpos, hr, hq]
      simp
  | down =>
      rw [Round.apply, floor_tdiv hpos, hr, hq]
      simp

theorem fits_tenTo_iff {k : ℕ} : Fits 128 (10 ^ k) ↔ k ≤ maxDigits := by
  constructor
  · intro h
    by_contra hlt
    have hle : (10 : ℤ) ^ 39 ≤ 10 ^ k := pow_le_pow_right₀ (by norm_num) (not_le.1 hlt)
    have := hle.trans_lt h.2
    norm_num at this
  · exact fun h => (checked_eq_some.1 (checkedPow_of_le h)).1

theorem fits_neg_tenTo_iff {k : ℕ} : Fits 128 (-10 ^ k) ↔ k ≤ maxDigits := by
  constructor
  · intro h
    by_contra hlt
    have hle : (10 : ℤ) ^ 39 ≤ 10 ^ k := pow_le_pow_right₀ (by norm_num) (not_le.1 hlt)
    have hlow := neg_le_neg h.1
    rw [neg_neg, neg_neg] at hlow
    have := hle.trans hlow
    norm_num at this
  · intro h
    have hpow := fits_128.1 (fits_tenTo_iff.2 h)
    have hpos := pow_pos_int k
    exact fits_128.2 ⟨by omega, by omega⟩

/-- Half of what a number can hold or more is left over only of a number that has no whole
part, so that it rounds to one. -/
theorem fits_of_overflow {k : ℕ} (hk : k ≤ maxDigits)
    (h : ¬ Fits 128 |d.unscaled.tmod (10 ^ k) * 2|) (hz : zeros digits ≤ maxDigits) :
    Fits 128 (roundAway ((d.unscaled : ℚ) / (10 ^ k : ℤ)) * 10 ^ zeros digits) := by
  have hpos := pow_pos_int k
  have hpow : (10 : ℤ) ^ k ≤ 10 ^ 38 := pow_le_pow_right₀ (by norm_num) hk
  have hfits := fits_128.1 d.fits
  have hrest : 2 ^ 127 ≤ |d.unscaled.tmod (10 ^ k) * 2| := by
    by_contra hlt
    have hnonneg := abs_nonneg (d.unscaled.tmod (10 ^ k) * 2)
    exact h (fits_128.2 ⟨by omega, by omega⟩)
  rw [abs_mul, abs_two, Int.abs_eq_natAbs, Int.natAbs_tmod] at hrest
  have hwhole : (d.unscaled.tdiv (10 ^ k)).natAbs = 0 := by
    rw [Int.natAbs_tdiv]
    apply Nat.div_eq_of_lt
    have hlt := Nat.mod_lt d.unscaled.natAbs (Int.natAbs_pos.2 hpos.ne')
    have hsum := Nat.mod_add_div d.unscaled.natAbs (10 ^ k : ℤ).natAbs
    by_contra hge
    have hone : 1 ≤ d.unscaled.natAbs / (10 ^ k : ℤ).natAbs :=
      Nat.div_pos (not_lt.1 hge) (Int.natAbs_pos.2 hpos.ne')
    have hmul := Nat.mul_le_mul_left (10 ^ k : ℤ).natAbs hone
    omega
  have hzero : d.unscaled.tdiv (10 ^ k) = 0 := Int.natAbs_eq_zero.1 hwhole
  have hbig : (10 : ℤ) ^ k ≤ |d.unscaled.tmod (10 ^ k) * 2| := by
    rw [abs_mul, abs_two, Int.abs_eq_natAbs, Int.natAbs_tmod]
    omega
  rw [roundAway_tdiv hpos, if_pos hbig, hzero]
  split
  case isTrue =>
    rw [zero_sub, neg_one_mul]
    exact fits_neg_tenTo_iff.2 hz
  case isFalse =>
    rw [zero_add, one_mul]
    exact fits_tenTo_iff.2 hz

theorem dropped_right_iff (hs : d.scale ≤ maxDigits) {k : ℕ} (h : d.scale - digits = k)
    (hk : 0 < k) (hle : k ≤ maxDigits) :
    Answers (d.quantize digits mode) (placedScale digits)
        ((mode.apply ((d.unscaled : ℚ) / (10 ^ k : ℤ)) * 10 ^ zeros digits : ℤ) /
          10 ^ placedScale digits) ↔
      (mode = .half → Fits 128 |d.unscaled.tmod (10 ^ k) * 2|) := by
  rw [quantize_dropped hs h hk hle]
  by_cases ht : mode = .half → Fits 128 |d.unscaled.tmod (10 ^ k) * 2|
  · rw [carry_eq (two_le_tenTo hk) ht, ok_bind, iff_true_right ht]
    exact answers_ofChecked (placedScale_le digits) _
  · rw [iff_false_right ht]
    rw [Classical.not_imp] at ht
    obtain ⟨rfl, hover⟩ := ht
    intro hans
    rcases carry_overflow hover with hc | hc
    · rw [hc] at hans
      exact (answers_refused (placedScale_le digits) _).1 hans
        (fits_of_overflow hle hover (zeros_le hs h hle))
    · rw [hc] at hans
      exact hans

theorem far_right_iff (hs : d.scale ≤ maxDigits) {k : ℕ} (h : d.scale - digits = k)
    (hk : maxDigits < k) :
    Answers (d.quantize digits mode) (placedScale digits)
        ((mode.apply ((d.unscaled : ℚ) / (10 ^ k : ℤ)) * 10 ^ zeros digits : ℤ) /
          10 ^ placedScale digits) ↔
      Fits 64 (k : ℤ) ∧ digits < -maxDigits ∧
        (mode = .up ∧ 0 < d.unscaled ∨ mode = .down ∧ d.unscaled < 0) := by
  have hs38 : d.scale ≤ 38 := hs
  have hk38 : 38 < k := hk
  have hfar : 38 < (d.scale : ℤ) - digits := by omega
  have hzeros : digits < -maxDigits ↔ ¬ zeros digits ≤ maxDigits := by
    rw [zeros, placedScale, maxDigits]
    omega
  rw [quantize_far (by omega) hfar, h]
  by_cases hf : Fits 64 (k : ℤ)
  · rw [if_pos hf, answers_refused (placedScale_le digits), apply_far hk38, and_iff_right hf, hzeros]
    split
    case isTrue hup =>
      rw [one_mul, fits_tenTo_iff, and_iff_left (Or.inl hup)]
    case isFalse hup =>
      split
      case isTrue hdown => rw [neg_one_mul, fits_neg_tenTo_iff, and_iff_left (Or.inr hdown)]
      case isFalse hdown =>
        rw [zero_mul, iff_false_left (not_not.2 fits_zero)]
        rintro ⟨-, hor⟩
        exact hor.elim hup hdown
  · rw [if_neg hf, iff_false_right fun hc => hf hc.1]
    exact id

/-- What rounding to a place answers, at every number of digits. -/
theorem quantize_right_iff (hs : d.scale ≤ maxDigits) :
    Answers (d.quantize digits mode) (placedScale digits) (d.placed digits mode) ↔
      d.Places digits mode := by
  have hscale : placedScale digits ≤ maxDigits := placedScale_le digits
  have hs38 : d.scale ≤ 38 := hs
  rw [Places]
  by_cases hd : (2 : ℤ) ^ 16 ≤ digits
  · have h38 : placedScale digits = maxDigits := by
      rw [placedScale, maxDigits]
      omega
    have hrefused : d.quantize digits mode = .error (.refused ()) := if_pos (le_max_of_le_left hd)
    rw [if_pos hd, hrefused, placed_of_le (by omega), d.toRat_eq hs, h38]
    exact answers_refused le_rfl _
  rw [if_neg hd]
  by_cases hkept : d.scale - digits ≤ 0
  · have hle : d.scale ≤ placedScale digits := by
      rw [placedScale, maxDigits]
      omega
    rw [if_pos hkept, iff_true, quantize_kept hs (not_le.1 hd) hkept, placed_of_le hkept,
      d.toRat_eq hle]
    exact answers_ofChecked hscale _
  rw [if_neg hkept]
  obtain ⟨k, hk⟩ := Int.eq_ofNat_of_zero_le (show 0 ≤ d.scale - digits by omega)
  have hdigits : digits ≤ maxDigits := by
    rw [maxDigits]
    omega
  rw [hk, placed_eq hdigits hk]
  by_cases hle : k ≤ maxDigits
  · rw [if_pos (by exact_mod_cast hle), Int.toNat_natCast]
    exact dropped_right_iff hs hk (by omega) hle
  · rw [if_neg (by exact_mod_cast hle)]
    exact far_right_iff hs hk (not_le.1 hle)

end Quantize

end Decimal

end Zu.Common
