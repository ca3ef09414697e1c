import Zu.Lib.Signed

/-!
# Exact decimals

A decimal is an integer of 128 bits and how many of its digits stand after the point.
-/

namespace Zu.Common

open Lib

def maxDigits : ℕ := 38

structure Decimal where
  unscaled : ℤ
  scale : ℕ
  fits : Fits 128 unscaled
  deriving DecidableEq

namespace Decimal

/-- The decimal of a checked operation's result. -/
def ofChecked (n : ℤ) (scale : ℕ) : Option Decimal :=
  if h : Fits 128 n then some ⟨n, scale, h⟩ else none

/-- `10i128.checked_pow`. -/
def checkedPow (k : ℕ) : Option ℤ := checked 128 (10 ^ k)

def rescale (d : Decimal) (scale : ℕ) : Option Decimal :=
  if scale = d.scale then some d
  else if d.scale < scale then do
    let factor ← checkedPow (scale - d.scale)
    ofChecked (d.unscaled * factor) scale
  else do
    let factor ← checkedPow (d.scale - scale)
    if d.unscaled.tmod factor = 0 then ofChecked (d.unscaled.tdiv factor) scale else none

def align (a b : Decimal) : Option (Decimal × Decimal) := do
  let scale := max a.scale b.scale
  let a ← a.rescale scale
  let b ← b.rescale scale
  some (a, b)

/-! ### The number a decimal is -/

def toRat (d : Decimal) : ℚ := d.unscaled / 10 ^ d.scale

/-- The number in units of ten to the minus `s`, which is no smaller than its scale. -/
def units (d : Decimal) (s : ℕ) : ℤ := d.unscaled * 10 ^ (s - d.scale)

theorem ofChecked_eq_some {n : ℤ} {scale : ℕ} {d : Decimal} :
    ofChecked n scale = some d ↔ d.unscaled = n ∧ d.scale = scale := by
  rw [ofChecked]
  split
  case isTrue h =>
    constructor
    · intro hd
      rw [← Option.some.inj hd]
      exact ⟨rfl, rfl⟩
    · rintro ⟨rfl, rfl⟩
      rfl
  case isFalse h =>
    constructor
    · exact fun hd => nomatch hd
    · rintro ⟨rfl, -⟩
      exact absurd d.fits h

theorem ofChecked_of_fits {n : ℤ} {scale : ℕ} (h : Fits 128 n) :
    ofChecked n scale = some ⟨n, scale, h⟩ := dif_pos h

theorem ofChecked_eq_none {n : ℤ} {scale : ℕ} : ofChecked n scale = none ↔ ¬ Fits 128 n := by
  rw [ofChecked]
  split
  case isTrue h => simp [h]
  case isFalse h => simp [h]

theorem toRat_eq (d : Decimal) {s : ℕ} (h : d.scale ≤ s) : d.toRat = d.units s / 10 ^ s := by
  obtain ⟨k, rfl⟩ := Nat.exists_eq_add_of_le h
  have hk : (10 : ℚ) ^ k ≠ 0 := by positivity
  rw [toRat, units, Nat.add_sub_cancel_left, pow_add]
  push_cast
  rw [mul_div_mul_right _ _ hk]

theorem compare_div (m n : ℤ) (s : ℕ) :
    compare ((m : ℚ) / 10 ^ s) ((n : ℚ) / 10 ^ s) = compare m n := by
  have hs : (0 : ℚ) < 10 ^ s := by positivity
  rcases lt_trichotomy m n with h | h | h
  · rw [compare_lt_iff_lt.2 h, compare_lt_iff_lt]
    exact div_lt_div_of_pos_right (by exact_mod_cast h) hs
  · rw [h, compare_eq_iff_eq.2 rfl, compare_eq_iff_eq.2 rfl]
  · rw [compare_gt_iff_gt.2 h, compare_gt_iff_gt]
    exact div_lt_div_of_pos_right (by exact_mod_cast h) hs

/-- Numbers compare as they do in the units of a scale that is large enough for both. -/
theorem compare_toRat {a b : Decimal} {s : ℕ} (ha : a.scale ≤ s) (hb : b.scale ≤ s) :
    compare a.toRat b.toRat = compare (a.units s) (b.units s) := by
  rw [a.toRat_eq ha, b.toRat_eq hb, compare_div]

theorem checkedPow_of_le {k : ℕ} (h : k ≤ maxDigits) : checkedPow k = some (10 ^ k) := by
  apply checked_of_fits
  have hle : (10 : ℤ) ^ k ≤ 10 ^ 38 := pow_le_pow_right₀ (by norm_num) h
  have hpos : (0 : ℤ) < 10 ^ k := by positivity
  rw [fits_128]
  constructor
  · omega
  · exact hle.trans_lt (by norm_num)

theorem rescale_up {d : Decimal} {s : ℕ} (h : d.scale ≤ s) (hs : s ≤ maxDigits) :
    d.rescale s = ofChecked (d.units s) s := by
  rw [rescale, units]
  split
  case isTrue heq =>
    rw [heq, Nat.sub_self, pow_zero, mul_one, ofChecked_of_fits d.fits]
  case isFalse hne =>
    rw [if_pos (by omega), checkedPow_of_le (by omega)]
    rfl

/-- Two decimals are aligned when both can be written at the larger scale. -/
theorem align_eq {a b : Decimal} (ha : a.scale ≤ maxDigits) (hb : b.scale ≤ maxDigits) :
    align a b =
      if h : Fits 128 (a.units (max a.scale b.scale)) ∧ Fits 128 (b.units (max a.scale b.scale)) then
        some (⟨_, max a.scale b.scale, h.1⟩, ⟨_, max a.scale b.scale, h.2⟩)
      else none := by
  rw [align]
  rw [rescale_up (le_max_left _ _) (max_le ha hb), rescale_up (le_max_right _ _) (max_le ha hb)]
  by_cases hfa : Fits 128 (a.units (max a.scale b.scale))
  · by_cases hfb : Fits 128 (b.units (max a.scale b.scale))
    · rw [dif_pos ⟨hfa, hfb⟩, ofChecked_of_fits hfa, ofChecked_of_fits hfb]
      rfl
    · rw [dif_neg fun h => hfb h.2, ofChecked_of_fits hfa, ofChecked_eq_none.2 hfb]
      rfl
  · rw [dif_neg fun h => hfa h.1, ofChecked_eq_none.2 hfa]
    rfl

end Decimal

end Zu.Common
