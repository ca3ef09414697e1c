import Zu.Common.Arithmetic
import Zu.Lib.Fallible

/-!
# What decimal arithmetic answers

Each operation against the number it stands for, and exactly when it answers with it.
-/

namespace Zu.Common

open Lib Checked

namespace Decimal

/-- A computation ends with the number at the scale, or refuses a number that no decimal of
the scale is. -/
def Answers (x : Checked Unit Decimal) (scale : ℕ) (q : ℚ) : Prop :=
  match x with
  | .ok d => d.scale = scale ∧ d.toRat = q
  | .error (.refused _) => ∀ d : Decimal, d.scale = scale → scale ≤ maxDigits → d.toRat ≠ q
  | .error .panicked => False

theorem toRat_eq_iff {d : Decimal} {scale : ℕ} (n : ℤ) (h : d.scale = scale) :
    d.toRat = n / 10 ^ scale ↔ d.unscaled = n := by
  have hpow : (10 : ℚ) ^ scale ≠ 0 := by positivity
  rw [toRat, h, div_left_inj' hpow]
  exact Int.cast_inj

theorem answers_iff {x : Checked Unit Decimal} {scale : ℕ} (hs : scale ≤ maxDigits) (n : ℤ) :
    Answers x scale (n / 10 ^ scale) ↔ x = ofOption (ofChecked n scale) := by
  match x with
  | .ok d =>
      constructor
      · rintro ⟨hd, hq⟩
        rw [ofChecked_eq_some.2 ⟨(toRat_eq_iff n hd).1 hq, hd⟩]
        rfl
      · intro h
        rw [ofChecked] at h
        split at h
        case isTrue hn =>
          cases h
          exact ⟨rfl, rfl⟩
        case isFalse => cases h
  | .error (.refused ()) =>
      constructor
      · intro h
        rw [ofChecked_eq_none.2 fun hn => h ⟨n, scale, hn⟩ rfl hs rfl]
        rfl
      · intro h d hd _ hq
        rw [ofChecked_eq_some.2 ⟨(toRat_eq_iff n hd).1 hq, hd⟩] at h
        cases h
  | .error .panicked =>
      constructor
      · exact fun h => h.elim
      · intro h
        rw [ofChecked] at h
        split at h
        case isTrue => cases h
        case isFalse => cases h

/-- A refusal is right where the number does not fit. -/
theorem answers_refused {scale : ℕ} (hs : scale ≤ maxDigits) (n : ℤ) :
    Answers (.error (.refused ())) scale (n / 10 ^ scale) ↔ ¬ Fits 128 n := by
  have hnone : ofChecked n scale = none ↔ ¬ Fits 128 n := ofChecked_eq_none
  rw [answers_iff hs, ← hnone]
  cases ofChecked n scale with
  | none => exact iff_of_true rfl rfl
  | some d => exact iff_of_false (fun h => nomatch h) (fun h => nomatch h)

theorem answers_ofChecked {scale : ℕ} (hs : scale ≤ maxDigits) (n : ℤ) :
    Answers (ofOption (ofChecked n scale)) scale (n / 10 ^ scale) := (answers_iff hs n).2 rfl

/-! ### At one scale -/

section Aligned

/-- What a sum is counted in. -/
def common (a b : Decimal) : ℕ := max a.scale b.scale

variable {a b : Decimal} (ha : a.scale ≤ maxDigits) (hb : b.scale ≤ maxDigits)

theorem left_le : a.scale ≤ common a b := le_max_left _ _

theorem right_le : b.scale ≤ common a b := le_max_right _ _

theorem fits_or : Fits 128 (a.units (common a b)) ∨ Fits 128 (b.units (common a b)) := by
  rcases le_total a.scale b.scale with h | h
  · right
    rw [common, max_eq_right h, units, Nat.sub_self, pow_zero, mul_one]
    exact b.fits
  · left
    rw [common, max_eq_left h, units, Nat.sub_self, pow_zero, mul_one]
    exact a.fits

include ha hb

theorem common_le : common a b ≤ maxDigits := max_le ha hb

theorem align_none : align a b = none ↔
    ¬ (Fits 128 (a.units (common a b)) ∧ Fits 128 (b.units (common a b))) := by
  rw [align_eq ha hb]
  split
  case isTrue h => exact iff_of_false (fun h => by cases h) (not_not.2 h)
  case isFalse h => exact iff_of_true rfl h

theorem align_some
    (hf : Fits 128 (a.units (common a b)) ∧ Fits 128 (b.units (common a b))) :
    align a b = some (⟨_, common a b, hf.1⟩, ⟨_, common a b, hf.2⟩) := by
  rw [align_eq ha hb]
  exact dif_pos hf

/-- An operation on the aligned integers answers where they are aligned. -/
theorem aligned_right_iff (f : ℤ → ℤ → ℤ) :
    Answers (ofOption do
        let (a, b) ← align a b
        ofChecked (f a.unscaled b.unscaled) a.scale) (common a b)
        (f (a.units (common a b)) (b.units (common a b)) / 10 ^ common a b) ↔
      align a b ≠ none ∨ ¬ Fits 128 (f (a.units (common a b)) (b.units (common a b))) := by
  by_cases h : align a b = none
  · rw [h, or_iff_right (not_not.2 rfl)]
    exact answers_refused (common_le ha hb) _
  · rw [or_iff_left_of_imp (fun _ => h), iff_true_right h]
    have hf := not_not.1 ((align_none ha hb).not.1 h)
    rw [align_some ha hb hf]
    exact answers_ofChecked (common_le ha hb) _

theorem add_right_iff :
    Answers (ofOption (add a b)) (common a b) (a.toRat + b.toRat) ↔
      align a b ≠ none ∨ ¬ Fits 128 (a.units (common a b) + b.units (common a b)) := by
  have hq : a.toRat + b.toRat =
      ((a.units (common a b) + b.units (common a b) : ℤ) : ℚ) / 10 ^ common a b := by
    rw [a.toRat_eq (left_le (b := b)), b.toRat_eq (right_le (a := a)), ← add_div]
    push_cast
    rfl
  rw [hq]
  exact aligned_right_iff ha hb (· + ·)

theorem sub_right_iff :
    Answers (ofOption (sub a b)) (common a b) (a.toRat - b.toRat) ↔
      align a b ≠ none ∨ ¬ Fits 128 (a.units (common a b) - b.units (common a b)) := by
  have hq : a.toRat - b.toRat =
      ((a.units (common a b) - b.units (common a b) : ℤ) : ℚ) / 10 ^ common a b := by
    rw [a.toRat_eq (left_le (b := b)), b.toRat_eq (right_le (a := a)), ← sub_div]
    push_cast
    rfl
  rw [hq]
  exact aligned_right_iff ha hb (· - ·)

end Aligned

theorem units_eq_zero {d : Decimal} {s : ℕ} : d.units s = 0 ↔ d.unscaled = 0 := by
  rw [units, mul_eq_zero, or_iff_left (by positivity)]

theorem toRat_eq_zero {d : Decimal} : d.toRat = 0 ↔ d.unscaled = 0 := by
  rw [toRat, div_eq_zero_iff, or_iff_left (by positivity), Int.cast_eq_zero]

theorem rem_zero {a b : Decimal} (ha : a.scale ≤ maxDigits) (hb : b.scale ≤ maxDigits)
    (h : b.unscaled = 0) : rem a b = none := by
  rw [rem, align_eq ha hb]
  split
  case isTrue hf => exact if_pos (units_eq_zero.2 h)
  case isFalse => rfl

theorem truncate_div {m n : ℤ} (hn : n ≠ 0) : truncate ((m : ℚ) / n) = m.tdiv n := by
  rcases lt_or_gt_of_ne hn with h | h
  · have hneg : (m : ℚ) / n = ((-m : ℤ) : ℚ) / ((-n : ℤ) : ℚ) := by
      push_cast
      rw [neg_div_neg_eq]
    rw [hneg, truncate_tdiv (by omega), Int.tdiv_neg, Int.neg_tdiv, neg_neg]
  · exact truncate_tdiv h

theorem rem_right_iff {a b : Decimal} (ha : a.scale ≤ maxDigits) (hb : b.scale ≤ maxDigits)
    (h : b.unscaled ≠ 0) :
    Answers (ofOption (rem a b)) (common a b)
        (a.toRat - b.toRat * truncate (a.toRat / b.toRat)) ↔
      align a b ≠ none ∧ Fits 128 ((a.units (common a b)).tdiv (b.units (common a b))) := by
  have hne : b.units (common a b) ≠ 0 := units_eq_zero.not.2 h
  have hpow : (10 : ℚ) ^ common a b ≠ 0 := by positivity
  have hq : a.toRat - b.toRat * truncate (a.toRat / b.toRat) =
      ((a.units (common a b)).tmod (b.units (common a b)) : ℚ) / 10 ^ common a b := by
    rw [a.toRat_eq (left_le (b := b)), b.toRat_eq (right_le (a := a)),
      div_div_div_cancel_right₀ hpow, truncate_div hne, Int.tmod_def]
    push_cast
    ring
  have hfit : Fits 128 ((a.units (common a b)).tmod (b.units (common a b))) := by
    rcases fits_or (a := a) (b := b) with hf | hf
    · exact hf.tmod_left
    · exact hf.tmod_right hne
  rw [hq]
  by_cases hal : Fits 128 (a.units (common a b)) ∧ Fits 128 (b.units (common a b))
  · have hcase : rem a b =
        (checkedRem (a.units (common a b)) (b.units (common a b))).bind fun unscaled =>
          ofChecked unscaled (common a b) := by
      rw [rem, align_some ha hb hal]
      exact if_neg hne
    rw [hcase, and_iff_right ((align_none ha hb).not.2 (not_not.2 hal)), checkedRem]
    by_cases hd : Fits 128 ((a.units (common a b)).tdiv (b.units (common a b)))
    · rw [if_pos ⟨hne, hd⟩, iff_true_right hd]
      exact answers_ofChecked (common_le ha hb) _
    · rw [if_neg fun hc => hd hc.2, iff_false_right hd]
      exact fun hr => (answers_refused (common_le ha hb) _).1 hr hfit
  · have hnone := (align_none ha hb).2 hal
    rw [rem, hnone, iff_false_right fun hc => hc.1 rfl]
    exact fun hr => (answers_refused (common_le ha hb) _).1 hr hfit

theorem mul_right {a b : Decimal} (hs : a.scale ≤ maxDigits) (hb : b.scale ≤ maxDigits) :
    Answers (ofOption (mul a b)) (a.scale + b.scale) (a.toRat * b.toRat) := by
  have hq : a.toRat * b.toRat =
      ((a.unscaled * b.unscaled : ℤ) : ℚ) / 10 ^ (a.scale + b.scale) := by
    rw [toRat, toRat, div_mul_div_comm, pow_add]
    push_cast
    rfl
  have hword : a.scale + b.scale < 2 ^ 16 :=
    (Nat.add_le_add hs hb).trans_lt (by decide)
  rw [mul, if_pos hword, hq]
  split
  case isTrue h => exact fun d _ hle => absurd hle (not_le.2 h)
  case isFalse h => exact answers_ofChecked (not_lt.1 h) _

end Decimal

end Zu.Common
