import Zu.Common.Placed
import Zu.Lib.Text

/-!
# Decimals read from text

A numeral is a sign, digits with a point among them, and an exponent. It is read as one
integer, which is then moved to the scale that is wanted.
-/

namespace Zu.Common

open Lib Checked

def splitSign : Text → Bool × Text
  | '-' :: rest => (true, rest)
  | '+' :: rest => (false, rest)
  | rest => (false, rest)

def splitExponent (read : Text → Option ℤ) (rest : Text) : Option (Text × ℤ) :=
  match splitOnce (fun c => c == 'e' || c == 'E') rest with
  | some (mantissa, exponent) => (read exponent).map fun n => (mantissa, n)
  | none => some (rest, 0)

/-- The digits before the point and after it. -/
def splitPoint (mantissa : Text) : Text × Text :=
  (splitOnce (· == '.') mantissa).getD (mantissa, [])

/-- `parse::<i32>`. -/
def readI32 (text : Text) : Option ℤ := (readInt text).bind (checked 32)

/-- The loop of `parse` over the digits. -/
def accumulate : ℤ → Text → Option ℤ
  | digits, [] => some digits
  | digits, c :: cs => do
      let tens ← checked 128 (digits * 10)
      let digits ← checked 128 (tens + digitOf c)
      accumulate digits cs

namespace Decimal

def parse (text : Text) (scale : ℕ) : Checked Unit Decimal := do
  let sign := splitSign (trim text)
  let (mantissa, exponent) ← ofOption (splitExponent readI32 sign.2)
  let (whole, fraction) := splitPoint mantissa
  if whole = [] ∧ fraction = [] then refuse ()
  else if ¬ (whole ++ fraction).all isDigit then refuse ()
  else do
    let digits ← ofOption (accumulate 0 (whole ++ fraction))
    let places ← ofOption (checked 64 fraction.length)
    let written ← ofOption (checked 64 (places - exponent))
    let unscaled ← shift digits written scale
    ofSigned (if sign.1 then -unscaled else unscaled) scale

end Decimal

/-- What a text writes. -/
structure Numeral where
  negative : Bool
  digits : ℕ
  places : ℕ
  exponent : ℤ
  deriving DecidableEq

namespace Numeral

/-- The numeral a text writes, of whatever size. -/
def ofText (text : Text) : Option Numeral := do
  let sign := splitSign (trim text)
  let (mantissa, exponent) ← splitExponent readInt sign.2
  let (whole, fraction) := splitPoint mantissa
  if whole = [] ∧ fraction = [] then none
  else if ¬ (whole ++ fraction).all isDigit then none
  else some ⟨sign.1, valueOf (whole ++ fraction), fraction.length, exponent⟩

def value (n : Numeral) : ℚ :=
  (if n.negative then -(n.digits : ℚ) else n.digits) * 10 ^ (n.exponent - n.places)

/-- What is done with a numeral that is read. -/
def convert (n : Numeral) (scale : ℕ) : Checked Unit Decimal := do
  let exponent ← ofOption (checked 32 n.exponent)
  let digits ← ofOption (checked 128 n.digits)
  let places ← ofOption (checked 64 n.places)
  let written ← ofOption (checked 64 (places - exponent))
  let unscaled ← shift digits written scale
  Decimal.ofSigned (if n.negative then -unscaled else unscaled) scale

end Numeral

theorem accumulate_eq {acc : ℕ} {digits : Text} (h : Fits 128 (acc : ℤ)) :
    accumulate acc digits = checked 128 (valueFrom digits acc) := by
  induction digits generalizing acc with
  | nil => rw [accumulate, valueFrom, checked_of_fits h]
  | cons c cs ih =>
      have hle := le_valueFrom cs (acc * 10 + digitOf c)
      rw [accumulate, valueFrom]
      by_cases hf : Fits 128 ((acc * 10 + digitOf c : ℕ) : ℤ)
      · have htens : Fits 128 ((acc : ℤ) * 10) := by
          rw [fits_128] at hf ⊢
          push_cast at hf
          omega
        have hsum : (acc : ℤ) * 10 + digitOf c = ((acc * 10 + digitOf c : ℕ) : ℤ) := by
          push_cast
          rfl
        rw [checked_of_fits htens, Option.bind_eq_bind, Option.bind_some, hsum, checked_of_fits hf,
          Option.bind_some, ih hf]
      · have hover : ¬ Fits 128 (valueFrom cs (acc * 10 + digitOf c) : ℤ) := by
          intro hv
          rw [fits_128] at hf hv
          omega
        rw [checked_eq_none.2 hover]
        by_cases htens : Fits 128 ((acc : ℤ) * 10)
        · rw [checked_of_fits htens, Option.bind_eq_bind, Option.bind_some,
            checked_eq_none.2 (by exact_mod_cast hf)]
          rfl
        · rw [checked_eq_none.2 htens]
          rfl

theorem splitExponent_i32 (rest : Text) :
    splitExponent readI32 rest =
      (splitExponent readInt rest).bind fun s => (checked 32 s.2).map fun n => (s.1, n) := by
  rw [splitExponent, splitExponent]
  cases splitOnce (fun c => c == 'e' || c == 'E') rest with
  | none => rfl
  | some s =>
      dsimp only
      rw [readI32]
      cases readInt s.2 with
      | none => rfl
      | some n => rfl

theorem Decimal.parse_eq (text : Text) (scale : ℕ) :
    Decimal.parse text scale =
      match Numeral.ofText text with
      | none => .error (.refused ())
      | some n => n.convert scale := by
  rw [parse, splitExponent_i32]
  unfold Numeral.ofText
  dsimp only
  cases splitExponent readInt (splitSign (trim text)).2 with
  | none => rfl
  | some s =>
      obtain ⟨mantissa, exponent⟩ := s
      cases hpoint : splitPoint mantissa with
      | mk whole fraction =>
          rw [Option.bind_some, Option.bind_eq_bind, Option.bind_some]
          dsimp only
          rw [hpoint]
          dsimp only
          by_cases hempty : whole = [] ∧ fraction = []
          · rw [if_pos hempty]
            cases checked 32 exponent with
            | none => rfl
            | some n =>
                rw [Option.map_some, ofOption_some, ok_bind]
                dsimp only
                rw [hpoint]
                exact if_pos hempty
          · rw [if_neg hempty]
            by_cases hdigits : ¬ (whole ++ fraction).all isDigit
            · rw [if_pos hdigits]
              cases checked 32 exponent with
              | none => rfl
              | some n =>
                  rw [Option.map_some, ofOption_some, ok_bind]
                  dsimp only
                  rw [hpoint]
                  exact (if_neg hempty).trans (if_pos hdigits)
            · rw [if_neg hdigits]
              dsimp only
              rw [Numeral.convert]
              cases checked 32 exponent with
              | none => rfl
              | some n =>
                  have hacc : accumulate (0 : ℕ) (whole ++ fraction) =
                      checked 128 (valueFrom (whole ++ fraction) 0) := accumulate_eq fits_zero
                  rw [Nat.cast_zero] at hacc
                  rw [Option.map_some, ofOption_some, ofOption_some, ok_bind, ok_bind]
                  dsimp only
                  rw [hpoint]
                  dsimp only
                  rw [if_neg hempty, if_neg hdigits, hacc]
                  rfl

namespace Numeral

open Decimal

/-- A numeral that every step of its reading has room for. -/
def Reads (n : Numeral) (scale : ℕ) : Prop :=
  Fits 128 n.digits ∧ Fits 32 n.exponent ∧ |scale - (n.places - n.exponent)| ≤ maxDigits ∧
    Fits 128 ((n.digits : ℤ).tmod (10 ^ (n.places - n.exponent - scale).toNat) * 2)

theorem value_eq (n : Numeral) (scale up down : ℕ)
    (h : scale + down = n.places - n.exponent + up) :
    n.value * 10 ^ scale =
      if n.negative then -(((n.digits * 10 ^ up : ℤ) : ℚ) / (10 ^ down : ℤ))
      else ((n.digits * 10 ^ up : ℤ) : ℚ) / (10 ^ down : ℤ) := by
  have hpow : (10 : ℚ) ^ (n.exponent - n.places) * 10 ^ scale = 10 ^ up / 10 ^ down := by
    rw [eq_div_iff (by positivity), ← zpow_natCast, ← zpow_natCast, ← zpow_natCast,
      ← zpow_add₀ (by norm_num), ← zpow_add₀ (by norm_num)]
    congr 1
    omega
  rw [value, mul_assoc, hpow]
  push_cast
  split
  case isTrue => ring
  case isFalse => ring

theorem convert_near {n : Numeral} {scale : ℕ} (hs : scale ≤ maxDigits)
    (hd : Fits 128 (n.digits : ℤ)) (he : Fits 32 n.exponent)
    (hb : |(scale : ℤ) - (n.places - n.exponent)| ≤ maxDigits) :
    n.convert scale = (do
      let unscaled ← shift n.digits (n.places - n.exponent) scale
      ofSigned (withSign n.negative unscaled) scale) := by
  have hs38 : scale ≤ 38 := hs
  have hb38 : |(scale : ℤ) - (n.places - n.exponent)| ≤ 38 := hb
  obtain ⟨hlo, hhi⟩ := abs_le.1 hb38
  have he32 := fits_32.1 he
  have hplaces : Fits 64 (n.places : ℤ) := fits_64.2 ⟨by omega, by omega⟩
  have hwritten : Fits 64 ((n.places : ℤ) - n.exponent) := fits_64.2 ⟨by omega, by omega⟩
  rw [convert, checked_of_fits he, ofOption_some, ok_bind, checked_of_fits hd, ofOption_some,
    ok_bind, checked_of_fits hplaces, ofOption_some, ok_bind, checked_of_fits hwritten,
    ofOption_some, ok_bind]
  rfl

/-- What does not fit, or is written too far from the scale, is refused. -/
theorem convert_refused {n : Numeral} {scale : ℕ}
    (h : ¬ (Fits 128 (n.digits : ℤ) ∧ Fits 32 n.exponent ∧
      |(scale : ℤ) - (n.places - n.exponent)| ≤ maxDigits)) :
    n.convert scale = .error (.refused ()) := by
  rw [convert]
  by_cases he : Fits 32 n.exponent
  · rw [checked_of_fits he, ofOption_some, ok_bind]
    by_cases hd : Fits 128 (n.digits : ℤ)
    · rw [checked_of_fits hd, ofOption_some, ok_bind]
      by_cases hplaces : Fits 64 (n.places : ℤ)
      · rw [checked_of_fits hplaces, ofOption_some, ok_bind]
        by_cases hwritten : Fits 64 ((n.places : ℤ) - n.exponent)
        · have hfar : 38 < |(scale : ℤ) - (n.places - n.exponent)| :=
            not_le.1 fun hle => h ⟨hd, he, hle⟩
          rw [checked_of_fits hwritten, ofOption_some, ok_bind,
            shift_far hwritten (Int.natCast_nonneg scale) hfar]
          rfl
        · rw [checked_eq_none.2 hwritten]
          rfl
      · rw [checked_eq_none.2 hplaces]
        rfl
    · rw [checked_eq_none.2 hd]
      rfl
  · rw [checked_eq_none.2 he]
    rfl

/-- The least number ends in no nought, so that a sign makes no more room. -/
theorem fits_of_withSign {negative : Bool} {digits k : ℕ} (hd : Fits 128 (digits : ℤ))
    (h : Fits 128 (withSign negative (digits * 10 ^ k))) :
    Fits 128 ((digits : ℤ) * 10 ^ k) := by
  have hpos : 0 ≤ (digits : ℤ) * 10 ^ k := by positivity
  cases negative with
  | false => exact h
  | true =>
      rcases k.eq_zero_or_pos with rfl | hk
      · rwa [pow_zero, mul_one]
      · obtain ⟨j, rfl⟩ := Nat.exists_eq_succ_of_ne_zero hk.ne'
        have hten : (digits : ℤ) * 10 ^ j.succ = 10 * (digits * 10 ^ j) := by
          rw [Nat.succ_eq_add_one, pow_succ]
          ring
        have hneg := fits_128.1 (show Fits 128 (-((digits : ℤ) * 10 ^ j.succ)) from h)
        exact fits_128.2 ⟨by omega, by omega⟩

theorem convert_up_right {n : Numeral} {scale k : ℕ} (hs : scale ≤ maxDigits)
    (hd : Fits 128 (n.digits : ℤ)) (hk : k ≤ maxDigits)
    (h : (scale : ℤ) - (n.places - n.exponent) = k) :
    Answers (do
        let unscaled ← shift n.digits (n.places - n.exponent) scale
        ofSigned (withSign n.negative unscaled) scale) scale
      (roundAway (n.value * 10 ^ scale) / 10 ^ scale) := by
  have hround : roundAway (n.value * 10 ^ scale) =
      withSign n.negative (n.digits * 10 ^ k) := by
    rw [n.value_eq scale k 0 (by omega), roundAway_withSign, pow_zero, Int.cast_one,
      div_one, roundAway_intCast]
  rw [shift_up hd hk h, hround, answers_iff hs]
  by_cases hf : Fits 128 ((n.digits : ℤ) * 10 ^ k)
  · have hwhole : Fits 128 (withSign n.negative ((n.digits : ℤ) * 10 ^ k)) :=
      withSign_fits (by positivity) hf
    rw [checked_of_fits hf, ofOption_some, ok_bind, ofSigned_of_fits hwhole]
  · rw [checked_eq_none.2 hf, ofChecked_eq_none.2 fun hw => hf (fits_of_withSign hd hw)]
    rfl

theorem convert_down_right_iff {n : Numeral} {scale k : ℕ} (hs : scale ≤ maxDigits)
    (hd : Fits 128 (n.digits : ℤ)) (hk : k ≤ maxDigits) (hpos : 0 < k)
    (h : (scale : ℤ) - (n.places - n.exponent) = -k) :
    Answers (do
        let unscaled ← shift n.digits (n.places - n.exponent) scale
        ofSigned (withSign n.negative unscaled) scale) scale
      (roundAway (n.value * 10 ^ scale) / 10 ^ scale) ↔
      Fits 128 ((n.digits : ℤ).tmod (10 ^ k) * 2) := by
  have hround : roundAway (n.value * 10 ^ scale) =
      withSign n.negative (roundAway (((n.digits : ℤ) : ℚ) / (10 ^ k : ℤ))) := by
    rw [n.value_eq scale 0 k (by omega), roundAway_withSign, pow_zero, mul_one]
  rw [shift_down hd (Int.natCast_nonneg _) hk hpos h, hround, ok_bind]
  exact lastDigit_right_iff hs (Int.natCast_nonneg _) hd (pow_pos_int k)
    (fits_tenTo_iff.2 hk)

theorem convert_right_iff (n : Numeral) {scale : ℕ} (hs : scale ≤ maxDigits) :
    Answers (n.convert scale) scale (roundAway (n.value * 10 ^ scale) / 10 ^ scale) ↔
      n.Reads scale ∨ ¬ Fits 128 (roundAway (n.value * 10 ^ scale)) := by
  by_cases h : Fits 128 (n.digits : ℤ) ∧ Fits 32 n.exponent ∧
      |(scale : ℤ) - (n.places - n.exponent)| ≤ maxDigits
  · obtain ⟨hd, he, hb⟩ := h
    rw [convert_near hs hd he hb]
    rcases lt_or_ge ((scale : ℤ) - (n.places - n.exponent)) 0 with hneg | hpos
    · obtain ⟨k, hk⟩ := Int.eq_ofNat_of_zero_le
        (show 0 ≤ -((scale : ℤ) - (n.places - n.exponent)) by omega)
      have hk' : (scale : ℤ) - (n.places - n.exponent) = -k := by omega
      have hle : k ≤ maxDigits := by
        rw [hk', abs_neg, Nat.abs_cast] at hb
        exact_mod_cast hb
      have hdown : ((n.places : ℤ) - n.exponent - scale).toNat = k := by omega
      have hfit := roundAway_fits (Int.natCast_nonneg _) hd (pow_pos_int k)
      have hround : Fits 128 (roundAway (n.value * 10 ^ scale)) := by
        rw [n.value_eq scale 0 k (by omega), roundAway_withSign, pow_zero, mul_one]
        exact withSign_fits hfit.1 hfit.2
      rw [convert_down_right_iff hs hd hle (by omega) hk', or_iff_left (not_not.2 hround), Reads,
        hdown]
      exact ⟨fun ht => ⟨hd, he, hb, ht⟩, fun ht => ht.2.2.2⟩
    · obtain ⟨k, hk⟩ := Int.eq_ofNat_of_zero_le hpos
      have hle : k ≤ maxDigits := by
        rw [hk, Nat.abs_cast] at hb
        exact_mod_cast hb
      have hdown : ((n.places : ℤ) - n.exponent - scale).toNat = 0 := by omega
      have hreads : n.Reads scale := by
        rw [Reads, hdown, pow_zero, Int.tmod_one, zero_mul]
        exact ⟨hd, he, hb, fits_zero⟩
      exact iff_of_true (convert_up_right hs hd hle hk) (Or.inl hreads)
  · rw [convert_refused h, answers_refused hs, or_iff_right]
    exact fun hr => h ⟨hr.1, hr.2.1, hr.2.2.1⟩

end Numeral

end Zu.Common
