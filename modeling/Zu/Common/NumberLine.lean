import Zu.Common.Decimal

/-!
# The order, the equality and the hash of decimals

Two decimals are compared at the larger of their scales, and where one of them cannot be
written at it, by their signs and how many digits they have before the point.
-/

namespace Zu.Common

open Lib

namespace Decimal

/-- The loop of `digits`. -/
def digitCount (left : ℕ) : ℕ := if left < 10 then 1 else digitCount (left / 10) + 1

def digits (d : Decimal) : ℕ := digitCount d.unscaled.natAbs

/-- The digits before the point. -/
def whole (d : Decimal) : ℤ := (d.digits : ℤ) - d.scale

def cmp (a b : Decimal) : Ordering :=
  match align a b with
  | some (a, b) => compare a.unscaled b.unscaled
  | none =>
      let sign := compare a.unscaled.sign b.unscaled.sign
      if sign ≠ .eq then sign
      else
        let bySize := compare a.whole b.whole
        if a.unscaled < 0 then bySize.swap else bySize

/-- The loop of `hash`, which takes the trailing noughts off. -/
def strip (unscaled scale : ℤ) : ℤ × ℤ :=
  if h : unscaled ≠ 0 ∧ unscaled.tmod 10 = 0 then strip (unscaled.tdiv 10) (scale - 1)
  else (unscaled, scale)
termination_by unscaled.natAbs
decreasing_by
  rw [Int.natAbs_tdiv]
  exact Nat.div_lt_self (Int.natAbs_pos.2 h.1) (by decide)

/-- What `hash` feeds the hasher. -/
def hashed (d : Decimal) : ℤ × ℤ :=
  let normal := strip d.unscaled d.scale
  (normal.1, if normal.1 = 0 then 0 else normal.2)

/-! ### Digits -/

theorem digitCount_eq (n : ℕ) : digitCount n = Nat.log 10 n + 1 := by
  induction n using digitCount.induct with
  | case1 n h =>
      rw [digitCount, if_pos h, Nat.log_of_lt h]
  | case2 n h ih =>
      rw [digitCount, if_neg h, ih, ← Nat.log_of_one_lt_of_le (by decide) (not_lt.1 h)]

theorem digitCount_mono {m n : ℕ} (h : m ≤ n) : digitCount m ≤ digitCount n := by
  rw [digitCount_eq, digitCount_eq]
  exact Nat.succ_le_succ (Nat.log_mono_right h)

theorem digitCount_mul_pow {n : ℕ} (h : n ≠ 0) (k : ℕ) :
    digitCount (n * 10 ^ k) = digitCount n + k := by
  induction k with
  | zero => simp
  | succ k ih =>
      have hne : n * 10 ^ k ≠ 0 := mul_ne_zero h (by positivity)
      rw [pow_succ, ← mul_assoc, digitCount_eq, Nat.log_mul_base (by decide) hne,
        ← digitCount_eq, ih, add_assoc]

/-- A number has as many digits before the point however it is written. -/
theorem whole_eq (d : Decimal) {s : ℕ} (h : d.scale ≤ s) (hne : d.unscaled ≠ 0) :
    d.whole = (digitCount (d.units s).natAbs : ℤ) - s := by
  have hpow : ((10 : ℤ) ^ (s - d.scale)).natAbs = 10 ^ (s - d.scale) := Int.natAbs_pow ..
  rw [whole, digits, units, Int.natAbs_mul, hpow, digitCount_mul_pow (Int.natAbs_ne_zero.2 hne)]
  omega

theorem sign_units (d : Decimal) (s : ℕ) : (d.units s).sign = d.unscaled.sign := by
  rw [units, Int.sign_mul, Int.sign_eq_one_of_pos (a := 10 ^ (s - d.scale)) (by positivity),
    mul_one]

/-! ### The order -/

/-- Neither can be written at the other's scale, and they have one sign and as many digits
before the point. -/
def Blurred (a b : Decimal) : Prop :=
  align a b = none ∧ a.unscaled.sign = b.unscaled.sign ∧ a.whole = b.whole

theorem sign_mono {x y : ℤ} (h : x ≤ y) : x.sign ≤ y.sign := by
  rcases lt_trichotomy x 0 with hx | rfl | hx
  · rw [Int.sign_eq_neg_one_of_neg hx]
    rw [← neg_le_neg_iff, neg_neg, ← Int.sign_neg]
    rcases lt_trichotomy (-y) 0 with hy | hy | hy
    · rw [Int.sign_eq_neg_one_of_neg hy]
      decide
    · rw [hy, Int.sign_zero]
      decide
    · rw [Int.sign_eq_one_of_pos hy]
  · rw [Int.sign_zero]
    exact Int.sign_nonneg_iff.2 h
  · rw [Int.sign_eq_one_of_pos hx, Int.sign_eq_one_of_pos (hx.trans_le h)]

theorem compare_of_sign {x y : ℤ} (h : compare x.sign y.sign ≠ .eq) :
    compare x.sign y.sign = compare x y := by
  have hne : x.sign ≠ y.sign := fun heq => h (compare_eq_iff_eq.2 heq)
  rcases lt_or_gt_of_ne hne with hlt | hgt
  · rw [compare_lt_iff_lt.2 hlt, eq_comm, compare_lt_iff_lt]
    by_contra hle
    exact absurd (sign_mono (not_lt.1 hle)) (not_le.2 hlt)
  · rw [compare_gt_iff_gt.2 hgt, eq_comm, compare_gt_iff_gt]
    by_contra hle
    exact absurd (sign_mono (not_lt.1 hle)) (not_le.2 hgt)

/-- Of two numbers of one sign the one with more digits is the larger in size. -/
theorem compare_of_digits {x y : ℤ} (hs : x.sign = y.sign)
    (h : digitCount x.natAbs ≠ digitCount y.natAbs) :
    (if x < 0 then (compare (digitCount x.natAbs) (digitCount y.natAbs)).swap
      else compare (digitCount x.natAbs) (digitCount y.natAbs)) = compare x y := by
  have hlt : ∀ {m n : ℕ}, digitCount m < digitCount n → m < n := fun hmn => by
    by_contra hle
    exact absurd (digitCount_mono (not_lt.1 hle)) (not_le.2 hmn)
  have hneg : x < 0 ↔ y < 0 := by
    rw [← Int.sign_eq_neg_one_iff_neg, ← Int.sign_eq_neg_one_iff_neg, hs]
  rcases lt_or_gt_of_ne h with hd | hd
  · have hxy : x.natAbs < y.natAbs := hlt hd
    rw [compare_lt_iff_lt.2 hd]
    split
    case isTrue hx => exact (compare_gt_iff_gt.2 (by omega)).symm
    case isFalse hx => exact (compare_lt_iff_lt.2 (by omega)).symm
  · have hxy : y.natAbs < x.natAbs := hlt hd
    rw [compare_gt_iff_gt.2 hd]
    split
    case isTrue hx => exact (compare_lt_iff_lt.2 (by omega)).symm
    case isFalse hx => exact (compare_gt_iff_gt.2 (by omega)).symm

theorem ne_of_align {a b : Decimal} (ha : a.scale ≤ maxDigits) (hb : b.scale ≤ maxDigits)
    (h : align a b = none) :
    a.units (max a.scale b.scale) ≠ b.units (max a.scale b.scale) := by
  intro heq
  have hfit : Fits 128 (a.units (max a.scale b.scale)) := by
    rcases le_total a.scale b.scale with hle | hle
    · rw [heq, max_eq_right hle, units, Nat.sub_self, pow_zero, mul_one]
      exact b.fits
    · rw [max_eq_left hle, units, Nat.sub_self, pow_zero, mul_one]
      exact a.fits
  rw [align_eq ha hb, dif_pos ⟨hfit, heq ▸ hfit⟩] at h
  cases h

theorem compare_natCast_sub (m n s : ℕ) : compare ((m : ℤ) - s) ((n : ℤ) - s) = compare m n := by
  rcases lt_trichotomy m n with h | rfl | h
  · rw [compare_lt_iff_lt.2 h, compare_lt_iff_lt]
    omega
  · rw [compare_eq_iff_eq.2 rfl, compare_eq_iff_eq.2 rfl]
  · rw [compare_gt_iff_gt.2 h, compare_gt_iff_gt]
    omega

/-- Where the scales cannot be aligned, the digits before the point tell two numbers of one
sign apart unless they have as many. -/
theorem compare_whole {a b : Decimal} (ha : a.scale ≤ maxDigits) (hb : b.scale ≤ maxDigits)
    (hal : align a b = none) (hs : a.unscaled.sign = b.unscaled.sign) (hw : a.whole ≠ b.whole) :
    (if a.unscaled < 0 then (compare a.whole b.whole).swap else compare a.whole b.whole) =
      compare (a.units (max a.scale b.scale)) (b.units (max a.scale b.scale)) := by
  have hne := ne_of_align ha hb hal
  have hsign : (a.units (max a.scale b.scale)).sign = (b.units (max a.scale b.scale)).sign := by
    rw [sign_units, sign_units, hs]
  have hzero : a.unscaled = 0 ↔ b.unscaled = 0 := by
    rw [← Int.sign_eq_zero_iff_zero, hs, Int.sign_eq_zero_iff_zero]
  have ha0 : a.unscaled ≠ 0 := by
    intro h0
    rw [units, units, h0, hzero.1 h0, zero_mul, zero_mul] at hne
    exact hne rfl
  have hwa := a.whole_eq (le_max_left a.scale b.scale) ha0
  have hwb := b.whole_eq (le_max_right a.scale b.scale) (hzero.not.1 ha0)
  have hdigits : digitCount (a.units (max a.scale b.scale)).natAbs ≠
      digitCount (b.units (max a.scale b.scale)).natAbs := by
    intro heq
    rw [hwa, hwb, heq] at hw
    exact hw rfl
  have hneg : a.unscaled < 0 ↔ a.units (max a.scale b.scale) < 0 := by
    rw [← Int.sign_eq_neg_one_iff_neg, ← Int.sign_eq_neg_one_iff_neg, sign_units]
  rw [hwa, hwb, compare_natCast_sub, ← compare_of_digits hsign hdigits]
  simp only [hneg]

theorem cmp_eq {a b : Decimal} (ha : a.scale ≤ maxDigits) (hb : b.scale ≤ maxDigits)
    (h : ¬ Blurred a b) : cmp a b = compare a.toRat b.toRat := by
  rw [compare_toRat (le_max_left a.scale b.scale) (le_max_right a.scale b.scale), cmp]
  by_cases hal : align a b = none
  · rw [hal]
    dsimp only
    by_cases hs : compare a.unscaled.sign b.unscaled.sign = .eq
    · have hsign : a.unscaled.sign = b.unscaled.sign := compare_eq_iff_eq.1 hs
      rw [if_neg (not_not.2 hs)]
      exact compare_whole ha hb hal hsign fun hw => h ⟨hal, hsign, hw⟩
    · rw [if_pos hs, ← sign_units a (max a.scale b.scale), ← sign_units b (max a.scale b.scale)]
      apply compare_of_sign
      rw [sign_units, sign_units]
      exact hs
  · rw [align_eq ha hb] at hal ⊢
    split at hal
    case isTrue hfit => rw [dif_pos hfit]
    case isFalse hfit => exact absurd rfl hal

theorem Blurred.cmp_eq {a b : Decimal} (ha : a.scale ≤ maxDigits) (hb : b.scale ≤ maxDigits)
    (h : Blurred a b) : cmp a b = .eq ∧ a.toRat ≠ b.toRat := by
  obtain ⟨hal, hs, hw⟩ := h
  constructor
  · rw [cmp, hal]
    dsimp only
    rw [if_neg (not_not.2 (compare_eq_iff_eq.2 hs)), compare_eq_iff_eq.2 hw]
    exact ite_self _
  · intro heq
    apply ne_of_align ha hb hal
    rw [← compare_eq_iff_eq, ← compare_toRat (le_max_left a.scale b.scale)
      (le_max_right a.scale b.scale), heq]
    exact compare_eq_iff_eq.2 rfl

theorem align_swap (a b : Decimal) : align b a = (align a b).map Prod.swap := by
  rw [align, align, max_comm b.scale]
  cases a.rescale (max a.scale b.scale) <;> cases b.rescale (max a.scale b.scale) <;> rfl

theorem cmp_swap (a b : Decimal) : cmp b a = (cmp a b).swap := by
  rw [cmp, cmp, align_swap a b]
  cases align a b with
  | some x =>
      have h : compare x.2.unscaled x.1.unscaled = (compare x.1.unscaled x.2.unscaled).swap :=
        Std.OrientedCmp.eq_swap
      exact h
  | none =>
      have hsign : compare b.unscaled.sign a.unscaled.sign =
          (compare a.unscaled.sign b.unscaled.sign).swap := Std.OrientedCmp.eq_swap
      have hsize : compare b.whole a.whole = (compare a.whole b.whole).swap :=
        Std.OrientedCmp.eq_swap
      simp only [Option.map_none, hsign, hsize]
      by_cases h : compare a.unscaled.sign b.unscaled.sign = .eq
      · have heq : a.unscaled.sign = b.unscaled.sign := compare_eq_iff_eq.1 h
        have hneg : a.unscaled < 0 ↔ b.unscaled < 0 := by
          rw [← Int.sign_eq_neg_one_iff_neg, ← Int.sign_eq_neg_one_iff_neg, heq]
        by_cases hlt : a.unscaled < 0
        · simp [h, hlt, hneg.1 hlt]
        · simp [h, hlt, hneg.not.1 hlt]
      · have hne : (compare a.unscaled.sign b.unscaled.sign).swap ≠ .eq := by
          rw [Ne, Ordering.swap_eq_eq]
          exact h
        simp [h, hne]

/-- Two numbers count as equal: they are one, or they are blurred. -/
def Tied (a b : Decimal) : Prop := a.toRat = b.toRat ∨ Blurred a b

/-- A number counts as less: it is, and is not blurred with the other. -/
def Less (a b : Decimal) : Prop := a.toRat < b.toRat ∧ ¬ Blurred a b

theorem cmp_eq_eq {a b : Decimal} (ha : a.scale ≤ maxDigits) (hb : b.scale ≤ maxDigits) :
    cmp a b = .eq ↔ Tied a b := by
  by_cases h : Blurred a b
  · simp [Tied, h, (h.cmp_eq ha hb).1]
  · rw [cmp_eq ha hb h, compare_eq_iff_eq, Tied, or_iff_left h]

theorem cmp_eq_lt {a b : Decimal} (ha : a.scale ≤ maxDigits) (hb : b.scale ≤ maxDigits) :
    cmp a b = .lt ↔ Less a b := by
  by_cases h : Blurred a b
  · simp [Less, h, (h.cmp_eq ha hb).1]
  · rw [cmp_eq ha hb h, compare_lt_iff_lt, Less, and_iff_left h]

/-! ### The hash -/

theorem zpow_ne (s : ℤ) : (10 : ℚ) ^ s ≠ 0 := zpow_ne_zero s (by norm_num)

/-- Taking trailing noughts off leaves the number as it was. -/
theorem strip_value (unscaled scale : ℤ) :
    ((strip unscaled scale).1 : ℚ) / 10 ^ (strip unscaled scale).2 = unscaled / 10 ^ scale := by
  induction unscaled, scale using strip.induct with
  | case1 unscaled scale h ih =>
      have hdvd : 10 * unscaled.tdiv 10 = unscaled :=
        Int.mul_tdiv_cancel_of_dvd (Int.dvd_of_tmod_eq_zero h.2)
      have hpow : (10 : ℚ) ^ scale = 10 ^ (scale - 1) * 10 := by
        rw [← zpow_add_one₀ (by norm_num), sub_add_cancel]
      rw [strip, dif_pos h, ih, hpow, ← hdvd]
      push_cast
      rw [mul_comm (10 : ℚ), mul_div_mul_right _ _ (by norm_num), hdvd]
  | case2 unscaled scale h => rw [strip, dif_neg h]

theorem strip_normal (unscaled scale : ℤ) :
    (strip unscaled scale).1 = 0 ∨ ¬ (10 : ℤ) ∣ (strip unscaled scale).1 := by
  induction unscaled, scale using strip.induct with
  | case1 unscaled scale h ih =>
      rw [strip, dif_pos h]
      exact ih
  | case2 unscaled scale h =>
      rw [strip, dif_neg h]
      by_contra hne
      rw [not_or, not_not] at hne
      exact h ⟨hne.1, Int.tmod_eq_zero_of_dvd hne.2⟩

theorem scale_unique {m n s t : ℤ} (hm : ¬ (10 : ℤ) ∣ m) (h : (m : ℚ) / 10 ^ s = n / 10 ^ t) :
    s ≤ t := by
  by_contra hlt
  obtain ⟨k, hk⟩ := Int.exists_add_of_le (not_le.1 hlt)
  have hs : (10 : ℚ) ^ s = 10 ^ t * 10 ^ (k + 1) := by
    rw [hk, add_right_comm, add_assoc, zpow_add₀ (by norm_num)]
    norm_cast
  rw [div_eq_div_iff (zpow_ne s) (zpow_ne t), hs, mul_comm ((10 : ℚ) ^ t), ← mul_assoc] at h
  have hmn : (m : ℚ) = n * 10 ^ (k + 1) := mul_right_cancel₀ (zpow_ne t) h
  have hint : m = n * 10 ^ (k + 1) := by exact_mod_cast hmn
  apply hm
  rw [hint, pow_succ]
  exact ⟨n * 10 ^ k, by ring⟩

theorem toRat_eq_strip (d : Decimal) :
    d.toRat = (strip d.unscaled d.scale).1 / 10 ^ (strip d.unscaled d.scale).2 := by
  rw [strip_value, zpow_natCast]
  rfl

theorem hashed_eq_iff (a b : Decimal) : a.hashed = b.hashed ↔ a.toRat = b.toRat := by
  rw [hashed, hashed, toRat_eq_strip, toRat_eq_strip]
  have ha := strip_normal a.unscaled a.scale
  have hb := strip_normal b.unscaled b.scale
  generalize strip a.unscaled a.scale = x at ha ⊢
  generalize strip b.unscaled b.scale = y at hb ⊢
  constructor
  · intro h
    obtain ⟨hone, htwo⟩ := Prod.ext_iff.1 h
    dsimp only at hone htwo
    by_cases hzero : y.1 = 0
    · rw [hone, hzero, Int.cast_zero, zero_div, zero_div]
    · rw [hone, if_neg hzero, if_neg hzero] at htwo
      rw [hone, htwo]
  · intro h
    have hzero : x.1 = 0 ↔ y.1 = 0 := by
      have hx := div_eq_zero_iff (a := (x.1 : ℚ)) (b := 10 ^ x.2)
      have hy := div_eq_zero_iff (a := (y.1 : ℚ)) (b := 10 ^ y.2)
      rw [or_iff_left (zpow_ne _), Int.cast_eq_zero] at hx hy
      rw [← hx, ← hy, h]
    by_cases hy : y.1 = 0
    · rw [if_pos hy, if_pos (hzero.2 hy), hy, hzero.2 hy]
    · have hx : x.1 ≠ 0 := hzero.not.2 hy
      have hscale : x.2 = y.2 :=
        le_antisymm (scale_unique (ha.resolve_left hx) h) (scale_unique (hb.resolve_left hy) h.symm)
      have hunscaled : x.1 = y.1 := by
        rw [hscale, div_left_inj' (zpow_ne _)] at h
        exact_mod_cast h
      rw [if_neg hx, if_neg hy, hscale, hunscaled]

/-! ### One number line -/

/-- Order, equality and hash all see the number a decimal is. -/
structure OneNumberLine (S : Set Decimal) : Prop where
  order : ∀ a ∈ S, ∀ b ∈ S, cmp a b = compare a.toRat b.toRat
  same : ∀ a ∈ S, ∀ b ∈ S, cmp a b = .eq ↔ a.toRat = b.toRat
  swap : ∀ a ∈ S, ∀ b ∈ S, cmp b a = (cmp a b).swap
  trans : ∀ a ∈ S, ∀ b ∈ S, ∀ c ∈ S, cmp a b ≠ .gt → cmp b c ≠ .gt → cmp a c ≠ .gt
  hash : ∀ a ∈ S, ∀ b ∈ S, cmp a b = .eq → a.hashed = b.hashed

/-- Order, equality and hash describe one number line exactly among decimals of which no
two are blurred. -/
theorem oneNumberLine_iff (S : Set Decimal) (hS : ∀ d ∈ S, d.scale ≤ maxDigits) :
    OneNumberLine S ↔ ∀ a ∈ S, ∀ b ∈ S, ¬ Blurred a b := by
  constructor
  · intro h a ha b hb hblur
    obtain ⟨heq, hne⟩ := hblur.cmp_eq (hS a ha) (hS b hb)
    exact hne ((h.same a ha b hb).1 heq)
  · intro h
    have order : ∀ a ∈ S, ∀ b ∈ S, cmp a b = compare a.toRat b.toRat :=
      fun a ha b hb => cmp_eq (hS a ha) (hS b hb) (h a ha b hb)
    have same : ∀ a ∈ S, ∀ b ∈ S, cmp a b = .eq ↔ a.toRat = b.toRat := fun a ha b hb => by
      rw [order a ha b hb, compare_eq_iff_eq]
    constructor
    · exact order
    · exact same
    · intro a ha b hb
      rw [order a ha b hb, order b hb a ha]
      exact Std.OrientedCmp.eq_swap
    · intro a ha b hb c hc hab hbc
      rw [order a ha b hb, compare_le_iff_le] at hab
      rw [order b hb c hc, compare_le_iff_le] at hbc
      rw [order a ha c hc, compare_le_iff_le]
      exact hab.trans hbc
    · exact fun a ha b hb heq => (hashed_eq_iff a b).2 ((same a ha b hb).1 heq)

def oneAndAHalf : Decimal := ⟨15, 1, by decide⟩

/-- One and a half, with two places. -/
def oneAndAHalfPadded : Decimal := ⟨150, 2, by decide⟩

theorem oneAndAHalf_oneNumberLine : OneNumberLine {oneAndAHalf, oneAndAHalfPadded} :=
  (oneNumberLine_iff {oneAndAHalf, oneAndAHalfPadded} (by
    rintro d (rfl | rfl) <;> decide)).2 (by
    rintro a (rfl | rfl) b (rfl | rfl) ⟨h, -⟩ <;> exact absurd h (by decide))

def twiceTenTo37 : Decimal := ⟨2 * 10 ^ 37, 0, by decide⟩

/-- `10^37`, written as `10^38` tenths. -/
def tenTo37InTenths : Decimal := ⟨10 ^ 38, 1, by decide⟩

theorem digitCount_of_pow {n k : ℕ} (hlo : 10 ^ k ≤ n) (hhi : n < 10 ^ (k + 1)) :
    digitCount n = k + 1 := by
  rw [digitCount_eq, Nat.log_eq_of_pow_le_of_lt_pow hlo hhi]

theorem blurred_pair : Blurred twiceTenTo37 tenTo37InTenths := by
  constructor
  · decide
  constructor
  · decide
  · have htwice : twiceTenTo37.digits = 38 := digitCount_of_pow (by decide) (by decide)
    have htenths : tenTo37InTenths.digits = 39 :=
      digitCount_of_pow (by decide) (by decide)
    rw [whole, whole, htwice, htenths]
    rfl

/-- The first cannot be written in tenths, and both have thirty eight digits before the
point, so they count as equal although one is twice the other. -/
theorem twice_counted_equal :
    cmp twiceTenTo37 tenTo37InTenths = .eq ∧
      twiceTenTo37.toRat = 2 * tenTo37InTenths.toRat ∧
      twiceTenTo37.hashed ≠ tenTo37InTenths.hashed := by
  obtain ⟨heq, hne⟩ := Blurred.cmp_eq (by decide) (by decide) blurred_pair
  constructor
  · exact heq
  constructor
  · rw [toRat, toRat, twiceTenTo37, tenTo37InTenths]
    norm_num
  · rw [Ne, hashed_eq_iff]
    exact hne

end Decimal

end Zu.Common
