import Zu.Common.DecimalText

/-!
# Every operation on decimals

The arithmetic, the reading and the rounding together: the number each stands for, and
exactly when it is answered.
-/

namespace Zu.Common

open Lib Checked Decimal

/-- A call of one of the operations. -/
inductive Call
  | add (a b : Decimal)
  | sub (a b : Decimal)
  | mul (a b : Decimal)
  | rem (a b : Decimal)
  | div (a b : Decimal)
  | parse (text : Text) (scale : ℕ)
  | round (d : Decimal) (digits : ℤ)
  | ceil (d : Decimal) (digits : ℤ)
  | floor (d : Decimal) (digits : ℤ)

namespace Call

/-- No scale is larger than a decimal may have. -/
def Scaled : Call → Prop
  | .add a b | .sub a b | .mul a b | .rem a b | .div a b =>
      a.scale ≤ maxDigits ∧ b.scale ≤ maxDigits
  | .parse _ scale => scale ≤ maxDigits
  | .round d _ | .ceil d _ | .floor d _ => d.scale ≤ maxDigits

def run : Call → Checked Unit Decimal
  | .add a b => ofOption (Decimal.add a b)
  | .sub a b => ofOption (Decimal.sub a b)
  | .mul a b => ofOption (Decimal.mul a b)
  | .rem a b => ofOption (Decimal.rem a b)
  | .div a b => Decimal.div a b
  | .parse text scale => Decimal.parse text scale
  | .round d digits => d.round digits
  | .ceil d digits => d.ceil digits
  | .floor d digits => d.floor digits

/-- A call ends with the exact number, or the number rounded at the answer's scale, and
refuses only what does not fit there, what is divided by nought and what is no numeral. -/
def Exact (c : Call) : Prop :=
  match c with
  | .add a b => Answers c.run (max a.scale b.scale) (a.toRat + b.toRat)
  | .sub a b => Answers c.run (max a.scale b.scale) (a.toRat - b.toRat)
  | .mul a b => Answers c.run (a.scale + b.scale) (a.toRat * b.toRat)
  | .rem a b =>
      if b.toRat = 0 then c.run = .error (.refused ())
      else Answers c.run (max a.scale b.scale)
        (a.toRat - b.toRat * truncate (a.toRat / b.toRat))
  | .div a b =>
      if b.toRat = 0 then c.run = .error (.refused ())
      else Answers c.run (quotientScale a b)
        (roundAway (a.toRat / b.toRat * 10 ^ quotientScale a b) / 10 ^ quotientScale a b)
  | .parse text scale =>
      match Numeral.ofText text with
      | none => c.run = .error (.refused ())
      | some n => Answers c.run scale (roundAway (n.value * 10 ^ scale) / 10 ^ scale)
  | .round d digits =>
      Answers c.run (placedScale digits) (roundAway (d.toRat * 10 ^ digits) / 10 ^ digits)
  | .ceil d digits => Answers c.run (placedScale digits) (⌈d.toRat * 10 ^ digits⌉ / 10 ^ digits)
  | .floor d digits => Answers c.run (placedScale digits) (⌊d.toRat * 10 ^ digits⌋ / 10 ^ digits)

/-- The steps of a call have room for what they compute, or the number does not fit. -/
def Room : Call → Prop
  | .add a b =>
      align a b ≠ none ∨ ¬ Fits 128 (a.units (common a b) + b.units (common a b))
  | .sub a b =>
      align a b ≠ none ∨ ¬ Fits 128 (a.units (common a b) - b.units (common a b))
  | .mul _ _ => True
  | .rem a b =>
      b.unscaled = 0 ∨
        align a b ≠ none ∧ Fits 128 ((a.units (common a b)).tdiv (b.units (common a b)))
  | .div a b =>
      b.unscaled = 0 ∨ Divides a b ∨
        ¬ Fits 128 (roundAway (a.toRat / b.toRat * 10 ^ quotientScale a b))
  | .parse text scale =>
      ∀ n, Numeral.ofText text = some n →
        n.Reads scale ∨ ¬ Fits 128 (roundAway (n.value * 10 ^ scale))
  | .round d digits => d.Places digits .half
  | .ceil d digits => d.Places digits .up
  | .floor d digits => d.Places digits .down

/-- Every operation answers with the number it stands for exactly where its steps have room
for what they compute. -/
theorem exact_iff (c : Call) (h : c.Scaled) : c.Exact ↔ c.Room := by
  cases c with
  | add a b => exact add_right_iff h.1 h.2
  | sub a b => exact sub_right_iff h.1 h.2
  | mul a b => exact iff_true_intro (mul_right h.1 h.2)
  | rem a b =>
      by_cases hb : b.unscaled = 0
      · refine iff_of_true ?_ (Or.inl hb)
        show ite _ _ _
        rw [if_pos (toRat_eq_zero.2 hb), run, rem_zero h.1 h.2 hb]
        rfl
      · show ite _ _ _ ↔ _
        rw [if_neg (toRat_eq_zero.not.2 hb), Room, or_iff_right hb]
        exact rem_right_iff h.1 h.2 hb
  | div a b =>
      by_cases hb : b.unscaled = 0
      · refine iff_of_true ?_ (Or.inl hb)
        show ite _ _ _
        rw [if_pos (toRat_eq_zero.2 hb)]
        exact if_pos hb
      · show ite _ _ _ ↔ _
        rw [if_neg (toRat_eq_zero.not.2 hb), Room, or_iff_right hb]
        exact div_right_iff h.1 hb
  | parse text scale =>
      rw [Exact, Room, run, Decimal.parse_eq]
      cases Numeral.ofText text with
      | none => exact iff_of_true rfl fun n hn => nomatch hn
      | some n =>
          dsimp only
          rw [n.convert_right_iff h]
          constructor
          · rintro hn m ⟨⟩
            exact hn
          · exact fun hn => hn n rfl
  | round d digits => exact (quantize_right_iff h : Answers (d.quantize digits .half) _ _ ↔ _)
  | ceil d digits => exact (quantize_right_iff h : Answers (d.quantize digits .up) _ _ ↔ _)
  | floor d digits => exact (quantize_right_iff h : Answers (d.quantize digits .down) _ _ ↔ _)

def oneInHundredths : Decimal := ⟨100, 2, by decide⟩

def halfInTenths : Decimal := ⟨5, 1, by decide⟩

theorem exact_sum : (Call.add oneInHundredths halfInTenths).Exact :=
  (exact_iff (.add oneInHundredths halfInTenths) ⟨by decide, by decide⟩).2 (Or.inl (by decide))

def twelveTenTo31 : Decimal := ⟨12 * 10 ^ 31, 0, by decide⟩

def thirteenTenTo37 : Decimal := ⟨13 * 10 ^ 37, 0, by decide⟩

def noughtMillionths : Decimal := ⟨0, 6, by decide⟩

/-- A quotient of more than nine tenths of the last place is answered with nought: the
remainder overflows when it is doubled. -/
theorem small_quotient :
    (Call.div twelveTenTo31 thirteenTenTo37).run = .ok noughtMillionths ∧
      ¬ (Call.div twelveTenTo31 thirteenTenTo37).Exact := by
  have hrun : (Call.div twelveTenTo31 thirteenTenTo37).run = .ok noughtMillionths := by
    have hdigit : withSign (twelveTenTo31.negative != thirteenTenTo37.negative)
        ((numerator twelveTenTo31 thirteenTenTo37).tdiv thirteenTenTo37.unscaled.natAbs) = 0 := by
      decide
    rw [run, div_eq (by decide) (by decide), if_pos (by decide), if_neg (by decide), hdigit]
    exact dif_pos (by decide)
  constructor
  · exact hrun
  · intro h
    have hne : thirteenTenTo37.toRat ≠ 0 := toRat_eq_zero.not.2 (by decide)
    have hq : twelveTenTo31.toRat / thirteenTenTo37.toRat *
        10 ^ quotientScale twelveTenTo31 thirteenTenTo37 = 12 / 13 := by
      rw [toRat, toRat, twelveTenTo31, thirteenTenTo37, quotientScale, maxDigits]
      norm_num
    have hround : roundAway (12 / 13) = 1 := by
      rw [roundAway, if_neg (by norm_num), Int.floor_eq_iff]
      norm_num
    rw [Exact, if_neg hne, hrun, hq, hround] at h
    have hnought : noughtMillionths.toRat = 0 := toRat_eq_zero.2 (by decide)
    have hone := h.2
    rw [hnought, Int.cast_one] at hone
    exact absurd hone.symm (by positivity)

end Call

end Zu.Common
