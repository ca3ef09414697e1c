import Zu.Common.Calendar
import Zu.Lib.Fallible

/-!
# Months

Months are counted from the year nought, and a day is a month and a day of it. What adding
months to a day answers.
-/

namespace Zu.Common

open Lib Checked

def monthLength (index : ℤ) : ℤ := daysIn (index / 12) (index % 12 + 1)

def monthStart (index : ℤ) : ℤ := daysFromCivil (index / 12) (index % 12 + 1) 1

def Civil.index (c : Civil) : ℤ := c.year * 12 + c.month - 1

theorem daysIn_bounds {year month : ℤ} (h : 1 ≤ month ∧ month ≤ 12) :
    28 ≤ daysIn year month ∧ daysIn year month ≤ 31 := by
  by_cases hfeb : month = 2
  · rw [hfeb, daysIn_february]
    split
    case isTrue => decide
    case isFalse => decide
  · rw [daysIn_of_ne hfeb h]
    split
    case isTrue => decide
    case isFalse => decide

theorem Civil.index_year {c : Civil} (h : 1 ≤ c.month ∧ c.month ≤ 12) : c.index / 12 = c.year := by
  rw [index]
  omega

theorem Civil.index_month {c : Civil} (h : 1 ≤ c.month ∧ c.month ≤ 12) :
    c.index % 12 + 1 = c.month := by
  rw [index]
  omega

theorem daysFromCivil_day (year month day : ℤ) :
    daysFromCivil year month day = daysFromCivil year month 1 + (day - 1) := by
  rw [daysFromCivil, daysFromCivil]
  ring

theorem daysFromCivil_index {c : Civil} (h : 1 ≤ c.month ∧ c.month ≤ 12) :
    daysFromCivil c.year c.month c.day = monthStart c.index + (c.day - 1) := by
  rw [monthStart, c.index_year h, c.index_month h, daysFromCivil_day]

/-- A year that begins in March ends in a February, of which the next year tells the length. -/
theorem yearStart_succ (y : ℤ) :
    146097 * ((y + 1) / 400) + before ((y + 1) % 400) =
      146097 * (y / 400) + before (y % 400) + 337 + daysIn (y + 1) 2 := by
  rw [daysIn_february, before, before]
  split
  case isTrue h =>
    have := (leap_iff _).1 h
    omega
  case isFalse h =>
    have := (leap_iff _).not.1 h
    omega

theorem daysFromCivil_first {year month : ℤ} (h : 1 ≤ month) :
    daysFromCivil year month 1 =
      146097 * ((if month ≤ 2 then year - 1 else year) / 400) +
        before ((if month ≤ 2 then year - 1 else year) % 400) +
        (153 * (if 2 < month then month - 3 else month + 9) + 2) / 5 - 719468 := by
  have heq := daysFromCivil_eq ⟨year, month, 1⟩ h
  rw [Civil.dayOfYear, Civil.marchYear, Civil.sinceMarch] at heq
  dsimp only at heq
  rw [heq]
  ring

theorem daysFromCivil_next {year month : ℤ} (h : 1 ≤ month ∧ month ≤ 12) :
    (if month = 12 then daysFromCivil (year + 1) 1 1 else daysFromCivil year (month + 1) 1) =
      daysFromCivil year month 1 + daysIn year month := by
  by_cases hfeb : month = 2
  · subst hfeb
    have hyear := yearStart_succ (year - 1)
    rw [sub_add_cancel] at hyear
    rw [if_neg (by decide), daysFromCivil_first (by decide), daysFromCivil_first (by decide),
      if_neg (by decide), if_pos (by decide), if_pos (by decide), if_neg (by decide), hyear]
    ring
  · rw [daysIn_of_ne hfeb h, daysFromCivil_first h.1]
    by_cases hdec : month = 12
    · subst hdec
      rw [if_pos rfl, daysFromCivil_first le_rfl, if_pos (by decide), if_neg (by decide),
        if_neg (by decide), if_pos (by decide), if_neg (by decide), add_sub_cancel_right]
      norm_num
      ring
    · rw [if_neg hdec, daysFromCivil_first (by omega)]
      by_cases hjan : month = 1
      · subst hjan
        norm_num
        ring
      · rw [if_neg (by omega), if_pos (by omega), if_neg (by omega), if_pos (by omega)]
        have h3 : 3 ≤ month := by omega
        have h11 : month ≤ 11 := by omega
        interval_cases month <;> norm_num <;> ring

theorem monthStart_succ (index : ℤ) :
    monthStart (index + 1) = monthStart index + monthLength index := by
  have hm : 1 ≤ index % 12 + 1 ∧ index % 12 + 1 ≤ 12 := by omega
  rw [monthStart, monthStart, monthLength, ← daysFromCivil_next hm]
  by_cases h : index % 12 + 1 = 12
  · rw [if_pos h]
    congr 1
    · omega
    · omega
  · rw [if_neg h]
    congr 1
    · omega
    · omega

theorem monthLength_bounds (index : ℤ) : 28 ≤ monthLength index ∧ monthLength index ≤ 31 :=
  daysIn_bounds (by omega)

theorem monthStart_strictMono : StrictMono monthStart := by
  apply strictMono_int_of_lt_succ
  intro index
  rw [monthStart_succ]
  have := monthLength_bounds index
  omega

/-- A month ends before any later month begins. -/
theorem monthStart_of_lt {a b : ℤ} (h : a < b) : monthStart a + monthLength a ≤ monthStart b := by
  rw [← monthStart_succ]
  exact monthStart_strictMono.monotone h

/-- The years of the calendar, in months. -/
def InYears (index : ℤ) : Prop := 12 ≤ index ∧ index < 120000

theorem monthStart_first : monthStart 12 = minDay := rfl

theorem monthStart_last : monthStart 120000 = maxDay + 1 := rfl

theorem inCalendar_iff {c : Civil} (h : c.Valid) :
    (minDay ≤ daysFromCivil c.year c.month c.day ∧ daysFromCivil c.year c.month c.day ≤ maxDay) ↔
      InYears c.index := by
  have hlen : c.day ≤ monthLength c.index := by
    rw [monthLength, c.index_year h.1, c.index_month h.1]
    exact h.2.2
  have hday := h.2.1
  rw [daysFromCivil_index h.1, ← monthStart_first, InYears]
  constructor
  · rintro ⟨hlo, hhi⟩
    constructor
    · by_contra hlt
      have := monthStart_of_lt (not_le.1 hlt)
      omega
    · by_contra hle
      have hmono := monthStart_strictMono.monotone (not_lt.1 hle)
      rw [monthStart_last] at hmono
      omega
  · rintro ⟨hlo, hhi⟩
    have hmono := monthStart_strictMono.monotone hlo
    have hnext := monthStart_of_lt hhi
    rw [monthStart_last] at hnext
    exact ⟨by omega, by omega⟩

end Zu.Common
