import Zu.Lib.Signed

/-!
# The calendar

Days counted from an epoch, and the year, the month and the day of the month they are.
-/

namespace Zu.Common

open Lib Checked

def minDay : ℤ := -719162

def maxDay : ℤ := 2932896

def leap (year : ℤ) : Bool := year.tmod 4 = 0 && (year.tmod 100 ≠ 0 || year.tmod 400 = 0)

def daysIn (year month : ℤ) : ℤ :=
  if month = 1 ∨ month = 3 ∨ month = 5 ∨ month = 7 ∨ month = 8 ∨ month = 10 ∨ month = 12 then 31
  else if month = 4 ∨ month = 6 ∨ month = 9 ∨ month = 11 then 30
  else if leap year then 29
  else 28

def daysFromCivil (year month day : ℤ) : ℤ :=
  let y := if month ≤ 2 then year - 1 else year
  let era := (if 0 ≤ y then y else y - 399).tdiv 400
  let yoe := y - era * 400
  let doy := (153 * (if 2 < month then month - 3 else month + 9) + 2).tdiv 5 + day - 1
  let doe := yoe * 365 + yoe.tdiv 4 - yoe.tdiv 100 + doy
  era * 146097 + doe - 719468

/-- A day of the calendar. -/
structure Civil where
  year : ℤ
  month : ℤ
  day : ℤ
  deriving DecidableEq

attribute [ext] Civil

def civilFromDays (days : ℤ) : Civil :=
  let z := days + 719468
  let era := (if 0 ≤ z then z else z - 146096).tdiv 146097
  let doe := z - era * 146097
  let yoe := (doe - doe.tdiv 1460 + doe.tdiv 36524 - doe.tdiv 146096).tdiv 365
  let y := yoe + era * 400
  let doy := doe - (365 * yoe + yoe.tdiv 4 - yoe.tdiv 100)
  let mp := (5 * doy + 2).tdiv 153
  let day := doy - (153 * mp + 2).tdiv 5 + 1
  let month := if mp < 10 then mp + 3 else mp - 9
  ⟨if month ≤ 2 then y + 1 else y, month, day⟩

def addMonths (days months : ℤ) : Checked Unit ℤ := do
  let c := civilFromDays days
  let total ← signed 64 (c.year * 12 + c.month - 1 + months)
  let newYear ← ofOption (checked 32 (total / 12))
  let newMonth := total % 12 + 1
  if ¬ (1 ≤ newYear ∧ newYear ≤ 9999) then refuse ()
  else
    let out := daysFromCivil newYear newMonth (min c.day (daysIn newYear newMonth))
    if minDay ≤ out ∧ out ≤ maxDay then .ok out else refuse ()

/-- A year, a month and a day that the month has. -/
def Civil.Valid (c : Civil) : Prop :=
  (1 ≤ c.month ∧ c.month ≤ 12) ∧ 1 ≤ c.day ∧ c.day ≤ daysIn c.year c.month

/-! ### Eras -/

/-- The days before a year of an era. -/
def before (yoe : ℤ) : ℤ := 365 * yoe + yoe / 4 - yoe / 100

/-- The year of the era that a day of the era falls in. -/
def yearOf (doe : ℤ) : ℤ := (doe - doe / 1460 + doe / 36524 - doe / 146096) / 365

/-- A day of an era is in a century of it, in a run of four years, in a year, and the last
of a year only where the year is a leap year. -/
theorem era_split {doe : ℤ} (h0 : 0 ≤ doe) (h : doe ≤ 146096) :
    ∃ c q n r, doe = 36524 * c + 1461 * q + 365 * n + r ∧ (0 ≤ c ∧ c ≤ 3) ∧
      (0 ≤ q ∧ q ≤ 24) ∧ (0 ≤ n ∧ n ≤ 3) ∧ (0 ≤ r ∧ r ≤ 365) ∧
      (r = 365 → n = 3 ∧ (q < 24 ∨ c = 3)) := by
  obtain ⟨c, hc⟩ : ∃ c, c = min (doe / 36524) 3 := ⟨_, rfl⟩
  obtain ⟨q, hq⟩ : ∃ q, q = (doe - 36524 * c) / 1461 := ⟨_, rfl⟩
  obtain ⟨n, hn⟩ : ∃ n, n = min ((doe - 36524 * c - 1461 * q) / 365) 3 := ⟨_, rfl⟩
  refine ⟨c, q, n, doe - 36524 * c - 1461 * q - 365 * n, by omega, by omega, by omega, by omega,
    by omega, by omega⟩

theorem yearOf_eq {c q n r : ℤ} (hc : 0 ≤ c ∧ c ≤ 3) (hq : 0 ≤ q ∧ q ≤ 24)
    (hn : 0 ≤ n ∧ n ≤ 3) (hr : 0 ≤ r ∧ r ≤ 365) (hlast : r = 365 → n = 3 ∧ (q < 24 ∨ c = 3)) :
    yearOf (36524 * c + 1461 * q + 365 * n + r) = 100 * c + 4 * q + n := by
  have hfour : (36524 * c + 1461 * q + 365 * n + r) / 1460 =
      25 * c + q + (24 * c + q + 365 * n + r) / 1460 := by omega
  rcases eq_or_ne r 365 with rfl | hne
  · obtain ⟨rfl, hor⟩ := hlast rfl
    have hone : (24 * c + q + 365 * 3 + 365) / 1460 = 1 := by omega
    rcases (show q = 24 ∨ q < 24 by omega) with rfl | hlt
    · obtain rfl : c = 3 := by omega
      rfl
    · have hcent : (36524 * c + 1461 * q + 365 * 3 + 365) / 36524 = c := by omega
      have hera : (36524 * c + 1461 * q + 365 * 3 + 365) / 146096 = 0 := by omega
      rw [yearOf, hfour, hone, hcent, hera]
      omega
  · have hnought : (24 * c + q + 365 * n + r) / 1460 = 0 ∨ r ≠ 0 ∧ (24 * c + q + 365 * n + r) / 1460 = 1 := by omega
    have hcent : (36524 * c + 1461 * q + 365 * n + r) / 36524 = c := by omega
    have hera : (36524 * c + 1461 * q + 365 * n + r) / 146096 = 0 := by omega
    rw [yearOf, hfour, hcent, hera]
    omega

theorem before_eq {c q n : ℤ} (hq : 0 ≤ q ∧ q ≤ 24) (hn : 0 ≤ n ∧ n ≤ 3) :
    before (100 * c + 4 * q + n) = 36524 * c + 1461 * q + 365 * n := by
  rw [before]
  omega

/-- A division toward nought of what was moved down is a division toward the past. -/
theorem tdiv_floor_400 (y : ℤ) : (if 0 ≤ y then y else y - 399).tdiv 400 = y / 400 := by
  rw [Int.tdiv_eq_ediv]
  split
  case isTrue =>
    rw [if_pos (Or.inl (by omega))]
    omega
  case isFalse =>
    split
    case isTrue => omega
    case isFalse =>
      show _ + (1 : ℤ) = _
      omega

theorem tdiv_floor_era (z : ℤ) : (if 0 ≤ z then z else z - 146096).tdiv 146097 = z / 146097 := by
  rw [Int.tdiv_eq_ediv]
  split
  case isTrue =>
    rw [if_pos (Or.inl (by omega))]
    omega
  case isFalse =>
    split
    case isTrue => omega
    case isFalse =>
      show _ + (1 : ℤ) = _
      omega

theorem leap_iff (year : ℤ) :
    leap year = true ↔ (4 : ℤ) ∣ year ∧ (¬ (100 : ℤ) ∣ year ∨ (400 : ℤ) ∣ year) := by
  simp [leap, Int.dvd_iff_tmod_eq_zero]

/-! ### Years that begin in March -/

/-- The year a day belongs to where a year begins in March. -/
def Civil.marchYear (c : Civil) : ℤ := if c.month ≤ 2 then c.year - 1 else c.year

def Civil.sinceMarch (c : Civil) : ℤ := if 2 < c.month then c.month - 3 else c.month + 9

def Civil.dayOfYear (c : Civil) : ℤ := (153 * c.sinceMarch + 2) / 5 + c.day - 1

theorem daysIn_of_ne {year month : ℤ} (h : month ≠ 2) (hm : 1 ≤ month ∧ month ≤ 12) :
    daysIn year month =
      if month = 4 ∨ month = 6 ∨ month = 9 ∨ month = 11 then 30 else 31 := by
  rw [daysIn]
  split
  case isTrue h31 => rw [if_neg (by omega)]
  case isFalse h31 => rw [if_pos (by omega), if_pos (by omega)]

theorem daysIn_february (year : ℤ) : daysIn year 2 = if leap year then 29 else 28 := by
  rw [daysIn, if_neg (by decide), if_neg (by decide)]

theorem daysFromCivil_eq (c : Civil) (h : 1 ≤ c.month) :
    daysFromCivil c.year c.month c.day =
      146097 * (c.marchYear / 400) + before (c.marchYear % 400) + c.dayOfYear - 719468 := by
  have hyoe : c.marchYear - c.marchYear / 400 * 400 = c.marchYear % 400 := by omega
  have hmp : 0 ≤ c.sinceMarch := by
    rw [Civil.sinceMarch]
    split
    case isTrue => omega
    case isFalse => omega
  have hpos := Int.emod_nonneg c.marchYear (show (400 : ℤ) ≠ 0 by decide)
  rw [daysFromCivil, ← Civil.marchYear, ← Civil.sinceMarch, tdiv_floor_400, hyoe,
    Int.tdiv_eq_ediv_of_nonneg (show 0 ≤ 153 * c.sinceMarch + 2 by omega),
    Int.tdiv_eq_ediv_of_nonneg hpos, Int.tdiv_eq_ediv_of_nonneg hpos, before, Civil.dayOfYear]
  ring

theorem civilFromDays_eq {era c q n r : ℤ} (hc : 0 ≤ c ∧ c ≤ 3) (hq : 0 ≤ q ∧ q ≤ 24)
    (hn : 0 ≤ n ∧ n ≤ 3) (hr : 0 ≤ r ∧ r ≤ 365) (hlast : r = 365 → n = 3 ∧ (q < 24 ∨ c = 3)) :
    civilFromDays (146097 * era + (36524 * c + 1461 * q + 365 * n + r) - 719468) =
      let y := 100 * c + 4 * q + n + era * 400
      let mp := (5 * r + 2) / 153
      let month := if mp < 10 then mp + 3 else mp - 9
      ⟨if month ≤ 2 then y + 1 else y, month, r - (153 * mp + 2) / 5 + 1⟩ := by
  have hyear := yearOf_eq hc hq hn hr hlast
  have hbefore := before_eq (c := c) hq hn
  have hbound : 36524 * c + 1461 * q + 365 * n + r ≤ 146096 := by omega
  generalize hdoe : 36524 * c + 1461 * q + 365 * n + r = doe at hyear hbound ⊢
  have hz : 146097 * era + doe - 719468 + 719468 = 146097 * era + doe := by omega
  have hera : (146097 * era + doe) / 146097 = era := by omega
  have hrest : 146097 * era + doe - era * 146097 = doe := by omega
  have hdoe0 : 0 ≤ doe := by omega
  have hyoe0 : 0 ≤ 100 * c + 4 * q + n := by omega
  have hr' : doe - (365 * (100 * c + 4 * q + n) + (100 * c + 4 * q + n) / 4 -
      (100 * c + 4 * q + n) / 100) = r := by
    rw [← before, hbefore]
    omega
  have hyearOf : (doe - doe.tdiv 1460 + doe.tdiv 36524 - doe.tdiv 146096).tdiv 365 =
      100 * c + 4 * q + n := by
    rw [Int.tdiv_eq_ediv_of_nonneg hdoe0, Int.tdiv_eq_ediv_of_nonneg hdoe0,
      Int.tdiv_eq_ediv_of_nonneg hdoe0, Int.tdiv_eq_ediv_of_nonneg (by omega)]
    exact hyear
  rw [civilFromDays]
  dsimp only
  rw [hz, tdiv_floor_era, hera, hrest, hyearOf, Int.tdiv_eq_ediv_of_nonneg hyoe0,
    Int.tdiv_eq_ediv_of_nonneg hyoe0, hr', Int.tdiv_eq_ediv_of_nonneg (show 0 ≤ 5 * r + 2 by omega),
    Int.tdiv_eq_ediv_of_nonneg (show 0 ≤ 153 * ((5 * r + 2) / 153) + 2 by omega)]

/-- The day that is `r` days into the year `y` that begins in March. -/
def ofMarch (y r : ℤ) : Civil :=
  let mp := (5 * r + 2) / 153
  let month := if mp < 10 then mp + 3 else mp - 9
  ⟨if month ≤ 2 then y + 1 else y, month, r - (153 * mp + 2) / 5 + 1⟩

theorem ofMarch_spec {y r : ℤ} (hr : 0 ≤ r ∧ r ≤ 365) (hlast : r = 365 → leap (y + 1) = true) :
    (ofMarch y r).Valid ∧ (ofMarch y r).marchYear = y ∧ (ofMarch y r).dayOfYear = r := by
  obtain ⟨mp, hmp⟩ : ∃ mp, mp = (5 * r + 2) / 153 := ⟨_, rfl⟩
  rcases (show mp = 11 ∨ mp = 10 ∨ mp ≤ 9 by omega) with rfl | rfl | h9
  · have heq : ofMarch y r = ⟨y + 1, 2, r - 336⟩ := by
      rw [ofMarch, ← hmp]
      ext
      · rfl
      · rfl
      · show r - 337 + 1 = r - 336
        omega
    rw [heq]
    refine ⟨⟨by dsimp only; omega, by dsimp only; omega, ?_⟩, add_sub_cancel_right y 1, ?_⟩
    · dsimp only
      rw [daysIn_february]
      split
      case isTrue => omega
      case isFalse hl =>
        have : r ≠ 365 := fun h365 => hl (hlast h365)
        omega
    · show 337 + (r - 336) - 1 = r
      omega
  · have heq : ofMarch y r = ⟨y + 1, 1, r - 305⟩ := by
      rw [ofMarch, ← hmp]
      ext
      · rfl
      · rfl
      · show r - 306 + 1 = r - 305
        omega
    rw [heq]
    refine ⟨⟨by dsimp only; omega, by dsimp only; omega, ?_⟩, add_sub_cancel_right y 1, ?_⟩
    · dsimp only
      rw [daysIn_of_ne (by decide) (by decide), if_neg (by decide)]
      omega
    · show 306 + (r - 305) - 1 = r
      omega
  · have h0 : 0 ≤ mp := by omega
    have heq : ofMarch y r = ⟨y, mp + 3, r - (153 * mp + 2) / 5 + 1⟩ := by
      rw [ofMarch, ← hmp]
      ext
      · show ite (ite (mp < 10) _ _ ≤ 2) _ _ = y
        rw [if_pos (show mp < 10 by omega), if_neg (by omega)]
      · exact if_pos (by omega)
      · rfl
    rw [heq]
    refine ⟨⟨by dsimp only; omega, by dsimp only; omega, ?_⟩, ?_, ?_⟩
    · dsimp only
      rw [daysIn_of_ne (by omega) (by omega)]
      interval_cases mp <;> norm_num <;> omega
    · exact if_neg (by dsimp only; omega)
    · rw [Civil.dayOfYear, Civil.sinceMarch]
      dsimp only
      rw [if_pos (by omega), add_sub_cancel_right]
      omega

/-- The day, the month and the year of every count are a day of the calendar, and the count
is found again from them. -/
theorem civilFromDays_spec (days : ℤ) :
    (civilFromDays days).Valid ∧
      daysFromCivil (civilFromDays days).year (civilFromDays days).month
        (civilFromDays days).day = days := by
  obtain ⟨era, hera⟩ : ∃ era, era = (days + 719468) / 146097 := ⟨_, rfl⟩
  obtain ⟨c, q, n, r, hsplit, hc, hq, hn, hr, hlast⟩ :=
    @era_split ((days + 719468) % 146097) (by omega) (by omega)
  have hdays : days = 146097 * era + (36524 * c + 1461 * q + 365 * n + r) - 719468 := by omega
  have hcivil : civilFromDays days = ofMarch (100 * c + 4 * q + n + era * 400) r := by
    rw [hdays]
    exact civilFromDays_eq hc hq hn hr hlast
  have hleap : r = 365 → leap (100 * c + 4 * q + n + era * 400 + 1) = true := fun h365 => by
    have := hlast h365
    rw [leap_iff]
    omega
  obtain ⟨hvalid, hyear, hday⟩ := ofMarch_spec hr hleap
  have hmod : (100 * c + 4 * q + n + era * 400) % 400 = 100 * c + 4 * q + n := by omega
  have hdiv : (100 * c + 4 * q + n + era * 400) / 400 = era := by omega
  rw [hcivil]
  constructor
  · exact hvalid
  · rw [daysFromCivil_eq _ hvalid.1.1, hyear, hday, hmod, hdiv, before_eq hq hn, hdays]
    ring

end Zu.Common
