import Zu.Common.Temporal

/-!
# The laws of the calendar

Days and dates are one thing, months are added as the calendar adds them, and the months
between two values are the most that do not carry the one past the other, unless a zone is
in the way.
-/

namespace Zu.Common

open Lib Checked Schema

namespace Temporal

/-! ### Months between two readings -/

def monthOf (day : ℤ) : ℤ := (civilFromDays day).index

def dayOf (day : ℤ) : ℤ := (civilFromDays day).day

/-- A reading moved by months, the calendar going on for ever. -/
def landed (a : ℤ × ℤ) (months : ℤ) : ℤ × ℤ :=
  (monthStart (monthOf a.1 + months) +
    (min (dayOf a.1) (monthLength (monthOf a.1 + months)) - 1), a.2)

/-- The whole months from one reading to another, toward nought. -/
def monthsBetween (a b : ℤ × ℤ) : ℤ :=
  let months := monthOf b.1 - monthOf a.1
  if (0 < months ∧ Before b (landed a months)) ∨ (months < 0 ∧ Before (landed a months) b) then
    months - months.sign
  else months

/-- The most months in the direction of travel that do not carry the one past the other. -/
def LargestCount (a b : ℤ × ℤ) (months : ℤ) : Prop :=
  if Before b a then
    months ≤ 0 ∧ (∃ day, addMonths a.1 months = .ok day ∧ ¬ Before (day, a.2) b) ∧
      ∀ more < months, ∀ day, addMonths a.1 more = .ok day → Before (day, a.2) b
  else
    0 ≤ months ∧ (∃ day, addMonths a.1 months = .ok day ∧ ¬ Before b (day, a.2)) ∧
      ∀ more > months, ∀ day, addMonths a.1 more = .ok day → Before b (day, a.2)

section Landed

variable {a b : ℤ × ℤ} {months : ℤ}

end Landed

theorem LargestCount.unique {a b : ℤ × ℤ} {m n : ℤ} (hm : LargestCount a b m)
    (hn : LargestCount a b n) : m = n := by
  rw [LargestCount] at hm hn
  split at hm
  case isTrue h =>
    rw [if_pos h] at hn
    obtain ⟨-, ⟨d, hd, hdb⟩, hmore⟩ := hm
    obtain ⟨-, ⟨e, he, heb⟩, hless⟩ := hn
    rcases lt_trichotomy m n with hlt | heq | hgt
    · exact absurd (hless m hlt d hd) hdb
    · exact heq
    · exact absurd (hmore n hgt e he) heb
  case isFalse h =>
    rw [if_neg h] at hn
    obtain ⟨-, ⟨d, hd, hdb⟩, hmore⟩ := hm
    obtain ⟨-, ⟨e, he, heb⟩, hless⟩ := hn
    rcases lt_trichotomy m n with hlt | heq | hgt
    · exact absurd (hmore n hlt e he) heb
    · exact heq
    · exact absurd (hless m hgt d hd) hdb

/-- `add_months_to_nanos`, which adds months to an instant where it is in no zone. -/
def addMonthsToNanos (nanos months : ℤ) : Checked Unit ℤ := do
  let days ← ofOption (checked 32 (nanos / nanosPerDay))
  let days ← addMonths days months
  ofOption (instantAt days (nanos % nanosPerDay))

/-- The day an instant falls on in the frame months are added in, which for a zoned value is
not its own wall clock. -/
def instant : Temporal → Option (ℤ × ℤ)
  | .date days => some (days, 0)
  | .localDatetime nanos => some (reading nanos)
  | .zonedDatetime nanos _ => some (reading nanos)
  | .localTime _ | .zonedTime _ _ | .duration _ _ => none

/-- Two zoned values are as many months apart on their wall clocks as they are as instants,
and both wall clocks fit. -/
def WallsAgree : Temporal → Temporal → Prop
  | .zonedDatetime nanos offset, .zonedDatetime nanos' offset' =>
      Fits 64 (nanos + offset * nanosPerMinute) ∧ Fits 64 (nanos' + offset' * nanosPerMinute) ∧
        monthsBetween (reading (nanos + offset * nanosPerMinute))
          (reading (nanos' + offset' * nanosPerMinute)) =
          monthsBetween (reading nanos) (reading nanos')
  | _, _ => True

/-- The months between two values are the most that do not carry the one past the other. -/
def BetweenRight (a b : Temporal) : Prop :=
  match a.instant, b.instant with
  | some from_, some to_ =>
      ∃ months, between a b .yearMonth = .ok (.duration .yearMonth months) ∧
        LargestCount from_ to_ months
  | _, _ => between a b .yearMonth = .error (.refused ())

end Temporal

open Temporal

/-- Dates in the order of their years, their months and their days. -/
def Civil.Before (a b : Civil) : Prop :=
  a.year < b.year ∨ a.year = b.year ∧ (a.month < b.month ∨ a.month = b.month ∧ a.day < b.day)

/-- A law of the calendar, at the values it is about. -/
inductive Law
  | count (day : ℤ)
  | spell (c : Civil)
  | order (a b : Civil)
  | add (day months : ℤ)
  | later (a b months : ℤ)
  | between (a b : Temporal)

namespace Law

def Calendar (day : ℤ) : Prop := minDay ≤ day ∧ day ≤ maxDay

/-- A year, a month and a day the calendar has. -/
def Spelled (c : Civil) : Prop := (1 ≤ c.year ∧ c.year ≤ 9999) ∧ c.Valid

/-- The values are of the calendar, and the counts are words. -/
def Admitted : Law → Prop
  | .count day => Calendar day
  | .spell c => Spelled c
  | .order a b => Spelled a ∧ Spelled b
  | .add day months => Calendar day ∧ Fits 64 months
  | .later a b months => Calendar a ∧ Calendar b ∧ a ≤ b ∧ Fits 64 months
  | .between a b => a.Held ∧ b.Held ∧ a.shape = b.shape

/-- A sum is refused exactly where its month is outside the calendar, and otherwise is the
same day of the month, or the last the month has. -/
def AddRight (day year month : ℤ) : Checked Unit ℤ → Prop
  | .ok out =>
      (1 ≤ year ∧ year ≤ 9999) ∧ civilFromDays out = ⟨year, month, min day (daysIn year month)⟩
  | .error (.refused _) => ¬ (1 ≤ year ∧ year ≤ 9999)
  | .error .panicked => False

/-- What a law says. -/
def Holds : Law → Prop
  | .count day =>
      Spelled (civilFromDays day) ∧
        daysFromCivil (civilFromDays day).year (civilFromDays day).month
          (civilFromDays day).day = day
  | .spell c =>
      Calendar (daysFromCivil c.year c.month c.day) ∧
        civilFromDays (daysFromCivil c.year c.month c.day) = c
  | .order a b =>
      daysFromCivil a.year a.month a.day < daysFromCivil b.year b.month b.day ↔ a.Before b
  | .add day months =>
      AddRight (civilFromDays day).day (((civilFromDays day).index + months) / 12)
        (((civilFromDays day).index + months) % 12 + 1) (addMonths day months)
  | .later a b months =>
      ∀ x y, addMonths a months = .ok x → addMonths b months = .ok y → x ≤ y
  | .between a b => BetweenRight a b

/-- The months of a sum fit a word, and the wall clocks of two zoned values agree with
their instants on the months between them. -/
def Room : Law → Prop
  | .add day months => Fits 64 ((civilFromDays day).index + months)
  | .between a b => WallsAgree a b
  | _ => True

theorem spelled_iff {c : Civil} (h : c.Valid) :
    Calendar (daysFromCivil c.year c.month c.day) ↔ Spelled c := by
  obtain ⟨h1, h12⟩ := h.1
  rw [Calendar, inCalendar_iff h, Spelled, and_iff_left h, InYears, Civil.index]
  omega

end Law

end Zu.Common
