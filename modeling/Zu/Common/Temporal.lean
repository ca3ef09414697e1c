import Zu.Common.Months
import Zu.Schema.Types

/-!
# Temporal values

A temporal value is a count and what it counts: days, nanoseconds of a day, nanoseconds
since the epoch, or the months or the nanoseconds of a duration. A zone is an offset in
minutes.
-/

namespace Zu.Common

open Lib Checked Schema

def nanosPerSec : ℤ := 1000000000

def nanosPerMinute : ℤ := 60 * nanosPerSec

def nanosPerHour : ℤ := 60 * nanosPerMinute

def nanosPerDay : ℤ := 24 * nanosPerHour

inductive Temporal
  | date (days : ℤ)
  | localTime (nanos : ℤ)
  | zonedTime (nanos offset : ℤ)
  | localDatetime (nanos : ℤ)
  | zonedDatetime (nanos offset : ℤ)
  | duration (kind : DurationKind) (count : ℤ)
  deriving DecidableEq

def instantAt (days nanos : ℤ) : Option ℤ := do
  let midnight ← checked 64 (days * nanosPerDay)
  checked 64 (midnight + nanos)

namespace Temporal

/-- The values the engine holds: a day of the calendar, a time of the day, an offset of at
most eighteen hours, a count of one word. -/
def Held : Temporal → Prop
  | .date days => minDay ≤ days ∧ days ≤ maxDay
  | .localTime nanos => 0 ≤ nanos ∧ nanos < nanosPerDay
  | .zonedTime nanos offset => (0 ≤ nanos ∧ nanos < nanosPerDay) ∧ -1080 ≤ offset ∧ offset ≤ 1080
  | .localDatetime nanos => Fits 64 nanos
  | .zonedDatetime nanos offset => Fits 64 nanos ∧ -1080 ≤ offset ∧ offset ≤ 1080
  | .duration _ count => Fits 64 count

/-- `mem::discriminant`. -/
def shape : Temporal → ℕ
  | .date _ => 0
  | .localTime _ => 1
  | .zonedTime _ _ => 2
  | .localDatetime _ => 3
  | .zonedDatetime _ _ => 4
  | .duration _ _ => 5

def elapsed : Temporal → Option ℤ
  | .date days => checked 64 (days * nanosPerDay)
  | .localTime nanos => some nanos
  | .localDatetime nanos => some nanos
  | .zonedTime nanos offset => checked 64 (nanos - offset * nanosPerMinute)
  | .zonedDatetime nanos _ => some nanos
  | .duration _ _ => none

/-- The day an instant falls on and the nanoseconds into it. -/
def reading (nanos : ℤ) : ℤ × ℤ := (nanos / nanosPerDay, nanos % nanosPerDay)

/-- The day and the nanoseconds, where the day fits. -/
def onDay (nanos : ℤ) : Option (ℤ × ℤ) :=
  (checked 32 (nanos / nanosPerDay)).map fun days => (days, nanos % nanosPerDay)

def civil : Temporal → Option (ℤ × ℤ)
  | .date days => some (days, 0)
  | .localDatetime nanos => onDay nanos
  | .zonedDatetime nanos offset => do
      let wall ← checked 64 (nanos + offset * nanosPerMinute)
      onDay wall
  | .localTime _ | .zonedTime _ _ | .duration _ _ => none

/-- A day and a time of it come before another. -/
def Before (a b : ℤ × ℤ) : Prop := a.1 < b.1 ∨ a.1 = b.1 ∧ a.2 < b.2

instance (a b : ℤ × ℤ) : Decidable (Before a b) := inferInstanceAs (Decidable (_ ∨ _))

/-- The months of `between` once the years and the months are counted. -/
def settle (a b : ℤ × ℤ) (months : ℤ) : Checked Unit ℤ :=
  if months = 0 then .ok 0
  else do
    let day ← addMonths a.1 months
    if (0 < months ∧ Before b (day, a.2)) ∨ (months < 0 ∧ Before (day, a.2) b) then
      .ok (months - months.sign)
    else .ok months

def between (a b : Temporal) (kind : DurationKind) : Checked Unit Temporal :=
  if a.shape ≠ b.shape then refuse ()
  else
    match kind with
    | .dayTime => do
        let later ← ofOption b.elapsed
        let earlier ← ofOption a.elapsed
        let count ← ofOption (checked 64 (later - earlier))
        .ok (.duration .dayTime count)
    | .yearMonth => do
        let from_ ← ofOption a.civil
        let to_ ← ofOption b.civil
        let months ← settle from_ to_
          ((civilFromDays to_.1).year * 12 + (civilFromDays to_.1).month -
            ((civilFromDays from_.1).year * 12 + (civilFromDays from_.1).month))
        .ok (.duration .yearMonth months)

end Temporal

end Zu.Common
