import Zu.Common.TemporalSafe

/-!
# What reading a temporal value answers

Every way a temporal value is read from text, when it panics, and when the value is in the
range of its type.
-/

namespace Zu.Common

open Lib Checked Schema

/-! ### Ranges -/

/-- A clock within a day, its minutes and its seconds within theirs. -/
def TimeFields.Shown (c : TimeFields) : Prop :=
  (0 ≤ c.total ∧ c.total < nanosPerDay) ∧ (0 ≤ c.minute ∧ c.minute ≤ 59) ∧
    0 ≤ c.second ∧ c.second ≤ 59

/-- No field of a clock is negative. -/
def TimeFields.Unsigned (c : TimeFields) : Prop := 0 ≤ c.hour ∧ 0 ≤ c.minute ∧ 0 ≤ c.second

theorem TimeFields.shown_iff {time : Text} {c : TimeFields} (h : readFields time = some c) :
    c.Shown ↔ c.Unsigned := by
  have hbounds := (readFields_bounds h).1
  rw [nanosPerSec] at hbounds
  rw [Shown, Unsigned, total, nanosPerDay, nanosPerHour, nanosPerMinute, nanosPerSec]
  omega

/-- The hours and the minutes of a zone that is written with a sign. -/
def Zoned.written : Zoned → Option (ℤ × ℤ)
  | .utc _ | .bare _ => none
  | .offset _ _ digits => zoneFields digits

/-- A zone of at most eighteen hours whose minutes are not negative. -/
def ZoneNear (fields : ℤ × ℤ) : Prop :=
  -18 ≤ fields.1 ∧ 0 ≤ fields.2 ∧ (fields.1 = 18 → fields.2 = 0)

theorem zoneFields_le {digits : Text} {fields : ℤ × ℤ} (h : zoneFields digits = some fields) :
    fields.1 ≤ 18 ∧ fields.2 ≤ 59 := by
  rw [zoneFields, Option.bind_eq_bind, Option.bind_eq_some_iff] at h
  obtain ⟨parts, -, h⟩ := h
  rw [Option.bind_eq_bind, Option.bind_eq_some_iff] at h
  obtain ⟨hours, -, h⟩ := h
  rw [Option.bind_eq_some_iff] at h
  obtain ⟨minutes, -, h⟩ := h
  split at h
  case isTrue => cases h
  case isFalse hmost =>
    cases h
    rw [not_or, not_lt, not_lt] at hmost
    exact hmost

/-- An offset of at most eighteen hours either way, and minutes of an hour. -/
theorem zoneNear_iff {digits : Text} {fields : ℤ × ℤ} (h : zoneFields digits = some fields)
    (negative : Bool) :
    ((-1080 ≤ offsetOf negative fields ∧ offsetOf negative fields ≤ 1080) ∧
      0 ≤ fields.2 ∧ fields.2 ≤ 59) ↔ ZoneNear fields := by
  have hmost := zoneFields_le h
  rw [offsetOf, ZoneNear]
  split
  case isTrue => omega
  case isFalse => omega

/-- The clock and the zone of a time are within their bounds. -/
def TimeShown (text : Text) : Prop :=
  (∀ c, readFields (cutZone text).body = some c → c.Shown) ∧
    ∀ fields, (cutZone text).written = some fields → 0 ≤ fields.2 ∧ fields.2 ≤ 59

/-- No field of a time's clock is negative, and its zone is near. -/
def TimeNear (text : Text) : Prop :=
  (∀ c, readFields (cutZone text).body = some c → c.Unsigned) ∧
    ∀ fields, (cutZone text).written = some fields → ZoneNear fields

/-- The offset of a zone and the minutes it is written with are within their bounds where
the zone is near. -/
theorem Zoned.near_iff {z : Zoned} {offset : Option ℤ} (h : z.value = some offset) :
    ((-1080 ≤ offset.getD 0 ∧ offset.getD 0 ≤ 1080) ∧
      ∀ fields, z.written = some fields → 0 ≤ fields.2 ∧ fields.2 ≤ 59) ↔
      ∀ fields, z.written = some fields → ZoneNear fields := by
  cases z with
  | utc body =>
      cases h
      exact iff_of_true ⟨by decide, fun fields hf => nomatch hf⟩ fun fields hf => nomatch hf
  | bare body =>
      cases h
      exact iff_of_true ⟨by decide, fun fields hf => nomatch hf⟩ fun fields hf => nomatch hf
  | offset negative body digits =>
      obtain ⟨fields, hfields, rfl⟩ := Option.map_eq_some_iff.1 h
      have hnear := zoneNear_iff hfields negative
      rw [Option.getD_some]
      constructor
      · intro hshown f hf
        obtain rfl : fields = f := Option.some.inj (hfields.symm.trans hf)
        exact hnear.1 ⟨hshown.1, hshown.2 fields hf⟩
      · intro hall
        have := hnear.2 (hall fields hfields)
        refine ⟨this.1, fun f hf => ?_⟩
        obtain rfl : fields = f := Option.some.inj (hfields.symm.trans hf)
        exact this.2

/-- A time that is read is within its bounds where no field is negative and the zone near. -/
theorem timeNear_iff {text : Text} {time : ℤ × Option ℤ} (h : timeOf text = some time) :
    ((0 ≤ time.1 ∧ time.1 < nanosPerDay) ∧ (-1080 ≤ time.2.getD 0 ∧ time.2.getD 0 ≤ 1080) ∧
      TimeShown text) ↔ TimeNear text := by
  rw [timeOf, Option.bind_eq_bind, Option.bind_eq_some_iff] at h
  obtain ⟨offset, hoffset, h⟩ := h
  rw [Option.bind_eq_bind, Option.bind_eq_some_iff] at h
  obtain ⟨c, hc, h⟩ := h
  cases h
  have hzone := Zoned.near_iff hoffset
  have hclock := TimeFields.shown_iff hc
  have hsingle : ∀ {p : TimeFields → Prop},
      (∀ d, readFields (cutZone text).body = some d → p d) ↔ p c := by
    intro p
    constructor
    · exact fun hall => hall c hc
    · intro hp d hd
      obtain rfl : c = d := Option.some.inj (hc.symm.trans hd)
      exact hp
  rw [TimeShown, TimeNear, ← hzone, hsingle, hsingle, ← hclock]
  constructor
  · rintro ⟨-, hoff, hshown, hminutes⟩
    exact ⟨hshown, hoff, hminutes⟩
  · rintro ⟨hshown, hoff, hminutes⟩
    exact ⟨hshown.1, hoff, hshown, hminutes⟩

theorem timeNear_of_bare {text : Text} {nanos : ℤ} (h : timeOf text = some (nanos, none)) :
    TimeNear text := by
  rw [timeOf, Option.bind_eq_bind, Option.bind_eq_some_iff] at h
  obtain ⟨offset, hoffset, h⟩ := h
  rw [Option.bind_eq_bind, Option.bind_eq_some_iff] at h
  obtain ⟨c, hc, h⟩ := h
  cases h
  constructor
  · intro d hd
    refine (readFields_bounds hd).2 (cutZone_minus fun body hbody => ?_)
    rw [hbody] at hoffset
    cases hoffset
  · intro fields hfields
    cases hz : cutZone text with
    | utc body =>
        rw [hz] at hfields
        cases hfields
    | bare body =>
        rw [hz] at hfields
        cases hfields
    | offset negative body digits =>
        rw [hz] at hoffset
        obtain ⟨f, -, hf⟩ := Option.map_eq_some_iff.1 hoffset
        cases hf

/-! ### Datetimes -/

def zonedDatetimeOf (text : Text) : Option (ℤ × ℤ) :=
  (datetimeOf text).bind fun read =>
    (checked 64 (read.1 - read.2.getD 0 * nanosPerMinute)).map fun instant =>
      (instant, read.2.getD 0)

theorem instantAt_fits {days nanos instant : ℤ} (h : instantAt days nanos = some instant) :
    Fits 64 instant := by
  rw [instantAt, Option.bind_eq_bind, Option.bind_eq_some_iff] at h
  obtain ⟨midnight, -, h⟩ := h
  obtain ⟨hfits, rfl⟩ := checked_eq_some.1 h
  exact hfits

/-- A datetime is a date, or a date and a time whose offset it takes. -/
theorem datetimeOf_cases {text : Text} {read : ℤ × Option ℤ} (h : datetimeOf text = some read) :
    Fits 64 read.1 ∧
      ((cutDatetime text = none ∧ read.2 = none) ∨
        ∃ date time nanos, cutDatetime text = some (date, time) ∧
          timeOf time = some (nanos, read.2)) := by
  rw [datetimeOf] at h
  split at h
  case h_1 hcut =>
    split at h
    case h_1 days _ =>
      obtain ⟨instant, hinstant, rfl⟩ := Option.map_eq_some_iff.1 h
      exact ⟨instantAt_fits hinstant, Or.inl ⟨hcut, rfl⟩⟩
    case h_2 => cases h
  case h_2 date time hcut =>
    split at h
    case h_1 days _ =>
      rw [Option.bind_eq_bind, Option.bind_eq_some_iff] at h
      obtain ⟨t, ht, h⟩ := h
      rw [Option.bind_eq_bind, Option.bind_eq_some_iff] at h
      obtain ⟨instant, hinstant, h⟩ := h
      cases h
      exact ⟨instantAt_fits hinstant, Or.inr ⟨date, time, t.1, hcut, ht⟩⟩
    case h_2 => cases h

/-- The clock of a datetime and its zone are within their bounds. -/
def DatetimeShown (text : Text) : Prop :=
  ∀ date time, cutDatetime text = some (date, time) → TimeShown time

/-- No field of a datetime's clock is negative, and its zone is near. -/
def DatetimeNear (text : Text) : Prop :=
  ∀ date time, cutDatetime text = some (date, time) → TimeNear time

theorem datetimeNear_iff {text : Text} {read : ℤ × Option ℤ} (h : datetimeOf text = some read) :
    ((-1080 ≤ read.2.getD 0 ∧ read.2.getD 0 ≤ 1080) ∧ DatetimeShown text) ↔ DatetimeNear text := by
  obtain ⟨-, hcases⟩ := datetimeOf_cases h
  rw [DatetimeShown, DatetimeNear]
  rcases hcases with ⟨hcut, hnone⟩ | ⟨date, time, nanos, hcut, htime⟩
  · rw [hcut, hnone]
    exact iff_of_true ⟨by decide, fun _ _ hd => nomatch hd⟩ fun _ _ hd => nomatch hd
  · have hiff := timeNear_iff htime
    have hsingle : ∀ {p : Text → Prop},
        (∀ d t, cutDatetime text = some (d, t) → p t) ↔ p time := by
      intro p
      constructor
      · exact fun hall => hall date time hcut
      · intro hp d t hd
        rw [hcut] at hd
        cases hd
        exact hp
    rw [hsingle, hsingle, ← hiff]
    constructor
    · rintro ⟨hoff, hshown⟩
      refine ⟨?_, hoff, hshown⟩
      obtain ⟨offset, -, hbind⟩ := Option.bind_eq_some_iff.1 htime
      obtain ⟨c, hc, hread⟩ := Option.bind_eq_some_iff.1 hbind
      cases hread
      exact (hshown.1 c hc).1
    · rintro ⟨-, hoff, hshown⟩
      exact ⟨hoff, hshown⟩

theorem datetimeNear_of_bare {text : Text} {nanos : ℤ} (h : datetimeOf text = some (nanos, none)) :
    DatetimeNear text := by
  obtain ⟨-, hcases⟩ := datetimeOf_cases h
  intro d t hd
  rcases hcases with ⟨hcut, -⟩ | ⟨date, time, n, hcut, htime⟩
  · rw [hcut] at hd
    cases hd
  · rw [hcut] at hd
    cases hd
    exact timeNear_of_bare htime

/-! ### Durations -/

theorem addDateFields_fits {fields : List (Text × Char)} {sums out : ℤ × ℤ}
    (hsums : Fits 64 sums.1 ∧ Fits 64 sums.2) (h : addDateFields fields sums = some out) :
    Fits 64 out.1 ∧ Fits 64 out.2 := by
  induction fields generalizing sums with
  | nil =>
      cases h
      exact hsums
  | cons field fields ih =>
      obtain ⟨value, unit⟩ := field
      obtain ⟨months, nanos⟩ := sums
      rw [addDateFields] at h
      split at h
      case isTrue =>
        obtain ⟨years, -, h⟩ := Option.bind_eq_some_iff.1 h
        obtain ⟨more, -, h⟩ := Option.bind_eq_some_iff.1 h
        obtain ⟨sum, hsum, h⟩ := Option.bind_eq_some_iff.1 h
        obtain ⟨hfits, rfl⟩ := checked_eq_some.1 hsum
        refine ih ?_ h
        exact ⟨hfits, hsums.2⟩
      case isFalse =>
        split at h
        case isTrue =>
          obtain ⟨more, -, h⟩ := Option.bind_eq_some_iff.1 h
          obtain ⟨sum, hsum, h⟩ := Option.bind_eq_some_iff.1 h
          obtain ⟨hfits, rfl⟩ := checked_eq_some.1 hsum
          refine ih ?_ h
          exact ⟨hfits, hsums.2⟩
        case isFalse =>
          split at h
          case isTrue =>
            obtain ⟨more, -, h⟩ := Option.bind_eq_some_iff.1 h
            obtain ⟨sum, hsum, h⟩ := Option.bind_eq_some_iff.1 h
            obtain ⟨hfits, rfl⟩ := checked_eq_some.1 hsum
            refine ih ?_ h
            exact ⟨hsums.1, hfits⟩
          case isFalse =>
            split at h
            case isTrue =>
              obtain ⟨more, -, h⟩ := Option.bind_eq_some_iff.1 h
              obtain ⟨sum, hsum, h⟩ := Option.bind_eq_some_iff.1 h
              obtain ⟨hfits, rfl⟩ := checked_eq_some.1 hsum
              refine ih ?_ h
              exact ⟨hsums.1, hfits⟩
            case isFalse => cases h

theorem addTimeFields_fits {fields : List (Text × Char)} {sum out : ℤ} (hsum : Fits 64 sum)
    (h : addTimeFields fields sum = some out) : Fits 64 out := by
  induction fields generalizing sum with
  | nil =>
      cases h
      exact hsum
  | cons field fields ih =>
      obtain ⟨value, unit⟩ := field
      rw [addTimeFields] at h
      obtain ⟨size, -, h⟩ := Option.bind_eq_some_iff.1 h
      obtain ⟨more, -, h⟩ := Option.bind_eq_some_iff.1 h
      obtain ⟨next, hnext, h⟩ := Option.bind_eq_some_iff.1 h
      obtain ⟨hfits, rfl⟩ := checked_eq_some.1 hnext
      exact ih hfits h

theorem sumDuration_fits {rest : Text} {sums : ℤ × ℤ} (h : sumDuration rest = some sums) :
    (Fits 64 sums.1 ∧ Fits 64 sums.2) ∧ (sums.1 = 0 ∨ sums.2 = 0) := by
  rw [sumDuration] at h
  dsimp only at h
  split at h
  case isTrue => cases h
  case isFalse =>
    obtain ⟨dateFields, -, h⟩ := Option.bind_eq_some_iff.1 h
    obtain ⟨date, hdate, h⟩ := Option.bind_eq_some_iff.1 h
    obtain ⟨timeFields, -, h⟩ := Option.bind_eq_some_iff.1 h
    obtain ⟨nanos, hnanos, h⟩ := Option.bind_eq_some_iff.1 h
    have hfits := addDateFields_fits ⟨fits_zero, fits_zero⟩ hdate
    have hnanosFits := addTimeFields_fits hfits.2 hnanos
    split at h
    case isTrue => cases h
    case isFalse hone =>
      cases h
      rw [not_and_or, not_not, not_not] at hone
      exact ⟨⟨hfits.1, hnanosFits⟩, hone⟩

/-- The smallest word, which has no negation. -/
def leastWord : ℤ := -2 ^ 63

/-- What the fields of a duration add up to can be negated, where a minus is written. -/
def DurationRoom (text : Text) : Prop :=
  ∀ rest sums, (splitSign text).1 = true → stripP (splitSign text).2 = some rest →
    sumDuration rest = some sums → sums.1 ≠ leastWord ∧ sums.2 ≠ leastWord

/-- The sign of a text, as a factor. -/
def signOf (negative : Bool) : ℤ := if negative then -1 else 1

def durationOf (text : Text) : Option Temporal := do
  let rest ← stripP (splitSign text).2
  let sums ← sumDuration rest
  if sums.2 ≠ 0 ∨ sums.1 = 0 then
    some (.duration .dayTime (signOf (splitSign text).1 * sums.2))
  else some (.duration .yearMonth (signOf (splitSign text).1 * sums.1))

theorem fits_signOf_iff {negative : Bool} {n : ℤ} (h : Fits 64 n) :
    Fits 64 (signOf negative * n) ↔ (negative = true → n ≠ leastWord) := by
  rw [fits_64] at h ⊢
  rw [leastWord, signOf]
  cases negative with
  | false =>
      rw [if_neg Bool.false_ne_true, one_mul]
      exact iff_of_true h fun hn => nomatch hn
  | true =>
      rw [if_pos rfl]
      constructor
      · intro hneg _
        omega
      · intro hne
        have := hne rfl
        omega

theorem parseDuration_eq (text : Text) :
    Reads (parseDuration text) (DurationRoom text) (durationOf text) := by
  rw [DurationRoom, parseDuration, durationOf]
  dsimp only
  cases stripP (splitSign text).2 with
  | none => exact ⟨fun _ => rfl, fun h => absurd (fun rest sums _ hr => nomatch hr) h⟩
  | some rest =>
      rw [ofOption_some, ok_bind, Option.bind_eq_bind, Option.bind_some]
      cases hsum : sumDuration rest with
      | none =>
          refine ⟨fun _ => rfl, fun h => absurd ?_ h⟩
          rintro r s - ⟨⟩ hs
          rw [hsum] at hs
          cases hs
      | some sums =>
          obtain ⟨months, nanos⟩ := sums
          obtain ⟨⟨hmonths, hnanos⟩, hone⟩ := sumDuration_fits hsum
          have hroom : (∀ r s, (splitSign text).1 = true → some rest = some r →
              sumDuration r = some s → s.1 ≠ leastWord ∧ s.2 ≠ leastWord) ↔
              Fits 64 (signOf (splitSign text).1 * months) ∧
                Fits 64 (signOf (splitSign text).1 * nanos) := by
            rw [fits_signOf_iff hmonths, fits_signOf_iff hnanos]
            constructor
            · intro hall
              constructor
              · exact fun hneg => (hall rest _ hneg rfl hsum).1
              · exact fun hneg => (hall rest _ hneg rfl hsum).2
            · rintro ⟨hm, hn⟩ r s hneg ⟨⟩ hs
              rw [hsum] at hs
              cases hs
              exact ⟨hm hneg, hn hneg⟩
          rw [hroom, ofOption_some, ok_bind]
          dsimp only [Option.bind_eq_bind, Option.bind_some] at hone ⊢
          have hzero : Fits 64 (signOf (splitSign text).1 * 0) := by
            rw [mul_zero]
            exact fits_zero
          by_cases hkind : nanos ≠ 0 ∨ months = 0
          · rw [if_pos hkind, if_pos hkind]
            have hboth : months = 0 := by omega
            subst hboth
            change Reads (signed 64 (signOf (splitSign text).1 * nanos) >>= _) _ _
            by_cases hfits : Fits 64 (signOf (splitSign text).1 * nanos)
            · rw [signed_of_fits hfits]
              exact ⟨fun _ => rfl, fun h => absurd ⟨hzero, hfits⟩ h⟩
            · rw [signed, if_neg hfits]
              exact ⟨fun h => absurd h.2 hfits, fun _ => rfl⟩
          · rw [if_neg hkind, if_neg hkind]
            have hboth : nanos = 0 := by omega
            subst hboth
            change Reads (signed 64 (signOf (splitSign text).1 * months) >>= _) _ _
            by_cases hfits : Fits 64 (signOf (splitSign text).1 * months)
            · rw [signed_of_fits hfits]
              exact ⟨fun _ => rfl, fun h => absurd ⟨hfits, hzero⟩ h⟩
            · rw [signed, if_neg hfits]
              exact ⟨fun h => absurd h.1 hfits, fun _ => rfl⟩

/-! ### SQL intervals -/

theorem uint_nonneg {text : Text} {n : ℤ} (h : uint text = some n) : 0 ≤ n := by
  rw [uint] at h
  split at h
  case isTrue => cases h
  case isFalse hc =>
    rw [not_or, not_not] at hc
    refine readSigned_nonneg h fun hmem => ?_
    exact absurd (List.all_eq_true.1 hc.2 _ hmem) (by decide)

theorem bounded_nonneg {text : Text} {leading : Bool} {most n : ℤ}
    (h : bounded text leading most = some n) : 0 ≤ n := by
  obtain ⟨value, hvalue, h⟩ := Option.bind_eq_some_iff.1 h
  split at h
  case isTrue =>
    cases h
    exact uint_nonneg hvalue
  case isFalse => cases h

theorem intervalFraction_nonneg {digits : Option ℕ} {fraction : Text} {n : ℤ}
    (h : intervalFraction digits fraction = some n) : 0 ≤ n := by
  rw [intervalFraction] at h
  split at h
  case isTrue => cases h
  case isFalse hc =>
    split at h
    case isTrue => cases h
    case isFalse =>
      exact (readFraction_bounds (by rw [readFraction, if_neg hc]; exact h)).1

theorem intervalSeconds_nonneg {text : Text} {leading : Bool} {digits : Option ℕ} {n : ℤ}
    (h : intervalSeconds text leading digits = some n) : 0 ≤ n := by
  have hpos : (0 : ℤ) < nanosPerSec := by decide
  rw [intervalSeconds] at h
  split at h
  case h_1 =>
    obtain ⟨whole, hwhole, h⟩ := Option.bind_eq_some_iff.1 h
    obtain ⟨-, rfl⟩ := checked_eq_some.1 h
    have := bounded_nonneg hwhole
    positivity
  case h_2 =>
    obtain ⟨whole, hwhole, h⟩ := Option.bind_eq_some_iff.1 h
    obtain ⟨nanos, hnanos, h⟩ := Option.bind_eq_some_iff.1 h
    obtain ⟨more, hmore, h⟩ := Option.bind_eq_some_iff.1 h
    obtain ⟨-, rfl⟩ := checked_eq_some.1 h
    obtain ⟨-, rfl⟩ := checked_eq_some.1 hnanos
    have := bounded_nonneg hwhole
    have := intervalFraction_nonneg hmore
    positivity

theorem fieldSize_nonneg {field : IntervalField} {text : Text} {leading : Bool}
    {digits : Option ℕ} {size : ℤ × ℤ} (h : fieldSize field text leading digits = some size) :
    0 ≤ size.1 ∧ 0 ≤ size.2 := by
  have hscaled : ∀ {value : Option ℤ} {unit : ℤ} {f : ℤ → ℤ × ℤ},
      (∀ n, value = some n → 0 ≤ n) → 0 ≤ unit →
      (∀ n, 0 ≤ n → 0 ≤ (f n).1 ∧ 0 ≤ (f n).2) →
      (value.bind fun n => (checked 64 (n * unit)).bind fun m => some (f m)) = some size →
      0 ≤ size.1 ∧ 0 ≤ size.2 := by
    intro value unit f hvalue hunit hf h
    obtain ⟨n, hn, h⟩ := Option.bind_eq_some_iff.1 h
    obtain ⟨m, hm, h⟩ := Option.bind_eq_some_iff.1 h
    cases h
    obtain ⟨-, rfl⟩ := checked_eq_some.1 hm
    exact hf _ (mul_nonneg (hvalue n hn) hunit)
  cases field with
  | year =>
      exact hscaled (fun n => uint_nonneg) (by decide) (fun n hn => ⟨hn, le_rfl⟩) h
  | month =>
      obtain ⟨n, hn, rfl⟩ := Option.map_eq_some_iff.1 h
      exact ⟨bounded_nonneg hn, le_rfl⟩
  | day =>
      exact hscaled (fun n => uint_nonneg) (by decide) (fun n hn => ⟨le_rfl, hn⟩) h
  | hour =>
      exact hscaled (fun n => bounded_nonneg) (by decide) (fun n hn => ⟨le_rfl, hn⟩) h
  | minute =>
      exact hscaled (fun n => bounded_nonneg) (by decide) (fun n hn => ⟨le_rfl, hn⟩) h
  | second =>
      obtain ⟨n, hn, rfl⟩ := Option.map_eq_some_iff.1 h
      exact ⟨le_rfl, intervalSeconds_nonneg hn⟩

theorem addParts_nonneg {digits : Option ℕ} {leading : Bool} {parts : List (IntervalField × Text)}
    {sums out : ℤ × ℤ} (hsums : (0 ≤ sums.1 ∧ 0 ≤ sums.2) ∧ Fits 64 sums.1 ∧ Fits 64 sums.2)
    (h : addParts digits leading parts sums = some out) :
    (0 ≤ out.1 ∧ 0 ≤ out.2) ∧ Fits 64 out.1 ∧ Fits 64 out.2 := by
  induction parts generalizing leading sums with
  | nil =>
      cases h
      exact hsums
  | cons part parts ih =>
      obtain ⟨size, hsize, h⟩ := Option.bind_eq_some_iff.1 h
      obtain ⟨months, hmonths, h⟩ := Option.bind_eq_some_iff.1 h
      obtain ⟨nanos, hnanos, h⟩ := Option.bind_eq_some_iff.1 h
      obtain ⟨hm, rfl⟩ := checked_eq_some.1 hmonths
      obtain ⟨hn, rfl⟩ := checked_eq_some.1 hnanos
      have hpos := fieldSize_nonneg hsize
      refine ih ?_ h
      exact ⟨⟨add_nonneg hsums.1.1 hpos.1, add_nonneg hsums.1.2 hpos.2⟩, hm, hn⟩

theorem cutParts_length {fields : List IntervalField} {rest : Text} {parts : List Text}
    (h : cutParts fields rest = some parts) : parts.length = fields.length := by
  induction fields generalizing rest parts with
  | nil =>
      cases h
      rfl
  | cons field fields ih =>
      cases fields with
      | nil =>
          cases h
          rfl
      | cons next fields =>
          obtain ⟨s, -, h⟩ := Option.bind_eq_some_iff.1 h
          obtain ⟨tail, htail, rfl⟩ := Option.map_eq_some_iff.1 h
          rw [List.length_cons, ih htail]
          rfl

theorem fits_signOf_of_nonneg {negative : Bool} {n : ℤ} (h0 : 0 ≤ n) (h : Fits 64 n) :
    Fits 64 (signOf negative * n) := by
  rw [fits_signOf_iff h]
  intro _ hn
  rw [hn] at h0
  exact absurd h0 (by decide)

/-- An interval is read without a panic, and its count is a word. -/
theorem parseSqlInterval_safe (text : Text) (q : IntervalQualifier) :
    Calm (parseSqlInterval text q) ∧ ∀ v, parseSqlInterval text q = .ok v → v.Held := by
  rw [parseSqlInterval]
  split
  case isTrue => exact ⟨calm_refuse (), fun v h => nomatch h⟩
  case isFalse hq =>
    rw [not_or, not_lt] at hq
    have hfinal : q.final.rank + 1 ≤ fieldOrder.length := by
      cases q.final <;> decide
    dsimp only
    rw [slice_of_le (by omega) hfinal, ok_bind]
    generalize hfields : (fieldOrder.drop q.start.rank).take (q.final.rank + 1 - q.start.rank) =
      fields
    cases hparts : cutParts fields (splitSign text).2 with
    | none => exact ⟨calm_refused (), fun v h => nomatch h⟩
    | some parts =>
        have hlen := cutParts_length hparts
        have hfirst : fields.length = q.final.rank + 1 - q.start.rank := by
          rw [← hfields, List.length_take, List.length_drop]
          omega
        rw [ofOption_some, ok_bind]
        cases parts with
        | nil =>
            rw [List.length_nil] at hlen
            omega
        | cons first rest =>
            rw [index_of_getElem? rfl, ok_bind]
            split
            case isTrue => exact ⟨calm_refuse (), fun v h => nomatch h⟩
            case isFalse =>
              cases hsums : addParts q.fraction true (fields.zip (first :: rest)) (0, 0) with
              | none => exact ⟨calm_refused (), fun v h => nomatch h⟩
              | some sums =>
                  obtain ⟨⟨hm0, hn0⟩, hm, hn⟩ :=
                    addParts_nonneg ⟨⟨le_rfl, le_rfl⟩, fits_zero, fits_zero⟩ hsums
                  rw [ofOption_some, ok_bind]
                  have hmonths : Fits 64 (signOf (splitSign text).1 * sums.1) :=
                    fits_signOf_of_nonneg hm0 hm
                  have hnanos : Fits 64 (signOf (splitSign text).1 * sums.2) :=
                    fits_signOf_of_nonneg hn0 hn
                  rw [signOf] at hmonths hnanos
                  cases q.start.kind with
                  | yearMonth =>
                      dsimp only
                      rw [signed_of_fits hmonths, ok_bind]
                      refine ⟨calm_ok _, ?_⟩
                      rintro v ⟨⟩
                      exact hmonths
                  | dayTime =>
                      dsimp only
                      rw [signed_of_fits hnanos, ok_bind]
                      refine ⟨calm_ok _, ?_⟩
                      rintro v ⟨⟩
                      exact hnanos

/-! ### Readings -/

/-- The clock that a value of a type is read from is within its bounds, and its zone. -/
def ClockShown : LogicalType → Text → Prop
  | .localTime, text => TimeShown text
  | .zonedTime, text => TimeShown text
  | .localDatetime, text => DatetimeShown text
  | .zonedDatetime, text => DatetimeShown text
  | _, _ => True

/-- A text can be read as a type: its zone can be cut and added up, no field of its clock is
negative, its zone is near, and its count can be negated. -/
def ReadRoom : LogicalType → Text → Prop
  | .localTime, text => TimeRoom text
  | .zonedTime, text => TimeRoom text ∧ ∀ time, timeOf text = some time → TimeNear text
  | .localDatetime, text => DatetimeRoom text
  | .zonedDatetime, text =>
      DatetimeRoom text ∧ ∀ read, zonedDatetimeOf text = some read → DatetimeNear text
  | .duration _, text => DurationRoom text
  | _, _ => True

/-- A reading does not panic, and what it answers is in its range. -/
def InRange (read : Checked Unit Temporal) (shown : Prop) : Prop :=
  Calm read ∧ ∀ v, read = .ok v → v.Held ∧ shown

theorem localTime_inRange_iff (text : Text) :
    InRange (Temporal.parse .localTime text) (TimeShown (trim text)) ↔ TimeRoom (trim text) := by
  have hreads : Reads (Temporal.parse .localTime text) (TimeRoom (trim text))
      ((timeOf (trim text)).bind fun time =>
        if time.2.isSome then none else some (.localTime time.1)) :=
    (parseTime_eq (trim text)).bind_ofOption fun time => by
      dsimp only
      split
      case isTrue => rfl
      case isFalse => rfl
  rw [InRange, hreads.safe_iff]
  apply and_iff_left
  intro v hv
  obtain ⟨time, htime, hv⟩ := Option.bind_eq_some_iff.1 hv
  obtain ⟨nanos, offset⟩ := time
  split at hv
  case isTrue => cases hv
  case isFalse hnone =>
    cases hv
    obtain rfl : offset = none := Option.not_isSome_iff_eq_none.1 hnone
    have hnear := (timeNear_iff htime).2 (timeNear_of_bare htime)
    exact ⟨hnear.1, hnear.2.2⟩

theorem zonedTime_inRange_iff (text : Text) :
    InRange (Temporal.parse .zonedTime text) (TimeShown (trim text)) ↔
      TimeRoom (trim text) ∧ ∀ time, timeOf (trim text) = some time → TimeNear (trim text) := by
  have hreads : Reads (Temporal.parse .zonedTime text) (TimeRoom (trim text))
      ((timeOf (trim text)).bind fun time => some (.zonedTime time.1 (time.2.getD 0))) :=
    (parseTime_eq (trim text)).bind_ofOption fun time => rfl
  rw [InRange, hreads.safe_iff]
  apply and_congr_right
  intro _
  constructor
  · intro hall time htime
    obtain ⟨⟨hday, hoffset⟩, hshown⟩ := hall _ (Option.bind_eq_some_iff.2 ⟨time, htime, rfl⟩)
    exact (timeNear_iff htime).1 ⟨hday, hoffset, hshown⟩
  · intro hall v hv
    obtain ⟨time, htime, hv⟩ := Option.bind_eq_some_iff.1 hv
    cases hv
    have hnear := (timeNear_iff htime).2 (hall time htime)
    exact ⟨⟨hnear.1, hnear.2.1⟩, hnear.2.2⟩

theorem localDatetime_inRange_iff (text : Text) :
    InRange (Temporal.parse .localDatetime text) (DatetimeShown (trim text)) ↔
      DatetimeRoom (trim text) := by
  have hreads : Reads (Temporal.parse .localDatetime text) (DatetimeRoom (trim text))
      ((datetimeOf (trim text)).bind fun read =>
        if read.2.isSome then none else some (.localDatetime read.1)) :=
    (parseDatetime_eq (trim text)).bind_ofOption fun read => by
      dsimp only
      split
      case isTrue => rfl
      case isFalse => rfl
  rw [InRange, hreads.safe_iff]
  apply and_iff_left
  intro v hv
  obtain ⟨read, hread, hv⟩ := Option.bind_eq_some_iff.1 hv
  obtain ⟨nanos, offset⟩ := read
  split at hv
  case isTrue => cases hv
  case isFalse hnone =>
    cases hv
    obtain rfl : offset = none := Option.not_isSome_iff_eq_none.1 hnone
    have hnear := (datetimeNear_iff hread).2 (datetimeNear_of_bare hread)
    exact ⟨(datetimeOf_cases hread).1, hnear.2⟩

theorem zonedDatetime_inRange_iff (text : Text) :
    InRange (Temporal.parse .zonedDatetime text) (DatetimeShown (trim text)) ↔
      DatetimeRoom (trim text) ∧
        ∀ read, zonedDatetimeOf (trim text) = some read → DatetimeNear (trim text) := by
  have hreads : Reads (Temporal.parse .zonedDatetime text) (DatetimeRoom (trim text))
      ((datetimeOf (trim text)).bind fun read =>
        (checked 64 (read.1 - read.2.getD 0 * nanosPerMinute)).map fun instant =>
          .zonedDatetime instant (read.2.getD 0)) :=
    (parseDatetime_eq (trim text)).bind_ofOption fun read => by
      dsimp only
      cases checked 64 (read.1 - read.2.getD 0 * nanosPerMinute) with
      | none => rfl
      | some instant => rfl
  rw [InRange, hreads.safe_iff]
  apply and_congr_right
  intro _
  constructor
  · intro hall out hout
    obtain ⟨read, hread, hmap⟩ := Option.bind_eq_some_iff.1 hout
    obtain ⟨instant, hinstant, -⟩ := Option.map_eq_some_iff.1 hmap
    obtain ⟨⟨-, hoffset⟩, hshown⟩ := hall _
      (Option.bind_eq_some_iff.2 ⟨read, hread, Option.map_eq_some_iff.2 ⟨instant, hinstant, rfl⟩⟩)
    exact (datetimeNear_iff hread).1 ⟨hoffset, hshown⟩
  · intro hall v hv
    obtain ⟨read, hread, hmap⟩ := Option.bind_eq_some_iff.1 hv
    obtain ⟨instant, hinstant, rfl⟩ := Option.map_eq_some_iff.1 hmap
    have hnear := (datetimeNear_iff hread).2 (hall (instant, read.2.getD 0)
      (Option.bind_eq_some_iff.2 ⟨read, hread, Option.map_eq_some_iff.2 ⟨instant, hinstant, rfl⟩⟩))
    exact ⟨⟨(checked_eq_some.1 hinstant).2 ▸ (checked_eq_some.1 hinstant).1, hnear.1⟩, hnear.2⟩

/-- A count that is read is a word where it can be negated. -/
theorem durationOf_held {text : Text} (hroom : DurationRoom text) {v : Temporal}
    (h : durationOf text = some v) : v.Held := by
  obtain ⟨rest, hrest, h⟩ := Option.bind_eq_some_iff.1 h
  obtain ⟨sums, hsums, h⟩ := Option.bind_eq_some_iff.1 h
  obtain ⟨⟨hmonths, hnanos⟩, -⟩ := sumDuration_fits hsums
  split at h
  case isTrue =>
    cases h
    exact (fits_signOf_iff hnanos).2 fun hneg => (hroom rest sums hneg hrest hsums).2
  case isFalse =>
    cases h
    exact (fits_signOf_iff hmonths).2 fun hneg => (hroom rest sums hneg hrest hsums).1

theorem duration_inRange_iff (kind : DurationKind) (text : Text) :
    InRange (Temporal.parse (.duration kind) text) True ↔ DurationRoom (trim text) := by
  have hreads : Reads (Temporal.parse (.duration kind) text) (DurationRoom (trim text))
      (durationOf (trim text)) := parseDuration_eq (trim text)
  rw [InRange, hreads.safe_iff]
  constructor
  · exact fun h => h.1
  · exact fun h => ⟨h, fun v hv => ⟨durationOf_held h hv, trivial⟩⟩

theorem date_inRange (text : Text) : InRange (Temporal.parse .date text) True := by
  obtain ⟨-, hdays⟩ := parseDate_safe (trim text)
  change InRange (parseDate (trim text) >>= _) True
  rcases parseDate_cases (trim text) with ⟨days, h⟩ | h
  · rw [h, ok_bind]
    refine ⟨calm_ok _, ?_⟩
    rintro v ⟨⟩
    exact ⟨hdays days h, trivial⟩
  · rw [h]
    exact ⟨calm_refused (), fun v hv => nomatch hv⟩

/-- `Temporal::parse` is safe exactly where a text can be read as the type. -/
theorem parse_inRange_iff (type : LogicalType) (text : Text) :
    InRange (Temporal.parse type text) (ClockShown type (trim text)) ↔
      ReadRoom type (trim text) := by
  have hrefused : InRange (refuse ()) True := ⟨calm_refuse (), fun v h => nomatch h⟩
  cases type with
  | date => exact iff_of_true (date_inRange text) trivial
  | localTime => exact localTime_inRange_iff text
  | zonedTime => exact zonedTime_inRange_iff text
  | localDatetime => exact localDatetime_inRange_iff text
  | zonedDatetime => exact zonedDatetime_inRange_iff text
  | duration kind => exact duration_inRange_iff kind text
  | _ => exact iff_of_true hrefused trivial

/-- A zone that can be read is of at most eighteen hours where it is near. -/
theorem readZone_safe_iff (text : Text) :
    (Calm (readZone text) ∧ ∀ offset, readZone text = .ok offset →
      (-1080 ≤ offset ∧ offset ≤ 1080) ∧
        ∀ fields, (cutZone (trim text)).written = some fields → 0 ≤ fields.2 ∧ fields.2 ≤ 59) ↔
      (cutZone (trim text)).Room ∧ ((cutZone (trim text)).body = [] →
        ∀ fields, (cutZone (trim text)).written = some fields → ZoneNear fields) := by
  have hreads : Reads (readZone text) (cutZone (trim text)).Room
      (((cutZone (trim text)).value.map fun offset => ((cutZone (trim text)).body, offset)).bind
        fun read => if read.1 = [] then read.2 else none) :=
    (splitOffset_eq (trim text)).bind_ofOption fun read => by
      obtain ⟨body, offset⟩ := read
      cases body with
      | nil =>
          cases offset with
          | none => rfl
          | some offset => rfl
      | cons c cs => rfl
  rw [hreads.safe_iff]
  apply and_congr_right
  intro _
  rw [Option.bind_map]
  constructor
  · intro hall hbody fields hfields
    cases hz : cutZone (trim text) with
    | utc body =>
        rw [hz] at hfields
        cases hfields
    | bare body =>
        rw [hz] at hfields
        cases hfields
    | offset negative body digits =>
        rw [hz] at hfields hall hbody
        have hvalue : (Zoned.offset negative body digits).value =
            some (some (offsetOf negative fields)) := Option.map_eq_some_iff.2 ⟨fields, hfields, rfl⟩
        have hoffset := hall (offsetOf negative fields)
          (Option.bind_eq_some_iff.2 ⟨_, hvalue, if_pos hbody⟩)
        exact (zoneNear_iff hfields negative).1 ⟨hoffset.1, hoffset.2 fields hfields⟩
  · intro hall offset hoffset
    obtain ⟨value, hvalue, h⟩ := Option.bind_eq_some_iff.1 hoffset
    dsimp only [Function.comp_apply] at h
    split at h
    case isTrue hbody =>
      subst h
      exact (Zoned.near_iff hvalue).2 (hall hbody)
    case isFalse => cases h

/-- A way that a temporal value, or a zone, is read from text. -/
inductive Reading
  | parse (type : LogicalType) (text : Text)
  | parseAny (text : Text)
  | parseSqlInterval (text : Text) (qualifier : IntervalQualifier)
  | zoneOffset (text : Text)

namespace Reading

/-- A reading does not panic, and answers nothing or a value in its range. -/
def Safe : Reading → Prop
  | parse type text => InRange (Temporal.parse type text) (ClockShown type (trim text))
  | parseAny text =>
      InRange (Temporal.parseAny text)
        (ClockShown (Temporal.shapeOf (trim text)) (trim (trim text)))
  | parseSqlInterval text qualifier => InRange (Common.parseSqlInterval text qualifier) True
  | zoneOffset text =>
      Calm (readZone text) ∧ ∀ offset, readZone text = .ok offset →
        (-1080 ≤ offset ∧ offset ≤ 1080) ∧
          ∀ fields, (cutZone (trim text)).written = some fields → 0 ≤ fields.2 ∧ fields.2 ≤ 59

/-- The text of a reading can be read as what it is read as. -/
def Room : Reading → Prop
  | parse type text => ReadRoom type (trim text)
  | parseAny text => ReadRoom (Temporal.shapeOf (trim text)) (trim (trim text))
  | parseSqlInterval _ _ => True
  | zoneOffset text =>
      (cutZone (trim text)).Room ∧ ((cutZone (trim text)).body = [] →
        ∀ fields, (cutZone (trim text)).written = some fields → ZoneNear fields)

/-- A reading is safe exactly where its text has room. -/
theorem safe_iff_room (reading : Reading) : reading.Safe ↔ reading.Room := by
  cases reading with
  | parse type text => exact parse_inRange_iff type text
  | parseAny text => exact parse_inRange_iff (Temporal.shapeOf (trim text)) (trim text)
  | parseSqlInterval text qualifier =>
      have hsafe := parseSqlInterval_safe text qualifier
      exact iff_of_true ⟨hsafe.1, fun v hv => ⟨hsafe.2 v hv, trivial⟩⟩ trivial
  | zoneOffset text => exact readZone_safe_iff text

/-- Four digits that are not of one byte are cut inside a character, and a time may be
before the day. -/
theorem not_every_safe :
    ¬ (zoneOffset ['+', '0', 'é', '0']).Safe ∧
      ¬ (parse .zonedTime ['-', '5', ':', '0', '0', 'Z']).Safe := by
  constructor
  · rintro ⟨hcalm, -⟩
    exact hcalm rfl
  · rintro ⟨-, hrange⟩
    have hheld := hrange (.zonedTime (-18000000000000) 0) rfl
    exact absurd hheld.1.1.1 (by decide)

end Reading

end Zu.Common
