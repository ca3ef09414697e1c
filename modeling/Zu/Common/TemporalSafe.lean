import Zu.Common.CalendarLaws
import Zu.Common.TemporalText

/-!
# Reading temporal values safely

Which texts are read without a panic and into the range of their type.
-/

namespace Zu.Common

open Lib Checked Schema

/-- A reader panics where there is no room, and elsewhere answers what is written. -/
structure Reads {α : Type} (x : Checked Unit α) (room : Prop) (written : Option α) : Prop where
  answers : room → x = ofOption written
  panics : ¬ room → x = .error .panicked

variable {α β : Type} {x : Checked Unit α} {room : Prop} {written : Option α}

theorem Reads.bind_ofOption (h : Reads x room written) {f : α → Checked Unit β} {g : α → Option β}
    (hf : ∀ a, f a = ofOption (g a)) : Reads (x >>= f) room (written.bind g) := by
  constructor
  · intro hroom
    rw [h.answers hroom]
    cases written with
    | none => rfl
    | some a => exact hf a
  · intro hroom
    rw [h.panics hroom]
    rfl

/-- What holds of every value that a reader answers, and that it does not panic. -/
theorem Reads.safe_iff (h : Reads x room written) {p : α → Prop} :
    (Calm x ∧ ∀ a, x = .ok a → p a) ↔ room ∧ ∀ a, written = some a → p a := by
  by_cases hroom : room
  · rw [h.answers hroom, and_iff_right hroom]
    cases written with
    | none => exact iff_of_true ⟨calm_refused (), fun a ha => nomatch ha⟩ fun a ha => nomatch ha
    | some b =>
        rw [ofOption_some, and_iff_right (calm_ok b)]
        constructor
        · rintro hp a ⟨⟩
          exact hp b rfl
        · rintro hp a ⟨⟩
          exact hp b rfl
  · rw [h.panics hroom]
    exact iff_of_false (fun hs => not_calm_panicked hs.1) fun hs => hroom hs.1

/-! ### Cutting -/

theorem byteLen_eq_zero {text : Text} (h : byteLen text = 0) : text = [] := by
  cases text with
  | nil => rfl
  | cons c cs =>
      have := c.utf8Size_pos
      rw [byteLen_cons] at h
      omega

theorem splitBytes_between {text a b p s : Text} {m n : ℕ} (ha : splitBytes text m = some (a, b))
    (hp : splitBytes text n = some (p, s)) (hmn : m ≤ n) :
    ∃ mid, splitBytes b (n - m) = some (mid, s) := by
  obtain ⟨rfl, rfl⟩ := splitBytes_eq_some.1 ha
  obtain ⟨heq, rfl⟩ := splitBytes_eq_some.1 hp
  rcases List.append_eq_append_iff.1 heq with ⟨mid, rfl, rfl⟩ | ⟨mid, rfl, rfl⟩
  · refine ⟨mid, splitBytes_eq_some.2 ⟨rfl, ?_⟩⟩
    rw [byteLen_append]
    omega
  · rw [byteLen_append] at hmn
    have hmid : mid = [] := byteLen_eq_zero (by omega)
    subst hmid
    refine ⟨[], splitBytes_eq_some.2 ⟨rfl, ?_⟩⟩
    rw [List.append_nil, Nat.sub_self]
    rfl

theorem sliceBytes_eq {text a b m s : Text} {lo hi : ℕ} (ha : splitBytes text lo = some (a, b))
    (hm : splitBytes b (hi - lo) = some (m, s)) : sliceBytes lo hi text = .ok m := by
  rw [sliceBytes, ha]
  dsimp only
  rw [hm]

theorem splitBytes_zero (text : Text) : splitBytes text 0 = some ([], text) := by
  rw [splitBytes_eq_some]
  exact ⟨rfl, rfl⟩

theorem splitBytes_all (text : Text) : splitBytes text (byteLen text) = some (text, []) := by
  rw [splitBytes_eq_some]
  exact ⟨(List.append_nil text).symm, rfl⟩

theorem byteIs_dash {text : Text} {n : ℕ} (h : byteIs text n '-' = true) :
    ∃ a b, splitBytes text n = some (a, '-' :: b) ∧ splitBytes text (n + 1) = some (a ++ ['-'], b) := by
  rw [byteIs] at h
  split at h
  case h_1 a d b hcut =>
    obtain rfl : d = '-' := eq_of_beq h
    obtain ⟨rfl, rfl⟩ := splitBytes_eq_some.1 hcut
    refine ⟨a, b, hcut, splitBytes_eq_some.2 ⟨(List.append_cons ..), ?_⟩⟩
    rw [byteLen_append]
    rfl
  case h_2 => cases h

/-! ### Dates -/

/-- A date of ten bytes with dashes in their places is cut into its fields. -/
theorem parseDate_cut {text : Text} (hlen : byteLen text = 10) (h4 : byteIs text 4 '-' = true)
    (h7 : byteIs text 7 '-' = true) :
    ∃ year month day, sliceBytes 0 4 text = .ok year ∧ sliceBytes 5 7 text = .ok month ∧
      sliceBytes 8 10 text = .ok day := by
  obtain ⟨y, r, hy, hr⟩ := byteIs_dash h4
  obtain ⟨p, d, hp, hd⟩ := byteIs_dash h7
  obtain ⟨m, hm⟩ := splitBytes_between hr hp (by decide)
  obtain ⟨e, he⟩ := splitBytes_between hd (hlen ▸ splitBytes_all text) (by decide)
  exact ⟨y, m, e, sliceBytes_eq (splitBytes_zero text) hy, sliceBytes_eq hr hm,
    sliceBytes_eq hd he⟩

/-- A date is read without a panic, and is a day the calendar has. -/
theorem parseDate_safe (text : Text) :
    Calm (parseDate text) ∧ ∀ days, parseDate text = .ok days → minDay ≤ days ∧ days ≤ maxDay := by
  rw [parseDate]
  split
  case isTrue => exact ⟨calm_refuse (), fun days h => nomatch h⟩
  case isFalse h =>
    rw [not_or, not_or, not_not, not_not, not_not] at h
    obtain ⟨hlen, h4, h7⟩ := h
    obtain ⟨yearText, monthText, dayText, hyear, hmonth, hday⟩ := parseDate_cut hlen h4 h7
    rw [hyear, hmonth, hday]
    simp only [ok_bind]
    cases readSigned 32 yearText with
    | none => exact ⟨calm_refused (), fun days h => nomatch h⟩
    | some year =>
        cases readU32 monthText with
        | none => exact ⟨calm_refused (), fun days h => nomatch h⟩
        | some month =>
            cases readU32 dayText with
            | none => exact ⟨calm_refused (), fun days h => nomatch h⟩
            | some day =>
                simp only [ofOption_some, ok_bind]
                split
                case isTrue => exact ⟨calm_refuse (), fun days h => nomatch h⟩
                case isFalse hc =>
                  refine ⟨calm_ok _, fun days h => ?_⟩
                  rw [← Except.ok.inj h]
                  have hvalid : Civil.Valid ⟨year, month, day⟩ :=
                    ⟨by dsimp only; omega, by dsimp only; omega, by dsimp only; omega⟩
                  exact (Law.spelled_iff hvalid).2 ⟨by dsimp only; omega, hvalid⟩

/-! ### Zones -/

/-- Four digits of a zone without a colon are cut between characters. -/
def ZoneCut (digits : Text) : Prop :=
  splitOnce (· == ':') digits = none → byteLen digits = 4 → (splitBytes digits 2).isSome

/-- The hours and the minutes of a zone that can be cut, as they are written. -/
def zoneTexts (digits : Text) : Option (Text × Text) :=
  match splitOnce (· == ':') digits with
  | some parts => some parts
  | none => if byteLen digits = 4 then splitBytes digits 2 else some (digits, ['0'])

/-- The hours and the minutes of a zone, each no larger than it may be. -/
def zoneFields (digits : Text) : Option (ℤ × ℤ) := do
  let parts ← zoneTexts digits
  let hours ← readSigned 16 parts.1
  let minutes ← readSigned 16 parts.2
  if 18 < hours ∨ 59 < minutes then none else some (hours, minutes)

/-- The minutes of a zone fit a word of sixteen bits on the way. -/
def ZoneFits (negative : Bool) (fields : ℤ × ℤ) : Prop :=
  Fits 16 (fields.1 * 60) ∧ Fits 16 (fields.1 * 60 + fields.2) ∧
    (negative → Fits 16 (-(fields.1 * 60 + fields.2)))

def offsetOf (negative : Bool) (fields : ℤ × ℤ) : ℤ :=
  if negative then -(fields.1 * 60 + fields.2) else fields.1 * 60 + fields.2

theorem zoneParts_eq (digits : Text) :
    Reads (zoneParts digits) (ZoneCut digits) (zoneTexts digits) := by
  rw [ZoneCut, zoneParts, zoneTexts]
  cases splitOnce (· == ':') digits with
  | some parts => exact ⟨fun _ => rfl, fun h => absurd (fun hn => nomatch hn) h⟩
  | none =>
      by_cases hlen : byteLen digits = 4
      · rw [if_pos hlen, if_pos hlen]
        cases hcut : splitBytes digits 2 with
        | none =>
            constructor
            · exact fun h => nomatch h rfl hlen
            · intro _
              rw [sliceBytes, splitBytes_zero]
              dsimp only
              rw [hcut]
              rfl
        | some s =>
            constructor
            · intro _
              have hall := splitBytes_all digits
              rw [hlen] at hall
              obtain ⟨mid, hmid⟩ := splitBytes_between hcut hall (by decide)
              obtain ⟨hs, -⟩ := splitBytes_eq_some.1 hmid
              rw [List.append_nil] at hs
              rw [sliceBytes_eq (splitBytes_zero digits) hcut, sliceBytes_eq hcut hmid, ← hs]
              rfl
            · exact fun h => absurd (fun _ _ => rfl) h
      · rw [if_neg hlen, if_neg hlen]
        exact ⟨fun _ => rfl, fun h => absurd (fun _ h4 => absurd h4 hlen) h⟩

theorem zoneMinutes_eq (negative : Bool) (fields : ℤ × ℤ) :
    Reads (zoneMinutes negative fields.1 fields.2) (ZoneFits negative fields)
      (some (offsetOf negative fields)) := by
  rw [ZoneFits, zoneMinutes, offsetOf]
  by_cases hsixty : Fits 16 (fields.1 * 60)
  · rw [signed_of_fits hsixty, ok_bind]
    by_cases hsum : Fits 16 (fields.1 * 60 + fields.2)
    · rw [signed_of_fits hsum, ok_bind]
      cases negative with
      | false => exact ⟨fun _ => rfl, fun h => absurd ⟨hsixty, hsum, fun hn => nomatch hn⟩ h⟩
      | true =>
          by_cases hneg : Fits 16 (-(fields.1 * 60 + fields.2))
          · exact ⟨fun _ => signed_of_fits hneg, fun h => absurd ⟨hsixty, hsum, fun _ => hneg⟩ h⟩
          · exact ⟨fun h => absurd (h.2.2 rfl) hneg, fun _ => if_neg hneg⟩
    · rw [signed, if_neg hsum]
      exact ⟨fun h => absurd h.2.1 hsum, fun _ => rfl⟩
  · rw [signed, if_neg hsixty]
    exact ⟨fun h => absurd h.1 hsixty, fun _ => rfl⟩

/-- The zone of a text can be read without a panic. -/
def Zoned.Room : Zoned → Prop
  | .utc _ | .bare _ => True
  | .offset negative _ digits =>
      ZoneCut digits ∧ ∀ fields, zoneFields digits = some fields → ZoneFits negative fields

def Zoned.body : Zoned → Text
  | .utc body | .bare body | .offset _ body _ => body

/-- The offset of a zone that can be read, which may be none. -/
def Zoned.value : Zoned → Option (Option ℤ)
  | .utc _ => some (some 0)
  | .bare _ => some none
  | .offset negative _ digits => (zoneFields digits).map fun fields => some (offsetOf negative fields)

theorem zoneOffset_eq (negative : Bool) {digits : Text} (hcut : ZoneCut digits) :
    zoneOffset negative digits =
      match zoneFields digits with
      | none => .error (.refused ())
      | some fields => zoneMinutes negative fields.1 fields.2 := by
  rw [zoneOffset, (zoneParts_eq digits).answers hcut]
  unfold zoneFields
  cases zoneTexts digits with
  | none => rfl
  | some parts =>
      rw [ofOption_some, ok_bind, Option.bind_eq_bind, Option.bind_some]
      cases readSigned 16 parts.1 with
      | none => rfl
      | some hours =>
          rw [ofOption_some, ok_bind, Option.bind_eq_bind, Option.bind_some]
          cases readSigned 16 parts.2 with
          | none => rfl
          | some minutes =>
              rw [ofOption_some, ok_bind, Option.bind_some]
              by_cases hmost : 18 < hours ∨ 59 < minutes
              · rw [if_pos hmost, if_pos hmost]
                rfl
              · rw [if_neg hmost, if_neg hmost]

theorem splitOffset_eq (text : Text) :
    Reads (splitOffset text) (cutZone text).Room
      ((cutZone text).value.map fun offset => ((cutZone text).body, offset)) := by
  rw [splitOffset]
  cases cutZone text with
  | utc body => exact ⟨fun _ => rfl, fun h => absurd trivial h⟩
  | bare body => exact ⟨fun _ => rfl, fun h => absurd trivial h⟩
  | offset negative body digits =>
      dsimp only [Zoned.Room, Zoned.value, Zoned.body]
      by_cases hcut : ZoneCut digits
      · rw [zoneOffset_eq negative hcut]
        cases hfields : zoneFields digits with
        | none => exact ⟨fun _ => rfl, fun h => absurd ⟨hcut, fun f hf => nomatch hf⟩ h⟩
        | some fields =>
            by_cases hfits : ZoneFits negative fields
            · dsimp only
              rw [(zoneMinutes_eq negative fields).answers hfits]
              refine ⟨fun _ => rfl, fun h => absurd ⟨hcut, ?_⟩ h⟩
              rintro f ⟨⟩
              exact hfits
            · dsimp only
              rw [(zoneMinutes_eq negative fields).panics hfits]
              exact ⟨fun h => absurd (h.2 fields rfl) hfits, fun _ => rfl⟩
      · rw [zoneOffset, (zoneParts_eq digits).panics hcut]
        exact ⟨fun h => absurd h.1 hcut, fun _ => rfl⟩

/-! ### Clocks -/

/-- The nanoseconds of a clock. -/
def TimeFields.total (c : TimeFields) : ℤ :=
  c.hour * nanosPerHour + c.minute * nanosPerMinute + c.second * nanosPerSec + c.nanos

/-- The nanoseconds of a clock fit a word on the way. -/
def TimeFields.Room (c : TimeFields) : Prop :=
  Fits 64 (c.hour * nanosPerHour) ∧ Fits 64 (c.minute * nanosPerMinute) ∧
    Fits 64 (c.hour * nanosPerHour + c.minute * nanosPerMinute) ∧
    Fits 64 (c.second * nanosPerSec) ∧
    Fits 64 (c.hour * nanosPerHour + c.minute * nanosPerMinute + c.second * nanosPerSec) ∧
    Fits 64 c.total

instance (c : TimeFields) : Decidable c.Room := inferInstanceAs (Decidable (_ ∧ _))

theorem addFields_eq (c : TimeFields) :
    addFields c = if c.Room then .ok c.total else .error .panicked := by
  rw [addFields]
  by_cases h1 : Fits 64 (c.hour * nanosPerHour)
  case neg =>
    rw [if_neg fun h => h1 h.1, signed, if_neg h1]
    rfl
  rw [signed_of_fits h1, ok_bind]
  by_cases h2 : Fits 64 (c.minute * nanosPerMinute)
  case neg =>
    rw [if_neg fun h => h2 h.2.1, signed, if_neg h2]
    rfl
  rw [signed_of_fits h2, ok_bind]
  by_cases h3 : Fits 64 (c.hour * nanosPerHour + c.minute * nanosPerMinute)
  case neg =>
    rw [if_neg fun h => h3 h.2.2.1, signed, if_neg h3]
    rfl
  rw [signed_of_fits h3, ok_bind]
  by_cases h4 : Fits 64 (c.second * nanosPerSec)
  case neg =>
    rw [if_neg fun h => h4 h.2.2.2.1, signed, if_neg h4]
    rfl
  rw [signed_of_fits h4, ok_bind]
  by_cases h5 : Fits 64 (c.hour * nanosPerHour + c.minute * nanosPerMinute + c.second * nanosPerSec)
  case neg =>
    rw [if_neg fun h => h5 h.2.2.2.2.1, signed, if_neg h5]
    rfl
  rw [signed_of_fits h5, ok_bind]
  by_cases h6 : Fits 64 c.total
  case neg =>
    rw [if_neg fun h => h6 h.2.2.2.2.2]
    exact if_neg h6
  rw [if_pos ⟨h1, h2, h3, h4, h5, h6⟩]
  exact signed_of_fits h6

theorem readFraction_bounds {fraction : Text} {n : ℤ} (h : readFraction fraction = some n) :
    0 ≤ n ∧ n < nanosPerSec := by
  rw [readFraction] at h
  split at h
  case isTrue => cases h
  case isFalse hc =>
    rw [not_or, not_or, not_not, not_lt] at hc
    obtain ⟨hne, hlen, hdigits⟩ := hc
    obtain ⟨k, hk, rfl⟩ := Option.map_eq_some_iff.1 h
    rw [readSigned, readInt_digits hne hdigits, Option.bind_some, checked_eq_some] at hk
    obtain ⟨-, rfl⟩ := hk
    have hle : fraction.length ≤ 9 := (length_le_byteLen fraction).trans hlen
    have hlt : ((valueOf fraction : ℕ) : ℤ) < 10 ^ fraction.length := by
      exact_mod_cast valueOf_lt hdigits
    have hsplit : (10 : ℤ) ^ fraction.length * 10 ^ (9 - fraction.length) = 10 ^ 9 := by
      rw [← pow_add, Nat.add_sub_cancel' hle]
    constructor
    · positivity
    · have := mul_lt_mul_of_pos_right hlt (pow_pos (show (0 : ℤ) < 10 by decide) (9 - fraction.length))
      rw [hsplit] at this
      exact this

theorem readSigned_nonneg {w : ℕ} {text : Text} {n : ℤ} (h : readSigned w text = some n)
    (hminus : '-' ∉ text) : 0 ≤ n := by
  rw [readSigned, Option.bind_eq_some_iff] at h
  obtain ⟨m, hm, hn⟩ := h
  obtain ⟨-, rfl⟩ := checked_eq_some.1 hn
  exact readInt_nonneg hm hminus

theorem parseSeconds_bounds {text : Text} {s : ℤ × ℤ} (h : parseSeconds text = some s) :
    (0 ≤ s.2 ∧ s.2 < nanosPerSec) ∧ ('-' ∉ text → 0 ≤ s.1) := by
  rw [parseSeconds] at h
  split at h
  case h_1 =>
    obtain ⟨n, hn, rfl⟩ := Option.map_eq_some_iff.1 h
    exact ⟨⟨le_rfl, show (0 : ℤ) < nanosPerSec by decide⟩, readSigned_nonneg hn⟩
  case h_2 whole fraction hcut =>
    rw [Option.bind_eq_bind, Option.bind_eq_some_iff] at h
    obtain ⟨nanos, hnanos, h⟩ := h
    rw [Option.bind_eq_some_iff] at h
    obtain ⟨seconds, hseconds, h⟩ := h
    cases h
    obtain ⟨c, -, heq⟩ := splitOnce_append hcut
    refine ⟨readFraction_bounds hnanos, fun hminus => readSigned_nonneg hseconds fun hmem => ?_⟩
    apply hminus
    rw [heq]
    exact List.mem_append_left _ hmem

/-- The fields that are read are no larger than they may be, and of a text without a minus
no smaller. -/
theorem readFields_bounds {time : Text} {c : TimeFields} (h : readFields time = some c) :
    (c.hour ≤ 23 ∧ c.minute ≤ 59 ∧ c.second ≤ 59 ∧ 0 ≤ c.nanos ∧ c.nanos < nanosPerSec) ∧
      ('-' ∉ time → 0 ≤ c.hour ∧ 0 ≤ c.minute ∧ 0 ≤ c.second) := by
  rw [readFields] at h
  split at h
  case h_2 => cases h
  case h_1 hourText minuteText more hparts =>
    rw [Option.bind_eq_bind, Option.bind_eq_some_iff] at h
    obtain ⟨hour, hhour, h⟩ := h
    rw [Option.bind_eq_some_iff] at h
    obtain ⟨minute, hminute, h⟩ := h
    rw [Option.bind_eq_bind, Option.bind_eq_some_iff] at h
    obtain ⟨seconds, hseconds, h⟩ := h
    split at h
    case isTrue => cases h
    case isFalse hc =>
      cases h
      have hmem : ∀ {part : Text}, part ∈ hourText :: minuteText :: more → '-' ∉ time →
          '-' ∉ part := fun {part} hpart hminus hin =>
        hminus (mem_of_mem_splitAll (hparts ▸ hpart) hin)
      have hsec : (0 ≤ seconds.2 ∧ seconds.2 < nanosPerSec) ∧ ('-' ∉ time → 0 ≤ seconds.1) := by
        cases more with
        | nil =>
            cases hseconds
            exact ⟨⟨le_rfl, by decide⟩, fun _ => le_rfl⟩
        | cons text texts =>
            obtain ⟨hb, hpos⟩ := parseSeconds_bounds hseconds
            exact ⟨hb, fun hminus => hpos (hmem (by simp) hminus)⟩
      refine ⟨⟨by dsimp only; omega, by dsimp only; omega, by dsimp only; omega, hsec.1⟩, ?_⟩
      intro hminus
      exact ⟨readSigned_nonneg hhour (hmem (by simp) hminus),
        readSigned_nonneg hminute (hmem (by simp) hminus), hsec.2 hminus⟩

theorem TimeFields.room_of_nonneg {c : TimeFields}
    (h : c.hour ≤ 23 ∧ c.minute ≤ 59 ∧ c.second ≤ 59 ∧ 0 ≤ c.nanos ∧ c.nanos < nanosPerSec)
    (h0 : 0 ≤ c.hour ∧ 0 ≤ c.minute ∧ 0 ≤ c.second) : c.Room ∧ 0 ≤ c.total := by
  rw [nanosPerSec] at h
  rw [Room, total, nanosPerHour, nanosPerMinute, nanosPerSec, fits_64, fits_64, fits_64, fits_64,
    fits_64, fits_64]
  omega

/-! ### Times -/

/-- The zone of a text that has no `Z` behind it. -/
def cutSign (text : Text) : Zoned :=
  match text.span fun c => !(c == '+' || c == '-') with
  | (body, sign :: digits) => .offset (sign == '-') body digits
  | (body, []) => .bare body

theorem cutZone_cases (text : Text) :
    cutZone text = .utc text.dropLast ∨ cutZone text = cutSign text := by
  rw [cutZone]
  split
  case h_1 => exact Or.inl rfl
  case h_2 => exact Or.inl rfl
  case h_3 => exact Or.inr rfl

theorem cutSign_body (text : Text) :
    (cutSign text).body = text.takeWhile fun c => !(c == '+' || c == '-') := by
  rw [cutSign, List.span_eq_takeWhile_dropWhile]
  cases text.dropWhile fun c => !(c == '+' || c == '-') with
  | nil => rfl
  | cons sign digits => rfl

theorem cutZone_minus {text : Text} (h : ∀ body, cutZone text ≠ .utc body) :
    '-' ∉ (cutZone text).body := by
  rcases cutZone_cases text with hutc | hsign
  · exact absurd hutc (h _)
  · rw [hsign, cutSign_body]
    intro hmem
    have hdash := List.mem_takeWhile_imp hmem
    exact absurd hdash (by decide)

/-- The zone and the clock of a time can be read without a panic. -/
def TimeRoom (text : Text) : Prop :=
  (cutZone text).Room ∧ ∀ c, readFields (cutZone text).body = some c → c.Room

/-- The nanoseconds of a time and its offset, as they are written. -/
def timeOf (text : Text) : Option (ℤ × Option ℤ) := do
  let offset ← (cutZone text).value
  let fields ← readFields (cutZone text).body
  some (fields.total, offset)

theorem parseTime_eq (text : Text) :
    Reads (parseTime text) (TimeRoom text) (timeOf text) := by
  rw [TimeRoom, parseTime, timeOf]
  by_cases hzone : (cutZone text).Room
  case neg =>
    rw [(splitOffset_eq text).panics hzone]
    exact ⟨fun h => absurd h.1 hzone, fun _ => rfl⟩
  rw [(splitOffset_eq text).answers hzone]
  cases hvalue : (cutZone text).value with
  | none =>
      refine ⟨fun _ => rfl, fun h => absurd ⟨hzone, fun c hc => ?_⟩ h⟩
      obtain ⟨hbound, hpos⟩ := readFields_bounds hc
      refine (TimeFields.room_of_nonneg hbound (hpos (cutZone_minus ?_))).1
      intro body hbody
      rw [hbody] at hvalue
      cases hvalue
  | some offset =>
      rw [Option.map_some, ofOption_some, ok_bind, Option.bind_eq_bind, Option.bind_some]
      dsimp only
      cases hfields : readFields (cutZone text).body with
      | none => exact ⟨fun _ => rfl, fun h => absurd ⟨hzone, fun c hc => nomatch hc⟩ h⟩
      | some c =>
          rw [ofOption_some, ok_bind, addFields_eq]
          by_cases hroom : c.Room
          · rw [if_pos hroom]
            refine ⟨fun _ => rfl, fun h => absurd ⟨hzone, ?_⟩ h⟩
            rintro d ⟨⟩
            exact hroom
          · rw [if_neg hroom]
            exact ⟨fun h => absurd (h.2 c rfl) hroom, fun _ => rfl⟩

/-! ### Datetimes -/

/-- The time of a datetime whose date is one can be read without a panic. -/
def DatetimeRoom (text : Text) : Prop :=
  ∀ date time days, cutDatetime text = some (date, time) → parseDate date = .ok days →
    TimeRoom time

/-- The instant of a datetime, as it is written, and its offset. -/
def datetimeOf (text : Text) : Option (ℤ × Option ℤ) :=
  match cutDatetime text with
  | none =>
      match parseDate text with
      | .ok days => (instantAt days 0).map fun instant => (instant, none)
      | _ => none
  | some (date, time) =>
      match parseDate date with
      | .ok days => do
          let time ← timeOf time
          let instant ← instantAt days time.1
          some (instant, time.2)
      | _ => none

theorem parseDate_cases (text : Text) :
    (∃ days, parseDate text = .ok days) ∨ parseDate text = .error (.refused ()) := by
  have hcalm := (parseDate_safe text).1
  match h : parseDate text with
  | .ok days => exact Or.inl ⟨days, rfl⟩
  | .error (.refused ()) => exact Or.inr rfl
  | .error .panicked => exact absurd h hcalm

theorem parseDatetime_eq (text : Text) :
    Reads (parseDatetime text) (DatetimeRoom text) (datetimeOf text) := by
  rw [DatetimeRoom, parseDatetime, datetimeOf]
  cases hcut : cutDatetime text with
  | none =>
      refine ⟨fun _ => ?_, fun h => absurd (fun date time days hc => nomatch hc) h⟩
      dsimp only
      rcases parseDate_cases text with ⟨days, hdays⟩ | hdays
      · rw [hdays, ok_bind]
        dsimp only
        cases instantAt days 0 with
        | none => rfl
        | some instant => rfl
      · rw [hdays]
        rfl
  | some s =>
      obtain ⟨date, time⟩ := s
      dsimp only
      rcases parseDate_cases date with ⟨days, hdays⟩ | hdays
      · rw [hdays, ok_bind]
        dsimp only
        by_cases hroom : TimeRoom time
        · rw [(parseTime_eq time).answers hroom]
          refine ⟨fun _ => ?_, fun h => absurd ?_ h⟩
          · cases timeOf time with
            | none => rfl
            | some t =>
                rw [ofOption_some, ok_bind, Option.bind_eq_bind, Option.bind_some]
                cases instantAt days t.1 with
                | none => rfl
                | some instant => rfl
          · rintro date' time' days' ⟨⟩ -
            exact hroom
        · rw [(parseTime_eq time).panics hroom]
          exact ⟨fun h => absurd (h date time days rfl hdays) hroom, fun _ => rfl⟩
      · rw [hdays]
        refine ⟨fun _ => rfl, fun h => absurd ?_ h⟩
        rintro date' time' days' ⟨⟩ hd
        rw [hdays] at hd
        cases hd

end Zu.Common
