import Zu.Common.TemporalPrint

/-!
# The text of a temporal value

Which values are read again from the text they are printed as.
-/

namespace Zu.Common

open Lib Checked Schema

/-! ### The fields of a duration -/

/-- The characters a number of a duration is written with. -/
def isNumber (c : Char) : Bool := isDigit c || c == '.' || c == ','

/-- A character behind a number. -/
def IsUnit (c : Char) : Prop := isNumber c = false ∧ (c == '-' || c == '+') = false

instance (c : Char) : Decidable (IsUnit c) := inferInstanceAs (Decidable (_ ∧ _))

theorem cutFields_number {number cs acc : Text} (h : ∀ c ∈ number, isNumber c = true) :
    cutFields (number ++ cs) acc = cutFields cs (acc ++ number) := by
  induction number generalizing acc with
  | nil => rw [List.nil_append, List.append_nil]
  | cons c number ih =>
      have hc := h c List.mem_cons_self
      rw [isNumber] at hc
      rw [List.cons_append, cutFields, if_pos hc, ih fun d hd => h d (List.mem_cons_of_mem c hd),
        List.append_assoc]
      rfl

theorem cutFields_field {number cs : Text} {unit : Char} (h : ∀ c ∈ number, isNumber c = true)
    (hne : number ≠ []) (hunit : IsUnit unit) :
    cutFields (number ++ unit :: cs) [] =
      (cutFields cs []).map fun fields => (number, unit) :: fields := by
  obtain ⟨hnumber, hsign⟩ := hunit
  rw [isNumber] at hnumber
  rw [cutFields_number h, List.nil_append, cutFields, hnumber, if_neg Bool.false_ne_true, hsign,
    Bool.false_and, if_neg Bool.false_ne_true, if_neg hne]

theorem isNumber_of_numeric {text : Text} (h : Numeric text) : ∀ c ∈ text, isNumber c = true :=
  fun c hc => by rw [isNumber, List.all_eq_true.1 h.2 c hc, Bool.true_or, Bool.true_or]

theorem isNumber_showFraction {frac : ℤ} (h : 0 ≤ frac) :
    ∀ c ∈ showFraction frac, isNumber c = true := by
  intro c hc
  rw [showFraction] at hc
  split at hc
  case isTrue =>
    rcases List.mem_cons.1 hc with rfl | hc
    · rfl
    · exact isNumber_of_numeric (numeric_showField h) c hc
  case isFalse => cases hc

/-- The text of a field that is left out where it is zero. -/
def showUnit (n : ℤ) (unit : Char) : Text := if n ≠ 0 then showField 1 n ++ [unit] else []

/-- A field that is left out where it is zero. -/
def fieldOf (n : ℤ) (unit : Char) : List (Text × Char) :=
  if n ≠ 0 then [(showField 1 n, unit)] else []

theorem fieldOf_eq_nil {n : ℤ} {unit : Char} (h : fieldOf n unit = []) : n = 0 := by
  by_contra hn
  rw [fieldOf, if_pos hn] at h
  cases h

theorem cutFields_showUnit {n : ℤ} (hn : 0 ≤ n) {unit : Char} (hunit : IsUnit unit) (cs : Text) :
    cutFields (showUnit n unit ++ cs) [] =
      (cutFields cs []).map fun fields => fieldOf n unit ++ fields := by
  rw [showUnit, fieldOf]
  by_cases hzero : n ≠ 0
  · have hnum : Numeric (showField 1 n) := numeric_showField hn
    rw [if_pos hzero, if_pos hzero, List.append_assoc]
    exact cutFields_field (isNumber_of_numeric hnum) hnum.1 hunit
  · rw [if_neg hzero, if_neg hzero]
    exact (Option.map_id' (x := cutFields cs [])).symm

theorem splitSign_of_number {text : Text} (h : ∀ c ∈ text, isNumber c = true) :
    splitSign text = (false, text) := by
  rw [splitSign.eq_def]
  split
  case h_1 rest => exact absurd (h '-' List.mem_cons_self) (by decide)
  case h_2 rest => exact absurd (h '+' List.mem_cons_self) (by decide)
  case h_3 => rfl

theorem map_comma {text : Text} (h : ',' ∉ text) :
    (text.map fun c => if c == ',' then '.' else c) = text := by
  conv_rhs => rw [← List.map_id text]
  apply List.map_congr_left
  intro c hc
  have hne : (c == ',') = false := by
    rw [beq_eq_false_iff_ne]
    rintro rfl
    exact h hc
  rw [hne, if_neg Bool.false_ne_true]
  rfl

theorem numeric_point {text : Text} (h : Numeric text) : ∀ d ∈ text, (d == '.') = false :=
  numeric_ne h (fun _ hd => eq_of_beq hd) (by decide)

theorem scaled_showField {n unit : ℤ} (hn : 0 ≤ n) (hfits : Fits 64 n) :
    scaled (showField 1 n) unit = checked 64 (n * unit) := by
  have hnum : Numeric (showField 1 n) := numeric_showField hn
  rw [scaled, map_comma (hnum.not_mem (by decide)), splitSign_of_number (isNumber_of_numeric hnum)]
  dsimp only
  rw [scaledSize, splitOnce_eq_none (numeric_point hnum)]
  dsimp only
  rw [readSigned_showField hn hfits, Option.bind_eq_bind, Option.bind_some]
  by_cases hsize : Fits 64 (n * unit)
  · rw [checked_of_fits hsize, Option.bind_some, if_neg Bool.false_ne_true, mul_one,
      checked_of_fits hsize]
  · rw [checked_eq_none.2 hsize]
    rfl

theorem scaled_seconds {seconds frac : ℤ} (hs : 0 ≤ seconds ∧ seconds ≤ 59)
    (hf : 0 ≤ frac ∧ frac < nanosPerSec) :
    scaled (showField 1 seconds ++ showFraction frac) nanosPerSec =
      some (seconds * nanosPerSec + frac) := by
  have hnum : Numeric (showField 1 seconds) := numeric_showField hs.1
  have hword : Fits 64 seconds := by
    rw [fits_64]
    omega
  by_cases hzero : frac = 0
  · rw [hzero, showFraction, if_neg (not_not.2 rfl), List.append_nil,
      scaled_showField hs.1 hword, add_zero]
    apply checked_of_fits
    rw [fits_64, nanosPerSec]
    omega
  · have hfrac : Numeric (showField 9 frac) := numeric_showField hf.1
    have hlen : byteLen (showField 9 frac) = 9 := length_showField hf.1 (by decide) hf.2
    have hlist : (showField 9 frac).length = 9 := by
      rw [← Numeric.byteLen hfrac.2]
      exact hlen
    have hall : ∀ c ∈ showField 1 seconds ++ '.' :: showField 9 frac, isNumber c = true := by
      intro c hc
      rcases List.mem_append.1 hc with hc | hc
      · exact isNumber_of_numeric hnum c hc
      rcases List.mem_cons.1 hc with rfl | hc
      · rfl
      · exact isNumber_of_numeric hfrac c hc
    have hcomma : ',' ∉ showField 1 seconds ++ '.' :: showField 9 frac := by
      intro hc
      rcases List.mem_append.1 hc with hc | hc
      · exact hnum.not_mem (by decide) hc
      rcases List.mem_cons.1 hc with hc | hc
      · exact absurd hc (by decide)
      · exact hfrac.not_mem (by decide) hc
    have hsec : nanosPerSec = 1000000000 := rfl
    have hfits : Fits 64 frac := by
      rw [hsec] at hf
      rw [fits_64]
      omega
    rw [showFraction, if_pos hzero, scaled, map_comma hcomma, splitSign_of_number hall]
    dsimp only
    rw [scaledSize, splitOnce_of_none (numeric_point hnum) rfl]
    dsimp only
    rw [if_neg (by rw [hlen, not_or, not_not]; exact ⟨lt_irrefl 9, hfrac.2⟩), readWhole,
      if_neg hnum.1, readSigned_showField hs.1 hword, readSigned_showField hf.1 hfits, hlist]
    dsimp only [Option.bind_eq_bind, Option.bind_some]
    rw [checked_of_fits (n := nanosPerSec * frac), checked_of_fits (n := seconds * nanosPerSec)]
    · dsimp only [Option.bind_some]
      have hpart : (nanosPerSec * frac).tdiv (10 ^ 9) = frac :=
        Int.mul_tdiv_cancel_left frac (by decide)
      rw [hpart, checked_of_fits]
      · dsimp only [Option.bind_some]
        rw [if_neg Bool.false_ne_true, mul_one, checked_of_fits]
        rw [fits_64, hsec]
        omega
      · rw [fits_64, hsec]
        omega
    · rw [fits_64, hsec]
      omega
    · rw [fits_64, hsec]
      omega

/-! ### Months -/

/-- A count that a printed duration has. -/
def Counted (count : ℤ) : Prop := 0 ≤ count ∧ count ≤ 9223372036854775807

theorem addDateFields_month {fields : List (Text × Char)} {value : Text} {n months nanos : ℤ}
    (h : readSigned 64 value = some n) (hfits : Fits 64 (months + n)) :
    addDateFields ((value, 'M') :: fields) (months, nanos) =
      addDateFields fields (months + n, nanos) := by
  rw [addDateFields, if_neg (by decide), if_pos (by decide), h, Option.bind_eq_bind,
    Option.bind_some, checked_of_fits hfits]
  rfl

theorem addDateFields_year {fields : List (Text × Char)} {value : Text} {n months nanos : ℤ}
    (h : readSigned 64 value = some n) (hyears : Fits 64 (n * 12))
    (hfits : Fits 64 (months + n * 12)) :
    addDateFields ((value, 'Y') :: fields) (months, nanos) =
      addDateFields fields (months + n * 12, nanos) := by
  rw [addDateFields, if_pos (by decide), h, Option.bind_eq_bind, Option.bind_some,
    checked_of_fits hyears, Option.bind_some, checked_of_fits hfits]
  rfl

/-- The months are written unless the years are the whole count. -/
def monthField (count : ℤ) : List (Text × Char) :=
  if count % 12 ≠ 0 ∨ count / 12 = 0 then [(showField 1 (count % 12), 'M')] else []

theorem cutFields_showMonths {count : ℤ} (h : 0 ≤ count) :
    cutFields (showMonths count) [] = some (fieldOf (count / 12) 'Y' ++ monthField count) := by
  have hyears : 0 ≤ count / 12 := by omega
  have hmonths : 0 ≤ count % 12 := by omega
  change cutFields (showUnit (count / 12) 'Y' ++ _) [] = _
  rw [cutFields_showUnit hyears (by decide), monthField]
  split
  case isTrue =>
    have hnum : Numeric (showField 1 (count % 12)) := numeric_showField hmonths
    rw [cutFields_field (isNumber_of_numeric hnum) hnum.1 (by decide)]
    rfl
  case isFalse => rfl

theorem addDateFields_months {count : ℤ} (h : Counted count) :
    addDateFields (fieldOf (count / 12) 'Y' ++ monthField count) (0, 0) = some (count, 0) := by
  obtain ⟨h0, hmost⟩ := h
  have hmonth : ∀ {sum : ℤ}, sum = count / 12 * 12 →
      addDateFields (monthField count) (sum, 0) = some (count, 0) := by
    rintro sum rfl
    rw [monthField]
    have hsum : count / 12 * 12 + count % 12 = count := by omega
    split
    case isTrue =>
      rw [addDateFields_month (readSigned_showField (by omega) (fits_64.2 (by omega)))
        (fits_64.2 (by omega)), hsum]
      rfl
    case isFalse hnone =>
      have hexact : count / 12 * 12 = count := by omega
      rw [hexact]
      rfl
  rw [fieldOf]
  split
  case isTrue =>
    rw [List.singleton_append, addDateFields_year
      (readSigned_showField (by omega) (fits_64.2 (by omega))) (fits_64.2 (by omega))
      (fits_64.2 (by omega))]
    apply hmonth
    omega
  case isFalse hzero =>
    apply hmonth
    omega

theorem no_T {text : Text} (h : ∀ c ∈ text, (c == 'T' || c == 't') = false) :
    cutDuration text = (text, none) := by
  rw [cutDuration, splitOnce_eq_none h]

theorem ne_T_of_numeric {text : Text} (h : Numeric text) :
    ∀ c ∈ text, (c == 'T' || c == 't') = false := by
  intro c hc
  rw [Bool.or_eq_false_iff, beq_eq_false_iff_ne, beq_eq_false_iff_ne]
  constructor
  · rintro rfl
    exact h.not_mem (by decide) hc
  · rintro rfl
    exact h.not_mem (by decide) hc

theorem ne_T_showUnit {n : ℤ} (hn : 0 ≤ n) {unit : Char} (hunit : (unit == 'T' || unit == 't') = false) :
    ∀ c ∈ showUnit n unit, (c == 'T' || c == 't') = false := by
  intro c hc
  rw [showUnit] at hc
  split at hc
  case isTrue =>
    rcases List.mem_append.1 hc with hc | hc
    · exact ne_T_of_numeric (numeric_showField hn) c hc
    · rw [List.mem_singleton.1 hc]
      exact hunit
  case isFalse => cases hc

theorem ne_T_showMonths {count : ℤ} (h : 0 ≤ count) :
    ∀ c ∈ showMonths count, (c == 'T' || c == 't') = false := by
  intro c hc
  rcases List.mem_append.1 hc with hc | hc
  · exact ne_T_showUnit (by omega) rfl c hc
  split at hc
  case isTrue =>
    rcases List.mem_append.1 hc with hc | hc
    · exact ne_T_of_numeric (numeric_showField (by omega)) c hc
    · rw [List.mem_singleton.1 hc]
      rfl
  case isFalse => cases hc

theorem sumDuration_showMonths {count : ℤ} (h : Counted count) :
    sumDuration (showMonths count) = some (count, 0) := by
  have hcut := cutFields_showMonths h.1
  have hne : showMonths count ≠ [] := by
    intro hempty
    rw [hempty] at hcut
    have hfields : fieldOf (count / 12) 'Y' ++ monthField count = [] := (Option.some.inj hcut).symm
    have hnil := List.append_eq_nil_iff.1 hfields
    rw [monthField, if_pos (Or.inr (fieldOf_eq_nil hnil.1))] at hnil
    exact absurd hnil.2 (List.cons_ne_nil _ _)
  rw [sumDuration, no_T (ne_T_showMonths h.1)]
  dsimp only
  rw [if_neg fun hempty => hne hempty.1, hcut, Option.bind_eq_bind, Option.bind_some,
    addDateFields_months h]
  change (if count ≠ 0 ∧ (0 : ℤ) ≠ 0 then none else some (count, 0)) = _
  rw [if_neg fun hboth => hboth.2 rfl]

/-! ### Nanoseconds -/

theorem addTimeFields_cons {fields : List (Text × Char)} {value : Text} {unit : Char}
    {size more nanos : ℤ} (hunit : timeUnit unit = some size) (h : scaled value size = some more)
    (hfits : Fits 64 (nanos + more)) :
    addTimeFields ((value, unit) :: fields) nanos = addTimeFields fields (nanos + more) := by
  rw [addTimeFields, hunit, Option.bind_eq_bind, Option.bind_some, h, Option.bind_some,
    checked_of_fits hfits]
  rfl

theorem addTimeFields_fieldOf {fields : List (Text × Char)} {n size nanos : ℤ} {unit : Char}
    (hunit : timeUnit unit = some size) (hn : 0 ≤ n) (hword : Fits 64 n)
    (hscaled : Fits 64 (n * size)) (hfits : Fits 64 (nanos + n * size)) :
    addTimeFields (fieldOf n unit ++ fields) nanos = addTimeFields fields (nanos + n * size) := by
  rw [fieldOf]
  split
  case isTrue =>
    exact addTimeFields_cons hunit ((scaled_showField hn hword).trans (checked_of_fits hscaled)) hfits
  case isFalse hzero =>
    rw [not_not.1 hzero, zero_mul, add_zero]
    rfl

/-- The seconds are written unless the hours or the minutes are the whole clock. -/
def secondField (rest : ℤ) : List (Text × Char) :=
  if rest / nanosPerSec % 60 ≠ 0 ∨ rest % nanosPerSec ≠ 0 ∨
      (rest / nanosPerHour = 0 ∧ rest / nanosPerMinute % 60 = 0) then
    [(showField 1 (rest / nanosPerSec % 60) ++ showFraction (rest % nanosPerSec), 'S')]
  else []

/-- The fields behind the `T`. -/
def clockFields (rest : ℤ) : List (Text × Char) :=
  fieldOf (rest / nanosPerHour) 'H' ++ (fieldOf (rest / nanosPerMinute % 60) 'M' ++ secondField rest)

theorem cutFields_showClock {rest : ℤ} (h : 0 ≤ rest) :
    cutFields (showClock rest) [] = some (clockFields rest) := by
  have hhours : 0 ≤ rest / nanosPerHour := Int.ediv_nonneg h (by decide)
  have hminutes : 0 ≤ rest / nanosPerMinute % 60 := Int.emod_nonneg _ (by decide)
  have hseconds : 0 ≤ rest / nanosPerSec % 60 := Int.emod_nonneg _ (by decide)
  have hfrac : 0 ≤ rest % nanosPerSec := Int.emod_nonneg _ (by decide)
  change cutFields (showUnit (rest / nanosPerHour) 'H' ++
    (showUnit (rest / nanosPerMinute % 60) 'M' ++ _)) [] = _
  rw [cutFields_showUnit hhours (by decide), cutFields_showUnit hminutes (by decide), clockFields,
    secondField]
  split
  case isTrue =>
    have hnum : Numeric (showField 1 (rest / nanosPerSec % 60)) := numeric_showField hseconds
    have hall : ∀ c ∈ showField 1 (rest / nanosPerSec % 60) ++ showFraction (rest % nanosPerSec),
        isNumber c = true := by
      intro c hc
      rcases List.mem_append.1 hc with hc | hc
      · exact isNumber_of_numeric hnum c hc
      · exact isNumber_showFraction hfrac c hc
    rw [← List.append_assoc, cutFields_field hall (List.append_ne_nil_of_left_ne_nil hnum.1 _)
      (by decide)]
    rfl
  case isFalse => rfl

theorem addTimeFields_clock {rest days : ℤ} (h0 : 0 ≤ rest) (h : rest < nanosPerDay)
    (hdays : 0 ≤ days) (hfits : Fits 64 (days + rest)) :
    addTimeFields (clockFields rest) days = some (days + rest) := by
  rw [nanosPerDay, nanosPerHour, nanosPerMinute, nanosPerSec] at h
  rw [fits_64] at hfits
  obtain ⟨hours, hh⟩ : ∃ hours, hours = rest / nanosPerHour := ⟨_, rfl⟩
  obtain ⟨minutes, hm⟩ : ∃ minutes, minutes = rest / nanosPerMinute % 60 := ⟨_, rfl⟩
  obtain ⟨seconds, hs⟩ : ∃ seconds, seconds = rest / nanosPerSec % 60 := ⟨_, rfl⟩
  obtain ⟨frac, hf⟩ : ∃ frac, frac = rest % nanosPerSec := ⟨_, rfl⟩
  have hsum : hours * nanosPerHour + minutes * nanosPerMinute +
      (seconds * nanosPerSec + frac) = rest := by
    rw [hh, hm, hs, hf, nanosPerHour, nanosPerMinute, nanosPerSec]
    omega
  have hpos : 0 ≤ hours ∧ 0 ≤ minutes ∧ (0 ≤ seconds ∧ seconds ≤ 59) ∧
      0 ≤ frac ∧ frac < nanosPerSec := by
    rw [hh, hm, hs, hf, nanosPerHour, nanosPerMinute, nanosPerSec]
    omega
  obtain ⟨hh0, hm0, hs59, hf0⟩ := hpos
  have hfrac := hf0.2
  rw [nanosPerSec] at hfrac
  have hlast : addTimeFields (secondField rest)
      (days + hours * nanosPerHour + minutes * nanosPerMinute) = some (days + rest) := by
    rw [secondField, ← hh, ← hm, ← hs, ← hf]
    split
    case isTrue =>
      rw [addTimeFields_cons rfl (scaled_seconds hs59 hf0)]
      · rw [← hsum]
        apply congrArg some
        omega
      · rw [fits_64]
        omega
    case isFalse hnone =>
      have hs0 : seconds = 0 := by omega
      have hf1 : frac = 0 := by omega
      rw [hs0, hf1, zero_mul, add_zero, add_zero] at hsum
      rw [← hsum, ← add_assoc]
      rfl
  have hroom : (Fits 64 hours ∧ Fits 64 (hours * nanosPerHour) ∧
      Fits 64 (days + hours * nanosPerHour)) ∧ Fits 64 minutes ∧
      Fits 64 (minutes * nanosPerMinute) ∧
      Fits 64 (days + hours * nanosPerHour + minutes * nanosPerMinute) := by
    rw [nanosPerHour, nanosPerMinute, nanosPerSec] at hsum ⊢
    rw [fits_64, fits_64, fits_64, fits_64, fits_64, fits_64]
    omega
  obtain ⟨⟨hh1, hh2, hh3⟩, hm1, hm2, hm3⟩ := hroom
  rw [clockFields, ← hh, ← hm,
    addTimeFields_fieldOf (rfl : timeUnit 'H' = some nanosPerHour) hh0 hh1 hh2 hh3,
    addTimeFields_fieldOf (rfl : timeUnit 'M' = some nanosPerMinute) hm0 hm1 hm2 hm3]
  exact hlast

theorem addDateFields_days {count : ℤ} (h : Counted count) :
    addDateFields (fieldOf (count / nanosPerDay) 'D') (0, 0) =
      some (0, count / nanosPerDay * nanosPerDay) := by
  obtain ⟨h0, hmost⟩ := h
  have hpos : 0 ≤ count / nanosPerDay := Int.ediv_nonneg h0 (by decide)
  have hfits : Fits 64 (count / nanosPerDay) ∧
      Fits 64 (count / nanosPerDay * nanosPerDay) := by
    rw [fits_64, fits_64, nanosPerDay, nanosPerHour, nanosPerMinute, nanosPerSec]
    omega
  rw [fieldOf]
  split
  case isTrue =>
    rw [addDateFields, if_neg (by decide), if_neg (by decide), if_neg (by decide),
      if_pos (by decide), scaled_showField hpos hfits.1, checked_of_fits hfits.2,
      Option.bind_eq_bind, Option.bind_some, zero_add, checked_of_fits hfits.2]
    rfl
  case isFalse hzero =>
    rw [not_not.1 hzero, zero_mul]
    rfl

theorem cutFields_days {count : ℤ} (h : 0 ≤ count) :
    cutFields (showUnit (count / nanosPerDay) 'D') [] = some (fieldOf (count / nanosPerDay) 'D') := by
  have hpos : 0 ≤ count / nanosPerDay := Int.ediv_nonneg h (by decide)
  have hcut := cutFields_showUnit hpos (by decide : IsUnit 'D') []
  rw [List.append_nil] at hcut
  rw [hcut]
  change some (fieldOf (count / nanosPerDay) 'D' ++ []) = _
  rw [List.append_nil]

theorem sumDuration_showNanos {count : ℤ} (h : Counted count) :
    sumDuration (showNanos count) = some (0, count) := by
  have hmost := h.2
  have h0 := h.1
  have hday : (0 : ℤ) < nanosPerDay := by decide
  have hpos : 0 ≤ count / nanosPerDay := Int.ediv_nonneg h.1 hday.le
  have hrest : 0 ≤ count % nanosPerDay := Int.emod_nonneg _ hday.ne'
  have hlt : count % nanosPerDay < nanosPerDay := Int.emod_lt_of_pos _ hday
  have hsum : count / nanosPerDay * nanosPerDay + count % nanosPerDay = count := by
    rw [mul_comm]
    exact Int.mul_ediv_add_emod count nanosPerDay
  have hnoT := ne_T_showUnit hpos (rfl : ('D' == 'T' || 'D' == 't') = false)
  change sumDuration (showUnit (count / nanosPerDay) 'D' ++ _) = _
  split
  case isTrue hexact =>
    have hne : showUnit (count / nanosPerDay) 'D' ≠ [] := by
      rw [showUnit, if_pos hexact.2]
      exact List.append_ne_nil_of_right_ne_nil _ (List.cons_ne_nil _ _)
    rw [hexact.1, add_zero] at hsum
    rw [List.append_nil, sumDuration, no_T hnoT]
    dsimp only
    rw [if_neg fun hempty => hne hempty.1, cutFields_days h.1, Option.bind_eq_bind,
      Option.bind_some, addDateFields_days h, hsum]
    rfl
  case isFalse =>
    have hcut : cutDuration (showUnit (count / nanosPerDay) 'D' ++ 'T' ::
        showClock (count % nanosPerDay)) =
        (showUnit (count / nanosPerDay) 'D', some (showClock (count % nanosPerDay))) := by
      rw [cutDuration, splitOnce_of_none hnoT rfl]
    have hclock := cutFields_showClock hrest
    have hne : showClock (count % nanosPerDay) ≠ [] := by
      intro hempty
      rw [hempty] at hclock
      have hfields : clockFields (count % nanosPerDay) = [] := (Option.some.inj hclock).symm
      obtain ⟨hh, hrest'⟩ := List.append_eq_nil_iff.1 hfields
      obtain ⟨hm, hs⟩ := List.append_eq_nil_iff.1 hrest'
      rw [secondField, if_pos (Or.inr (Or.inr ⟨fieldOf_eq_nil hh, fieldOf_eq_nil hm⟩))] at hs
      exact absurd hs (List.cons_ne_nil _ _)
    rw [sumDuration, hcut]
    dsimp only
    rw [if_neg fun hempty => hne hempty.2, cutFields_days h.1, Option.bind_eq_bind,
      Option.bind_some, addDateFields_days h]
    change ((cutFields (showClock (count % nanosPerDay)) []).bind fun fields => _) = _
    rw [hclock, Option.bind_some, addTimeFields_clock hrest hlt (by positivity)
      (hsum.symm ▸ fits_64.2 (by omega)), hsum]
    rfl

/-! ### Round trips -/

namespace Temporal

/-- A value is printed, and what is printed is read as the value again. -/
def RoundTrips (v : Temporal) : Prop := ∃ text, v.print = .ok text ∧ parse v.logicalType text = .ok v

/-- A datetime's wall clock is a word, and its day starts within one; a duration of months is
not zero; and the count of a duration can be negated. -/
def Spellable : Temporal → Prop
  | date _ => True
  | localTime _ => True
  | zonedTime _ _ => True
  | localDatetime nanos => firstWhole ≤ nanos
  | zonedDatetime nanos offset =>
      firstWhole ≤ nanos + offset * nanosPerMinute ∧ Fits 64 (nanos + offset * nanosPerMinute)
  | duration .yearMonth count => count ≠ 0 ∧ count ≠ leastWord
  | duration .dayTime count => count ≠ leastWord

theorem parseDuration_show {text body : Text} {negative : Bool} {months nanos : ℤ}
    (hsign : splitSign text = (negative, 'P' :: body))
    (hsums : sumDuration body = some (months, nanos)) :
    parseDuration text =
      if nanos ≠ 0 ∨ months = 0 then
        signed 64 (signOf negative * nanos) >>= fun count => .ok (.duration .dayTime count)
      else signed 64 (signOf negative * months) >>= fun count => .ok (.duration .yearMonth count) := by
  rw [parseDuration]
  dsimp only
  rw [hsign]
  change (do
    let p ← ofOption (sumDuration body)
    _) = _
  rw [hsums]
  rfl

theorem splitSign_showDuration (kind : DurationKind) (count : ℤ) :
    splitSign (showDuration kind count) = (decide (count < 0), 'P' ::
      match kind with
      | .yearMonth => showMonths |count|
      | .dayTime => showNanos |count|) := by
  change splitSign ((if count < 0 then ['-'] else []) ++ _) = _
  by_cases hneg : count < 0
  · rw [if_pos hneg, decide_eq_true hneg]
    rfl
  · rw [if_neg hneg, decide_eq_false hneg]
    rfl

theorem signOf_abs (count : ℤ) : signOf (count < 0) * |count| = count := by
  rw [signOf]
  by_cases hneg : count < 0
  · rw [if_pos (decide_eq_true hneg), abs_of_neg hneg]
    omega
  · rw [if_neg (by rwa [decide_eq_true_iff]), abs_of_nonneg (not_lt.1 hneg), one_mul]

theorem counted_abs {count : ℤ} (h : Fits 64 count) (hleast : count ≠ leastWord) :
    Counted |count| := by
  rw [leastWord] at hleast
  rw [fits_64] at h
  refine ⟨abs_nonneg count, abs_le.2 ⟨?_, ?_⟩⟩
  · omega
  · omega

/-- The months of a duration are read again, but none are read as nanoseconds. -/
theorem parse_yearMonth {count : ℤ} (h : Fits 64 count) (hleast : count ≠ leastWord) :
    parseDuration (showDuration .yearMonth count) =
      .ok (.duration (if count = 0 then .dayTime else .yearMonth) count) := by
  rw [parseDuration_show (splitSign_showDuration .yearMonth count)
    (sumDuration_showMonths (counted_abs h hleast))]
  by_cases hzero : count = 0
  · rw [hzero]
    rfl
  · have habs : |count| ≠ 0 := abs_ne_zero.2 hzero
    rw [if_neg (by rintro (h0 | h0); exacts [h0 rfl, habs h0]), signOf_abs, signed_of_fits h, ok_bind,
      if_neg hzero]

theorem parse_dayTime {count : ℤ} (h : Fits 64 count) (hleast : count ≠ leastWord) :
    parseDuration (showDuration .dayTime count) = .ok (.duration .dayTime count) := by
  rw [parseDuration_show (splitSign_showDuration .dayTime count)
    (sumDuration_showNanos (counted_abs h hleast))]
  rw [if_pos (Or.inr rfl), signOf_abs, signed_of_fits h, ok_bind]

theorem parse_leastWord (kind : DurationKind) :
    parseDuration (showDuration kind leastWord) = .error (.refused ()) := by
  cases kind with
  | yearMonth => rfl
  | dayTime => rfl

theorem dark_showUnit {n : ℤ} (hn : 0 ≤ n) {unit : Char} (hunit : isWhitespace unit = false) :
    Dark (showUnit n unit) := by
  rw [showUnit]
  split
  case isTrue => exact (dark_showField hn).append (Dark.cons hunit dark_nil)
  case isFalse => exact dark_nil

theorem dark_showMonths {count : ℤ} (h : 0 ≤ count) : Dark (showMonths count) := by
  refine (dark_showUnit (n := count / 12) (by omega) (by decide : isWhitespace 'Y' = false)).append ?_
  split
  case isTrue => exact (dark_showField (by omega)).append (Dark.cons (by decide) dark_nil)
  case isFalse => exact dark_nil

theorem dark_showFraction {frac : ℤ} (h : 0 ≤ frac) : Dark (showFraction frac) :=
  dark_of_clock (isClock_showFraction h)

theorem dark_showClock {rest : ℤ} (h : 0 ≤ rest) : Dark (showClock rest) := by
  have hhours : 0 ≤ rest / nanosPerHour := Int.ediv_nonneg h (by decide)
  have hminutes : 0 ≤ rest / nanosPerMinute % 60 := Int.emod_nonneg _ (by decide)
  have hseconds : 0 ≤ rest / nanosPerSec % 60 := Int.emod_nonneg _ (by decide)
  have hfrac : 0 ≤ rest % nanosPerSec := Int.emod_nonneg _ (by decide)
  refine (dark_showUnit hhours (by decide : isWhitespace 'H' = false)).append
    ((dark_showUnit hminutes (by decide : isWhitespace 'M' = false)).append ?_)
  split
  case isTrue =>
    exact (dark_showField hseconds).append
      ((dark_showFraction hfrac).append (Dark.cons (by decide) dark_nil))
  case isFalse => exact dark_nil

theorem dark_showNanos {count : ℤ} (h : 0 ≤ count) : Dark (showNanos count) := by
  have hdays : 0 ≤ count / nanosPerDay := Int.ediv_nonneg h (by decide)
  refine (dark_showUnit hdays (by decide : isWhitespace 'D' = false)).append ?_
  split
  case isTrue => exact dark_nil
  case isFalse => exact Dark.cons (by decide) (dark_showClock (Int.emod_nonneg _ (by decide)))

theorem dark_showDuration (kind : DurationKind) (count : ℤ) : Dark (showDuration kind count) := by
  have hsign : Dark (if count < 0 then ['-'] else []) := by
    split
    case isTrue => exact Dark.cons (by decide) dark_nil
    case isFalse => exact dark_nil
  apply hsign.append
  apply Dark.cons (by decide)
  cases kind with
  | yearMonth => exact dark_showMonths (abs_nonneg count)
  | dayTime => exact dark_showNanos (abs_nonneg count)

theorem duration_roundTrips_iff {kind : DurationKind} {count : ℤ} (h : Fits 64 count) :
    (duration kind count).RoundTrips ↔ (duration kind count).Spellable := by
  have hparse : parse (.duration kind) (showDuration kind count) =
      parseDuration (showDuration kind count) := by
    rw [parse, trim_of_none (dark_showDuration kind count)]
  have hiff : (duration kind count).RoundTrips ↔
      parseDuration (showDuration kind count) = .ok (.duration kind count) := by
    rw [← hparse]
    constructor
    · rintro ⟨text, ⟨⟩, hread⟩
      exact hread
    · exact fun hread => ⟨_, rfl, hread⟩
  rw [hiff]
  by_cases hleast : count = leastWord
  · rw [hleast, parse_leastWord kind]
    cases kind with
    | yearMonth => exact iff_of_false (fun hc => nomatch hc) fun hc => hc.2 rfl
    | dayTime => exact iff_of_false (fun hc => nomatch hc) fun hc => hc rfl
  · cases kind with
    | yearMonth =>
        rw [parse_yearMonth h hleast]
        by_cases hzero : count = 0
        · rw [if_pos hzero]
          exact iff_of_false (fun hc => nomatch hc) fun hc => hc.1 hzero
        · rw [if_neg hzero]
          exact iff_of_true rfl ⟨hzero, hleast⟩
    | dayTime =>
        rw [parse_dayTime h hleast]
        exact iff_of_true rfl hleast

/-- What a printed datetime is read as, with the zone behind it or with none. -/
theorem zonedDatetime_roundTrips_iff {nanos offset : ℤ} (h : (zonedDatetime nanos offset).Held) :
    (zonedDatetime nanos offset).RoundTrips ↔ (zonedDatetime nanos offset).Spellable := by
  obtain ⟨hnanos, hoffset⟩ := h
  by_cases hwall : Fits 64 (nanos + offset * nanosPerMinute)
  case neg =>
    refine iff_of_false ?_ fun hs => hwall hs.2
    rintro ⟨text, hprint, -⟩
    rw [print, signed, if_neg hwall] at hprint
    cases hprint
  obtain ⟨zone, hzone, -, hsplit⟩ := showOffset_spec hoffset
  have hprint : (zonedDatetime nanos offset).print =
      .ok (showDatetime (nanos + offset * nanosPerMinute) ++ zone) := by
    rw [print, signed_of_fits hwall, ok_bind, hzone, ok_bind]
  have htrim : trim (showDatetime (nanos + offset * nanosPerMinute) ++ zone) =
      showDatetime (nanos + offset * nanosPerMinute) ++ zone :=
    trim_of_none ((dark_showDatetime hwall).append (dark_showOffset hzone))
  have hread := parseDatetime_show hwall (hsplit _ (isClock_showTime _))
  have hparse : parse .zonedDatetime (showDatetime (nanos + offset * nanosPerMinute) ++ zone) =
      if firstWhole ≤ nanos + offset * nanosPerMinute then .ok (.zonedDatetime nanos offset)
      else refuse () := by
    rw [parse, htrim, hread]
    split
    case isTrue =>
      rw [ok_bind]
      dsimp only [Option.getD_some]
      rw [add_sub_cancel_right, checked_of_fits hnanos, ofOption_some, ok_bind]
    case isFalse => rfl
  rw [RoundTrips, hprint]
  constructor
  · rintro ⟨text, ⟨⟩, hback⟩
    rw [logicalType, hparse] at hback
    split at hback
    case isTrue hfirst => exact ⟨hfirst, hwall⟩
    case isFalse => cases hback
  · rintro ⟨hfirst, -⟩
    rw [if_pos hfirst] at hparse
    exact ⟨_, rfl, hparse⟩

theorem localDatetime_roundTrips_iff {nanos : ℤ} (h : Fits 64 nanos) :
    (localDatetime nanos).RoundTrips ↔ (localDatetime nanos).Spellable := by
  have hzone : splitOffset (showTime (nanos % nanosPerDay) ++ []) =
      .ok (showTime (nanos % nanosPerDay), none) := by
    rw [List.append_nil, splitOffset, cutZone_bare (isClock_showTime _)]
  have hread := parseDatetime_show h hzone
  rw [List.append_nil] at hread
  have hparse : parse .localDatetime (showDatetime nanos) =
      if firstWhole ≤ nanos then .ok (.localDatetime nanos) else refuse () := by
    rw [parse, trim_of_none (dark_showDatetime h), hread]
    split
    case isTrue => rfl
    case isFalse => rfl
  constructor
  · rintro ⟨text, ⟨⟩, hback⟩
    rw [logicalType, hparse] at hback
    split at hback
    case isTrue hfirst => exact hfirst
    case isFalse => cases hback
  · intro hfirst
    have hle : firstWhole ≤ nanos := hfirst
    rw [if_pos hle] at hparse
    exact ⟨_, rfl, hparse⟩

theorem date_roundTrips {days : ℤ} (h : minDay ≤ days ∧ days ≤ maxDay) :
    (date days).RoundTrips := by
  refine ⟨_, rfl, ?_⟩
  rw [logicalType, parse, trim_of_none (dark_showDate h), parseDate_showDate h, ok_bind]

theorem localTime_roundTrips {nanos : ℤ} (h0 : 0 ≤ nanos) (h : nanos < nanosPerDay) :
    (localTime nanos).RoundTrips := by
  refine ⟨_, rfl, ?_⟩
  rw [logicalType, parse, trim_of_none (dark_of_clock (isClock_showTime nanos)),
    parseTime_showTime h0 h, ok_bind]
  rfl

theorem zonedTime_roundTrips {nanos offset : ℤ} (h : (zonedTime nanos offset).Held) :
    (zonedTime nanos offset).RoundTrips := by
  obtain ⟨⟨h0, hday⟩, hoffset⟩ := h
  obtain ⟨zone, hzone, -, hsplit⟩ := showOffset_spec hoffset
  refine ⟨showTime nanos ++ zone, ?_, ?_⟩
  · rw [print, hzone, ok_bind]
  · have hdark := (dark_of_clock (isClock_showTime nanos)).append (dark_showOffset hzone)
    rw [logicalType, parse, trim_of_none hdark,
      parseTime_of_split h0 hday (hsplit _ (isClock_showTime nanos)), ok_bind]
    rfl

/-- A value is read again exactly where it can be spelled. -/
theorem roundTrips_iff_spellable (v : Temporal) (h : v.Held) : v.RoundTrips ↔ v.Spellable := by
  cases v with
  | date days => exact iff_of_true (date_roundTrips h) trivial
  | localTime nanos => exact iff_of_true (localTime_roundTrips h.1 h.2) trivial
  | zonedTime nanos offset => exact iff_of_true (zonedTime_roundTrips h) trivial
  | localDatetime nanos => exact localDatetime_roundTrips_iff h
  | zonedDatetime nanos offset => exact zonedDatetime_roundTrips_iff h
  | duration kind count => exact duration_roundTrips_iff h

/-- The last second of the year 2023, an hour east. -/
theorem end_of_2023_roundTrips :
    (zonedDatetime 1704063599000000000 60).Held ∧
      (zonedDatetime 1704063599000000000 60).RoundTrips := by
  have hheld : (zonedDatetime 1704063599000000000 60).Held := ⟨by decide, by decide⟩
  exact ⟨hheld, (roundTrips_iff_spellable _ hheld).2 ⟨by decide, by decide⟩⟩

/-- No months are printed as a duration that is read as no nanoseconds, and the first
instant is printed as a datetime that is refused. -/
theorem not_every_roundTrips :
    ¬ (duration .yearMonth 0).RoundTrips ∧ ¬ (localDatetime leastWord).RoundTrips := by
  constructor
  · rintro ⟨text, ⟨⟩, hread⟩
    have hzero : parse (.duration .yearMonth) (showDuration .yearMonth 0) =
        .ok (.duration .dayTime 0) := rfl
    rw [logicalType, hzero] at hread
    cases hread
  · rw [localDatetime_roundTrips_iff (by decide)]
    exact (by decide : ¬ firstWhole ≤ leastWord)

end Temporal

end Zu.Common
