import Zu.Common.TemporalReads

/-!
# Temporal values written as text

How a temporal value is printed, and which values are read again from what is printed.
-/

namespace Zu.Common

open Lib Checked Schema

/-! ### Printing -/

/-- An integer in decimal, padded with zeros to a width. -/
def showField (width : ℕ) (n : ℤ) : Text :=
  if n < 0 then '-' :: padded (width - 1) n.natAbs else padded width n.toNat

def showDate (days : ℤ) : Text :=
  showField 4 (civilFromDays days).year ++ '-' ::
    (showField 2 (civilFromDays days).month ++ '-' :: showField 2 (civilFromDays days).day)

def showFraction (frac : ℤ) : Text := if frac ≠ 0 then '.' :: showField 9 frac else []

def showTime (nanos : ℤ) : Text :=
  let nanos := nanos % nanosPerDay
  showField 2 (nanos / nanosPerHour) ++ ':' ::
    (showField 2 (nanos / nanosPerMinute % 60) ++ ':' ::
      (showField 2 (nanos / nanosPerSec % 60) ++ showFraction (nanos % nanosPerSec)))

def showDatetime (nanos : ℤ) : Text :=
  showDate (nanos / nanosPerDay) ++ 'T' :: showTime (nanos % nanosPerDay)

def showOffset (offset : ℤ) : Checked Unit Text :=
  if offset = 0 then .ok ['Z']
  else do
    let size ← signed 16 |offset|
    .ok ((if offset < 0 then '-' else '+') :: (showField 2 (size / 60) ++ ':' ::
      showField 2 (size % 60)))

/-- The years and the months of a duration. -/
def showMonths (count : ℤ) : Text :=
  (if count / 12 ≠ 0 then showField 1 (count / 12) ++ ['Y'] else []) ++
    if count % 12 ≠ 0 ∨ count / 12 = 0 then showField 1 (count % 12) ++ ['M'] else []

/-- The hours, the minutes and the seconds of a duration. -/
def showClock (rest : ℤ) : Text :=
  let hours := rest / nanosPerHour
  let minutes := rest / nanosPerMinute % 60
  let seconds := rest / nanosPerSec % 60
  let frac := rest % nanosPerSec
  (if hours ≠ 0 then showField 1 hours ++ ['H'] else []) ++
    ((if minutes ≠ 0 then showField 1 minutes ++ ['M'] else []) ++
      if seconds ≠ 0 ∨ frac ≠ 0 ∨ (hours = 0 ∧ minutes = 0) then
        showField 1 seconds ++ (showFraction frac ++ ['S'])
      else [])

/-- The days of a duration and the clock behind them. -/
def showNanos (count : ℤ) : Text :=
  (if count / nanosPerDay ≠ 0 then showField 1 (count / nanosPerDay) ++ ['D'] else []) ++
    if count % nanosPerDay = 0 ∧ count / nanosPerDay ≠ 0 then []
    else 'T' :: showClock (count % nanosPerDay)

def showDuration (kind : DurationKind) (count : ℤ) : Text :=
  (if count < 0 then ['-'] else []) ++ 'P' ::
    match kind with
    | .yearMonth => showMonths |count|
    | .dayTime => showNanos |count|

namespace Temporal

def print : Temporal → Checked Unit Text
  | date days => .ok (showDate days)
  | localTime nanos => .ok (showTime nanos)
  | zonedTime nanos offset => do
      let zone ← showOffset offset
      .ok (showTime nanos ++ zone)
  | localDatetime nanos => .ok (showDatetime nanos)
  | zonedDatetime nanos offset => do
      let wall ← signed 64 (nanos + offset * nanosPerMinute)
      let zone ← showOffset offset
      .ok (showDatetime wall ++ zone)
  | duration kind count => .ok (showDuration kind count)

def logicalType : Temporal → LogicalType
  | date _ => .date
  | localTime _ => .localTime
  | zonedTime _ _ => .zonedTime
  | localDatetime _ => .localDatetime
  | zonedDatetime _ _ => .zonedDatetime
  | duration kind _ => .duration kind

attribute [grind =] logicalType

end Temporal

/-! ### Fields -/

variable {width w : ℕ} {n : ℤ}

theorem showField_of_nonneg (h : 0 ≤ n) : showField width n = padded width n.toNat :=
  if_neg (not_lt.2 h)

theorem numeric_showField (h : 0 ≤ n) : Numeric (showField width n) := by
  rw [showField_of_nonneg h]
  exact numeric_padded width n.toNat

theorem valueOf_showField (h : 0 ≤ n) : (valueOf (showField width n) : ℤ) = n := by
  rw [showField_of_nonneg h, valueOf_padded]
  exact Int.toNat_of_nonneg h

theorem readSigned_showField (h : 0 ≤ n) (hfits : Fits w n) :
    readSigned w (showField width n) = some n := by
  rw [readSigned, (numeric_showField h).readInt, Option.bind_some, valueOf_showField h,
    checked_of_fits hfits]

theorem readU32_showField (h : 0 ≤ n) (hlt : n < 2 ^ 32) :
    readU32 (showField width n) = some n := by
  have hnum : Numeric (showField width n) := numeric_showField h
  rw [readU32.eq_def]
  split
  case h_1 rest hminus =>
    exact absurd (hminus ▸ List.mem_cons_self) (hnum.not_mem (by decide : isDigit '-' = false))
  case h_2 =>
    rw [hnum.readInt, Option.bind_some, valueOf_showField h, if_pos hlt]

theorem length_showField (h : 0 ≤ n) (hw : 0 < width) (hlt : n < 10 ^ width) :
    byteLen (showField width n) = width := by
  rw [Numeric.byteLen (numeric_showField h).2, showField_of_nonneg h]
  apply length_padded hw
  rw [Int.toNat_lt h]
  exact_mod_cast hlt

/-! ### Dates -/

theorem byteLen_dash (text : Text) : byteLen ('-' :: text) = byteLen text + 1 := by
  rw [byteLen_cons, add_comm]
  rfl

/-- Three fields of four, two and two digits are the date they write. -/
theorem parseDate_fields {y m d : Text} (hy : byteLen y = 4) (hm : byteLen m = 2)
    (hd : byteLen d = 2) {year month day : ℤ} (hyear : readSigned 32 y = some year)
    (hmonth : readU32 m = some month) (hday : readU32 d = some day)
    (hvalid : (1 ≤ year ∧ year ≤ 9999) ∧ (1 ≤ month ∧ month ≤ 12) ∧ 1 ≤ day ∧
      day ≤ daysIn year month) :
    parseDate (y ++ '-' :: (m ++ '-' :: d)) = .ok (daysFromCivil year month day) := by
  obtain ⟨text, htext⟩ : ∃ text, text = y ++ '-' :: (m ++ '-' :: d) := ⟨_, rfl⟩
  have hlen : byteLen text = 10 := by
    rw [htext, byteLen_append, byteLen_dash, byteLen_append, byteLen_dash, hy, hm, hd]
  have h4 : splitBytes text 4 = some (y, '-' :: (m ++ '-' :: d)) :=
    splitBytes_eq_some.2 ⟨htext, hy⟩
  have h5 : splitBytes text 5 = some (y ++ ['-'], m ++ '-' :: d) := by
    refine splitBytes_eq_some.2 ⟨by rw [htext]; simp, ?_⟩
    rw [byteLen_append, hy]
    rfl
  have h7 : splitBytes text 7 = some (y ++ '-' :: m, '-' :: d) := by
    refine splitBytes_eq_some.2 ⟨by rw [htext]; simp, ?_⟩
    rw [byteLen_append, byteLen_dash, hy, hm]
  have h8 : splitBytes text 8 = some (y ++ '-' :: (m ++ ['-']), d) := by
    refine splitBytes_eq_some.2 ⟨by rw [htext]; simp, ?_⟩
    rw [byteLen_append, byteLen_dash, byteLen_append, hy, hm]
    rfl
  have hyearText : sliceBytes 0 4 text = .ok y := sliceBytes_eq (splitBytes_zero text) h4
  have hmonthText : sliceBytes 5 7 text = .ok m :=
    sliceBytes_eq h5 (splitBytes_eq_some.2 ⟨rfl, hm⟩)
  have hdayText : sliceBytes 8 10 text = .ok d :=
    sliceBytes_eq h8 (splitBytes_eq_some.2 ⟨(List.append_nil d).symm, hd⟩)
  have hb4 : byteIs text 4 '-' = true := by
    rw [byteIs, h4]
    rfl
  have hb7 : byteIs text 7 '-' = true := by
    rw [byteIs, h7]
    rfl
  rw [← htext, parseDate, if_neg, hyearText, ok_bind, hyear, ofOption_some, ok_bind, hmonthText,
    ok_bind, hmonth, ofOption_some, ok_bind, hdayText, ok_bind, hday, ofOption_some, ok_bind,
    if_neg]
  · rw [not_or, not_or, not_or, not_not, not_not, not_lt, not_lt]
    exact hvalid
  · rw [not_or, not_or, not_not, not_not, not_not]
    exact ⟨hlen, hb4, hb7⟩

theorem parseDate_showDate {days : ℤ} (h : minDay ≤ days ∧ days ≤ maxDay) :
    parseDate (showDate days) = .ok days := by
  obtain ⟨hvalid, hback⟩ := civilFromDays_spec days
  obtain ⟨hyear, ⟨hmonth, hday⟩⟩ := (Law.spelled_iff hvalid).1 (hback.symm ▸ h)
  have hday31 : (civilFromDays days).day ≤ 31 := by
    refine hday.2.trans ?_
    rw [daysIn]
    split_ifs
    all_goals decide
  have hyear4 : byteLen (showField 4 (civilFromDays days).year) = 4 :=
    length_showField (by omega) (by decide) (by omega)
  have hmonth2 : byteLen (showField 2 (civilFromDays days).month) = 2 :=
    length_showField (by omega) (by decide) (by omega)
  have hday2 : byteLen (showField 2 (civilFromDays days).day) = 2 :=
    length_showField (by omega) (by decide) (by omega)
  have hparse := parseDate_fields hyear4 hmonth2 hday2
    (readSigned_showField (by omega) (fits_32.2 (by omega)))
    (readU32_showField (by omega) (by omega)) (readU32_showField (by omega) (by omega))
    ⟨hyear, hmonth, hday⟩
  rw [hback] at hparse
  exact hparse

/-! ### Times -/

/-- The characters a clock is written with. -/
def isClock (c : Char) : Bool := isDigit c || c == ':' || c == '.'

theorem isClock_of_numeric {text : Text} (h : Numeric text) : ∀ c ∈ text, isClock c = true :=
  fun c hc => by rw [isClock, List.all_eq_true.1 h.2 c hc, Bool.true_or, Bool.true_or]

theorem isClock_showFraction {frac : ℤ} (h : 0 ≤ frac) : ∀ c ∈ showFraction frac, isClock c = true := by
  intro c hc
  rw [showFraction] at hc
  split at hc
  case isTrue =>
    rcases List.mem_cons.1 hc with rfl | hc
    · rfl
    · exact isClock_of_numeric (numeric_showField h) c hc
  case isFalse => cases hc

theorem isClock_showTime (nanos : ℤ) : ∀ c ∈ showTime nanos, isClock c = true := by
  have hday : (0 : ℤ) < nanosPerDay := by decide
  have hpos := Int.emod_nonneg nanos hday.ne'
  intro c hc
  rw [showTime] at hc
  rcases List.mem_append.1 hc with hc | hc
  · exact isClock_of_numeric (numeric_showField (Int.ediv_nonneg hpos (by decide))) c hc
  rcases List.mem_cons.1 hc with rfl | hc
  · rfl
  rcases List.mem_append.1 hc with hc | hc
  · exact isClock_of_numeric (numeric_showField (Int.emod_nonneg _ (by decide))) c hc
  rcases List.mem_cons.1 hc with rfl | hc
  · rfl
  rcases List.mem_append.1 hc with hc | hc
  · exact isClock_of_numeric (numeric_showField (Int.emod_nonneg _ (by decide))) c hc
  · exact isClock_showFraction (Int.emod_nonneg _ (by decide)) c hc

theorem numeric_ne {text : Text} (h : Numeric text) {p : Char → Bool} {c : Char}
    (hp : ∀ d, p d = true → d = c) (hc : isDigit c = false) : ∀ d ∈ text, p d = false := by
  intro d hd
  by_contra hpd
  rw [Bool.not_eq_false] at hpd
  obtain rfl := hp d hpd
  exact h.not_mem hc hd

theorem readFraction_showField {frac : ℤ} (h0 : 0 ≤ frac) (h : frac < nanosPerSec) :
    readFraction (showField 9 frac) = some frac := by
  have hnum : Numeric (showField 9 frac) := numeric_showField h0
  have hlen : byteLen (showField 9 frac) = 9 := length_showField h0 (by decide) h
  have hlist : (showField 9 frac).length = 9 := by
    rw [← Numeric.byteLen hnum.2]
    exact hlen
  have hfits : Fits 64 frac := by
    rw [nanosPerSec] at h
    rw [fits_64]
    omega
  rw [readFraction, if_neg, readSigned_showField h0 hfits, hlist, Option.map_some, Nat.sub_self,
    pow_zero, mul_one]
  rw [hlen, not_or, not_or, not_not]
  exact ⟨hnum.1, lt_irrefl 9, hnum.2⟩

theorem parseSeconds_show {seconds frac : ℤ} (hs : 0 ≤ seconds) (hfits : Fits 64 seconds)
    (h0 : 0 ≤ frac) (h : frac < nanosPerSec) :
    parseSeconds (showField 2 seconds ++ showFraction frac) = some (seconds, frac) := by
  have hpoint : ∀ d ∈ showField 2 seconds, (d == '.') = false :=
    numeric_ne (numeric_showField hs) (fun d hd => eq_of_beq hd) (by decide)
  rw [parseSeconds, showFraction]
  by_cases hfrac : frac ≠ 0
  · rw [if_pos hfrac, splitOnce_of_none hpoint rfl]
    dsimp only
    rw [readFraction_showField h0 h, readSigned_showField hs hfits]
    rfl
  · rw [if_neg hfrac, List.append_nil, splitOnce_eq_none hpoint]
    dsimp only
    rw [readSigned_showField hs hfits, not_not.1 hfrac]
    rfl

theorem readFields_showTime {nanos : ℤ} (h0 : 0 ≤ nanos) (h : nanos < nanosPerDay) :
    readFields (showTime nanos) = some ⟨nanos / nanosPerHour, nanos / nanosPerMinute % 60,
      nanos / nanosPerSec % 60, nanos % nanosPerSec⟩ := by
  have hcolon : ∀ {n : ℤ}, 0 ≤ n → ∀ d ∈ showField 2 n, (d == ':') = false := fun hn =>
    numeric_ne (numeric_showField hn) (fun d hd => eq_of_beq hd) (by decide)
  have hhour : 0 ≤ nanos / nanosPerHour ∧ nanos / nanosPerHour ≤ 23 := by
    rw [nanosPerDay] at h
    rw [nanosPerHour, nanosPerMinute, nanosPerSec] at *
    omega
  have hminute : 0 ≤ nanos / nanosPerMinute % 60 ∧ nanos / nanosPerMinute % 60 ≤ 59 := by omega
  have hsecond : 0 ≤ nanos / nanosPerSec % 60 ∧ nanos / nanosPerSec % 60 ≤ 59 := by omega
  have hfrac : 0 ≤ nanos % nanosPerSec ∧ nanos % nanosPerSec < nanosPerSec :=
    ⟨Int.emod_nonneg _ (by decide), Int.emod_lt_of_pos _ (by decide)⟩
  have hlast : ∀ d ∈ showField 2 (nanos / nanosPerSec % 60) ++ showFraction (nanos % nanosPerSec),
      (d == ':') = false := by
    intro d hd
    rcases List.mem_append.1 hd with hd | hd
    · exact hcolon hsecond.1 d hd
    · rw [showFraction] at hd
      split at hd
      case isTrue =>
        rcases List.mem_cons.1 hd with rfl | hd
        · rfl
        · exact numeric_ne (numeric_showField hfrac.1) (fun d hd => eq_of_beq hd) (by decide) d hd
      case isFalse => cases hd
  have hsplit : splitAll (· == ':') (showTime nanos) = [showField 2 (nanos / nanosPerHour),
      showField 2 (nanos / nanosPerMinute % 60),
      showField 2 (nanos / nanosPerSec % 60) ++ showFraction (nanos % nanosPerSec)] := by
    rw [showTime, Int.emod_eq_of_lt h0 h]
    rw [splitAll_append (hcolon hhour.1) rfl, splitAll_append (hcolon hminute.1) rfl,
      splitAll_of_none hlast]
  have hword : ∀ {n : ℤ}, 0 ≤ n ∧ n ≤ 59 → Fits 64 n := fun hn => by
    rw [fits_64]
    omega
  rw [readFields, hsplit]
  dsimp only [readSeconds]
  rw [readSigned_showField hhour.1 (hword ⟨hhour.1, by omega⟩),
    readSigned_showField hminute.1 (hword hminute),
    parseSeconds_show hsecond.1 (hword hsecond) hfrac.1 hfrac.2]
  dsimp only [Option.bind_eq_bind, Option.bind_some]
  rw [if_neg]
  rw [List.length_singleton]
  omega

/-! ### Zones -/

theorem cutZone_of_last {text : Text} (h : ∀ c, text.getLast? = some c → isClock c = true) :
    cutZone text = cutSign text := by
  rw [cutZone]
  split
  case h_1 hlast => exact absurd (h _ hlast) (by decide)
  case h_2 hlast => exact absurd (h _ hlast) (by decide)
  case h_3 => rfl

theorem isClock_not_sign {text : Text} (h : ∀ c ∈ text, isClock c = true) :
    ∀ c ∈ text, (!(c == '+' || c == '-')) = true := by
  intro c hc
  by_contra hsign
  rw [Bool.not_eq_true, Bool.not_eq_false', Bool.or_eq_true, beq_iff_eq, beq_iff_eq] at hsign
  have hclock := h c hc
  rcases hsign with rfl | rfl
  · exact absurd hclock (by decide)
  · exact absurd hclock (by decide)

theorem cutZone_bare {body : Text} (h : ∀ c ∈ body, isClock c = true) :
    cutZone body = .bare body := by
  rw [cutZone_of_last fun c hc => h c (List.mem_of_getLast? hc), cutSign,
    List.span_eq_takeWhile_dropWhile, List.takeWhile_eq_self_iff.2 (isClock_not_sign h),
    List.dropWhile_eq_nil_iff.2 (isClock_not_sign h)]

theorem cutZone_utc (body : Text) : cutZone (body ++ ['Z']) = .utc body := by
  rw [cutZone, List.getLast?_append_of_ne_nil _ (List.cons_ne_nil _ _), List.getLast?_singleton]
  change Zoned.utc (body ++ ['Z']).dropLast = _
  rw [List.dropLast_append_of_ne_nil (List.cons_ne_nil _ _)]
  exact congrArg Zoned.utc (List.append_nil body)

theorem cutZone_offset {body digits : Text} {sign : Char} (hbody : ∀ c ∈ body, isClock c = true)
    (hdigits : ∀ c ∈ digits, isClock c = true) (hne : digits ≠ [])
    (hsign : sign = '+' ∨ sign = '-') :
    cutZone (body ++ sign :: digits) = .offset (sign == '-') body digits := by
  have htake : ((sign :: digits).takeWhile fun c => !(c == '+' || c == '-')) = [] := by
    rcases hsign with rfl | rfl
    · rfl
    · rfl
  have hdrop : ((sign :: digits).dropWhile fun c => !(c == '+' || c == '-')) = sign :: digits := by
    rcases hsign with rfl | rfl
    · rfl
    · rfl
  rw [cutZone_of_last, cutSign, List.span_eq_takeWhile_dropWhile,
    List.takeWhile_append_of_pos (isClock_not_sign hbody),
    List.dropWhile_append_of_pos (isClock_not_sign hbody), htake, hdrop, List.append_nil]
  intro c hc
  rw [List.getLast?_append_of_ne_nil _ (List.cons_ne_nil _ _), List.getLast?_cons,
    List.getLast?_eq_getLast_of_ne_nil hne, Option.getD_some] at hc
  cases hc
  exact hdigits _ (List.getLast_mem hne)

theorem fits_16 {n : ℤ} : Fits 16 n ↔ -32768 ≤ n ∧ n < 32768 := Iff.rfl

/-- The hours and the minutes of a zone. -/
def showZone (size : ℤ) : Text := showField 2 (size / 60) ++ ':' :: showField 2 (size % 60)

/-- An offset of at most eighteen hours is read again. -/
theorem zoneOffset_showZone {offset : ℤ} (h : -1080 ≤ offset ∧ offset ≤ 1080) :
    zoneOffset (offset < 0) (showZone |offset|) = .ok offset := by
  obtain ⟨size, hsize⟩ : ∃ size, size = |offset| := ⟨_, rfl⟩
  have h0 : 0 ≤ size := hsize ▸ abs_nonneg offset
  have hmost : size ≤ 1080 := by
    rw [hsize, abs_le]
    omega
  have hcolon : ∀ d ∈ showField 2 (size / 60), (d == ':') = false :=
    numeric_ne (numeric_showField (by omega)) (fun d hd => eq_of_beq hd) (by decide)
  have hfits : ZoneFits (offset < 0) (size / 60, size % 60) := by
    rw [ZoneFits, fits_16, fits_16, fits_16]
    dsimp only
    omega
  rw [zoneOffset, ← hsize, zoneParts, showZone, splitOnce_of_none hcolon rfl]
  dsimp only
  rw [ok_bind, readSigned_showField (by omega) (fits_16.2 (by omega)), ofOption_some, ok_bind,
    readSigned_showField (by omega) (fits_16.2 (by omega)), ofOption_some, ok_bind, if_neg (by omega),
    (zoneMinutes_eq _ (size / 60, size % 60)).answers hfits, ofOption_some, offsetOf]
  dsimp only
  congr 1
  by_cases hneg : offset < 0
  · rw [abs_of_neg hneg] at hsize
    rw [if_pos (decide_eq_true hneg)]
    omega
  · rw [abs_of_nonneg (not_lt.1 hneg)] at hsize
    rw [if_neg (by rwa [decide_eq_true_iff])]
    omega

theorem isClock_showZone {size : ℤ} (h : 0 ≤ size) : ∀ c ∈ showZone size, isClock c = true := by
  intro c hc
  rcases List.mem_append.1 hc with hc | hc
  · exact isClock_of_numeric (numeric_showField (by omega)) c hc
  rcases List.mem_cons.1 hc with rfl | hc
  · rfl
  · exact isClock_of_numeric (numeric_showField (by omega)) c hc

/-- A zone is printed where its offset is of at most eighteen hours, and is cut off again. -/
theorem showOffset_spec {offset : ℤ} (h : -1080 ≤ offset ∧ offset ≤ 1080) :
    ∃ zone, showOffset offset = .ok zone ∧ zone ≠ [] ∧
      ∀ body : Text, (∀ c ∈ body, isClock c = true) →
        splitOffset (body ++ zone) = .ok (body, some offset) := by
  rw [showOffset]
  by_cases hzero : offset = 0
  · rw [if_pos hzero]
    refine ⟨['Z'], rfl, List.cons_ne_nil _ _, fun body _ => ?_⟩
    rw [splitOffset, cutZone_utc, hzero]
  · have habs : |offset| ≤ 1080 := abs_le.2 (by omega)
    have hfits : Fits 16 |offset| := by
      rw [fits_16]
      have := abs_nonneg offset
      omega
    rw [if_neg hzero, signed_of_fits hfits, ok_bind]
    refine ⟨_, rfl, List.cons_ne_nil _ _, fun body hbody => ?_⟩
    have hsign : (if offset < 0 then '-' else '+') = '+' ∨ (if offset < 0 then '-' else '+') = '-' := by
      split
      case isTrue => exact Or.inr rfl
      case isFalse => exact Or.inl rfl
    have hneg : ((if offset < 0 then '-' else '+') == '-') = decide (offset < 0) := by
      split
      case isTrue hlt => rw [decide_eq_true hlt]; rfl
      case isFalse hlt => rw [decide_eq_false hlt]; rfl
    have hcut := cutZone_offset hbody (isClock_showZone (abs_nonneg offset))
      (List.append_ne_nil_of_right_ne_nil _ (List.cons_ne_nil _ _)) hsign
    rw [hneg] at hcut
    change splitOffset (body ++ (if offset < 0 then '-' else '+') :: showZone |offset|) = _
    rw [splitOffset, hcut]
    dsimp only
    rw [zoneOffset_showZone h, ok_bind]

theorem addFields_showTime {nanos : ℤ} (h0 : 0 ≤ nanos) (h : nanos < nanosPerDay) :
    addFields ⟨nanos / nanosPerHour, nanos / nanosPerMinute % 60, nanos / nanosPerSec % 60,
      nanos % nanosPerSec⟩ = .ok nanos := by
  obtain ⟨hbounds, -⟩ := readFields_bounds (readFields_showTime h0 h)
  have hpos : 0 ≤ nanos / nanosPerHour := Int.ediv_nonneg h0 (by decide)
  have hroom := (TimeFields.room_of_nonneg hbounds
    ⟨hpos, Int.emod_nonneg _ (by decide), Int.emod_nonneg _ (by decide)⟩).1
  rw [addFields_eq, if_pos hroom, TimeFields.total]
  dsimp only
  rw [nanosPerHour, nanosPerMinute, nanosPerSec]
  congr 1
  omega

theorem parseTime_of_split {text : Text} {offset : Option ℤ} {nanos : ℤ} (h0 : 0 ≤ nanos)
    (h : nanos < nanosPerDay) (hsplit : splitOffset text = .ok (showTime nanos, offset)) :
    parseTime text = .ok (nanos, offset) := by
  rw [parseTime, hsplit, ok_bind]
  dsimp only
  rw [readFields_showTime h0 h, ofOption_some, ok_bind, addFields_showTime h0 h, ok_bind]

theorem parseTime_showTime {nanos : ℤ} (h0 : 0 ≤ nanos) (h : nanos < nanosPerDay) :
    parseTime (showTime nanos) = .ok (nanos, none) := by
  apply parseTime_of_split h0 h
  rw [splitOffset, cutZone_bare (isClock_showTime nanos)]

/-! ### Datetimes -/

/-- The first instant of a day that is all in a word. -/
def firstWhole : ℤ := -106751 * nanosPerDay

theorem firstWhole_iff {wall : ℤ} (h : Fits 64 wall) :
    Fits 64 (wall / nanosPerDay * nanosPerDay) ↔ firstWhole ≤ wall := by
  rw [fits_64] at h ⊢
  rw [firstWhole, nanosPerDay, nanosPerHour, nanosPerMinute, nanosPerSec]
  omega

theorem instantAt_split {wall : ℤ} (h : Fits 64 wall) :
    instantAt (wall / nanosPerDay) (wall % nanosPerDay) =
      if firstWhole ≤ wall then some wall else none := by
  have hsum : wall / nanosPerDay * nanosPerDay + wall % nanosPerDay = wall := by
    rw [mul_comm]
    exact Int.mul_ediv_add_emod wall nanosPerDay
  rw [instantAt]
  by_cases hfirst : firstWhole ≤ wall
  · rw [if_pos hfirst, checked_of_fits ((firstWhole_iff h).2 hfirst), Option.bind_eq_bind,
      Option.bind_some, hsum, checked_of_fits h]
  · rw [if_neg hfirst, checked_eq_none.2 fun hf => hfirst ((firstWhole_iff h).1 hf)]
    rfl

theorem calendar_of_fits {wall : ℤ} (h : Fits 64 wall) :
    minDay ≤ wall / nanosPerDay ∧ wall / nanosPerDay ≤ maxDay := by
  rw [fits_64] at h
  rw [minDay, maxDay, nanosPerDay, nanosPerHour, nanosPerMinute, nanosPerSec]
  omega

def isDate (c : Char) : Bool := isDigit c || c == '-'

theorem isDate_showDate {days : ℤ} (h : minDay ≤ days ∧ days ≤ maxDay) :
    ∀ c ∈ showDate days, isDate c = true := by
  obtain ⟨hvalid, hback⟩ := civilFromDays_spec days
  obtain ⟨hyear, ⟨hmonth, hday⟩⟩ := (Law.spelled_iff hvalid).1 (hback.symm ▸ h)
  have hfield : ∀ {width : ℕ} {n : ℤ}, 1 ≤ n → ∀ c ∈ showField width n, isDate c = true := by
    intro width n hn c hc
    rw [isDate, List.all_eq_true.1 (numeric_showField (by omega)).2 c hc, Bool.true_or]
  intro c hc
  rcases List.mem_append.1 hc with hc | hc
  · exact hfield hyear.1 c hc
  rcases List.mem_cons.1 hc with rfl | hc
  · rfl
  rcases List.mem_append.1 hc with hc | hc
  · exact hfield hmonth.1 c hc
  rcases List.mem_cons.1 hc with rfl | hc
  · rfl
  · exact hfield hday.1 c hc

/-- What is read from a printed datetime with a zone behind it, or with none. -/
theorem parseDatetime_show {wall : ℤ} (h : Fits 64 wall) {zone : Text} {offset : Option ℤ}
    (hzone : splitOffset (showTime (wall % nanosPerDay) ++ zone) =
      .ok (showTime (wall % nanosPerDay), offset)) :
    parseDatetime (showDatetime wall ++ zone) =
      if firstWhole ≤ wall then .ok (wall, offset) else refuse () := by
  have hday : (0 : ℤ) < nanosPerDay := by decide
  have hdate := isDate_showDate (calendar_of_fits h)
  have hcut : cutDatetime (showDatetime wall ++ zone) =
      some (showDate (wall / nanosPerDay), showTime (wall % nanosPerDay) ++ zone) := by
    rw [cutDatetime, showDatetime, List.append_assoc, List.cons_append, splitOnce_of_none _ rfl]
    · rfl
    · intro d hd
      by_contra ht
      rw [Bool.not_eq_false, beq_iff_eq] at ht
      rw [ht] at hd
      exact absurd (hdate 'T' hd) (by decide)
  have htime := parseTime_of_split (Int.emod_nonneg wall hday.ne') (Int.emod_lt_of_pos wall hday)
    hzone
  rw [parseDatetime, hcut]
  dsimp only
  rw [parseDate_showDate (calendar_of_fits h), ok_bind, htime, ok_bind]
  dsimp only
  rw [instantAt_split h]
  split
  case isTrue => rfl
  case isFalse => rfl

/-! ### White space -/

/-- Text without white space. -/
def Dark (text : Text) : Prop := ∀ c ∈ text, isWhitespace c = false

theorem Dark.append {a b : Text} (ha : Dark a) (hb : Dark b) : Dark (a ++ b) := by
  intro c hc
  rcases List.mem_append.1 hc with hc | hc
  · exact ha c hc
  · exact hb c hc

theorem Dark.cons {c : Char} {a : Text} (hc : isWhitespace c = false) (ha : Dark a) :
    Dark (c :: a) := by
  intro d hd
  rcases List.mem_cons.1 hd with rfl | hd
  · exact hc
  · exact ha d hd

theorem dark_nil : Dark [] := fun _ hc => nomatch hc

theorem isWhitespace_digit {c : Char} (h : isDigit c = true) : isWhitespace c = false := by
  rw [isDigit, Bool.and_eq_true, decide_eq_true_iff, decide_eq_true_iff] at h
  obtain ⟨n, hn⟩ : ∃ n, n = c.toNat := ⟨_, rfl⟩
  rw [isWhitespace, ← hn]
  rw [← hn] at h
  obtain ⟨h48, h57⟩ := h
  interval_cases n
  all_goals decide

theorem dark_of_numeric {text : Text} (h : Numeric text) : Dark text :=
  fun c hc => isWhitespace_digit (List.all_eq_true.1 h.2 c hc)

theorem dark_showField {width : ℕ} {n : ℤ} (h : 0 ≤ n) : Dark (showField width n) :=
  dark_of_numeric (numeric_showField h)

theorem dark_of_clock {text : Text} (h : ∀ c ∈ text, isClock c = true) : Dark text := by
  intro c hc
  have hclock := h c hc
  rw [isClock, Bool.or_eq_true, Bool.or_eq_true, beq_iff_eq, beq_iff_eq] at hclock
  rcases hclock with (hdigit | rfl) | rfl
  · exact isWhitespace_digit hdigit
  · decide
  · decide

theorem dark_showDate {days : ℤ} (h : minDay ≤ days ∧ days ≤ maxDay) : Dark (showDate days) := by
  intro c hc
  have hdate := isDate_showDate h c hc
  rw [isDate, Bool.or_eq_true, beq_iff_eq] at hdate
  rcases hdate with hdigit | rfl
  · exact isWhitespace_digit hdigit
  · decide

theorem dark_showDatetime {wall : ℤ} (h : Fits 64 wall) : Dark (showDatetime wall) :=
  (dark_showDate (calendar_of_fits h)).append
    (Dark.cons (by decide) (dark_of_clock (isClock_showTime _)))

theorem dark_showOffset {offset : ℤ} {zone : Text} (h : showOffset offset = .ok zone) :
    Dark zone := by
  rw [showOffset] at h
  split at h
  case isTrue =>
    cases h
    exact Dark.cons (by decide) dark_nil
  case isFalse =>
    rw [signed] at h
    split at h
    case isFalse => cases h
    case isTrue =>
      cases h
      refine Dark.cons ?_ (dark_of_clock (isClock_showZone (abs_nonneg offset)))
      split
      case isTrue => decide
      case isFalse => decide

end Zu.Common
