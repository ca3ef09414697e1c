import Zu.Common.DecimalText
import Zu.Common.Temporal

/-!
# Temporal values read from text

Dates, times, datetimes, zones and durations as they are written, and SQL intervals. A text
is cut at bytes, and an integer field may carry a sign.
-/

namespace Zu.Common

open Lib Checked Schema

/-- `parse` of a signed word. -/
def readSigned (width : ℕ) (text : Text) : Option ℤ := (readInt text).bind (checked width)

/-- `parse::<u32>`, which takes a plus but no minus. -/
def readU32 : Text → Option ℤ
  | '-' :: _ => none
  | text => (readInt text).bind fun n => if n < 2 ^ 32 then some n else none

/-- A slice of a text, which panics inside a character. -/
def sliceBytes (lo hi : ℕ) (text : Text) : Checked Unit Text :=
  match splitBytes text lo with
  | none => .error .panicked
  | some s =>
      match splitBytes s.2 (hi - lo) with
      | none => .error .panicked
      | some t => .ok t.1

/-- The byte of a text is that of an ASCII character, which a character then starts at. -/
def byteIs (text : Text) (n : ℕ) (c : Char) : Bool :=
  match splitBytes text n with
  | some (_, d :: _) => d == c
  | _ => false

def parseDate (text : Text) : Checked Unit ℤ :=
  if byteLen text ≠ 10 ∨ ¬ byteIs text 4 '-' ∨ ¬ byteIs text 7 '-' then refuse ()
  else do
    let yearText ← sliceBytes 0 4 text
    let year ← ofOption (readSigned 32 yearText)
    let monthText ← sliceBytes 5 7 text
    let month ← ofOption (readU32 monthText)
    let dayText ← sliceBytes 8 10 text
    let day ← ofOption (readU32 dayText)
    if ¬ (1 ≤ year ∧ year ≤ 9999) ∨ ¬ (1 ≤ month ∧ month ≤ 12) ∨ day < 1 ∨
        daysIn year month < day then refuse ()
    else .ok (daysFromCivil year month day)

/-- The digits after a point, as nanoseconds. -/
def readFraction (fraction : Text) : Option ℤ :=
  if fraction = [] ∨ 9 < byteLen fraction ∨ ¬ fraction.all isDigit then none
  else (readSigned 64 fraction).map fun n => n * 10 ^ (9 - fraction.length)

def parseSeconds (text : Text) : Option (ℤ × ℤ) :=
  match splitOnce (· == '.') text with
  | none => (readSigned 64 text).map fun n => (n, 0)
  | some (whole, fraction) => do
      let nanos ← readFraction fraction
      let seconds ← readSigned 64 whole
      some (seconds, nanos)

/-- The hour, the minute, the second and the nanoseconds of a clock. -/
structure TimeFields where
  hour : ℤ
  minute : ℤ
  second : ℤ
  nanos : ℤ

/-- The seconds of a clock, where they are written. -/
def readSeconds : List Text → Option (ℤ × ℤ)
  | [] => some (0, 0)
  | text :: _ => parseSeconds text

/-- The fields of a clock, each no larger than it may be. -/
def readFields (time : Text) : Option TimeFields :=
  match splitAll (· == ':') time with
  | hourText :: minuteText :: more => do
      let hour ← readSigned 64 hourText
      let minute ← readSigned 64 minuteText
      let seconds ← readSeconds more
      if 1 < more.length ∨ 23 < hour ∨ 59 < minute ∨ 59 < seconds.1 then none
      else some ⟨hour, minute, seconds.1, seconds.2⟩
  | _ => none

/-- The nanoseconds of a clock, added up. -/
def addFields (c : TimeFields) : Checked Unit ℤ := do
  let hours ← signed 64 (c.hour * nanosPerHour)
  let minutes ← signed 64 (c.minute * nanosPerMinute)
  let sum ← signed 64 (hours + minutes)
  let seconds ← signed 64 (c.second * nanosPerSec)
  let sum ← signed 64 (sum + seconds)
  signed 64 (sum + c.nanos)

/-- A text that ends in a zone, or in none. -/
inductive Zoned
  | utc (body : Text)
  | bare (body : Text)
  | offset (negative : Bool) (body digits : Text)

/-- Where a text's zone is: behind its first sign, unless it ends in a `Z`. -/
def cutZone (text : Text) : Zoned :=
  match text.getLast? with
  | some 'Z' | some 'z' => .utc text.dropLast
  | _ =>
      match text.span fun c => !(c == '+' || c == '-') with
      | (body, sign :: digits) => .offset (sign == '-') body digits
      | (body, []) => .bare body

/-- The hours and the minutes of a zone, as they are written. -/
def zoneParts (digits : Text) : Checked Unit (Text × Text) :=
  match splitOnce (· == ':') digits with
  | some parts => .ok parts
  | none =>
      if byteLen digits = 4 then do
        let hours ← sliceBytes 0 2 digits
        let minutes ← sliceBytes 2 4 digits
        .ok (hours, minutes)
      else .ok (digits, ['0'])

def zoneMinutes (negative : Bool) (hours minutes : ℤ) : Checked Unit ℤ := do
  let sixty ← signed 16 (hours * 60)
  let total ← signed 16 (sixty + minutes)
  if negative then signed 16 (-total) else .ok total

/-- The offset a zone's digits write. -/
def zoneOffset (negative : Bool) (digits : Text) : Checked Unit ℤ := do
  let parts ← zoneParts digits
  let hours ← ofOption (readSigned 16 parts.1)
  let minutes ← ofOption (readSigned 16 parts.2)
  if 18 < hours ∨ 59 < minutes then refuse () else zoneMinutes negative hours minutes

def splitOffset (text : Text) : Checked Unit (Text × Option ℤ) :=
  match cutZone text with
  | .utc body => .ok (body, some 0)
  | .bare body => .ok (body, none)
  | .offset negative body digits => do
      let offset ← zoneOffset negative digits
      .ok (body, some offset)

def parseTime (text : Text) : Checked Unit (ℤ × Option ℤ) := do
  let (time, offset) ← splitOffset text
  let fields ← ofOption (readFields time)
  let nanos ← addFields fields
  .ok (nanos, offset)

def readZone (text : Text) : Checked Unit ℤ := do
  let (body, offset) ← splitOffset (trim text)
  match body, offset with
  | [], some minutes => .ok minutes
  | _, _ => refuse ()

def cutDatetime (text : Text) : Option (Text × Text) :=
  (splitOnce (· == 'T') text).or <| (splitOnce (· == 't') text).or (splitOnce (· == ' ') text)

def parseDatetime (text : Text) : Checked Unit (ℤ × Option ℤ) :=
  match cutDatetime text with
  | none => do
      let days ← parseDate text
      let instant ← ofOption (instantAt days 0)
      .ok (instant, none)
  | some (date, time) => do
      let days ← parseDate date
      let (nanos, offset) ← parseTime time
      let instant ← ofOption (instantAt days nanos)
      .ok (instant, offset)

/-! ### Durations -/

/-- The loop of `fields`: a number is digits, a point or a comma, behind a sign or none, and
any other character is a unit. -/
def cutFields : Text → Text → Option (List (Text × Char))
  | [], number => if number = [] then some [] else none
  | c :: cs, number =>
      if isDigit c || c == '.' || c == ',' then cutFields cs (number ++ [c])
      else if (c == '-' || c == '+') && number = [] then cutFields cs [c]
      else if number = [] then none
      else (cutFields cs []).map fun fields => (number, c) :: fields

/-- The whole units of a field that has a point, which may be left out. -/
def readWhole (whole : Text) : Option ℤ := if whole = [] then some 0 else readSigned 64 whole

/-- The size of a field, without its sign. -/
def scaledSize (text : Text) (unit : ℤ) : Option ℤ :=
  match splitOnce (· == '.') text with
  | none => do
      let whole ← readSigned 64 text
      checked 64 (whole * unit)
  | some (whole, fraction) =>
      if 9 < byteLen fraction ∨ ¬ fraction.all isDigit then none
      else do
        let whole ← readWhole whole
        let numerator ← readSigned 64 fraction
        let part ← checked 64 (unit * numerator)
        let whole ← checked 64 (whole * unit)
        checked 64 (whole + part.tdiv (10 ^ fraction.length))

def scaled (text : Text) (unit : ℤ) : Option ℤ := do
  let sign := splitSign (text.map fun c => if c == ',' then '.' else c)
  let size ← scaledSize sign.2 unit
  checked 64 (size * if sign.1 then -1 else 1)

/-- The months and the nanoseconds of the fields before the `T`. -/
def addDateFields : List (Text × Char) → ℤ × ℤ → Option (ℤ × ℤ)
  | [], sums => some sums
  | (value, unit) :: fields, (months, nanos) =>
      if unit = 'Y' ∨ unit = 'y' then do
        let years ← readSigned 64 value
        let more ← checked 64 (years * 12)
        let months ← checked 64 (months + more)
        addDateFields fields (months, nanos)
      else if unit = 'M' ∨ unit = 'm' then do
        let more ← readSigned 64 value
        let months ← checked 64 (months + more)
        addDateFields fields (months, nanos)
      else if unit = 'W' ∨ unit = 'w' then do
        let more ← scaled value (7 * nanosPerDay)
        let nanos ← checked 64 (nanos + more)
        addDateFields fields (months, nanos)
      else if unit = 'D' ∨ unit = 'd' then do
        let more ← scaled value nanosPerDay
        let nanos ← checked 64 (nanos + more)
        addDateFields fields (months, nanos)
      else none

/-- The unit of a field behind the `T`. -/
def timeUnit (unit : Char) : Option ℤ :=
  if unit = 'H' ∨ unit = 'h' then some nanosPerHour
  else if unit = 'M' ∨ unit = 'm' then some nanosPerMinute
  else if unit = 'S' ∨ unit = 's' then some nanosPerSec
  else none

/-- The nanoseconds of the fields behind the `T`. -/
def addTimeFields : List (Text × Char) → ℤ → Option ℤ
  | [], nanos => some nanos
  | (value, unit) :: fields, nanos => do
      let size ← timeUnit unit
      let more ← scaled value size
      let nanos ← checked 64 (nanos + more)
      addTimeFields fields nanos

/-- A duration's fields: the parts before and behind its `T`. -/
def cutDuration (rest : Text) : Text × Option Text :=
  match splitOnce (fun c => c == 'T' || c == 't') rest with
  | some (date, time) => (date, some time)
  | none => (rest, none)

/-- The months and the nanoseconds a duration's text adds up to, without its sign. -/
def sumDuration (rest : Text) : Option (ℤ × ℤ) := do
  let (date, time) := cutDuration rest
  if date = [] ∧ time.getD [] = [] then none
  else do
    let dateFields ← cutFields date []
    let (months, nanos) ← addDateFields dateFields (0, 0)
    let timeFields ← cutFields (time.getD []) []
    let nanos ← addTimeFields timeFields nanos
    if months ≠ 0 ∧ nanos ≠ 0 then none else some (months, nanos)

/-- What follows the `P` of a duration. -/
def stripP : Text → Option Text
  | 'P' :: rest | 'p' :: rest => some rest
  | _ => none

def parseDuration (text : Text) : Checked Unit Temporal := do
  let sign := splitSign text
  let rest ← ofOption (stripP sign.2)
  let (months, nanos) ← ofOption (sumDuration rest)
  if nanos ≠ 0 ∨ months = 0 then do
    let count ← signed 64 ((if sign.1 then -1 else 1) * nanos)
    .ok (.duration .dayTime count)
  else do
    let count ← signed 64 ((if sign.1 then -1 else 1) * months)
    .ok (.duration .yearMonth count)

/-! ### SQL intervals -/

inductive IntervalField
  | year
  | month
  | day
  | hour
  | minute
  | second
  deriving DecidableEq

def fieldOrder : List IntervalField := [.year, .month, .day, .hour, .minute, .second]

def IntervalField.rank (field : IntervalField) : ℕ := fieldOrder.idxOf field

def IntervalField.kind : IntervalField → DurationKind
  | .year | .month => .yearMonth
  | _ => .dayTime

/-- What stands behind a field that is not the last. -/
def IntervalField.separator : IntervalField → Char
  | .year => '-'
  | .day => ' '
  | _ => ':'

structure IntervalQualifier where
  start : IntervalField
  final : IntervalField
  leading : Option ℕ
  fraction : Option ℕ

def uint (text : Text) : Option ℤ :=
  if text = [] ∨ ¬ text.all isDigit then none else readSigned 64 text

def bounded (text : Text) (leading : Bool) (most : ℤ) : Option ℤ :=
  (uint text).bind fun value => if leading ∨ value ≤ most then some value else none

/-- The fraction of an interval's seconds. -/
def intervalFraction (digits : Option ℕ) (fraction : Text) : Option ℤ :=
  if fraction = [] ∨ 9 < byteLen fraction ∨ ¬ fraction.all isDigit then none
  else if digits.any fun limit => limit < byteLen fraction then none
  else (readSigned 64 fraction).map fun n => n * 10 ^ (9 - fraction.length)

def intervalSeconds (text : Text) (leading : Bool) (digits : Option ℕ) : Option ℤ :=
  match splitOnce (· == '.') text with
  | none => do
      let whole ← bounded text leading 59
      checked 64 (whole * nanosPerSec)
  | some (whole, fraction) => do
      let whole ← bounded whole leading 59
      let nanos ← checked 64 (whole * nanosPerSec)
      let more ← intervalFraction digits fraction
      checked 64 (nanos + more)

def cutParts : List IntervalField → Text → Option (List Text)
  | [], _ => some []
  | [_], rest => some [rest]
  | field :: fields, rest =>
      (splitOnce (· == field.separator) rest).bind fun s =>
        (cutParts fields s.2).map fun parts => s.1 :: parts

/-- The months and the nanoseconds that a field adds. -/
def fieldSize (field : IntervalField) (text : Text) (leading : Bool) (digits : Option ℕ) :
    Option (ℤ × ℤ) :=
  match field with
  | .year => do
      let value ← uint text
      let months ← checked 64 (value * 12)
      some (months, 0)
  | .month => (bounded text leading 11).map fun months => (months, 0)
  | .day => do
      let value ← uint text
      let nanos ← checked 64 (value * nanosPerDay)
      some (0, nanos)
  | .hour => do
      let value ← bounded text leading 23
      let nanos ← checked 64 (value * nanosPerHour)
      some (0, nanos)
  | .minute => do
      let value ← bounded text leading 59
      let nanos ← checked 64 (value * nanosPerMinute)
      some (0, nanos)
  | .second => (intervalSeconds text leading digits).map fun nanos => (0, nanos)

/-- The months and the nanoseconds of an interval's parts. -/
def addParts (digits : Option ℕ) : Bool → List (IntervalField × Text) → ℤ × ℤ → Option (ℤ × ℤ)
  | _, [], sums => some sums
  | leading, (field, text) :: parts, sums => do
      let size ← fieldSize field text leading digits
      let months ← checked 64 (sums.1 + size.1)
      let nanos ← checked 64 (sums.2 + size.2)
      addParts digits false parts (months, nanos)

def parseSqlInterval (text : Text) (q : IntervalQualifier) : Checked Unit Temporal :=
  if q.start.kind ≠ q.final.kind ∨ q.final.rank < q.start.rank then refuse ()
  else do
    let sign := splitSign text
    let fields ← slice fieldOrder q.start.rank (q.final.rank + 1)
    let parts ← ofOption (cutParts fields sign.2)
    let first ← index parts 0
    if q.leading.any fun limit => limit < byteLen (first.takeWhile (· != '.')) then refuse ()
    else do
      let (months, nanos) ← ofOption (addParts q.fraction true (fields.zip parts) (0, 0))
      match q.start.kind with
      | .yearMonth => do
          let count ← signed 64 ((if sign.1 then -1 else 1) * months)
          .ok (.duration .yearMonth count)
      | .dayTime => do
          let count ← signed 64 ((if sign.1 then -1 else 1) * nanos)
          .ok (.duration .dayTime count)

namespace Temporal

def parse (type : LogicalType) (text : Text) : Checked Unit Temporal :=
  match type with
  | .date => do
      let days ← parseDate (trim text)
      .ok (.date days)
  | .localTime => do
      let (nanos, offset) ← parseTime (trim text)
      if offset.isSome then refuse () else .ok (.localTime nanos)
  | .zonedTime => do
      let (nanos, offset) ← parseTime (trim text)
      .ok (.zonedTime nanos (offset.getD 0))
  | .localDatetime => do
      let (nanos, offset) ← parseDatetime (trim text)
      if offset.isSome then refuse () else .ok (.localDatetime nanos)
  | .zonedDatetime => do
      let (nanos, offset) ← parseDatetime (trim text)
      let instant ← ofOption (checked 64 (nanos - offset.getD 0 * nanosPerMinute))
      .ok (.zonedDatetime instant (offset.getD 0))
  | .duration _ => parseDuration (trim text)
  | _ => refuse ()

attribute [grind =] parse

def hasOffset (text : Text) : Bool :=
  let time := ((splitOnce (fun c => c == 'T' || c == 't' || c == ' ') text).map Prod.snd).getD text
  time.getLast? == some 'Z' || time.getLast? == some 'z' || time.contains '+' || time.contains '-'

/-- The type a written value has by its shape. -/
def shapeOf (text : Text) : LogicalType :=
  if text.head? = some 'P' ∨ text.take 2 = ['-', 'P'] then .duration .dayTime
  else if text.contains 'T' || text.contains ' ' then
    if hasOffset text then .zonedDatetime else .localDatetime
  else if text.contains ':' then
    if hasOffset text then .zonedTime else .localTime
  else .date

def parseAny (text : Text) : Checked Unit Temporal := parse (shapeOf (trim text)) (trim text)

end Temporal

end Zu.Common
