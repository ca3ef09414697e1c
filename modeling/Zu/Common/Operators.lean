import Zu.Common.CalendarLaws
import Zu.Common.Calls

/-!
# The operators on exact values

What the operators and the exact functions answer of integers, decimals and durations: the
number there is, or the condition that it does not fit or is divided by nought. Months are
added to a zoned value on the date of its instant, which its wall clock need not agree with.
-/

namespace Zu.Common

namespace Operators

open Lib Checked Decimal Schema Temporal

/-- An exact value. -/
inductive Operand
  | int (n : ℤ) (fits : Fits 64 n)
  | decimal (d : Decimal) (scaled : d.scale ≤ maxDigits)
  | duration (kind : DurationKind) (count : ℤ) (fits : Fits 64 count)

/-- What an operation answers with. -/
inductive Answer
  | int (n : ℤ)
  | decimal (d : Decimal)
  | duration (kind : DurationKind) (count : ℤ)
  | zoned (nanos offset : ℤ)

/-- The conditions an operation raises. -/
inductive Condition
  | numericOutOfRange
  | datetimeOverflow
  | intervalOverflow
  | divisionByZero
  | invalidValueType
  | invalidUnitGroup
  | invalid

/-- `BinaryOp`, of arithmetic. -/
inductive BinaryOp
  | add
  | sub
  | mul
  | div
  | mod
deriving DecidableEq

inductive Math
  | abs
  | sign
  | ceil
  | floor
  | round

/-- A count, where it fits a word. -/
def fitting (c : Condition) (wrap : ℤ → Answer) (n : ℤ) : Checked Condition Answer :=
  if Fits 64 n then .ok (wrap n) else refuse c

/-- What a decimal operation answers with. -/
def ofDecimal : Checked Unit Decimal → Checked Condition Answer
  | .ok d => .ok (.decimal d)
  | .error (.refused _) => refuse .numericOutOfRange
  | .error .panicked => .error .panicked

/-- `Decimal::new(i128::from(n), 0)`. -/
def ofWord (n : ℤ) (fits : Fits 64 n) : Decimal :=
  ⟨n, 0, by
    rw [Fits] at fits ⊢
    norm_num at fits ⊢
    omega⟩

/-- `arith`, of two integers. -/
def intArith (x y : ℤ) : BinaryOp → Checked Condition Answer
  | .add => fitting .numericOutOfRange .int (x + y)
  | .sub => fitting .numericOutOfRange .int (x - y)
  | .mul => fitting .numericOutOfRange .int (x * y)
  | .div =>
      if y = 0 then refuse .divisionByZero else fitting .numericOutOfRange .int (x.tdiv y)
  | .mod =>
      if y = 0 then refuse .divisionByZero
      else if x = -2 ^ 63 ∧ y = -1 then refuse .numericOutOfRange
      else .ok (.int (x.tmod y))

def BinaryOp.call (x y : Decimal) : BinaryOp → Call
  | add => .add x y
  | sub => .sub x y
  | mul => .mul x y
  | div => .div x y
  | mod => .rem x y

/-- `arith`, of two exact numbers with a decimal among them. -/
def decimalArith (x y : Decimal) (op : BinaryOp) : Checked Condition Answer :=
  if (op = .div ∨ op = .mod) ∧ y.unscaled = 0 then refuse .divisionByZero
  else ofDecimal (op.call x y).run

def shift (have_ : DurationKind) (counted : ℤ) (kind : DurationKind) (count : ℤ) :
    Checked Condition Answer :=
  if have_ = kind then fitting .datetimeOverflow (.duration kind) (counted + count)
  else refuse .invalidUnitGroup

/-- `temporal_arith`, where what is temporal is a duration. -/
def temporalArith : BinaryOp → Operand → Operand → Checked Condition Answer
  | .mul, .duration kind count _, .int n _ =>
      fitting .intervalOverflow (.duration kind) (count * n)
  | .mul, .int n _, .duration kind count _ =>
      fitting .intervalOverflow (.duration kind) (count * n)
  | .div, .duration kind count _, .int n _ =>
      if n = 0 then refuse .divisionByZero
      else fitting .intervalOverflow (.duration kind) (count.tdiv n)
  | .add, .duration kind count _, .duration other counted _ => shift other counted kind count
  | .sub, .duration other counted _, .duration kind count _ =>
      if Fits 64 (-count) then shift other counted kind (-count) else refuse .datetimeOverflow
  | _, _, _ => refuse .invalidValueType

def arith (op : BinaryOp) : Operand → Operand → Checked Condition Answer
  | .int x _, .int y _ => intArith x y op
  | .int x hx, .decimal y _ => decimalArith (ofWord x hx) y op
  | .decimal x _, .int y hy => decimalArith x (ofWord y hy) op
  | .decimal x _, .decimal y _ => decimalArith x y op
  | a, b => temporalArith op a b

/-- Unary minus. -/
def negate : Operand → Checked Condition Answer
  | .int n _ => fitting .numericOutOfRange .int (-n)
  | .duration kind count _ => fitting .numericOutOfRange (.duration kind) (-count)
  | .decimal _ _ => refuse .invalid

def roundedInt (value digits : ℤ) : Checked Condition Answer := do
  let places ← signed 64 (-digits)
  if places < 0 ∨ 2 ^ 32 ≤ places then refuse .numericOutOfRange
  else if 19 < places then return .int 0
  else
    let factor := 10 ^ places.toNat
    let half := Int.tdiv factor 2
    let carried := if 0 ≤ value then (value + half).tdiv factor else (value - half).tdiv factor
    fitting .numericOutOfRange .int (carried * factor)

def exactKernel (digits : ℤ) : Math → Operand → Checked Condition Answer
  | .abs, .int n _ => fitting .numericOutOfRange .int |n|
  | .abs, .duration kind count _ => fitting .numericOutOfRange (.duration kind) |count|
  | .abs, .decimal d _ => ofDecimal (ofOption (ofChecked |d.unscaled| d.scale))
  | .sign, .int n _ => .ok (.int n.sign)
  | .sign, .decimal d _ => .ok (.int d.unscaled.sign)
  | .round, .int n _ => if 0 ≤ digits then .ok (.int n) else roundedInt n digits
  | .ceil, .int n _ => if 0 ≤ digits then .ok (.int n) else refuse .invalidValueType
  | .floor, .int n _ => if 0 ≤ digits then .ok (.int n) else refuse .invalidValueType
  | .round, .decimal d _ => ofDecimal (d.round digits)
  | .ceil, .decimal d _ => ofDecimal (d.ceil digits)
  | .floor, .decimal d _ => ofDecimal (d.floor digits)
  | _, .duration _ _ _ => refuse .invalidValueType

/-- `shift`, of a zoned datetime by months. -/
def shiftMonths (nanos offset months : ℤ) : Checked Condition Answer :=
  match addMonthsToNanos nanos months with
  | .ok out => .ok (.zoned out offset)
  | .error (.refused _) => refuse .datetimeOverflow
  | .error .panicked => .error .panicked

/-- An operation on exact values. Only `ROUND` is given digits. -/
inductive Operation
  | binary (op : BinaryOp) (a b : Operand)
  | negate (a : Operand)
  | abs (a : Operand)
  | sign (a : Operand)
  | ceil (a : Operand)
  | floor (a : Operand)
  | round (a : Operand) (digits : ℤ) (fits : Fits 64 digits)
  | addMonths (nanos offset months : ℤ) (fits : Fits 64 nanos)

namespace Operation

def run : Operation → Checked Condition Answer
  | binary op a b => arith op a b
  | negate a => Operators.negate a
  | abs a => exactKernel 0 .abs a
  | sign a => exactKernel 0 .sign a
  | ceil a => exactKernel 0 .ceil a
  | floor a => exactKernel 0 .floor a
  | round a digits _ => exactKernel digits .round a
  | addMonths nanos offset months _ => shiftMonths nanos offset months

end Operation

/-! ### What an operation should answer -/

def daysMoved (day months : ℤ) : ℤ := (landed (day, 0) months).1 - day

def wallClock (nanos offset : ℤ) : ℤ × ℤ := reading (nanos + offset * nanosPerMinute)

namespace Operation

/-- Where an operation is right. -/
def Room : Operation → Prop
  | binary .mod (.int x _) (.int y _) => ¬ (x = -2 ^ 63 ∧ y = -1)
  | binary .sub (.duration kind count _) (.duration kind' count' _) =>
      count' ≠ -2 ^ 63 ∨ 0 ≤ count ∨ kind ≠ kind'
  | binary op (.int x hx) (.decimal y _) => (op.call (ofWord x hx) y).Room
  | binary op (.decimal x _) (.int y hy) => (op.call x (ofWord y hy)).Room
  | binary op (.decimal x _) (.decimal y _) => (op.call x y).Room
  | negate (.decimal _ _) => False
  | ceil (.decimal d _) => d.Places 0 .up
  | floor (.decimal d _) => d.Places 0 .down
  | round (.int _ _) digits _ => -2 ^ 32 < digits
  | round (.decimal d _) digits _ => d.Places digits .half
  | addMonths nanos offset months _ =>
      let day := (reading nanos).1
      let wallDay := (wallClock nanos offset).1
      Fits 64 (monthOf day + months) ∧
        if Fits 64 ((day + daysMoved day months) * nanosPerDay) ∧
            Fits 64 (nanos + daysMoved day months * nanosPerDay) then
          daysMoved day months = daysMoved wallDay months
        else ¬ Fits 64 (nanos + daysMoved wallDay months * nanosPerDay)
  | _ => True

end Operation

/-! ### Integers and durations -/

instance (index : ℤ) : Decidable (InYears index) := inferInstanceAs (Decidable (_ ∧ _))

end Operators

end Zu.Common
