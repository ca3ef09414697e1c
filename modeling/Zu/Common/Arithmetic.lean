import Zu.Common.Decimal
import Zu.Lib.Rounding

/-!
# Arithmetic on decimals

The sum, the difference, the product, the remainder and the quotient of two decimals, and a
decimal rounded to a place.
-/

namespace Zu.Common

open Lib Checked

/-- `10i128.checked_pow(u32::try_from(n).ok()?)`. -/
def tenTo (n : ℤ) : Option ℤ :=
  if 0 ≤ n ∧ n < 2 ^ 32 then Decimal.checkedPow n.toNat else none

/-- One more away from nought where what is left over, doubled, reaches the divisor. -/
def carryAway (negative : Bool) (whole down twice : ℤ) : Checked Unit ℤ := do
  let size ← signed 128 |twice|
  if down ≤ size then ofOption (checked 128 (if negative then whole - 1 else whole + 1))
  else .ok whole

def shift (digits written wanted : ℤ) : Checked Unit ℤ := do
  let places ← ofOption (checked 64 (wanted - written))
  if places = 0 then .ok digits
  else if 0 < places then do
    let up ← ofOption (tenTo places)
    ofOption (checked 128 (digits * up))
  else do
    let minus ← signed 64 (-places)
    let down ← ofOption (tenTo minus)
    match checked 128 (digits.tmod down * 2) with
    | some twice => carryAway (digits < 0) (digits.tdiv down) down twice
    | none => .ok (digits.tdiv down)

inductive Round
  | half
  | up
  | down
  deriving DecidableEq

namespace Decimal

def negative (d : Decimal) : Bool := d.unscaled < 0

def add (a b : Decimal) : Option Decimal := do
  let (a, b) ← align a b
  ofChecked (a.unscaled + b.unscaled) a.scale

def sub (a b : Decimal) : Option Decimal := do
  let (a, b) ← align a b
  ofChecked (a.unscaled - b.unscaled) a.scale

def mul (a b : Decimal) : Option Decimal :=
  if a.scale + b.scale < 2 ^ 16 then
    if maxDigits < a.scale + b.scale then none
    else ofChecked (a.unscaled * b.unscaled) (a.scale + b.scale)
  else none

/-- `checked_rem`, which refuses the least number by minus one. -/
def checkedRem (a b : ℤ) : Option ℤ :=
  if b ≠ 0 ∧ Fits 128 (a.tdiv b) then some (a.tmod b) else none

def rem (a b : Decimal) : Option Decimal := do
  let (a, b) ← align a b
  if b.unscaled = 0 then none
  else do
    let unscaled ← checkedRem a.unscaled b.unscaled
    ofChecked unscaled a.scale

def ofSigned (n : ℤ) (scale : ℕ) : Checked Unit Decimal :=
  if h : Fits 128 n then .ok ⟨n, scale, h⟩ else .error .panicked

def quotientScale (a b : Decimal) : ℕ := min (max a.scale b.scale + 6) maxDigits

/-- How far the numerator is scaled up. -/
def quotientUp (a b : Decimal) : ℤ := quotientScale a b + b.scale - a.scale

/-- The quotient with its last digit rounded. -/
def lastDigit (numerator divisor : ℤ) : Checked Unit ℤ :=
  match checked 128 (numerator.tmod divisor * 2) with
  | some twice =>
      if divisor ≤ twice then ofOption (checked 128 (numerator.tdiv divisor + 1))
      else .ok (numerator.tdiv divisor)
  | none => .ok (numerator.tdiv divisor)

def div (a b : Decimal) : Checked Unit Decimal :=
  if b.unscaled = 0 then refuse ()
  else do
    let magnitude ← ofOption (checked 128 a.unscaled.natAbs)
    let numerator ← shift magnitude 0 (quotientUp a b)
    let divisor ← ofOption (checked 128 b.unscaled.natAbs)
    let unscaled ← lastDigit numerator divisor
    ofSigned (if a.negative != b.negative then -unscaled else unscaled)
      (quotientScale a b)

def carry (d : Decimal) (factor : ℤ) : Round → Checked Unit ℤ
  | .half => do
      let twice ← ofOption (checked 128 (d.unscaled.tmod factor * 2))
      carryAway d.negative (d.unscaled.tdiv factor) factor twice
  | .up =>
      if 0 < d.unscaled.tmod factor then ofOption (checked 128 (d.unscaled.tdiv factor + 1))
      else .ok (d.unscaled.tdiv factor)
  | .down =>
      if d.unscaled.tmod factor < 0 then ofOption (checked 128 (d.unscaled.tdiv factor - 1))
      else .ok (d.unscaled.tdiv factor)

/-- The scale of a number rounded to `digits` places. -/
def placedScale (digits : ℤ) : ℕ := min (max digits 0).toNat maxDigits

def quantize (d : Decimal) (digits : ℤ) (mode : Round) : Checked Unit Decimal :=
  if 2 ^ 16 ≤ max digits 0 then refuse ()
  else do
    let drop ← signed 64 (d.scale - digits)
    if drop ≤ 0 then ofOption (d.rescale (placedScale digits))
    else do
      let factor ← ofOption (tenTo drop)
      let carried ← d.carry factor mode
      let up ← signed 64 (placedScale digits - digits)
      let back ← ofOption (tenTo up)
      ofOption (ofChecked (carried * back) (placedScale digits))

def round (d : Decimal) (digits : ℤ) : Checked Unit Decimal := d.quantize digits .half

def ceil (d : Decimal) (digits : ℤ) : Checked Unit Decimal := d.quantize digits .up

def floor (d : Decimal) (digits : ℤ) : Checked Unit Decimal := d.quantize digits .down

end Decimal

end Zu.Common
