import Zu.Lib.Signed
import Zu.Props.ColumnType

/-!
# Rows of a list column

A row is the count of its elements, where the row says one, and then the elements: each in
the bytes of its width in the lane, or behind its length. A reader takes the rows of an
older file too, whose elements all take eight bytes.
-/

namespace Zu.Props

open Lib Schema Checked

inductive ListElement
  | word (w : Word)
  | blob (b : Bytes)
  deriving DecidableEq

inductive ListRows
  | fixed (count : ℕ)
  | counted (width : ℕ)
  deriving DecidableEq

def ListElement.debug : ListElement → String
  | .word w => s!"Word({w.toNat})"
  | .blob b => "Blob([" ++ String.intercalate ", " (b.map fun x => toString x.toNat) ++ "])"

def fitsWidth (word : Word) (width : ℕ) (signed : Bool) : Bool :=
  if 8 ≤ width then true
  else if signed then (word <<< (64 - width * 8)).sshiftRight (64 - width * 8) = word
  else word >>> (width * 8) = 0

/-- A length or a word in `width` bytes. -/
def putNat (width n : ℕ) : Checked ZuError Bytes :=
  if width ≤ 8 then .ok ((leBytes 8 n).take width) else .error .panicked

/-- A power of two in a word. -/
def shl (n : ℕ) : Checked ZuError ℕ := if n < 64 then .ok (2 ^ n) else .error .panicked

def encodeElement (elem : LogicalType) (item : ListElement) : Checked ZuError Bytes :=
  match item, laneWidth elem with
  | .word w, some (width, signed) =>
      if fitsWidth w width signed then .ok ((leBytes 8 w.toNat).take width)
      else refuse (.invalidArgument s!"a list of {display elem} does not hold {w.toInt}")
  | .blob b, none => .ok (leBytes 4 b.length ++ b)
  | _, _ => refuse (.invalidArgument s!"a list of {display elem} does not hold {item.debug}")

def encodeElements (elem : LogicalType) : List ListElement → Checked ZuError Bytes
  | [] => .ok []
  | item :: items => do
      let first ← encodeElement elem item
      let rest ← encodeElements elem items
      .ok (first ++ rest)

def encodeCount (count : ℕ) : ListRows → Checked ZuError Bytes
  | .fixed _ => .ok []
  | .counted width => do
      let most ← shl (width * 8)
      if most ≤ count then
        refuse (.invalidArgument s!"a list of {count} does not fit a {width} byte count")
      else putNat width count

/-- The bytes a row starts with. -/
def ListRows.head : ListRows → ℕ
  | .fixed _ => 0
  | .counted width => width

def encodeListRow (elem : LogicalType) (items : List ListElement) (rows : ListRows) :
    Checked ZuError Bytes := do
  let stride := ((laneWidth elem).map Prod.fst).getD 4
  let room ← word true (rows.head + items.length * stride)
  let _ ← withCapacity room 1
  let count ← encodeCount items.length rows
  let elements ← encodeElements elem items
  let _ ← withCapacity (count ++ elements).length 1
  .ok (count ++ elements)

/-- The count of a row: the directory's, or the one at the head of it. -/
def readCount (bytes : Bytes) : ListRows → Checked ZuError ℕ
  | .fixed count => .ok count
  | .counted width =>
      if bytes.length < width then refuse (corruptProps "truncated list length")
      else if 8 < width then .error .panicked
      else .ok (fromLe (bytes.take width))

def saturatingMul (a b : ℕ) : ℕ := min (a * b) (2 ^ 64 - 1)

/-- The width the elements of a row were written at, which the length of the row says. -/
def rowLane (elem : LogicalType) (count body length : ℕ) : Checked ZuError (Option (ℕ × Bool)) :=
  match laneWidth elem with
  | some (width, signed) =>
      if body = saturatingMul count width then .ok (some (width, signed))
      else if body = saturatingMul count 8 then .ok (some (8, false))
      else refuse (corruptProps
        s!"a list of {count} {display elem} does not fit {length} bytes")
  | none =>
      if body / 4 < count then
        refuse (corruptProps s!"a list of {count} does not fit {length} bytes")
      else .ok none

/-- The bytes from one place to another, where there are so many. -/
def between (bytes : Bytes) (pos len : ℕ) (detail : String) : Checked ZuError Bytes := do
  let stop ← word true (pos + len)
  if bytes.length < stop then refuse (corruptProps detail) else .ok ((bytes.drop pos).take len)

/-- An element of a row, and where the next one is. -/
def readElement (bytes : Bytes) (lane : Option (ℕ × Bool)) (pos : ℕ) :
    Checked ZuError (ListElement × ℕ) :=
  match lane with
  | some (width, signed) => do
      let raw ← between bytes pos width "truncated list element"
      let w := BitVec.ofNat 64 (fromLe raw)
      let w := if signed ∧ width < 8 then
        (w <<< (64 - width * 8)).sshiftRight (64 - width * 8) else w
      .ok (.word w, pos + width)
  | none => do
      let raw ← between bytes pos 4 "truncated list element length"
      let body ← between bytes (pos + 4) (fromLe raw) "truncated list element"
      .ok (.blob body, pos + 4 + fromLe raw)

/-- So many elements of a row, and where they end. -/
def readElements (bytes : Bytes) (lane : Option (ℕ × Bool)) :
    ℕ → ℕ → Checked ZuError (List ListElement × ℕ)
  | 0, pos => .ok ([], pos)
  | count + 1, pos => do
      let first ← readElement bytes lane pos
      let rest ← readElements bytes lane count first.2
      .ok (first.1 :: rest.1, rest.2)

def listElements (elem : LogicalType) (bytes : Bytes) (rows : ListRows) :
    Checked ZuError (List ListElement) := do
  let count ← readCount bytes rows
  let body ← sub bytes.length rows.head
  let lane ← rowLane elem count body bytes.length
  let _ ← withCapacity count 16
  let items ← readElements bytes lane count rows.head
  if items.2 ≠ bytes.length then refuse (corruptProps "trailing bytes in a list")
  else .ok items.1

end Zu.Props
