import Zu.Schema.TypeCodec
import Zu.Lib.BitStream

/-!
# What a type says about its column

Whether a value rides the fixed width lane and how wide it is there, and what a list column
says of its rows.
-/

namespace Zu.Props

open Lib Schema

inductive PhysicalType
  | bool
  | i8 | i16 | i32 | i64
  | u8 | u16 | u32 | u64
  | i128 | i256
  | f32 | f64 | f128
  | str | bytes
  | days32 | nanos64 | zoned | months32
  | listOffsets
  | struct
  deriving DecidableEq, Repr

def intBitsForDigits (digits : ℕ) : Option IntBits :=
  if digits ≤ 2 then some .b8
  else if digits ≤ 4 then some .b16
  else if digits ≤ 9 then some .b32
  else if digits ≤ 18 then some .b64
  else if digits ≤ 38 then some .b128
  else if digits ≤ 76 then some .b256
  else none

def base : LogicalType → LogicalType
  | .nullable inner => base inner
  | ty => ty

/-- `physical`, of a type without its wrappers for null. -/
def physicalOfBase : LogicalType → Option PhysicalType
  | .null | .nothing => none
  | .bool => some .bool
  | .int true .b8 _ => some .i8
  | .int true .b16 _ => some .i16
  | .int true .b32 _ => some .i32
  | .int true .b64 _ => some .i64
  | .int false .b8 _ => some .u8
  | .int false .b16 _ => some .u16
  | .int false .b32 _ => some .u32
  | .int false .b64 _ => some .u64
  | .int _ .b128 _ => some .i128
  | .int _ .b256 _ => some .i256
  | .decimal precision _ =>
      match (intBitsForDigits precision.toNat).getD .b256 with
      | .b8 | .b16 | .b32 => some .i32
      | .b64 => some .i64
      | .b128 => some .i128
      | .b256 => some .i256
  | .float .b16 _ | .float .b32 _ => some .f32
  | .float .b64 _ => some .f64
  | .float .b128 _ | .float .b256 _ => some .f128
  | .str .. => some .str
  | .bytes .. => some .bytes
  | .date => some .days32
  | .localTime | .localDatetime => some .nanos64
  | .zonedTime | .zonedDatetime => some .zoned
  | .duration .yearMonth => some .months32
  | .duration .dayTime => some .nanos64
  | .node _ | .edge _ | .graph _ | .bindingTable _ => some .u64
  | .path _ | .record .. => some .struct
  | .list .. => some .listOffsets
  | .any | .union _ | .anyProperty => some .struct
  | .nullable _ => none

def physical (ty : LogicalType) : Option PhysicalType := physicalOfBase (base ty)

/-- `lane_width`, of a layout: how many bytes a value takes and whether it has a sign. -/
def PhysicalType.laneWidth : PhysicalType → Option (ℕ × Bool)
  | .bool | .u8 => some (1, false)
  | .i8 => some (1, true)
  | .u16 => some (2, false)
  | .i16 => some (2, true)
  | .u32 | .f32 => some (4, false)
  | .i32 | .days32 | .months32 => some (4, true)
  | .i64 | .u64 | .f64 | .nanos64 => some (8, false)
  | _ => none

def laneWidth (ty : LogicalType) : Option (ℕ × Bool) := physical ty >>= PhysicalType.laneWidth

/-- A value of the lane takes one to eight bytes, and only one of fewer has a sign. -/
theorem laneWidth_spec {ty : LogicalType} {width : ℕ} {signed : Bool}
    (h : laneWidth ty = some (width, signed)) :
    0 < width ∧ width ≤ 8 ∧ (width = 8 → signed = false) := by
  rw [laneWidth] at h
  cases hp : physical ty with
  | none =>
      rw [hp] at h
      cases h
  | some p =>
      rw [hp] at h
      cases p <;> cases h <;> decide

/-- `list_elem`: a stored list holds a value in every position. -/
def listElem (elem : LogicalType) : LogicalType := base elem

/-- The width of an element of a list with a bound; an element reader has no arm for a
decimal. -/
def boundedWidth (inner : LogicalType) : Option ℕ :=
  match inner with
  | .decimal .. => none
  | _ => (laneWidth inner).map Prod.fst

def boundedList : LogicalType → Option (ℕ × ℕ)
  | .list elem (some most) =>
      if 0 < most.toNat then (boundedWidth (listElem elem)).map fun width => (most.toNat, width)
      else none
  | _ => none

def countWidth (ty : LogicalType) : ℕ :=
  match boundedList ty with
  | some (bound, _) => if bound ≤ 255 then 1 else if bound ≤ 65535 then 2 else 4
  | none => 4

/-- `column_type`: the element of a list without its wrappers for null. -/
def columnType : LogicalType → LogicalType
  | .list elem most => .list (listElem elem) most
  | ty => ty

/-! ### The name of a type in an error -/

def displayLen (name : String) (least most : Option UInt32) (fixed : Bool) : String :=
  match least, most, fixed with
  | some n, _, true => s!"{name}({n.toNat}) FIXED"
  | some lo, some hi, false => s!"{name}({lo.toNat}..{hi.toNat})"
  | none, some hi, false => s!"{name}({hi.toNat})"
  | _, _, _ => name

def displayRef (name : String) : Option String → String
  | some ty => s!"{name}<{ty}>"
  | none => name

def intBits : IntBits → ℕ
  | .b8 => 8 | .b16 => 16 | .b32 => 32 | .b64 => 64 | .b128 => 128 | .b256 => 256

def floatBits : FloatBits → ℕ
  | .b16 => 16 | .b32 => 32 | .b64 => 64 | .b128 => 128 | .b256 => 256

mutual

def display : LogicalType → String
  | .null => "NULL"
  | .nothing => "NOTHING"
  | .bool => "BOOL"
  | .int signed bits precision =>
      let u := if signed then "" else "U"
      match precision with
      | some p => s!"{u}INT({p.toNat})"
      | none => s!"{u}INT{intBits bits}"
  | .decimal precision scale => s!"DECIMAL({precision.toNat},{scale.toNat})"
  | .float bits precision =>
      match precision with
      | some p => s!"FLOAT({p.toNat})"
      | none => s!"FLOAT{floatBits bits}"
  | .str least most fixed => displayLen "STRING" least most fixed
  | .bytes least most fixed => displayLen "BYTES" least most fixed
  | .date => "DATE"
  | .localTime => "LOCAL TIME"
  | .localDatetime => "LOCAL DATETIME"
  | .zonedTime => "ZONED TIME"
  | .zonedDatetime => "ZONED DATETIME"
  | .duration .yearMonth => "YEAR MONTH DURATION"
  | .duration .dayTime => "DAY TIME DURATION"
  | .node ty => displayRef "NODE" ty
  | .edge ty => displayRef "EDGE" ty
  | .graph ty => displayRef "GRAPH" ty
  | .bindingTable _ => "BINDING TABLE"
  | .path _ => "PATH"
  | .list elem most =>
      match most with
      | some n => s!"LIST<{display elem}>[{n.toNat}]"
      | none => s!"LIST<{display elem}>"
  | .record fields isOpen =>
      let names := displayFields fields
      let rest := if isOpen then (if names.isEmpty then [".."] else [", .."]) else []
      "RECORD<" ++ String.intercalate ", " names ++ String.join rest ++ ">"
  | .any => "ANY"
  | .union members => "ANY<" ++ String.intercalate "|" (displayMembers members) ++ ">"
  | .anyProperty => "ANY PROPERTY VALUE"
  | .nullable inner => display inner ++ "?"

def displayFields : List (String × LogicalType) → List String
  | [] => []
  | field :: fields => displayField field :: displayFields fields

def displayField : String × LogicalType → String
  | (name, ty) => s!"{name}: {display ty}"

def displayMembers : List LogicalType → List String
  | [] => []
  | ty :: members => display ty :: displayMembers members

end

end Zu.Props
