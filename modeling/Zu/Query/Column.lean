import Zu.Lib.Bitmap
import Zu.Query.Value
import Zu.Schema.Spelling

/-!
# Columns

A result read down its columns. A column has one type, which the values settle, and a buffer
of the values in a layout that the type says; a null takes its cell, and a bit says that there
is nothing in it. The columns of a result are built from its rows in two passes, or are held
by a sink that filled them.
-/

namespace Zu.Query

open Lib Common Schema

abbrev I64 := { n : ℤ // Fits 64 n }

inductive ColumnType
  | null
  | bool
  | int
  | float
  | decimal (scale : ℕ)
  | str
  | bytes
  | date
  | localTime
  | zonedTime (offset : ℤ)
  | localDatetime
  | zonedDatetime (offset : ℤ)
  | yearMonth
  | dayTime
  | node
  | rel
  | path
  | list (items : ColumnType)
  | record (fields : List (String × ColumnType))
  | graph
  | bindingTable

namespace ColumnType

def name : ColumnType → String
  | null => "nulls"
  | bool => "booleans"
  | int => "integers"
  | float => "floats"
  | decimal scale => s!"decimals of scale {scale}"
  | str => "strings"
  | bytes => "byte strings"
  | date => "dates"
  | localTime => "times"
  | zonedTime _ => "times with an offset"
  | localDatetime => "datetimes"
  | zonedDatetime _ => "zoned datetimes"
  | yearMonth => "year-month durations"
  | dayTime => "day-time durations"
  | node => "nodes"
  | rel => "rels"
  | path => "paths"
  | list items => s!"lists of {items.name}"
  | record _ => "records"
  | graph => "graph references"
  | bindingTable => "binding table references"

mutual

def same : ColumnType → ColumnType → Bool
  | null, b => (b matches null)
  | bool, b => (b matches bool)
  | int, b => (b matches int)
  | float, b => (b matches float)
  | decimal s, b => match b with | decimal s' => decide (s = s') | _ => false
  | str, b => (b matches str)
  | bytes, b => (b matches bytes)
  | date, b => (b matches date)
  | localTime, b => (b matches localTime)
  | zonedTime o, b => match b with | zonedTime o' => decide (o = o') | _ => false
  | localDatetime, b => (b matches localDatetime)
  | zonedDatetime o, b => match b with | zonedDatetime o' => decide (o = o') | _ => false
  | yearMonth, b => (b matches yearMonth)
  | dayTime, b => (b matches dayTime)
  | node, b => (b matches node)
  | rel, b => (b matches rel)
  | path, b => (b matches path)
  | list items, b => match b with | list items' => same items items' | _ => false
  | record fields, b => match b with | record fields' => sameFields fields fields' | _ => false
  | graph, b => (b matches graph)
  | bindingTable, b => (b matches bindingTable)

def sameFields : List (String × ColumnType) → List (String × ColumnType) → Bool
  | [], [] => true
  | f :: fs, g :: gs => decide (f.1 = g.1) && same f.2 g.2 && sameFields fs gs
  | _, _ => false

end

mutual

/-- `unify`: the one type two types are both. -/
def unify : ColumnType → ColumnType → Option ColumnType
  | null, b => some b
  | int, b =>
      match b with
      | null | int => some int
      | float => some float
      | decimal s => some (decimal s)
      | _ => none
  | float, b =>
      match b with
      | null | float | int | decimal _ => some float
      | _ => none
  | decimal s, b =>
      match b with
      | null | int => some (decimal s)
      | decimal s' => some (decimal (max s s'))
      | float => some float
      | _ => none
  | zonedTime o, b =>
      match b with
      | null | zonedTime _ => some (zonedTime o)
      | _ => none
  | zonedDatetime o, b =>
      match b with
      | null | zonedDatetime _ => some (zonedDatetime o)
      | _ => none
  | list items, b =>
      match b with
      | null => some (list items)
      | list items' => (unify items items').map list
      | _ => none
  | record fields, b =>
      match b with
      | null => some (record fields)
      | record fields' => (unifyFields fields fields').map record
      | _ => none
  | a, b =>
      match b with
      | null => some a
      | _ => if same a b then some a else none

def unifyFields : List (String × ColumnType) → List (String × ColumnType) →
    Option (List (String × ColumnType))
  | [], [] => some []
  | f :: fs, g :: gs => do
      if f.1 ≠ g.1 then none
      let field ← unify f.2 g.2
      let fields ← unifyFields fs gs
      return (f.1, field) :: fields
  | _, _ => none

end

attribute [grind =] unify

end ColumnType

structure Mixture where
  held : String
  arrived : String

mutual

def ColumnType.of : Value → Except Mixture ColumnType
  | .null => .ok .null
  | .bool _ => .ok .bool
  | .num (.int _ _) => .ok .int
  | .num (.float _) => .ok .float
  | .num (.decimal d) => .ok (.decimal d.scale)
  | .str _ => .ok .str
  | .bytes _ => .ok .bytes
  | .node _ => .ok .node
  | .rel _ => .ok .rel
  | .path _ => .ok .path
  | .chain _ _ => .ok .path
  | .graph _ _ => .ok .graph
  | .bindingTable _ => .ok .bindingTable
  | .list items => do
      let items ← ColumnType.ofItems .null items
      return .list items
  | .record fields => do
      let fields ← ColumnType.ofFields fields
      return .record fields
  | .temporal (.date _) => .ok .date
  | .temporal (.localTime _) => .ok .localTime
  | .temporal (.zonedTime _ offset) => .ok (.zonedTime offset)
  | .temporal (.localDatetime _) => .ok .localDatetime
  | .temporal (.zonedDatetime _ offset) => .ok (.zonedDatetime offset)
  | .temporal (.duration .yearMonth _) => .ok .yearMonth
  | .temporal (.duration .dayTime _) => .ok .dayTime

/-- The type of the items of a list, from what those before them are. -/
def ColumnType.ofItems : ColumnType → List Value → Except Mixture ColumnType
  | items, [] => .ok items
  | items, v :: vs => do
      let found ← ColumnType.of v
      match ColumnType.unify items found with
      | some items => ColumnType.ofItems items vs
      | none => .error ⟨items.name, found.name⟩

def ColumnType.ofFields : List (String × Value) → Except Mixture (List (String × ColumnType))
  | [] => .ok []
  | f :: fs => do
      let field ← ColumnType.of f.2
      let fields ← ColumnType.ofFields fs
      return (f.1, field) :: fields

end

structure MixedColumn where
  column : String
  row : ℕ
  held : String
  arrived : String
  inList : Bool

structure Validity where
  bits : PackedBits
  len : ℕ
  nulls : ℕ

namespace Validity

def new (len : ℕ) : Validity := ⟨List.replicate (PackedBits.bytesFor len) 0xff#8, 0, 0⟩

def push (v : Validity) (valid : Bool) : Validity :=
  if valid then { v with len := v.len + 1 }
  else ⟨v.bits.clear v.len, v.len + 1, v.nulls + 1⟩

def isValid (v : Validity) (i : ℕ) : Bool := v.bits.test i

end Validity

inductive Offsets
  | i32 (offsets : List ℕ)
  | i64 (offsets : List ℕ)

def maxI32 : ℕ := 2 ^ 31 - 1

/-- Offsets are narrow where the bytes fit one of 32 bits. -/
def Offsets.narrow (bytes : ℕ) (offsets : List ℕ) : Offsets :=
  if bytes ≤ maxI32 then .i32 offsets else .i64 offsets

def Offsets.items : Offsets → List ℕ
  | .i32 offsets | .i64 offsets => offsets

structure StrColumn where
  bytes : Bytes
  offsets : Offsets

/-- The bytes of a row, from where it starts to where it ends. -/
def StrColumn.cell (c : StrColumn) (i : ℕ) : Option Bytes := do
  let start ← c.offsets.items[i]?
  let stop ← c.offsets.items[i + 1]?
  return (c.bytes.take stop).drop start

inductive ColumnData
  | null
  | bool (bits : PackedBits)
  | int (values : List I64)
  | float (values : List Float64)
  | str (strings : StrColumn)
  | bytes (strings : StrColumn)
  | days (values : List ℤ)
  | nanos (values : List ℤ)
  | months (values : List ℤ)
  | complex (values : List Value)

structure Column where
  name : String
  ty : ColumnType
  data : ColumnData
  validity : Option Validity
  len : ℕ

structure Columns where
  columns : List Column
  rows : ℕ

inductive HeldData
  | null
  | bool (bits : PackedBits)
  | int (values : List I64)
  | float (values : List Float64)
  | str (strings : StrColumn)
  | complex (values : List Value)

structure HeldColumn where
  name : String
  ty : ColumnType
  data : HeldData
  validity : Option Validity

structure Held where
  columns : List HeldColumn
  rows : ℕ

/-- What `borrow` lends of a buffer. -/
def HeldData.lent : HeldData → ColumnData
  | null => .null
  | bool bits => .bool bits
  | int values => .int values
  | float values => .float values
  | str strings => .str strings
  | complex values => .complex values

def Held.borrow (h : Held) : Columns :=
  ⟨h.columns.map fun c => ⟨c.name, c.ty, c.data.lent, c.validity, h.rows⟩, h.rows⟩

/-- `from_utf8_lossy`: text is itself, and what is not is repaired. -/
def fromUtf8Lossy (repair : Bytes → String) (bytes : Bytes) : String :=
  (ofUtf8 bytes).getD (repair bytes)

section

variable (repair : Bytes → String)

def HeldColumn.value (c : HeldColumn) (i : ℕ) : Option Value :=
  match c.data with
  | .null => some .null
  | .bool bits => some (.bool (bits.test i))
  | .int values => values[i]?.map fun n => .num (.int n.1 n.2)
  | .float values => values[i]?.map fun x => .num (.float x)
  | .str strings => (strings.cell i).map fun bytes => .str (fromUtf8Lossy repair bytes)
  | .complex values => values[i]?

/-- The value of a row of a held column, where a null is what it does not have. -/
def HeldColumn.cell (c : HeldColumn) (i : ℕ) : Option Value :=
  if c.validity.any fun v => !v.isValid i then some .null else c.value repair i

def Held.rowsOf (h : Held) : Option (List (List Value)) :=
  (List.range h.rows).mapM fun i => h.columns.mapM fun c => c.cell repair i

/-- The temporal value a count of nanoseconds is in a column of a type. -/
def ColumnType.nanosOf : ColumnType → ℤ → Option Temporal
  | .localTime, n => some (.localTime n)
  | .zonedTime offset, n => some (.zonedTime n offset)
  | .localDatetime, n => some (.localDatetime n)
  | .zonedDatetime offset, n => some (.zonedDatetime n offset)
  | .dayTime, n => some (.duration .dayTime n)
  | _, _ => none

def ColumnData.value (ty : ColumnType) (i : ℕ) : ColumnData → Option Value
  | null => some .null
  | bool bits => some (.bool (bits.test i))
  | int values => values[i]?.map fun n => .num (.int n.1 n.2)
  | float values => values[i]?.map fun x => .num (.float x)
  | str strings => (strings.cell i).map fun bytes => .str (fromUtf8Lossy repair bytes)
  | bytes strings => (strings.cell i).map .bytes
  | days values => values[i]?.map fun n => .temporal (.date n)
  | nanos values => do
      let n ← values[i]?
      let t ← ty.nanosOf n
      return .temporal t
  | months values => values[i]?.map fun n => .temporal (.duration .yearMonth n)
  | complex values => values[i]?

def Column.cell (c : Column) (i : ℕ) : Option Value :=
  if c.validity.any fun v => !v.isValid i then some .null else c.data.value repair c.ty i

end

/-! ### Columns from rows -/

/-- `Fill`, of the walk over rows. -/
inductive RowFill
  | null
  | bool (bits : PackedBits)
  | int (values : List I64)
  | float (values : List Float64)
  | str (bytes : Bytes) (offsets : List ℕ)
  | bytes (bytes : Bytes) (offsets : List ℕ)
  | days (values : List ℤ)
  | nanos (values : List ℤ)
  | months (values : List ℤ)
  | complex (values : List Value)

namespace RowFill

def new (rows : ℕ) : ColumnType → RowFill
  | .null => .null
  | .bool => .bool (List.replicate (PackedBits.bytesFor rows) 0)
  | .int => .int []
  | .float => .float []
  | .bytes => .bytes [] [0]
  | .str => .str [] [0]
  | .date => .days []
  | .yearMonth => .months []
  | .localTime | .zonedTime _ | .localDatetime | .zonedDatetime _ | .dayTime => .nanos []
  | _ => .complex []

/-- The nought of an `i64`. -/
def zero : I64 := ⟨0, by decide⟩

/-- `Fill::push`: the buffer with a row in it, and whether the row has a value. -/
def push (i : ℕ) (v : Value) : RowFill → RowFill × Bool
  | null => (null, false)
  | complex values => (complex (values ++ [v]), !(v matches .null))
  | bool bits =>
      match v with
      | .bool true => (bool (bits.set i), true)
      | .bool false => (bool bits, true)
      | _ => (bool bits, false)
  | int values =>
      match v with
      | .num (.int n h) => (int (values ++ [⟨n, h⟩]), true)
      | _ => (int (values ++ [zero]), false)
  | float values =>
      match v with
      | .num (.float x) => (float (values ++ [x]), true)
      | .num (.int n _) => (float (values ++ [Float64.ofInt n]), true)
      | _ => (float (values ++ [0]), false)
  | str all offsets =>
      match v with
      | .str s => (str (all ++ utf8 s) (offsets ++ [(all ++ utf8 s).length]), true)
      | _ => (str all (offsets ++ [all.length]), false)
  | bytes all offsets =>
      match v with
      | .bytes b => (bytes (all ++ b) (offsets ++ [(all ++ b).length]), true)
      | _ => (bytes all (offsets ++ [all.length]), false)
  | days values =>
      match v with
      | .temporal (.date n) => (days (values ++ [n]), true)
      | _ => (days (values ++ [0]), false)
  | months values =>
      match v with
      | .temporal (.duration .yearMonth n) => (months (values ++ [n]), true)
      | _ => (months (values ++ [0]), false)
  | nanos values =>
      match v with
      | .temporal (.localTime n) => (nanos (values ++ [n]), true)
      | .temporal (.zonedTime n _) => (nanos (values ++ [n]), true)
      | .temporal (.localDatetime n) => (nanos (values ++ [n]), true)
      | .temporal (.zonedDatetime n _) => (nanos (values ++ [n]), true)
      | .temporal (.duration .dayTime n) => (nanos (values ++ [n]), true)
      | _ => (nanos (values ++ [0]), false)

def finish : RowFill → ColumnData
  | null => .null
  | bool bits => .bool bits
  | int values => .int values
  | float values => .float values
  | days values => .days values
  | nanos values => .nanos values
  | months values => .months values
  | complex values => .complex values
  | str all offsets => .str ⟨all, Offsets.narrow all.length offsets⟩
  | bytes all offsets => .bytes ⟨all, Offsets.narrow all.length offsets⟩

end RowFill

/-- What the first pass makes of one value of a column. -/
def settleType (name : String) (row : ℕ) (ty : ColumnType) (v : Value) :
    Except MixedColumn ColumnType :=
  match ColumnType.of v with
  | .error m => .error ⟨name, row, m.held, m.arrived, true⟩
  | .ok found =>
      if ty.same found then .ok ty
      else
        match ty.unify found with
        | some ty => .ok ty
        | none => .error ⟨name, row, ty.name, found.name, false⟩

/-- The first pass over a row. -/
def settleRow (row : ℕ) : List String → List ColumnType → List Value →
    Except MixedColumn (List ColumnType)
  | name :: names, ty :: tys, v :: vs => do
      let ty ← settleType name row ty v
      let tys ← settleRow row names tys vs
      return ty :: tys
  | _, tys, _ => .ok tys

/-- The first pass, from a row on. -/
def settleTypes (names : List String) : ℕ → List ColumnType → List (List Value) →
    Except MixedColumn (List ColumnType)
  | _, tys, [] => .ok tys
  | row, tys, vs :: rows => do
      let tys ← settleRow row names tys vs
      settleTypes names (row + 1) tys rows

/-- What the second pass makes of one value of a column. -/
def fillCell (row : ℕ) (f : RowFill × Option Validity) (v : Value) : RowFill × Option Validity :=
  let (fill, valid) := f.1.push row v
  (fill, f.2.map (·.push valid))

/-- The second pass over a row. -/
def fillRow (row : ℕ) : List (RowFill × Option Validity) → List Value →
    List (RowFill × Option Validity)
  | f :: fs, v :: vs => fillCell row f v :: fillRow row fs vs
  | fs, _ => fs

/-- The second pass, from a row on. -/
def fillRows : ℕ → List (RowFill × Option Validity) → List (List Value) →
    List (RowFill × Option Validity)
  | _, fs, [] => fs
  | row, fs, vs :: rows => fillRows (row + 1) (fillRow row fs vs) rows

/-- What the second pass starts a column of a type with. -/
def RowFill.start (rows : ℕ) (ty : ColumnType) : RowFill × Option Validity :=
  (RowFill.new rows ty, if ty.same .null then none else some (Validity.new rows))

def RowFill.column (rows : ℕ) (name : String) (ty : ColumnType) (f : RowFill × Option Validity) :
    Column :=
  ⟨name, ty, f.1.finish, f.2.filter fun v => decide (0 < v.nulls), rows⟩

/-- `columnar`, of a result whose rows were built. -/
def columnar (names : List String) (rows : List (List Value)) : Except MixedColumn Columns := do
  let tys ← settleTypes names 0 (List.replicate names.length .null) rows
  let fills := fillRows 0 (tys.map (RowFill.start rows.length)) rows
  return ⟨((names.zip tys).zip fills).map fun c =>
    RowFill.column rows.length c.1.1 c.1.2 c.2, rows.length⟩

/-! ### What the columns of rows say -/

namespace Value

def isNull : Value → Bool
  | null => true
  | _ => false

/-- The cell of a value in a column of booleans. -/
def asBool : Value → Bool
  | bool b => b
  | _ => false

/-- The cell of a value in a column of integers. -/
def asInt : Value → I64
  | num (.int n h) => ⟨n, h⟩
  | _ => RowFill.zero

/-- The cell of a value in a column of reals. -/
def asFloat : Value → Float64
  | num (.float x) => x
  | num (.int n _) => Float64.ofInt n
  | _ => 0

/-- The cell of a value in a column of strings. -/
def asText : Value → Bytes
  | str s => utf8 s
  | _ => []

/-- The cell of a value in a column of byte strings. -/
def asBytes : Value → Bytes
  | bytes b => b
  | _ => []

/-- The cell of a value in a column of dates. -/
def asDays : Value → ℤ
  | temporal (.date n) => n
  | _ => 0

/-- The cell of a value in a column of year-month durations. -/
def asMonths : Value → ℤ
  | temporal (.duration .yearMonth n) => n
  | _ => 0

/-- The cell of a value in a column of nanoseconds. -/
def asNanos : Value → ℤ
  | temporal (.localTime n) => n
  | temporal (.zonedTime n _) => n
  | temporal (.localDatetime n) => n
  | temporal (.zonedDatetime n _) => n
  | temporal (.duration .dayTime n) => n
  | _ => 0

theorem isNull_iff {v : Value} : v.isNull = true ↔ v = null := by
  cases v <;> simp [isNull]

end Value

/-- A column of a type takes a value: there is nothing, or the value is of that type. -/
def ColumnType.Takes (ty : ColumnType) (v : Value) : Prop := v = .null ∨ ColumnType.of v = .ok ty

def ColumnType.settled (ty : ColumnType) (vs : List Value) : ColumnType :=
  if vs.all Value.isNull then .null else ty

/-- Where the cells of a column end, one after the other. -/
def ends (cell : Value → Bytes) (vs : List Value) : List ℕ :=
  (List.range (vs.length + 1)).map fun i => ((vs.take i).flatMap cell).length

theorem ends_append (cell : Value → Bytes) (vs : List Value) (v : Value) :
    ends cell (vs ++ [v]) = ends cell vs ++ [((vs ++ [v]).flatMap cell).length] := by
  rw [ends, List.length_append, List.length_singleton, List.range_succ, List.map_append, ends]
  congr 1
  · apply List.map_congr_left
    intro i hi
    rw [List.mem_range] at hi
    rw [List.take_append_of_le_length (Nat.lt_succ_iff.1 hi)]
  · simp

theorem StrColumn.cell_ends (cell : Value → Bytes) {vs : List Value} {offsets : Offsets} {i : ℕ}
    {v : Value} (hoffsets : offsets.items = ends cell vs) (hv : vs[i]? = some v) :
    StrColumn.cell ⟨vs.flatMap cell, offsets⟩ i = some (cell v) := by
  have hi : i < vs.length := (List.getElem?_eq_some_iff.1 hv).1
  have hget : ∀ {j : ℕ}, j ≤ vs.length →
      (ends cell vs)[j]? = some ((vs.take j).flatMap cell).length := by
    intro j hj
    have hj' : j < vs.length + 1 := Nat.lt_succ_of_le hj
    rw [ends, List.getElem?_map, List.getElem?_range hj']
    rfl
  have htake : vs.take (i + 1) = vs.take i ++ [v] := by
    rw [List.take_add_one, hv]
    rfl
  have hsplit : vs.flatMap cell =
      (vs.take (i + 1)).flatMap cell ++ (vs.drop (i + 1)).flatMap cell := by
    rw [← List.flatMap_append, List.take_append_drop]
  rw [StrColumn.cell, hoffsets, hget (Nat.le_of_lt hi), hget hi]
  simp only [Option.bind_eq_bind, Option.bind_some, Option.pure_def]
  rw [hsplit, List.take_left, htake, List.flatMap_append, List.drop_left]
  simp

@[simp] theorem Offsets.items_narrow (bytes : ℕ) (offsets : List ℕ) :
    (Offsets.narrow bytes offsets).items = offsets := by
  rw [narrow]
  split <;> rfl

namespace ColumnType

mutual

@[simp] theorem same_self : (ty : ColumnType) → same ty ty = true
  | list items => by simpa [same] using same_self items
  | record fields => by simpa [same] using sameFields_self fields
  | null | bool | int | float | decimal _ | str | bytes | date | localTime | zonedTime _
  | localDatetime | zonedDatetime _ | yearMonth | dayTime | node | rel | path | graph
  | bindingTable => by simp [same]

theorem sameFields_self : (fields : List (String × ColumnType)) → sameFields fields fields = true
  | [] => by simp [sameFields]
  | f :: fs => by simp [sameFields, same_self f.2, sameFields_self fs]

end

theorem same_null (ty : ColumnType) : same ty null = true ↔ ty = null := by
  cases ty <;> simp [same]

@[simp] theorem unify_null_left (ty : ColumnType) : unify null ty = some ty := by
  simp [unify]

@[simp] theorem unify_null_right (ty : ColumnType) : unify ty null = some ty := by
  cases ty <;> simp [unify]

@[simp] theorem of_null : ColumnType.of .null = .ok null := by
  simp [ColumnType.of]

theorem Takes.settle {ty : ColumnType} {v : Value} (h : ty.Takes v) (name : String) (row : ℕ)
    (vs : List Value) :
    settleType name row (ty.settled vs) v = .ok (ty.settled (vs ++ [v])) := by
  obtain rfl | h := h
  · have hsettled : ty.settled (vs ++ [.null]) = ty.settled vs := by
      simp [settled, Value.isNull]
    rw [settleType, of_null, hsettled]
    dsimp only
    split
    · rfl
    · rw [unify_null_right]
  · rw [settleType, h]
    dsimp only
    by_cases hall : vs.all Value.isNull
    · have hbefore : ty.settled vs = null := if_pos hall
      rw [hbefore]
      by_cases hv : v.isNull
      · have hnull := Value.isNull_iff.1 hv
        subst hnull
        rw [of_null] at h
        cases h
        simp [settled]
      · have hafter : ty.settled (vs ++ [v]) = ty := by simp [settled, hv]
        rw [hafter, unify_null_left]
        split
        · rename_i hsame
          cases ty <;> simp [same] at hsame ⊢
        · rfl
    · have hbefore : ty.settled vs = ty := if_neg hall
      have hafter : ty.settled (vs ++ [v]) = ty := by
        rw [settled, List.all_append]
        simp [hall]
      rw [hbefore, hafter, same_self, if_pos rfl]

end ColumnType

/-- The buffer of a column of a type has the cells of the values before it. -/
inductive RowFill.Holds (rows : ℕ) (vs : List Value) : ColumnType → RowFill → Prop
  | null : Holds rows vs .null .null
  | bool {bits : PackedBits} (hlength : bits.length = PackedBits.bytesFor rows)
      (hbits : ∀ i, bits.test i = (vs[i]?).any Value.asBool) : Holds rows vs .bool (.bool bits)
  | int : Holds rows vs .int (.int (vs.map Value.asInt))
  | float : Holds rows vs .float (.float (vs.map Value.asFloat))
  | str : Holds rows vs .str (.str (vs.flatMap Value.asText) (ends Value.asText vs))
  | bytes : Holds rows vs .bytes (.bytes (vs.flatMap Value.asBytes) (ends Value.asBytes vs))
  | date : Holds rows vs .date (.days (vs.map Value.asDays))
  | yearMonth : Holds rows vs .yearMonth (.months (vs.map Value.asMonths))
  | localTime : Holds rows vs .localTime (.nanos (vs.map Value.asNanos))
  | zonedTime {offset : ℤ} : Holds rows vs (.zonedTime offset) (.nanos (vs.map Value.asNanos))
  | localDatetime : Holds rows vs .localDatetime (.nanos (vs.map Value.asNanos))
  | zonedDatetime {offset : ℤ} :
      Holds rows vs (.zonedDatetime offset) (.nanos (vs.map Value.asNanos))
  | dayTime : Holds rows vs .dayTime (.nanos (vs.map Value.asNanos))
  | complex {ty : ColumnType} (hty : RowFill.new rows ty = .complex []) :
      Holds rows vs ty (.complex vs)

theorem RowFill.new_holds (rows : ℕ) (ty : ColumnType) : Holds rows [] ty (RowFill.new rows ty) := by
  cases ty with
  | bool =>
      apply Holds.bool (List.length_replicate ..)
      intro i
      rw [PackedBits.test_eq, List.getD_eq_getElem?_getD, List.getElem?_replicate]
      split <;> simp
  | null => exact .null
  | int => exact .int
  | float => exact .float
  | str => exact .str
  | bytes => exact .bytes
  | date => exact .date
  | yearMonth => exact .yearMonth
  | localTime => exact .localTime
  | zonedTime => exact .zonedTime
  | localDatetime => exact .localDatetime
  | zonedDatetime => exact .zonedDatetime
  | dayTime => exact .dayTime
  | decimal | node | rel | path | list | record | graph | bindingTable => exact .complex rfl

theorem RowFill.Holds.push {rows : ℕ} {vs : List Value} {ty : ColumnType} {fill : RowFill}
    (h : Holds rows vs ty fill) (hroom : vs.length < rows) (v : Value) :
    Holds rows (vs ++ [v]) ty (fill.push vs.length v).1 := by
  have hmap : ∀ {α : Type} (cell : Value → α), (vs ++ [v]).map cell = vs.map cell ++ [cell v] :=
    fun cell => by rw [List.map_append, List.map_singleton]
  have hflat : ∀ (cell : Value → Bytes),
      (vs ++ [v]).flatMap cell = vs.flatMap cell ++ cell v :=
    fun cell => by rw [List.flatMap_append, List.flatMap_singleton]
  cases h with
  | null => exact .null
  | complex hty => exact .complex hty
  | @bool bits hlength hbits =>
      have hbyte : vs.length / 8 < bits.length := by
        rw [hlength]
        exact PackedBits.div_lt_bytesFor hroom
      have hold : ∀ i, (i < vs.length ∨ vs.length < i) →
          ((vs ++ [v])[i]?).any Value.asBool = (vs[i]?).any Value.asBool := by
        intro i hi
        obtain hi | hi := hi
        · rw [List.getElem?_append_left hi]
        · have hlen : (vs ++ [v]).length ≤ i := by simpa using Nat.succ_le_of_lt hi
          rw [List.getElem?_eq_none hlen, List.getElem?_eq_none (Nat.le_of_lt hi)]
      have hkeep : v.asBool = false →
          Holds rows (vs ++ [v]) .bool (.bool bits) := by
        intro hv
        apply Holds.bool hlength
        intro i
        rw [hbits]
        obtain hlt | rfl | hgt := Nat.lt_trichotomy i vs.length
        · rw [hold i (.inl hlt)]
        · simp [hv]
        · rw [hold i (.inr hgt)]
      cases v with
      | bool b =>
          cases b with
          | false => exact hkeep rfl
          | true =>
              apply Holds.bool (PackedBits.length_set.trans hlength)
              intro i
              rw [PackedBits.test_set hbyte, hbits]
              obtain hlt | rfl | hgt := Nat.lt_trichotomy i vs.length
              · rw [hold i (.inl hlt)]
                simp [Nat.ne_of_lt hlt]
              · simp [Value.asBool]
              · rw [hold i (.inr hgt)]
                simp [Nat.ne_of_gt hgt]
      | _ => exact hkeep rfl
  | int =>
      have hpush : ((RowFill.int (vs.map Value.asInt)).push vs.length v).1 =
          RowFill.int ((vs ++ [v]).map Value.asInt) := by
        rw [hmap]
        fun_cases Value.asInt v <;> simp_all [RowFill.push]
      rw [hpush]
      exact .int
  | float =>
      have hpush : ((RowFill.float (vs.map Value.asFloat)).push vs.length v).1 =
          RowFill.float ((vs ++ [v]).map Value.asFloat) := by
        rw [hmap]
        fun_cases Value.asFloat v <;> simp_all [RowFill.push]
      rw [hpush]
      exact .float
  | str =>
      have hpush : ((RowFill.str (vs.flatMap Value.asText) (ends Value.asText vs)).push vs.length v).1 =
          RowFill.str ((vs ++ [v]).flatMap Value.asText) (ends Value.asText (vs ++ [v])) := by
        rw [ends_append, hflat]
        fun_cases Value.asText v <;> simp_all [RowFill.push]
      rw [hpush]
      exact .str
  | bytes =>
      have hpush : ((RowFill.bytes (vs.flatMap Value.asBytes) (ends Value.asBytes vs)).push
          vs.length v).1 = RowFill.bytes ((vs ++ [v]).flatMap Value.asBytes)
            (ends Value.asBytes (vs ++ [v])) := by
        rw [ends_append, hflat]
        fun_cases Value.asBytes v <;> simp_all [RowFill.push]
      rw [hpush]
      exact .bytes
  | date =>
      have hpush : ((RowFill.days (vs.map Value.asDays)).push vs.length v).1 =
          RowFill.days ((vs ++ [v]).map Value.asDays) := by
        rw [hmap]
        fun_cases Value.asDays v <;> simp_all [RowFill.push]
      rw [hpush]
      exact .date
  | yearMonth =>
      have hpush : ((RowFill.months (vs.map Value.asMonths)).push vs.length v).1 =
          RowFill.months ((vs ++ [v]).map Value.asMonths) := by
        rw [hmap]
        fun_cases Value.asMonths v <;> simp_all [RowFill.push]
      rw [hpush]
      exact .yearMonth
  | localTime | zonedTime | localDatetime | zonedDatetime | dayTime =>
      have hpush : ((RowFill.nanos (vs.map Value.asNanos)).push vs.length v).1 =
          RowFill.nanos ((vs ++ [v]).map Value.asNanos) := by
        rw [hmap]
        fun_cases Value.asNanos v <;> simp_all [RowFill.push]
      rw [hpush]
      constructor

/-- What a value of a type is, of the types a buffer is laid out for. -/
def ColumnType.Shape : ColumnType → Value → Prop
  | .null, v => v = .null
  | .bool, v => ∃ b, v = .bool b
  | .int, v => ∃ n h, v = .num (.int n h)
  | .float, v => ∃ x, v = .num (.float x)
  | .str, v => ∃ s, v = .str s
  | .bytes, v => ∃ b, v = .bytes b
  | .date, v => ∃ n, v = .temporal (.date n)
  | .yearMonth, v => ∃ n, v = .temporal (.duration .yearMonth n)
  | .localTime, v => ∃ n, v = .temporal (.localTime n)
  | .zonedTime offset, v => ∃ n, v = .temporal (.zonedTime n offset)
  | .localDatetime, v => ∃ n, v = .temporal (.localDatetime n)
  | .zonedDatetime offset, v => ∃ n, v = .temporal (.zonedDatetime n offset)
  | .dayTime, v => ∃ n, v = .temporal (.duration .dayTime n)
  | _, _ => True

theorem ColumnType.shape_of {ty : ColumnType} {v : Value} (h : ColumnType.of v = .ok ty) :
    ty.Shape v := by
  cases v with
  | list items =>
      rw [ColumnType.of] at h
      cases hitems : ColumnType.ofItems .null items with
      | error m => simp [hitems, Bind.bind, Except.bind] at h
      | ok found =>
          simp only [hitems, Bind.bind, Except.bind, Except.pure, Pure.pure, Except.ok.injEq] at h
          subst h
          trivial
  | record fields =>
      rw [ColumnType.of] at h
      cases hfields : ColumnType.ofFields fields with
      | error m => simp [hfields, Bind.bind, Except.bind] at h
      | ok found =>
          simp only [hfields, Bind.bind, Except.bind, Except.pure, Pure.pure, Except.ok.injEq] at h
          subst h
          trivial
  | num n =>
      cases n with
      | int n hn =>
          cases h
          exact ⟨n, hn, rfl⟩
      | _ => cases h; simp [Shape]
  | temporal t =>
      cases t with
      | duration kind n => cases kind <;> (cases h; exact ⟨n, rfl⟩)
      | _ => cases h; simp [Shape]
  | _ => cases h; simp [Shape]

theorem RowFill.Holds.push_there {rows : ℕ} {vs : List Value} {ty : ColumnType} {fill : RowFill}
    (h : Holds rows vs ty fill) (i : ℕ) {v : Value} (htakes : ty.Takes v) :
    (fill.push i v).2 = !v.isNull := by
  obtain rfl | hof := htakes
  · cases h <;> rfl
  · have hshape := ColumnType.shape_of hof
    cases h with
    | null =>
        obtain rfl := hshape
        rfl
    | bool =>
        obtain ⟨b, rfl⟩ := hshape
        cases b <;> rfl
    | int =>
        obtain ⟨n, hn, rfl⟩ := hshape
        rfl
    | complex => cases v <;> rfl
    | _ =>
        obtain ⟨b, rfl⟩ := hshape
        rfl

theorem RowFill.Holds.finish_value (repair : Bytes → String) {rows : ℕ} {vs : List Value}
    {ty : ColumnType} {fill : RowFill} (h : Holds rows vs ty fill) {i : ℕ} {v : Value}
    (hv : vs[i]? = some v) (hof : ColumnType.of v = .ok ty) :
    fill.finish.value repair ty i = some v := by
  have hshape := ColumnType.shape_of hof
  cases h with
  | null =>
      obtain rfl := hshape
      rfl
  | bool hlength hbits =>
      obtain ⟨b, rfl⟩ := hshape
      simp [RowFill.finish, ColumnData.value, hbits, hv, Value.asBool]
  | int =>
      obtain ⟨n, hn, rfl⟩ := hshape
      simp [RowFill.finish, ColumnData.value, hv, Value.asInt]
  | float =>
      obtain ⟨x, rfl⟩ := hshape
      simp [RowFill.finish, ColumnData.value, hv, Value.asFloat]
  | str =>
      obtain ⟨s, rfl⟩ := hshape
      rw [RowFill.finish, ColumnData.value,
        StrColumn.cell_ends Value.asText (Offsets.items_narrow ..) hv]
      simp [Value.asText, fromUtf8Lossy, ofUtf8_utf8]
  | bytes =>
      obtain ⟨b, rfl⟩ := hshape
      rw [RowFill.finish, ColumnData.value,
        StrColumn.cell_ends Value.asBytes (Offsets.items_narrow ..) hv]
      rfl
  | date =>
      obtain ⟨n, rfl⟩ := hshape
      simp [RowFill.finish, ColumnData.value, hv, Value.asDays]
  | yearMonth =>
      obtain ⟨n, rfl⟩ := hshape
      simp [RowFill.finish, ColumnData.value, hv, Value.asMonths]
  | localTime | zonedTime | localDatetime | zonedDatetime | dayTime =>
      obtain ⟨n, rfl⟩ := hshape
      simp [RowFill.finish, ColumnData.value, hv, Value.asNanos, ColumnType.nanosOf]
  | complex => exact hv

/-! ### Validity -/

/-- A validity has a bit for each value before it, and counts those that are not there. -/
structure Validity.Holds (rows : ℕ) (vs : List Value) (v : Validity) : Prop where
  length : v.bits.length = PackedBits.bytesFor rows
  len : v.len = vs.length
  nulls : v.nulls = vs.countP Value.isNull
  bits : ∀ i < rows, v.bits.test i = (vs[i]?).all fun u => !u.isNull

theorem Validity.new_holds (rows : ℕ) : Holds rows [] (Validity.new rows) where
  length := List.length_replicate ..
  len := rfl
  nulls := rfl
  bits := fun i hi => by
    have hbyte := PackedBits.div_lt_bytesFor hi
    have hones : ∀ j < 8, (0xff#8 : BitVec 8).getLsbD j = true := by decide
    rw [Validity.new, PackedBits.test_eq, List.getD_eq_getElem?_getD, List.getElem?_replicate,
      if_pos hbyte, Option.getD_some, hones _ (Nat.mod_lt i (by decide))]
    rfl

theorem Validity.Holds.push {rows : ℕ} {vs : List Value} {valid : Validity}
    (h : Holds rows vs valid) (hroom : vs.length < rows) (v : Value) :
    Holds rows (vs ++ [v]) (valid.push !v.isNull) := by
  have hbyte : valid.len / 8 < valid.bits.length := by
    rw [h.len, h.length]
    exact PackedBits.div_lt_bytesFor hroom
  have hold : ∀ i, i ≠ vs.length → (vs ++ [v])[i]? = vs[i]? := by
    intro i hi
    obtain hi | hi := Nat.lt_or_gt_of_ne hi
    · exact List.getElem?_append_left hi
    · have hlen : (vs ++ [v]).length ≤ i := by simpa using Nat.succ_le_of_lt hi
      rw [List.getElem?_eq_none hlen, List.getElem?_eq_none (Nat.le_of_lt hi)]
  cases hv : v.isNull with
  | false =>
      refine ⟨h.length, by simp [Validity.push, h.len], by simp [Validity.push, h.nulls, hv],
        fun i hi => ?_⟩
      change valid.bits.test i = _
      rw [h.bits i hi]
      by_cases hi' : i = vs.length
      · simp [hi', hv]
      · rw [hold i hi']
  | true =>
      refine ⟨PackedBits.length_clear.trans h.length, by simp [Validity.push, h.len],
        by simp [Validity.push, h.nulls, hv], fun i hi => ?_⟩
      change (valid.bits.clear valid.len).test i = _
      rw [PackedBits.test_clear hbyte, h.bits i hi, h.len]
      by_cases hi' : i = vs.length
      · simp [hi', hv]
      · simp [hold i hi', hi']

/-! ### The columns of rows -/

/-- A column of a name and a type says of each row what the values of the rows are. -/
structure Column.Says (repair : Bytes → String) (name : String) (ty : ColumnType)
    (vs : List Value) (c : Column) : Prop where
  name : c.name = name
  ty : c.ty = ty
  len : c.len = vs.length
  cells : ∀ i v, vs[i]? = some v → c.cell repair i = some v

/-- The second pass over one column, from a row on. -/
def fillColumn : ℕ → RowFill × Option Validity → List Value → RowFill × Option Validity
  | _, f, [] => f
  | row, f, v :: vs => fillColumn (row + 1) (fillCell row f v) vs

/-- What the second pass has of a column: its buffer, and its validity unless it is of nulls. -/
structure RowFill.Sound (rows : ℕ) (ty : ColumnType) (vs : List Value)
    (f : RowFill × Option Validity) : Prop where
  fill : RowFill.Holds rows vs ty f.1
  none : ty = .null → f.2 = none
  some : ty ≠ .null → ∃ valid, f.2 = some valid ∧ valid.Holds rows vs

theorem RowFill.start_sound (rows : ℕ) (ty : ColumnType) :
    Sound rows ty [] (RowFill.start rows ty) where
  fill := RowFill.new_holds rows ty
  none := by
    rintro rfl
    rfl
  some := fun hty => by
    have hsame : ¬ ty.same .null = true := fun h => hty ((ColumnType.same_null ty).1 h)
    exact ⟨Validity.new rows, if_neg hsame, Validity.new_holds rows⟩

theorem RowFill.Sound.cell {rows : ℕ} {ty : ColumnType} {vs : List Value}
    {f : RowFill × Option Validity} (h : Sound rows ty vs f) (hroom : vs.length < rows)
    {v : Value} (htakes : ty.Takes v) : Sound rows ty (vs ++ [v]) (fillCell vs.length f v) where
  fill := h.fill.push hroom v
  none := fun hty => by
    change Option.map (·.push (f.1.push vs.length v).2) f.2 = Option.none
    rw [h.none hty, Option.map_none]
  some := fun hty => by
    obtain ⟨valid, hvalid, hholds⟩ := h.some hty
    have hthere := h.fill.push_there vs.length htakes
    refine ⟨valid.push !v.isNull, ?_, hholds.push hroom v⟩
    change Option.map (·.push (f.1.push vs.length v).2) f.2 = Option.some _
    rw [hthere, hvalid, Option.map_some]

theorem RowFill.Sound.column {rows : ℕ} {ty : ColumnType} (vs : List Value)
    {f : RowFill × Option Validity} {before : List Value} (h : Sound rows ty before f)
    (hroom : before.length + vs.length = rows) (htakes : ∀ v ∈ vs, ty.Takes v) :
    Sound rows ty (before ++ vs) (fillColumn before.length f vs) := by
  induction vs generalizing before f with
  | nil =>
      rw [List.append_nil]
      exact h
  | cons v vs ih =>
      rw [List.length_cons] at hroom
      have hcell := h.cell (by omega) (htakes v List.mem_cons_self)
      have hlen : (before ++ [v]).length = before.length + 1 := by simp
      have hrest := ih hcell (by rw [hlen]; omega) fun u hu => htakes u (List.mem_cons_of_mem v hu)
      rw [hlen, List.append_assoc] at hrest
      exact hrest

theorem ColumnType.Takes.settled {ty : ColumnType} {vs : List Value} (h : ∀ v ∈ vs, ty.Takes v) :
    ∀ v ∈ vs, (ty.settled vs).Takes v := by
  intro v hv
  by_cases hall : vs.all Value.isNull
  · exact .inl (Value.isNull_iff.1 (List.all_eq_true.1 hall v hv))
  · rw [ColumnType.settled, if_neg hall]
    exact h v hv

theorem RowFill.Sound.says (repair : Bytes → String) {ty : ColumnType} {vs : List Value}
    {f : RowFill × Option Validity} (h : Sound vs.length ty vs f) (name : String)
    (htakes : ∀ v ∈ vs, ty.Takes v) :
    (RowFill.column vs.length name ty f).Says repair name ty vs where
  name := rfl
  ty := rfl
  len := rfl
  cells := fun i v hv => by
    have hi : i < vs.length := (List.getElem?_eq_some_iff.1 hv).1
    have hmem : v ∈ vs := List.mem_of_getElem? hv
    have hvalue : ColumnType.of v = .ok ty → f.1.finish.value repair ty i = Option.some v :=
      h.fill.finish_value repair hv
    by_cases hty : ty = .null
    · subst hty
      have hnull : v = .null := (htakes v hmem).elim id ColumnType.shape_of
      subst hnull
      simp only [Column.cell, RowFill.column, h.none rfl, Option.filter_none, Option.any_none]
      exact hvalue ColumnType.of_null
    · obtain ⟨valid, hvalid, hholds⟩ := h.some hty
      have hbit : valid.isValid i = !v.isNull := by
        rw [Validity.isValid, hholds.bits i hi, hv]
        rfl
      have hcount : v.isNull = true → 0 < valid.nulls := by
        intro hnull
        rw [hholds.nulls]
        exact List.countP_pos_iff.2 ⟨v, hmem, hnull⟩
      simp only [Column.cell, RowFill.column, hvalid, Option.filter_some]
      cases hnull : v.isNull with
      | true =>
          obtain rfl := Value.isNull_iff.1 hnull
          simp [hcount rfl, hbit, Value.isNull]
      | false =>
          have hof : ColumnType.of v = .ok ty := by
            refine (htakes v hmem).resolve_left fun hv' => ?_
            rw [Value.isNull_iff.2 hv'] at hnull
            cases hnull
          by_cases hpos : 0 < valid.nulls
          · simp [hpos, hbit, hnull, hvalue hof]
          · simp [hpos, hvalue hof]

section

variable {ι π : Type} (f : ι → π → Value) (T : ι → ColumnType)

theorem settleRow_takes (row : ℕ) {names : List String} {items : List ι}
    (hlen : names.length = items.length) (before : List π) {p : π}
    (htakes : ∀ r ∈ items, (T r).Takes (f r p)) :
    settleRow row names (items.map fun r => (T r).settled (before.map (f r)))
        (items.map fun r => f r p) =
      .ok (items.map fun r => (T r).settled ((before ++ [p]).map (f r))) := by
  induction items generalizing names with
  | nil => cases names <;> rfl
  | cons r items ih =>
      cases names with
      | nil => cases hlen
      | cons name names =>
          have hrest := ih (Nat.succ.inj hlen) fun r' hr' => htakes r' (List.mem_cons_of_mem r hr')
          have hsettle := (htakes r List.mem_cons_self).settle name row (before.map (f r))
          simp only [List.map_append, List.map_singleton] at hrest
          simp only [List.map_cons, settleRow, hsettle, List.map_append, List.map_nil, hrest]
          rfl

theorem settleTypes_takes {names : List String} {items : List ι}
    (hlen : names.length = items.length) (row : ℕ) (before : List π) {ps : List π}
    (htakes : ∀ r ∈ items, ∀ p ∈ ps, (T r).Takes (f r p)) :
    settleTypes names row (items.map fun r => (T r).settled (before.map (f r)))
        (ps.map fun p => items.map fun r => f r p) =
      .ok (items.map fun r => (T r).settled ((before ++ ps).map (f r))) := by
  induction ps generalizing row before with
  | nil =>
      rw [List.append_nil]
      rfl
  | cons p ps ih =>
      have hrow := settleRow_takes f T row hlen before fun r hr => htakes r hr p List.mem_cons_self
      have hrest := ih (row + 1) (before ++ [p]) fun r hr q hq =>
        htakes r hr q (List.mem_cons_of_mem p hq)
      rw [List.append_assoc] at hrest
      rw [List.map_cons, settleTypes, hrow]
      exact hrest

theorem fillRow_map (row : ℕ) (items : List ι) (st : ι → RowFill × Option Validity) (p : π) :
    fillRow row (items.map st) (items.map fun r => f r p) =
      items.map fun r => fillCell row (st r) (f r p) := by
  induction items with
  | nil => rfl
  | cons r items ih => simp only [List.map_cons, fillRow, ih]

theorem fillRows_map (row : ℕ) (items : List ι) (st : ι → RowFill × Option Validity)
    (ps : List π) :
    fillRows row (items.map st) (ps.map fun p => items.map fun r => f r p) =
      items.map fun r => fillColumn row (st r) (ps.map (f r)) := by
  induction ps generalizing row st with
  | nil => rfl
  | cons p ps ih =>
      rw [List.map_cons, fillRows, fillRow_map, ih]
      rfl

theorem zip_map_map (names : List String) (items : List ι) {α β γ : Type} (g : ι → α) (k : ι → β)
    (c : (String × α) × β → γ) :
    (((names.zip (items.map g)).zip (items.map k)).map c) =
      (names.zip items).map fun e => c ((e.1, g e.2), k e.2) := by
  induction items generalizing names with
  | nil => simp
  | cons r items ih =>
      cases names with
      | nil => rfl
      | cons name names => simp [ih]

/-- The columns built from rows say what the rows do, each of the type its values settle on. -/
theorem columnar_takes (repair : Bytes → String) {names : List String} {items : List ι}
    (hlen : names.length = items.length) {ps : List π}
    (htakes : ∀ r ∈ items, ∀ p ∈ ps, (T r).Takes (f r p)) :
    ∃ cols, columnar names (ps.map fun p => items.map fun r => f r p) = .ok cols ∧
      cols.rows = ps.length ∧
      List.Forall₂ (fun e c => Column.Says repair e.1 ((T e.2).settled (ps.map (f e.2)))
        (ps.map (f e.2)) c) (names.zip items) cols.columns := by
  have hstart : List.replicate names.length ColumnType.null =
      items.map fun r => (T r).settled ([].map (f r)) := by
    rw [hlen]
    exact (List.map_const' ..).symm
  have htypes := settleTypes_takes f T hlen 0 [] htakes
  rw [← hstart, List.nil_append] at htypes
  have hrows : (ps.map fun p => items.map fun r => f r p).length = ps.length := List.length_map _
  refine ⟨_, by rw [columnar, htypes]; rfl, hrows, ?_⟩
  dsimp only
  rw [hrows, List.map_map, fillRows_map, zip_map_map]
  rw [List.forall₂_map_right_iff, List.forall₂_same]
  intro e he
  have htake : ∀ v ∈ ps.map (f e.2), (T e.2).Takes v := by
    intro v hv
    obtain ⟨p, hp, rfl⟩ := List.mem_map.1 hv
    exact htakes e.2 (List.of_mem_zip he).2 p hp
  have hlength : (ps.map (f e.2)).length = ps.length := List.length_map _
  have hsound := (RowFill.start_sound ps.length ((T e.2).settled (ps.map (f e.2)))).column
    (ps.map (f e.2)) (by simp) (ColumnType.Takes.settled htake)
  rw [List.nil_append, ← hlength] at hsound
  have hsays := hsound.says repair e.1 (ColumnType.Takes.settled htake)
  rw [hlength] at hsays
  exact hsays

end

end Zu.Query
