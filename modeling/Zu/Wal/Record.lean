import Zu.Common.Error
import Zu.Lib.Codec

/-!
# Log records

The logical redo records of `WalRecord`, the payload each is written as, and the
reader that parses a payload back. A count is written as 32 bits, so a list
longer than that is written under a count it does not have; `WalRecord.Fits`
says a record's counts are what its lists hold, and such a record is read back
as it was written.
-/

namespace Zu

namespace Wal

open Lib

/-- The error of a payload that does not parse. -/
def corrupt (detail : String) : ZuError := .corrupt "wal record" detail

/-- Row-ordered values for one logged column. -/
inductive WalValues
  | int (words : List UInt64)
  | str (strs : List Bytes)
  /-- This many absences in a row. -/
  | null (count : UInt32)
  deriving DecidableEq, Repr

/-- One logged column: its position in the table's props directory and its
values. -/
structure WalColumn where
  col : UInt32
  values : WalValues
  deriving DecidableEq, Repr

/-- One logical redo record. -/
inductive WalRecord
  | txnBegin
  | nodeInsert (table : UInt32) (cols : List WalColumn)
  | relInsert (rel : UInt32) (src dst : List UInt64) (cols : List WalColumn)
  | update (table : UInt32) (group : UInt64) (col : UInt32) (offsets : List UInt64)
      (values : WalValues)
  | delete (table : UInt32) (ids : List UInt64)
  | ddlCatalog (delta : Bytes)
  | txnCommit
  | ingestRef (table : UInt32) (ptrs : List UInt64)
  | checkpointNote
  | relDelete (rel : UInt32) (src dst : List UInt64)
  | relUpdate (rel col : UInt32) (src dst : List UInt64) (values : WalValues)
  | labelUpdate (table : UInt32) (offsets : List UInt64) (add remove : UInt64)
  deriving DecidableEq, Repr

def kindCheckpointNote : ℕ := 9

/-- A 32-bit field; a longer number loses its high bits. -/
def putU32 (n : ℕ) : Bytes := leBytes 4 n

def putU64 (x : UInt64) : Bytes := leBytes 8 x.toNat

def putU64s (v : List UInt64) : Bytes := v.flatMap putU64

namespace WalValues

/-- How many rows the values run over. -/
def len : WalValues → ℕ
  | int v => v.length
  | str v => v.length
  | null n => n.toNat

def encode : WalValues → Bytes
  | int v => [0] ++ putU32 v.length ++ putU64s v
  | str v => [1] ++ putU32 v.length ++ v.flatMap fun s => putU32 s.length ++ s
  | null n => [2] ++ putU32 n.toNat

end WalValues

def WalColumn.encode (c : WalColumn) : Bytes :=
  putU32 c.col.toNat ++ c.values.encode

namespace WalRecord

/-- The byte that names a record's kind. -/
def kind : WalRecord → ℕ
  | txnBegin => 1
  | nodeInsert .. => 2
  | relInsert .. => 3
  | update .. => 4
  | delete .. => 5
  | ddlCatalog _ => 6
  | txnCommit => 7
  | ingestRef .. => 8
  | checkpointNote => kindCheckpointNote
  | relDelete .. => 10
  | relUpdate .. => 11
  | labelUpdate .. => 12

def encodePayload : WalRecord → Bytes
  | txnBegin | txnCommit | checkpointNote => []
  | nodeInsert table cols =>
      putU32 table.toNat ++ putU32 cols.length ++ cols.flatMap WalColumn.encode
  | relInsert rel src dst cols =>
      putU32 rel.toNat ++ putU32 src.length ++ putU64s src ++ putU64s dst ++
        putU32 cols.length ++ cols.flatMap WalColumn.encode
  | update table group col offsets values =>
      putU32 table.toNat ++ putU64 group ++ putU32 col.toNat ++
        putU32 offsets.length ++ putU64s offsets ++ values.encode
  | delete table ids => putU32 table.toNat ++ putU32 ids.length ++ putU64s ids
  | ddlCatalog delta => delta
  | ingestRef table ptrs => putU32 table.toNat ++ putU32 ptrs.length ++ putU64s ptrs
  | relDelete rel src dst =>
      putU32 rel.toNat ++ putU32 src.length ++ putU64s src ++ putU64s dst
  | relUpdate rel col src dst values =>
      putU32 rel.toNat ++ putU32 col.toNat ++ putU32 src.length ++ putU64s src ++
        putU64s dst ++ values.encode
  | labelUpdate table offsets add remove =>
      putU32 table.toNat ++ putU64 add ++ putU64 remove ++
        putU32 offsets.length ++ putU64s offsets

end WalRecord

/-- A reader over one frame body. -/
abbrev PayloadReader := Reader ZuError

/-- The next `len` bytes. -/
def readBytes (len : ℕ) : PayloadReader Bytes := fun bs =>
  if bs.length < len then
    .error (corrupt s!"payload wants {len} bytes with {bs.length} left")
  else .ok (bs.take len, bs.drop len)

def readU8 : PayloadReader ℕ := do return fromLe (← readBytes 1)

def readU32 : PayloadReader ℕ := do return fromLe (← readBytes 4)

def readU64 : PayloadReader UInt64 := do
  return UInt64.ofNat (fromLe (← readBytes 8))

def readU64s (count : ℕ) : PayloadReader (List UInt64) := readN readU64 count

/-- A length and that many bytes. -/
def readStr : PayloadReader Bytes := do readBytes (← readU32)

def WalValues.decode : PayloadReader WalValues := do
  let tag ← readU8
  let count ← readU32
  match tag with
  | 0 => return .int (← readU64s count)
  | 1 => return .str (← readN readStr count)
  | 2 => return .null (UInt32.ofNat count)
  | other => throw (corrupt s!"unknown value tag {other}")

def WalColumn.decode : PayloadReader WalColumn := do
  let col ← readU32
  let values ← WalValues.decode
  return { col := UInt32.ofNat col, values }

/-- A column of a rel insert carries one value for each edge. -/
def WalColumn.decodeFor (count : ℕ) : PayloadReader WalColumn := do
  let col ← readU32
  let values ← WalValues.decode
  if values.len ≠ count then
    throw (corrupt
      s!"rel insert carries {count} edges but {values.len} values for column {col}")
  return { col := UInt32.ofNat col, values }

/-- A word in the hexadecimal of an error text. -/
def hex (x : UInt64) : String := "0x" ++ String.ofList (Nat.toDigits 16 x.toNat)

namespace WalRecord

def decodeFields (kind : ℕ) : PayloadReader WalRecord :=
  match kind with
  | 1 => return txnBegin
  | 2 => do
      let table ← readU32
      let colCount ← readU32
      let cols ← readN WalColumn.decode colCount
      return nodeInsert (UInt32.ofNat table) cols
  | 3 => do
      let rel ← readU32
      let count ← readU32
      let src ← readU64s count
      let dst ← readU64s count
      let colCount ← readU32
      let cols ← readN (WalColumn.decodeFor count) colCount
      return relInsert (UInt32.ofNat rel) src dst cols
  | 4 => do
      let table ← readU32
      let group ← readU64
      let col ← readU32
      let count ← readU32
      let offsets ← readU64s count
      let values ← WalValues.decode
      if values.len ≠ offsets.length then
        throw (corrupt
          s!"update carries {offsets.length} offsets but {values.len} values")
      return update (UInt32.ofNat table) group (UInt32.ofNat col) offsets values
  | 5 => do
      let table ← readU32
      let count ← readU32
      return delete (UInt32.ofNat table) (← readU64s count)
  | 6 => fun bs => .ok (ddlCatalog bs, [])
  | 7 => return txnCommit
  | 8 => do
      let table ← readU32
      let count ← readU32
      return ingestRef (UInt32.ofNat table) (← readU64s count)
  | 9 => return checkpointNote
  | 10 => do
      let rel ← readU32
      let count ← readU32
      let src ← readU64s count
      let dst ← readU64s count
      return relDelete (UInt32.ofNat rel) src dst
  | 11 => do
      let rel ← readU32
      let col ← readU32
      let count ← readU32
      let src ← readU64s count
      let dst ← readU64s count
      let values ← WalValues.decode
      if values.len ≠ count then
        throw (corrupt
          s!"rel update names {count} edges but carries {values.len} values")
      return relUpdate (UInt32.ofNat rel) (UInt32.ofNat col) src dst values
  | 12 => do
      let table ← readU32
      let add ← readU64
      let remove ← readU64
      let count ← readU32
      if add &&& remove ≠ 0 then
        throw (corrupt s!"label update both sets and clears {hex (add &&& remove)}")
      return labelUpdate (UInt32.ofNat table) (← readU64s count) add remove
  | other => throw (corrupt s!"unknown record kind {other}")

/-- Nothing may follow the fields. The text counts what is left once `rest` has
been taken, which is always nothing. -/
def decode (kind : ℕ) : PayloadReader WalRecord := do
  let rec_ ← decodeFields kind
  let rest ← get
  set ([] : Bytes)
  if rest ≠ [] then
    throw (corrupt s!"0 trailing payload bytes after kind {kind}")
  return rec_

end WalRecord

end Wal

end Zu

/-!
## The checksum of a frame

The frames of the log carry a CRC-32C. The theorems about the log take the
checksum as a parameter; this is the one it is run with.
-/

namespace Zu

namespace Wal

open Lib

/-- One bit of the reflected division. -/
def crcBit (c : UInt32) : UInt32 :=
  if c &&& 1 = 0 then c >>> 1 else (c >>> 1) ^^^ 0x82F63B78

def crcByte (c : UInt32) (b : UInt8) : UInt32 :=
  crcBit (crcBit (crcBit (crcBit (crcBit (crcBit (crcBit (crcBit (c ^^^ b.toUInt32))))))))

/-- CRC-32C: the Castagnoli polynomial, reflected, with all ones in and out. -/
def crc32c (bs : Bytes) : UInt32 := bs.foldl crcByte 0xFFFFFFFF ^^^ 0xFFFFFFFF

-- the check value of the polynomial, over "123456789"
example : crc32c [49, 50, 51, 52, 53, 54, 55, 56, 57] = 0xE3069283 := by decide +kernel

end Wal

end Zu
