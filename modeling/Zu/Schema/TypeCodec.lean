import Zu.Schema.Types
import Zu.Lib.Codec

/-!
# How a declared type is written

Eighteen types have a code of their own; the others take the extended form, which
carries what a code cannot. The reader also takes the two bytes a column writes for
a list, which the catalog never writes.
-/

namespace Zu.Schema

open Lib

def maxDigits : UInt16 := 38

def listCode : UInt8 := 18

def extendedCode : UInt8 := 19

def extZonedTime : UInt8 := 0
def extZonedDatetime : UInt8 := 1
def extStr : UInt8 := 2
def extBytes : UInt8 := 3
def extList : UInt8 := 4
def extDecimal : UInt8 := 5
def extInt128 : UInt8 := 6

/-- `NO_BOUND`: the count that stands for a bound nobody wrote. -/
def noBound : UInt32 := 2 ^ 32 - 1

/-- `code_type`, which is `TYPE_CODES` read by code. -/
def codeType : UInt8 → Option LogicalType
  | 0 => some (.str none none false)
  | 1 => some (.int true .b64 none)
  | 2 => some .bool
  | 3 => some (.float .b64 none)
  | 4 => some .date
  | 5 => some .localTime
  | 6 => some .localDatetime
  | 7 => some (.duration .dayTime)
  | 8 => some (.duration .yearMonth)
  | 9 => some (.float .b32 none)
  | 10 => some (.int true .b8 none)
  | 11 => some (.int true .b16 none)
  | 12 => some (.int true .b32 none)
  | 13 => some (.int false .b8 none)
  | 14 => some (.int false .b16 none)
  | 15 => some (.int false .b32 none)
  | 16 => some (.int false .b64 none)
  | 17 => some (.bytes none none false)
  | _ => none

/-- `type_code`, which is `TYPE_CODES` read by type. -/
def typeCode : LogicalType → Option UInt8
  | .str none none false => some 0
  | .int true .b64 none => some 1
  | .bool => some 2
  | .float .b64 none => some 3
  | .date => some 4
  | .localTime => some 5
  | .localDatetime => some 6
  | .duration .dayTime => some 7
  | .duration .yearMonth => some 8
  | .float .b32 none => some 9
  | .int true .b8 none => some 10
  | .int true .b16 none => some 11
  | .int true .b32 none => some 12
  | .int false .b8 none => some 13
  | .int false .b16 none => some 14
  | .int false .b32 none => some 15
  | .int false .b64 none => some 16
  | .bytes none none false => some 17
  | _ => none

/-- A length bound, with a count of its own for none. -/
def putBound (bound : Option UInt32) : Bytes := leBytes 4 (bound.getD noBound).toNat

def putFlag (b : Bool) : UInt8 := if b then 1 else 0

/-- The extended form of a string or a byte string. -/
def putBounded (kind : UInt8) (least most : Option UInt32) (fixed : Bool) : Bytes :=
  [extendedCode, kind, putFlag fixed] ++ putBound least ++ putBound most

/-- Whether the type is wrapped as one that takes null. -/
def LogicalType.isNullable : LogicalType → Bool
  | .nullable _ => true
  | _ => false

/-- The bytes of a type, its wrappers for null taken off first when it is the element
of a list. -/
def typeBytes (elem : Bool) : LogicalType → Option Bytes
  | .nullable inner => if elem then typeBytes true inner else none
  | .list elem most => do
      let inner ← typeBytes true elem
      return [extendedCode, extList, putFlag (!elem.isNullable)] ++ putBound most ++ inner
  | .zonedTime => some [extendedCode, extZonedTime]
  | .zonedDatetime => some [extendedCode, extZonedDatetime]
  | .int true .b128 none => some [extendedCode, extInt128]
  | .decimal precision scale =>
      if maxDigits < precision then none
      else some ([extendedCode, extDecimal] ++ leBytes 2 precision.toNat ++ leBytes 2 scale.toNat)
  | .str none none false => some [0]
  | .str least most fixed => some (putBounded extStr least most fixed)
  | .bytes none none false => some [17]
  | .bytes least most fixed => some (putBounded extBytes least most fixed)
  | type => (typeCode type).map fun code => [code]

/-- `declared_type_bytes`; nothing, for a type nothing can be declared with. -/
def declaredTypeBytes (type : LogicalType) : Option Bytes := typeBytes false type

/-- A corrupt column directory, which is how the type reader reports. -/
def corruptProps (detail : String) : ZuError := .corrupt "props directory" detail

def nextByte (err : ZuError) : Reader ZuError UInt8 := fun bs =>
  match bs with
  | [] => .error err
  | b :: rest => .ok (b, rest)

def nextBytes (n : ℕ) (err : ZuError) : Reader ZuError Bytes := fun bs =>
  if bs.length < n then .error err else .ok (bs.take n, bs.drop n)

def readDigits : Reader ZuError UInt16 := do
  let word ← nextBytes 2 (corruptProps "truncated decimal digits")
  return UInt16.ofNat (fromLe word)

/-- `count`: a length bound. -/
def readBound : Reader ZuError (Option UInt32) := do
  let word ← nextBytes 4 (corruptProps "truncated length bound")
  let bound := UInt32.ofNat (fromLe word)
  return if bound = noBound then none else some bound

/-- `flag`: any byte but zero stands for yes. -/
def readSet : Reader ZuError Bool := do
  let byte ← nextByte (corruptProps "truncated extended type")
  return byte != 0

/-- A type that stands behind no kind byte. -/
def readCode (code : UInt8) : Reader ZuError LogicalType :=
  match codeType code with
  | some type => return type
  | none => throw (corruptProps s!"unknown type {code.toNat}")

/-- The list a column writes, behind its code: the code of its element. -/
def readColumnList : Reader ZuError LogicalType := do
  let elem ← nextByte (corruptProps "truncated list element type")
  match codeType elem with
  | some type => return .list type none
  | none => throw (corruptProps s!"unknown element type {elem.toNat}")

def readDecimal : Reader ZuError LogicalType := do
  let precision ← readDigits
  let scale ← readDigits
  return .decimal precision scale

/-- The rest of the extended form of a string or a byte string. -/
def readBounded (kind : UInt8) : Reader ZuError LogicalType := do
  let fixed ← readSet
  let least ← readBound
  let most ← readBound
  if kind = extStr then return .str least most fixed
  else if kind = extBytes then return .bytes least most fixed
  else throw (corruptProps s!"unknown extended type {kind.toNat}")

/-- The rest of the extended form of a list, its element read by `readElem`. -/
def readList (readElem : Reader ZuError LogicalType) : Reader ZuError LogicalType := do
  let notNull ← readSet
  let most ← readBound
  let elem ← readElem
  return .list (if notNull then elem else .nullable elem) most

def readExtended (readElem : Reader ZuError LogicalType) : Reader ZuError LogicalType := do
  let kind ← nextByte (corruptProps "truncated extended type")
  if kind = extZonedTime then return .zonedTime
  else if kind = extZonedDatetime then return .zonedDatetime
  else if kind = extInt128 then return .int true .b128 none
  else if kind = extDecimal then readDecimal
  else if kind = extList then readList readElem
  else readBounded kind

/-- `decode_declared_type`. The first argument bounds how deep lists may nest, and the
bytes that are left always do. -/
def decodeTypeWithin : ℕ → Reader ZuError LogicalType
  | 0 => throw (corruptProps "truncated type")
  | fuel + 1 => do
      let code ← nextByte (corruptProps "truncated type")
      if code = listCode then readColumnList
      else if code = extendedCode then readExtended (decodeTypeWithin fuel)
      else readCode code

def decodeDeclaredType : Reader ZuError LogicalType := fun bs => decodeTypeWithin bs.length bs

end Zu.Schema
