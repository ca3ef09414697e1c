import Zu.Lib.Text
import Zu.Props.ColumnType

/-!
# Type names

How the name of a type is read, and which of the names that are read print a name that reads
back. A string of two bounds and the two types of one length print what no type name is.
-/

namespace Zu.Schema

open Lib

def splitWhitespace (text : Text) : List Text :=
  (splitAll isWhitespace text).filter fun word => !word.isEmpty

/-- `str::parse` of a `u16`. -/
def parseU16 (text : Text) : Option UInt16 :=
  let digits := match text with
    | '+' :: digits => digits
    | digits => digits
  (readNat digits).bind fun n => if n < UInt16.size then some (UInt16.ofNat n) else none

def splitArgs (name : Text) : Option (Text × List UInt16) :=
  let name := trim name
  if '(' ∉ name then some (name, [])
  else if name.getLast? ≠ some ')' then none
  else do
    let rest := name.dropLast
    let head := rest.takeWhile (· ≠ '(')
    let args := rest.dropWhile (· ≠ '(')
    let args ← (splitAll (· = ',') (args.dropWhile (· = '('))).mapM fun arg => parseU16 (trim arg)
    if args.isEmpty then none else some (head, args)

def floatBitsForDigits (digits : ℕ) : Option FloatBits :=
  if digits ≤ 3 then some .b16
  else if digits ≤ 6 then some .b32
  else if digits ≤ 15 then some .b64
  else if digits ≤ 33 then some .b128
  else if digits ≤ 71 then some .b256
  else none

/-- The names that take no argument. -/
def nameOfNone : String → Option LogicalType
  | "BOOL" | "BOOLEAN" => some .bool
  | "INT8" | "TINYINT" => some (.int true .b8 none)
  | "INT16" | "SMALLINT" => some (.int true .b16 none)
  | "INT32" => some (.int true .b32 none)
  | "INT64" | "BIGINT" | "SIGNED" => some (.int true .b64 none)
  | "INT128" => some (.int true .b128 none)
  | "INT256" => some (.int true .b256 none)
  | "INT" | "INTEGER" => some (.int true .b64 none)
  | "UINT8" => some (.int false .b8 none)
  | "UINT16" | "USMALLINT" => some (.int false .b16 none)
  | "UINT32" => some (.int false .b32 none)
  | "UINT64" | "UBIGINT" | "UNSIGNED" => some (.int false .b64 none)
  | "UINT128" => some (.int false .b128 none)
  | "UINT256" => some (.int false .b256 none)
  | "UINT" | "UINTEGER" => some (.int false .b64 none)
  | "FLOAT16" | "HALF" => some (.float .b16 none)
  | "FLOAT32" | "REAL" => some (.float .b32 none)
  | "FLOAT64" | "DOUBLE" | "DOUBLE PRECISION" | "FLOAT" => some (.float .b64 none)
  | "FLOAT128" => some (.float .b128 none)
  | "FLOAT256" => some (.float .b256 none)
  | "STRING" | "VARCHAR" => some (.str none none false)
  | "BYTES" | "VARBINARY" => some (.bytes none none false)
  | "DATE" => some .date
  | "LOCAL TIME" | "TIME WITHOUT TIME ZONE" => some .localTime
  | "LOCAL DATETIME" | "TIMESTAMP WITHOUT TIME ZONE" => some .localDatetime
  | "ZONED TIME" | "TIME WITH TIME ZONE" | "TIME" => some .zonedTime
  | "ZONED DATETIME" | "TIMESTAMP WITH TIME ZONE" | "TIMESTAMP" => some .zonedDatetime
  | "DURATION" | "INTERVAL" => some (.duration .dayTime)
  | "YEAR MONTH DURATION" => some (.duration .yearMonth)
  | "DAY TIME DURATION" => some (.duration .dayTime)
  | "NULL" => some .null
  | "NOTHING" => some .nothing
  | "ANY" => some .any
  | "ANY PROPERTY VALUE" | "PROPERTY VALUE" => some .anyProperty
  | "NODE" | "VERTEX" => some (.node none)
  | "EDGE" | "RELATIONSHIP" => some (.edge none)
  | "GRAPH" => some (.graph none)
  | "BINDING TABLE" | "TABLE" => some (.bindingTable none)
  | "PATH" => some (.path none)
  | _ => none

/-- The names that take one argument. -/
def nameOfOne (head : String) (n : UInt16) : Option LogicalType :=
  match head with
  | "INT" | "INTEGER" =>
      (Props.intBitsForDigits n.toNat).map fun bits => .int true bits (some n)
  | "UINT" | "UINTEGER" =>
      (Props.intBitsForDigits n.toNat).map fun bits => .int false bits (some n)
  | "FLOAT" => (floatBitsForDigits n.toNat).map fun bits => .float bits (some n)
  | "DECIMAL" | "DEC" => some (.decimal n 0)
  | "STRING" | "VARCHAR" => some (.str none (some n.toUInt32) false)
  | "CHAR" => some (.str (some n.toUInt32) (some n.toUInt32) true)
  | "BYTES" | "VARBINARY" => some (.bytes none (some n.toUInt32) false)
  | "BINARY" => some (.bytes (some n.toUInt32) (some n.toUInt32) true)
  | _ => none

/-- The names that take two arguments. -/
def nameOfTwo (head : String) (m n : UInt16) : Option LogicalType :=
  match head with
  | "DECIMAL" | "DEC" => some (.decimal m n)
  | "STRING" | "VARCHAR" => some (.str (some m.toUInt32) (some n.toUInt32) false)
  | _ => none

/-- A head in the one way it is matched, whatever its case and its blanks. -/
def canonical (head : Text) : String :=
  String.ofList ((List.intercalate [' '] (splitWhitespace head)).map Char.toUpper)

def typeByName (name : String) : Option LogicalType := do
  let (head, args) ← splitArgs name.toList
  match args with
  | [] => nameOfNone (canonical head)
  | [n] => nameOfOne (canonical head) n
  | [m, n] => nameOfTwo (canonical head) m n
  | _ => none

/-! ### Numbers between parentheses -/

theorem readNat_showNat (n : ℕ) : readNat (showNat n) = some n := by
  have h : showNat n ≠ [] ∧ (showNat n).all isDigit = true := numeric_showNat n
  rw [readNat, if_pos h, valueOf_showNat]

theorem parseU16_showNat (n : UInt16) : parseU16 (showNat n.toNat) = some n := by
  have hplus : '+' ∉ showNat n.toNat := (numeric_showNat n.toNat).not_mem (by decide)
  have hlt : n.toNat < UInt16.size := n.toNat_lt
  rw [parseU16]
  · simp [readNat_showNat, hlt]
  · intro digits hdigits
    rw [hdigits] at hplus
    exact hplus List.mem_cons_self

theorem ne_of_mem_showNat {n : ℕ} {c d : Char} (hc : c ∈ showNat n) (hd : isDigit d = false) :
    c ≠ d := by
  rintro rfl
  exact (numeric_showNat n).not_mem hd hc

theorem isWhitespace_of_isDigit {c : Char} (h : isDigit c = true) : isWhitespace c = false := by
  rw [isDigit, Bool.and_eq_true, decide_eq_true_eq, decide_eq_true_eq] at h
  simp [isWhitespace]
  omega

theorem isWhitespace_of_mem_showNat {n : ℕ} {c : Char} (h : c ∈ showNat n) :
    isWhitespace c = false :=
  isWhitespace_of_isDigit (List.all_eq_true.1 (numeric_showNat n).2 c h)

/-- A character of a name: no blank, no parenthesis and nothing that has another upper case. -/
def isPlain (c : Char) : Bool := 48 ≤ c.toNat && c.toNat ≤ 90

theorem isWhitespace_of_isPlain {c : Char} (h : isPlain c = true) : isWhitespace c = false := by
  simp only [isPlain, Bool.and_eq_true, decide_eq_true_eq] at h
  simp [isWhitespace]
  omega

theorem ne_of_isPlain {c d : Char} (h : isPlain c = true) (hd : d.toNat < 48) : c ≠ d := by
  rintro rfl
  simp only [isPlain, Bool.and_eq_true, decide_eq_true_eq] at h
  exact absurd h.1 (Nat.not_le.2 hd)

theorem toUpper_of_isPlain {c : Char} (h : isPlain c = true) : c.toUpper = c := by
  simp only [isPlain, Bool.and_eq_true, decide_eq_true_eq] at h
  have hlower : ¬ 97 ≤ c.toNat := Nat.not_le.2 (h.2.trans_lt (by decide))
  rw [Char.toUpper]
  split
  case isTrue hc => exact absurd hc.1 hlower
  case isFalse => rfl

theorem head_of_all {head : Text} (h : head.all isPlain = true) {c : Char} (hc : c ∈ head) :
    isWhitespace c = false ∧ c ≠ '(' :=
  have hplain := List.all_eq_true.1 h c hc
  ⟨isWhitespace_of_isPlain hplain, ne_of_isPlain hplain (by decide)⟩

theorem splitArgs_append {head inside : Text} (hhead : ∀ c ∈ head, isWhitespace c = false ∧ c ≠ '(')
    (hinside : ∀ c ∈ inside, isWhitespace c = false) (hopen : inside.head? ≠ some '(') :
    splitArgs (head ++ '(' :: (inside ++ [')'])) =
      ((splitAll (· = ',') inside).mapM fun arg => parseU16 (trim arg)).bind fun args =>
        if args.isEmpty then none else some (head, args) := by
  have htrim : trim (head ++ '(' :: (inside ++ [')'])) = head ++ '(' :: (inside ++ [')']) := by
    apply trim_of_none
    intro c hc
    simp only [List.mem_append, List.mem_cons, List.not_mem_nil, or_false] at hc
    rcases hc with hc | rfl | hc | rfl
    · exact (hhead c hc).1
    · decide
    · exact hinside c hc
    · decide
  have hlast : (head ++ '(' :: (inside ++ [')'])).dropLast = head ++ '(' :: inside := by
    rw [← List.cons_append, ← List.append_assoc, List.dropLast_concat]
  have htake : (head ++ '(' :: inside).takeWhile (· ≠ '(') = head := by
    rw [List.takeWhile_append_of_pos fun c hc => by simpa using (hhead c hc).2]
    simp
  have hdrop : (head ++ '(' :: inside).dropWhile (· ≠ '(') = '(' :: inside := by
    rw [List.dropWhile_append_of_pos fun c hc => by simpa using (hhead c hc).2]
    simp
  have hstart : ('(' :: inside).dropWhile (· = '(') = inside := by
    cases inside <;> simp_all
  have hend : (head ++ '(' :: (inside ++ [')'])).getLast? = some ')' := by
    rw [← List.cons_append, ← List.append_assoc, List.getLast?_concat]
  rw [splitArgs, htrim, if_neg (by simp), if_neg (by simp [hend]), hlast]
  simp only [htake, hdrop, hstart]
  rfl

theorem splitArgs_one {head : Text} (hhead : ∀ c ∈ head, isWhitespace c = false ∧ c ≠ '(')
    (n : UInt16) : splitArgs (head ++ '(' :: (showNat n.toNat ++ [')'])) = some (head, [n]) := by
  have hopen : (showNat n.toNat).head? ≠ some '(' := fun h =>
    ne_of_mem_showNat (List.mem_of_mem_head? h) (d := '(') (by decide) rfl
  rw [splitArgs_append hhead (fun c => isWhitespace_of_mem_showNat) hopen, splitAll_of_none]
  · simp [trim_of_none fun c => isWhitespace_of_mem_showNat, parseU16_showNat]
  · exact fun c hc => by simpa using ne_of_mem_showNat hc (by decide)

theorem splitArgs_two {head : Text} (hhead : ∀ c ∈ head, isWhitespace c = false ∧ c ≠ '(')
    (m n : UInt16) :
    splitArgs (head ++ '(' :: (showNat m.toNat ++ ',' :: showNat n.toNat ++ [')'])) =
      some (head, [m, n]) := by
  have hne : showNat m.toNat ≠ [] := (numeric_showNat m.toNat).1
  have hopen : (showNat m.toNat ++ ',' :: showNat n.toNat).head? ≠ some '(' := by
    rw [List.head?_append_of_ne_nil _ hne]
    exact fun h => ne_of_mem_showNat (List.mem_of_mem_head? h) (d := '(') (by decide) rfl
  rw [splitArgs_append hhead _ hopen, splitAll_append, splitAll_of_none]
  · simp [trim_of_none fun c => isWhitespace_of_mem_showNat, parseU16_showNat]
  · exact fun c hc => by simpa using ne_of_mem_showNat hc (by decide)
  · exact fun c hc => by simpa using ne_of_mem_showNat hc (by decide)
  · rfl
  · intro c hc
    simp only [List.mem_append, List.mem_cons] at hc
    rcases hc with hc | rfl | hc
    · exact isWhitespace_of_mem_showNat hc
    · decide
    · exact isWhitespace_of_mem_showNat hc

/-! ### What a type prints -/

/-- The type that a name is read as prints a name that is read as that type. -/
def PrintsBack (name : String) : Prop :=
  ∀ ty, typeByName name = some ty → typeByName (Props.display ty) = some ty

/-- The names of a string of two bounds, and of a string or of bytes of one length. -/
def Unprintable (name : String) : Prop :=
  ∃ head args, splitArgs name.toList = some (head, args) ∧
    ((canonical head ∈ ["CHAR", "BINARY"] ∧ args.length = 1) ∨
      (canonical head ∈ ["STRING", "VARCHAR"] ∧ args.length = 2))

/-- Words of one blank between each two. -/
structure Words (ws : List Text) : Prop where
  some : ws ≠ []
  word : ∀ w ∈ ws, w ≠ [] ∧ w.all isPlain = true

theorem Words.tail {w v : Text} {ws : List Text} (h : Words (w :: v :: ws)) : Words (v :: ws) where
  some := List.cons_ne_nil v ws
  word := fun u hu => h.word u (List.mem_cons_of_mem w hu)

theorem Words.splitAll {ws : List Text} (h : Words ws) :
    splitAll Lib.isWhitespace (List.intercalate [' '] ws) = ws := by
  induction ws with
  | nil => exact absurd rfl h.some
  | cons w ws ih =>
      have hw : ∀ c ∈ w, Lib.isWhitespace c = false := fun c hc =>
        (head_of_all (h.word w List.mem_cons_self).2 hc).1
      cases ws with
      | nil => rw [List.intercalate_singleton, splitAll_of_none hw]
      | cons v ws =>
          rw [List.intercalate_cons_cons, List.append_assoc, List.singleton_append,
            splitAll_append hw (by decide), ih h.tail]

theorem Words.first {ws : List Text} (h : Words ws) :
    ∃ c rest, List.intercalate [' '] ws = c :: rest ∧ isPlain c = true := by
  cases ws with
  | nil => exact absurd rfl h.some
  | cons w ws =>
      obtain ⟨hne, hplain⟩ := h.word w List.mem_cons_self
      obtain ⟨c, rest, rfl⟩ := List.exists_cons_of_ne_nil hne
      have hc := List.all_eq_true.1 hplain c List.mem_cons_self
      cases ws with
      | nil => exact ⟨c, rest, List.intercalate_singleton, hc⟩
      | cons v ws => exact ⟨c, _, by rw [List.intercalate_cons_cons, List.append_assoc]; rfl, hc⟩

theorem Words.last {ws : List Text} (h : Words ws) :
    ∃ rest c, List.intercalate [' '] ws = rest ++ [c] ∧ isPlain c = true := by
  induction ws with
  | nil => exact absurd rfl h.some
  | cons w ws ih =>
      cases ws with
      | nil =>
          obtain ⟨hne, hplain⟩ := h.word w List.mem_cons_self
          refine ⟨w.dropLast, w.getLast hne, ?_,
            List.all_eq_true.1 hplain _ (List.getLast_mem hne)⟩
          rw [List.intercalate_singleton, List.dropLast_append_getLast]
      | cons v ws =>
          obtain ⟨rest, c, hrest, hc⟩ := ih h.tail
          refine ⟨w ++ [' '] ++ rest, c, ?_, hc⟩
          rw [List.intercalate_cons_cons, hrest, ← List.append_assoc]

theorem Words.trim {ws : List Text} (h : Words ws) :
    trim (List.intercalate [' '] ws) = List.intercalate [' '] ws := by
  obtain ⟨c, tail, hfirst, hc⟩ := h.first
  obtain ⟨init, d, hlast, hd⟩ := h.last
  have hdrop : (List.intercalate [' '] ws).dropWhile Lib.isWhitespace = List.intercalate [' '] ws := by
    rw [hfirst, List.dropWhile_cons, isWhitespace_of_isPlain hc, if_neg Bool.false_ne_true]
  rw [Lib.trim, hdrop, hlast, List.reverse_append, List.reverse_singleton, List.singleton_append,
    List.dropWhile_cons, isWhitespace_of_isPlain hd, if_neg Bool.false_ne_true, List.reverse_cons,
    List.reverse_reverse]

theorem Words.mem {ws : List Text} (h : Words ws) {c : Char}
    (hc : c ∈ List.intercalate [' '] ws) : c = ' ' ∨ isPlain c = true := by
  induction ws with
  | nil => exact absurd rfl h.some
  | cons w ws ih =>
      have hw := List.all_eq_true.1 (h.word w List.mem_cons_self).2 c
      cases ws with
      | nil =>
          rw [List.intercalate_singleton] at hc
          exact .inr (hw hc)
      | cons v ws =>
          simp only [List.intercalate_cons_cons, List.mem_append, List.mem_singleton] at hc
          rcases hc with (hc | hc) | hc
          · exact .inr (hw hc)
          · exact .inl hc
          · exact ih h.tail hc

theorem typeByName_words {ws : List Text} (h : Words ws) :
    typeByName (String.ofList (List.intercalate [' '] ws)) =
      nameOfNone (String.ofList (List.intercalate [' '] ws)) := by
  have hopen : '(' ∉ List.intercalate [' '] ws := fun hmem => by
    rcases h.mem hmem with hblank | hplain
    · exact absurd hblank (by decide)
    · exact ne_of_isPlain hplain (by decide) rfl
  have hsplit : splitWhitespace (List.intercalate [' '] ws) = ws := by
    rw [splitWhitespace, h.splitAll, List.filter_eq_self]
    exact fun w hw => by simpa using (h.word w hw).1
  have hupper : (List.intercalate [' '] ws).map Char.toUpper = List.intercalate [' '] ws := by
    rw [List.map_congr_left (g := id) fun c hc => ?_, List.map_id]
    rcases h.mem hc with rfl | hplain
    · decide
    · exact toUpper_of_isPlain hplain
  rw [typeByName, String.toList_ofList, splitArgs, h.trim]
  simp [hopen, canonical, hsplit, hupper]

/-- The types of the names that take no argument. -/
def typesOfNone : List LogicalType :=
  [.bool, .int true .b8 none, .int true .b16 none, .int true .b32 none, .int true .b64 none,
    .int true .b128 none, .int true .b256 none, .int false .b8 none, .int false .b16 none,
    .int false .b32 none, .int false .b64 none, .int false .b128 none, .int false .b256 none,
    .float .b16 none, .float .b32 none, .float .b64 none, .float .b128 none, .float .b256 none,
    .str none none false, .bytes none none false, .date, .localTime, .localDatetime, .zonedTime,
    .zonedDatetime, .duration .dayTime, .duration .yearMonth, .null, .nothing, .any,
    .anyProperty, .node none, .edge none, .graph none, .bindingTable none, .path none]

/-- The words that `typesOfNone` print. -/
def wordsOfNone : List (List Text) :=
  [[['B', 'O', 'O', 'L']], [['I', 'N', 'T', '8']], [['I', 'N', 'T', '1', '6']],
    [['I', 'N', 'T', '3', '2']], [['I', 'N', 'T', '6', '4']], [['I', 'N', 'T', '1', '2', '8']],
    [['I', 'N', 'T', '2', '5', '6']], [['U', 'I', 'N', 'T', '8']],
    [['U', 'I', 'N', 'T', '1', '6']], [['U', 'I', 'N', 'T', '3', '2']],
    [['U', 'I', 'N', 'T', '6', '4']], [['U', 'I', 'N', 'T', '1', '2', '8']],
    [['U', 'I', 'N', 'T', '2', '5', '6']], [['F', 'L', 'O', 'A', 'T', '1', '6']],
    [['F', 'L', 'O', 'A', 'T', '3', '2']], [['F', 'L', 'O', 'A', 'T', '6', '4']],
    [['F', 'L', 'O', 'A', 'T', '1', '2', '8']], [['F', 'L', 'O', 'A', 'T', '2', '5', '6']],
    [['S', 'T', 'R', 'I', 'N', 'G']], [['B', 'Y', 'T', 'E', 'S']], [['D', 'A', 'T', 'E']],
    [['L', 'O', 'C', 'A', 'L'], ['T', 'I', 'M', 'E']],
    [['L', 'O', 'C', 'A', 'L'], ['D', 'A', 'T', 'E', 'T', 'I', 'M', 'E']],
    [['Z', 'O', 'N', 'E', 'D'], ['T', 'I', 'M', 'E']],
    [['Z', 'O', 'N', 'E', 'D'], ['D', 'A', 'T', 'E', 'T', 'I', 'M', 'E']],
    [['D', 'A', 'Y'], ['T', 'I', 'M', 'E'], ['D', 'U', 'R', 'A', 'T', 'I', 'O', 'N']],
    [['Y', 'E', 'A', 'R'], ['M', 'O', 'N', 'T', 'H'], ['D', 'U', 'R', 'A', 'T', 'I', 'O', 'N']],
    [['N', 'U', 'L', 'L']], [['N', 'O', 'T', 'H', 'I', 'N', 'G']], [['A', 'N', 'Y']],
    [['A', 'N', 'Y'], ['P', 'R', 'O', 'P', 'E', 'R', 'T', 'Y'], ['V', 'A', 'L', 'U', 'E']],
    [['N', 'O', 'D', 'E']], [['E', 'D', 'G', 'E']], [['G', 'R', 'A', 'P', 'H']],
    [['B', 'I', 'N', 'D', 'I', 'N', 'G'], ['T', 'A', 'B', 'L', 'E']], [['P', 'A', 'T', 'H']]]

theorem map_display_typesOfNone : typesOfNone.map Props.display =
    wordsOfNone.map fun ws => String.ofList (List.intercalate [' '] ws) := by
  simp only [typesOfNone, wordsOfNone, List.map_cons, List.map_nil]
  rfl

theorem words_wordsOfNone (ws : List Text) (h : ws ∈ wordsOfNone) : Words ws := by
  have hall : ∀ ws ∈ wordsOfNone, ws ≠ [] ∧ ∀ w ∈ ws, w ≠ [] ∧ w.all isPlain = true := by decide
  exact ⟨(hall ws h).1, (hall ws h).2⟩

theorem nameOfNone_typesOfNone :
    ∀ ty ∈ typesOfNone, nameOfNone (Props.display ty) = some ty := by
  simp only [typesOfNone, List.forall_mem_cons]
  refine ⟨rfl, rfl, rfl, rfl, rfl, rfl, rfl, rfl, rfl, rfl, rfl, rfl, rfl, rfl, rfl, rfl, rfl, rfl,
    rfl, rfl, rfl, rfl, rfl, rfl, rfl, rfl, rfl, rfl, rfl, rfl, rfl, rfl, rfl, rfl, rfl, rfl, ?_⟩
  simp

theorem nameOfNone_display {head : String} {ty : LogicalType} (h : nameOfNone head = some ty) :
    typeByName (Props.display ty) = some ty := by
  have hmem : ty ∈ typesOfNone := by
    rw [nameOfNone.eq_def] at h
    split at h <;> cases h <;> simp [typesOfNone]
  have hname : Props.display ty ∈ typesOfNone.map Props.display := List.mem_map_of_mem hmem
  rw [map_display_typesOfNone] at hname
  obtain ⟨ws, hws, hname⟩ := List.mem_map.1 hname
  rw [← hname, typeByName_words (words_wordsOfNone ws hws), hname]
  exact nameOfNone_typesOfNone ty hmem

theorem typeByName_one {name : String} {head : Text} {n : UInt16}
    (hname : name.toList = head ++ '(' :: (showNat n.toNat ++ [')']))
    (hhead : ∀ c ∈ head, isWhitespace c = false ∧ c ≠ '(') :
    typeByName name = nameOfOne (canonical head) n := by
  rw [typeByName, hname, splitArgs_one hhead]
  rfl

theorem typeByName_two {name : String} {head : Text} {m n : UInt16}
    (hname : name.toList = head ++ '(' :: (showNat m.toNat ++ ',' :: showNat n.toNat ++ [')']))
    (hhead : ∀ c ∈ head, isWhitespace c = false ∧ c ≠ '(') :
    typeByName name = nameOfTwo (canonical head) m n := by
  rw [typeByName, hname, splitArgs_two hhead]
  rfl

theorem toList_toString (s : String) : (toString s).toList = s.toList := rfl

theorem toList_displayLen_most (name : String) (most : UInt32) :
    (Props.displayLen name none (some most) false).toList =
      name.toList ++ '(' :: (showNat most.toNat ++ [')']) := by
  have h : Props.displayLen name none (some most) false = s!"{name}({most.toNat})" := rfl
  rw [h]
  simp [showNat, toList_toString]

theorem toList_displayLen_between (name : String) (least most : UInt32) :
    (Props.displayLen name (some least) (some most) false).toList =
      name.toList ++ '(' :: (showNat least.toNat ++ '.' :: '.' :: showNat most.toNat ++ [')']) := by
  have h : Props.displayLen name (some least) (some most) false =
      s!"{name}({least.toNat}..{most.toNat})" := rfl
  rw [h]
  simp [showNat, toList_toString]

theorem toList_displayLen_fixed (name : String) (n : UInt32) (most : Option UInt32) :
    (Props.displayLen name (some n) most true).toList =
      name.toList ++ '(' :: (showNat n.toNat ++ ") FIXED".toList) := by
  have h : Props.displayLen name (some n) most true = s!"{name}({n.toNat}) FIXED" := rfl
  rw [h]
  simp [showNat, toList_toString]

theorem typeByName_int {signed : Bool} {bits : IntBits} {n : UInt16}
    (h : Props.intBitsForDigits n.toNat = some bits) :
    typeByName (Props.display (.int signed bits (some n))) = some (.int signed bits (some n)) := by
  cases signed with
  | true =>
      have hname : (Props.display (.int true bits (some n))).toList =
          "INT".toList ++ '(' :: (showNat n.toNat ++ [')']) := by
        change (toString "" ++ "INT(" ++ toString n.toNat ++ ")").toList = _
        simp [showNat, toList_toString]
      have hcanonical : canonical "INT".toList = "INT" := rfl
      rw [typeByName_one hname (fun c => head_of_all (by decide)), hcanonical, nameOfOne, h]
      rfl
  | false =>
      have hname : (Props.display (.int false bits (some n))).toList =
          "UINT".toList ++ '(' :: (showNat n.toNat ++ [')']) := by
        change (toString "U" ++ "INT(" ++ toString n.toNat ++ ")").toList = _
        simp [showNat, toList_toString]
      have hcanonical : canonical "UINT".toList = "UINT" := rfl
      rw [typeByName_one hname (fun c => head_of_all (by decide)), hcanonical, nameOfOne, h]
      rfl

theorem typeByName_float {bits : FloatBits} {n : UInt16}
    (h : floatBitsForDigits n.toNat = some bits) :
    typeByName (Props.display (.float bits (some n))) = some (.float bits (some n)) := by
  have hname : (Props.display (.float bits (some n))).toList =
      "FLOAT".toList ++ '(' :: (showNat n.toNat ++ [')']) := by
    change ("FLOAT(" ++ toString n.toNat ++ ")").toList = _
    simp [showNat]
  have hcanonical : canonical "FLOAT".toList = "FLOAT" := rfl
  rw [typeByName_one hname (fun c => head_of_all (by decide)), hcanonical, nameOfOne, h]
  rfl

theorem typeByName_decimal (precision scale : UInt16) :
    typeByName (Props.display (.decimal precision scale)) = some (.decimal precision scale) := by
  have hname : (Props.display (.decimal precision scale)).toList = "DECIMAL".toList ++
      '(' :: (showNat precision.toNat ++ ',' :: showNat scale.toNat ++ [')']) := by
    change ("DECIMAL(" ++ toString precision.toNat ++ "," ++ toString scale.toNat ++ ")").toList = _
    simp [showNat]
  have hcanonical : canonical "DECIMAL".toList = "DECIMAL" := rfl
  rw [typeByName_two hname (fun c => head_of_all (by decide)), hcanonical]
  rfl

theorem typeByName_str (most : UInt16) :
    typeByName (Props.display (.str none (some most.toUInt32) false)) =
      some (.str none (some most.toUInt32) false) := by
  have hname : (Props.display (.str none (some most.toUInt32) false)).toList =
      "STRING".toList ++ '(' :: (showNat most.toNat ++ [')']) := by
    change (Props.displayLen "STRING" none (some most.toUInt32) false).toList = _
    rw [toList_displayLen_most, UInt16.toNat_toUInt32]
  have hcanonical : canonical "STRING".toList = "STRING" := rfl
  rw [typeByName_one hname (fun c => head_of_all (by decide)), hcanonical]
  rfl

theorem typeByName_bytes (most : UInt16) :
    typeByName (Props.display (.bytes none (some most.toUInt32) false)) =
      some (.bytes none (some most.toUInt32) false) := by
  have hname : (Props.display (.bytes none (some most.toUInt32) false)).toList =
      "BYTES".toList ++ '(' :: (showNat most.toNat ++ [')']) := by
    change (Props.displayLen "BYTES" none (some most.toUInt32) false).toList = _
    rw [toList_displayLen_most, UInt16.toNat_toUInt32]
  have hcanonical : canonical "BYTES".toList = "BYTES" := rfl
  rw [typeByName_one hname (fun c => head_of_all (by decide)), hcanonical]
  rfl

/-! ### What no type name is -/

theorem parseU16_eq_none {text : Text} {c : Char} (hc : c ∈ text) (hdigit : isDigit c = false)
    (hplus : c ≠ '+') : parseU16 text = none := by
  have hread : ∀ digits : Text, c ∈ digits → readNat digits = none := by
    intro digits hmem
    have hall : ¬ (digits ≠ [] ∧ digits.all isDigit = true) := by
      rintro ⟨-, hall⟩
      have := List.all_eq_true.1 hall c hmem
      rw [hdigit] at this
      cases this
    rw [readNat, if_neg hall]
  rw [parseU16.eq_def]
  split
  · have hmem : c ∈ _ := (List.mem_cons.1 hc).resolve_left hplus
    simp [hread _ hmem]
  · simp [hread _ hc]

theorem typeByName_between (least most : UInt16) :
    typeByName (Props.display (.str (some least.toUInt32) (some most.toUInt32) false)) = none := by
  have hname : (Props.display (.str (some least.toUInt32) (some most.toUInt32) false)).toList =
      "STRING".toList ++ '(' :: (showNat least.toNat ++ '.' :: '.' :: showNat most.toNat ++ [')']) := by
    change (Props.displayLen "STRING" (some least.toUInt32) (some most.toUInt32) false).toList = _
    rw [toList_displayLen_between, UInt16.toNat_toUInt32, UInt16.toNat_toUInt32]
  have hne : showNat least.toNat ≠ [] := (numeric_showNat least.toNat).1
  have hopen : (showNat least.toNat ++ '.' :: '.' :: showNat most.toNat).head? ≠ some '(' := by
    rw [List.head?_append_of_ne_nil _ hne]
    exact fun h => ne_of_mem_showNat (List.mem_of_mem_head? h) (d := '(') (by decide) rfl
  have hcommas : ∀ c ∈ showNat least.toNat ++ '.' :: '.' :: showNat most.toNat,
      isWhitespace c = false ∧ decide (c = ',') = false := by
    intro c hc
    simp only [List.mem_append, List.mem_cons] at hc
    rcases hc with hc | rfl | rfl | hc
    · exact ⟨isWhitespace_of_mem_showNat hc, by simpa using ne_of_mem_showNat hc (by decide)⟩
    · decide
    · decide
    · exact ⟨isWhitespace_of_mem_showNat hc, by simpa using ne_of_mem_showNat hc (by decide)⟩
  have hparse : parseU16 (showNat least.toNat ++ '.' :: '.' :: showNat most.toNat) = none :=
    parseU16_eq_none (c := '.') (by simp) (by decide) (by decide)
  rw [typeByName, hname, splitArgs_append (fun c => head_of_all (by decide)) (fun c hc => (hcommas c hc).1) hopen,
    splitAll_of_none fun c hc => (hcommas c hc).2]
  simp only [List.mapM_cons, trim_of_none fun c hc => (hcommas c hc).1, hparse]
  rfl

/-- What goes on after the parentheses have closed is no name. -/
theorem splitArgs_fixed {head : Text} {first : Char} (hfirst : isWhitespace first = false)
    (n : ℕ) : splitArgs (first :: head ++ '(' :: (showNat n ++ ") FIXED".toList)) = none := by
  have htrim : trim (first :: head ++ '(' :: (showNat n ++ ") FIXED".toList)) =
      first :: head ++ '(' :: (showNat n ++ ") FIXED".toList) := by
    have hlast : isWhitespace 'D' = false := by decide
    simp [trim, hfirst, hlast]
  have hend : (first :: head ++ '(' :: (showNat n ++ ") FIXED".toList)).getLast? = some 'D' := by
    have hshape : first :: head ++ '(' :: (showNat n ++ ") FIXED".toList) =
        (first :: head ++ '(' :: (showNat n ++ ") FIXE".toList)) ++ ['D'] := by simp
    rw [hshape, List.getLast?_concat]
  rw [splitArgs, htrim, if_neg (by simp), if_pos (by rw [hend]; decide)]

theorem typeByName_fixed (n : UInt16) :
    typeByName (Props.display (.str (some n.toUInt32) (some n.toUInt32) true)) = none ∧
      typeByName (Props.display (.bytes (some n.toUInt32) (some n.toUInt32) true)) = none := by
  have hstr : (Props.display (.str (some n.toUInt32) (some n.toUInt32) true)).toList =
      'S' :: "TRING".toList ++ '(' :: (showNat n.toNat ++ ") FIXED".toList) := by
    change (Props.displayLen "STRING" (some n.toUInt32) (some n.toUInt32) true).toList = _
    rw [toList_displayLen_fixed, UInt16.toNat_toUInt32]
    rfl
  have hbytes : (Props.display (.bytes (some n.toUInt32) (some n.toUInt32) true)).toList =
      'B' :: "YTES".toList ++ '(' :: (showNat n.toNat ++ ") FIXED".toList) := by
    change (Props.displayLen "BYTES" (some n.toUInt32) (some n.toUInt32) true).toList = _
    rw [toList_displayLen_fixed, UInt16.toNat_toUInt32]
    rfl
  constructor
  · rw [typeByName, hstr, splitArgs_fixed (by decide)]
    rfl
  · rw [typeByName, hbytes, splitArgs_fixed (by decide)]
    rfl

theorem unprintable_iff {name : String} {head : Text} {args : List UInt16}
    (h : splitArgs name.toList = some (head, args)) : Unprintable name ↔
      (canonical head ∈ ["CHAR", "BINARY"] ∧ args.length = 1) ∨
        (canonical head ∈ ["STRING", "VARCHAR"] ∧ args.length = 2) := by
  constructor
  · rintro ⟨head', args', h', hkind⟩
    rw [h] at h'
    cases h'
    exact hkind
  · exact fun hkind => ⟨head, args, h, hkind⟩

theorem nameOfOne_display {head : String} {n : UInt16} {ty : LogicalType}
    (h : nameOfOne head n = some ty) :
    typeByName (Props.display ty) = some ty ↔ head ∉ ["CHAR", "BINARY"] := by
  rw [nameOfOne.eq_def] at h
  split at h
  · obtain ⟨bits, hbits, rfl⟩ := Option.map_eq_some_iff.1 h
    simp [typeByName_int hbits]
  · obtain ⟨bits, hbits, rfl⟩ := Option.map_eq_some_iff.1 h
    simp [typeByName_int hbits]
  · obtain ⟨bits, hbits, rfl⟩ := Option.map_eq_some_iff.1 h
    simp [typeByName_int hbits]
  · obtain ⟨bits, hbits, rfl⟩ := Option.map_eq_some_iff.1 h
    simp [typeByName_int hbits]
  · obtain ⟨bits, hbits, rfl⟩ := Option.map_eq_some_iff.1 h
    simp [typeByName_float hbits]
  · cases h
    simp [typeByName_decimal]
  · cases h
    simp [typeByName_decimal]
  · cases h
    simp [typeByName_str]
  · cases h
    simp [typeByName_str]
  · cases h
    simp [(typeByName_fixed n).1]
  · cases h
    simp [typeByName_bytes]
  · cases h
    simp [typeByName_bytes]
  · cases h
    simp [(typeByName_fixed n).2]
  · cases h

theorem nameOfTwo_display {head : String} {m n : UInt16} {ty : LogicalType}
    (h : nameOfTwo head m n = some ty) :
    typeByName (Props.display ty) = some ty ↔ head ∉ ["STRING", "VARCHAR"] := by
  rw [nameOfTwo.eq_def] at h
  split at h
  · cases h
    simp [typeByName_decimal]
  · cases h
    simp [typeByName_decimal]
  · cases h
    simp [typeByName_between]
  · cases h
    simp [typeByName_between]
  · cases h

theorem printsBack_of_args {name : String} {o : Option LogicalType} (h : typeByName name = o)
    {bad : Prop} (hnone : o = none → ¬ bad)
    (hsome : ∀ ty, o = some ty → (typeByName (Props.display ty) = some ty ↔ ¬ bad)) :
    PrintsBack name ↔ ¬ bad := by
  cases ho : o with
  | none =>
      have hprints : PrintsBack name := by
        intro ty hty
        rw [h, ho] at hty
        cases hty
      exact iff_of_true hprints (hnone ho)
  | some ty =>
      rw [← hsome ty ho]
      constructor
      · exact fun hprints => hprints ty (h.trans ho)
      · intro hdisplay ty' hty'
        rw [h, ho] at hty'
        cases hty'
        exact hdisplay

/-- A name prints back unless it is of a string between two bounds, or of a string or of bytes
of one length. -/
theorem printsBack_iff (name : String) : PrintsBack name ↔ ¬ Unprintable name := by
  cases hsplit : splitArgs name.toList with
  | none =>
      have hnone : typeByName name = none := by
        rw [typeByName, hsplit]
        rfl
      apply printsBack_of_args hnone
      · rintro - ⟨head, args, h, -⟩
        rw [hsplit] at h
        cases h
      · intro ty h
        cases h
  | some split =>
      obtain ⟨head, args⟩ := split
      rw [unprintable_iff hsplit]
      match args with
      | [] =>
          have hname : typeByName name = nameOfNone (canonical head) := by
            rw [typeByName, hsplit]
            rfl
          apply printsBack_of_args hname
          · simp
          · intro ty h
            simp [nameOfNone_display h]
      | [n] =>
          have hname : typeByName name = nameOfOne (canonical head) n := by
            rw [typeByName, hsplit]
            rfl
          apply printsBack_of_args hname
          · rintro h (⟨hhead, -⟩ | ⟨-, hlen⟩)
            · simp only [List.mem_cons, List.not_mem_nil, or_false] at hhead
              rcases hhead with hhead | hhead <;> simp [hhead, nameOfOne] at h
            · simp at hlen
          · intro ty h
            simp [nameOfOne_display h]
      | [m, n] =>
          have hname : typeByName name = nameOfTwo (canonical head) m n := by
            rw [typeByName, hsplit]
            rfl
          apply printsBack_of_args hname
          · rintro h (⟨-, hlen⟩ | ⟨hhead, -⟩)
            · simp at hlen
            · simp only [List.mem_cons, List.not_mem_nil, or_false] at hhead
              rcases hhead with hhead | hhead <;> simp [hhead, nameOfTwo] at h
          · intro ty h
            simp [nameOfTwo_display h]
      | _ :: _ :: _ :: _ =>
          have hname : typeByName name = none := by
            rw [typeByName, hsplit]
            rfl
          apply printsBack_of_args hname
          · simp
          · intro ty h
            cases h

theorem char_prints_no_name : ¬ PrintsBack "CHAR(4)" := by
  have hsplit : splitArgs "CHAR(4)".toList = some ("CHAR".toList, [4]) := by decide
  have hname : typeByName "CHAR(4)" = some (.str (some (4 : UInt16).toUInt32)
      (some (4 : UInt16).toUInt32) true) := by
    rw [typeByName, hsplit]
    rfl
  intro h
  have hback := h _ hname
  rw [(typeByName_fixed 4).1] at hback
  cases hback

end Zu.Schema
