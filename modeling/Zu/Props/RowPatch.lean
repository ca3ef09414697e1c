import Zu.Lib.Latest
import Zu.Lib.Parts
import Zu.Txn.Mvcc

/-!
# Rows past the end of the columns

The rows a commit appends that no fold has stored yet are kept in chunks of
`PATCH_CHUNK`, with a shorter chunk being filled, and each sealed chunk has an index of
the key column. The patch reads as the list of its rows, a lookup by key as the last
row that holds it.
-/

namespace Zu.Props

open Lib Txn

def patchChunk : ℕ := 64

theorem patchChunk_pos : 0 < patchChunk := Nat.succ_pos 63

/-- `RowPatch`, as it reads through its pointers. -/
structure RowPatch where
  base : ℕ
  chunks : List (List (List Cell)) := []
  tail : List (List Cell) := []
  key : Option ℕ
  keyed : List (List (UInt64 × ℕ)) := []
  len : ℕ := 0
  bytes : ℕ := 0

def strBytes : Cell → ℕ
  | .str bytes => bytes.length
  | _ => 0

/-- What a lane read gets of a cell. -/
def laneWord : Cell → UInt64
  | .int word => word
  | _ => 0

/-- What a blob read gets of one. -/
def blobBytes : Cell → Bytes
  | .str bytes => bytes
  | _ => []

def rowBytes (cells : List Cell) : ℕ := (cells.map strBytes).sum

def holdsWord (col : ℕ) (word : UInt64) (cells : List Cell) : Bool := cells[col]? = some (.int word)

/-- The index of a sealed chunk whose first row is `first`: the last row wins. -/
def indexOf (col first : ℕ) (full : List (List Cell)) : List (UInt64 × ℕ) :=
  full.zipIdx.foldl
    (fun index e =>
      match e.1[col]? with
      | some (Cell.int word) => write word (first + e.2) index
      | _ => index) []

namespace RowPatch

def new (base : ℕ) (key : Option ℕ) : RowPatch := { base, key }

/-- Takes one row, and seals the chunk it fills. -/
def push (p : RowPatch) (cells : List Cell) : RowPatch :=
  let tail := p.tail ++ [cells]
  let p := { p with bytes := p.bytes + rowBytes cells, len := p.len + 1 }
  if tail.length = patchChunk then
    { p with
      tail := []
      keyed :=
        match p.key with
        | some col => p.keyed ++ [indexOf col (p.base + p.chunks.length * patchChunk) tail]
        | none => p.keyed
      chunks := p.chunks ++ [tail] }
  else { p with tail }

/-- The `at`th row, counting from the first one appended. -/
def rowAt (p : RowPatch) (i : ℕ) : Option (List Cell) :=
  match p.chunks[i / patchChunk]? with
  | some chunk => chunk[i % patchChunk]?
  | none => p.tail[i - p.chunks.length * patchChunk]?

/-- Writes into the `at`th row. -/
def modifyRow (p : RowPatch) (i : ℕ) (f : List Cell → List Cell) : RowPatch :=
  let sealedRows := p.chunks.length * patchChunk
  if sealedRows ≤ i then { p with tail := p.tail.modify (i - sealedRows) f }
  else
    { p with
      chunks := p.chunks.modify (i / patchChunk) fun chunk => chunk.modify (i % patchChunk) f }

def get (p : RowPatch) (col row : ℕ) : Option Cell :=
  if row < p.base then none else (p.rowAt (row - p.base)).bind fun cells => cells[col]?

/-- Whether `set` would take a write: the key column is refused. -/
def settable (p : RowPatch) (col row : ℕ) : Bool :=
  decide (p.key ≠ some col) && (p.get col row).isSome

def set (p : RowPatch) (col row : ℕ) (value : Cell) : RowPatch × Bool :=
  if p.settable col row then
    let was := ((p.get col row).map strBytes).getD 0
    let q := p.modifyRow (row - p.base) fun cells => cells.set col value
    ({ q with bytes := q.bytes - was + strBytes value }, true)
  else (p, false)

/-- Every row, in the order of the ordinals. -/
def all (p : RowPatch) : List (List Cell) := p.chunks.flatten ++ p.tail

/-- The word a row holds in a column, for the lane read paths. -/
def word (p : RowPatch) (col row : ℕ) : Option UInt64 := (p.get col row).map laneWord

/-- The bytes a row holds in a column, empty where it holds none. -/
def bytesOf (p : RowPatch) (col row : ℕ) : Option Bytes := (p.get col row).map blobBytes

/-- The last row whose `col` holds `word`: the chunk being filled is walked and the
sealed ones are asked by their indexes, the newest first. A column without indexes is
walked whole. -/
def rowWith (p : RowPatch) (col : ℕ) (word : UInt64) : Option ℕ :=
  if p.key ≠ some col then
    p.all.zipIdx.foldl
      (fun found e => if holdsWord col word e.1 then some (p.base + e.2) else found) none
  else
    match (lastIdx (holdsWord col word) p.tail).map
        (p.base + p.chunks.length * patchChunk + ·) with
    | some row => some row
    | none => p.keyed.reverse.findSome? (latest word)

/-- The rows of the patch among `lo..hi`, from the first to the one past the last. -/
def span (p : RowPatch) (lo hi : ℕ) : ℕ × ℕ :=
  let start := max lo p.base
  (start, max (min hi (p.base + p.len)) start)

end RowPatch

def cellAt (base : ℕ) (rows : List (List Cell)) (col row : ℕ) : Option Cell :=
  if row < base then none else rows[row - base]?.bind fun cells => cells[col]?

def writable (base : ℕ) (key : Option ℕ) (rows : List (List Cell)) (col row : ℕ) : Bool :=
  decide (key ≠ some col) && (cellAt base rows col row).isSome

/-- A call on the patch. -/
inductive RowWrite
  | push (cells : List Cell)
  | set (col row : ℕ) (value : Cell)

/-- What a call answers: the row it took, or whether it wrote. -/
inductive RowAnswer
  | row (row : ℕ)
  | wrote (took : Bool)

namespace RowWrite

def apply (p : RowPatch) : RowWrite → RowPatch
  | .push cells => p.push cells
  | .set col row value => (p.set col row value).1

def answer (p : RowPatch) : RowWrite → RowAnswer
  | .push _ => .row (p.base + p.len)
  | .set col row value => .wrote (p.set col row value).2

/-- What a call does to the list of rows. -/
def plain (base : ℕ) (key : Option ℕ) (rows : List (List Cell)) : RowWrite → List (List Cell)
  | .push cells => rows ++ [cells]
  | .set col row value =>
      if writable base key rows col row then
        rows.modify (row - base) fun cells => cells.set col value
      else rows

def plainAnswer (base : ℕ) (key : Option ℕ) (rows : List (List Cell)) : RowWrite → RowAnswer
  | .push _ => .row (base + rows.length)
  | .set col row _ => .wrote (writable base key rows col row)

end RowWrite

theorem indexOf_eq_foldl (col first : ℕ) (full : List (List Cell)) :
    indexOf col first full =
      (full.map fun cells => cells[col]?).zipIdx.foldl
        (fun index e =>
          match e.1 with
          | some (Cell.int word) => write word (first + e.2) index
          | _ => index) [] := by
  rw [List.zipIdx_map, List.foldl_map]
  rfl

theorem indexOf_congr {col first : ℕ} {full full' : List (List Cell)}
    (h : (full.map fun cells => cells[col]?) = full'.map fun cells => cells[col]?) :
    indexOf col first full = indexOf col first full' := by
  rw [indexOf_eq_foldl, h, ← indexOf_eq_foldl]

theorem latest_indexOf (col first : ℕ) (full : List (List Cell)) (word : UInt64) :
    latest word (indexOf col first full) =
      (lastIdx (holdsWord col word) full).map (first + ·) := by
  induction full using List.reverseRecOn with
  | nil => rfl
  | append_singleton full cells ih =>
      have hstep : indexOf col first (full ++ [cells]) =
          match cells[col]? with
          | some (Cell.int word) => write word (first + full.length) (indexOf col first full)
          | _ => indexOf col first full := by
        rw [indexOf, List.zipIdx_append, List.foldl_append, Nat.zero_add]
        rfl
      rw [hstep, lastIdx_concat]
      by_cases hword : holdsWord col word cells = true
      · have hcell : cells[col]? = some (.int word) := of_decide_eq_true hword
        rw [if_pos hword, hcell]
        simp only [latest_write, if_true, Option.map_some]
      · rw [if_neg hword, ← ih]
        have hcell : cells[col]? ≠ some (.int word) := fun h => hword (decide_eq_true h)
        split
        case h_1 held hheld =>
          rw [latest_write, if_neg]
          intro heq
          exact hcell (heq ▸ hheld)
        case h_2 => rfl

theorem map_modify_of_eq {α β : Type} {g : α → β} {f : α → α} (h : ∀ a, g (f a) = g a) (l : List α)
    (i : ℕ) : (l.modify i f).map g = l.map g := by
  apply List.ext_getElem?
  intro j
  rw [List.getElem?_map, List.getElem?_map, List.getElem?_modify]
  cases l[j]? with
  | none => rfl
  | some a =>
      simp only [Option.map_eq_map, Option.map_some]
      split
      · rw [h]
      · rfl

theorem indexOf_modify {col col' : ℕ} (hne : col' ≠ col) (first : ℕ) (full : List (List Cell))
    (i : ℕ) (value : Cell) :
    indexOf col first (full.modify i fun cells => cells.set col' value) =
      indexOf col first full := by
  apply indexOf_congr
  exact map_modify_of_eq (fun cells => List.getElem?_set_ne hne) full i

/-- A patch that holds the list of rows. -/
structure RowPatch.Laid (p : RowPatch) (base : ℕ) (key : Option ℕ) (rows : List (List Cell)) :
    Prop where
  based : p.base = base
  keyIs : p.key = key
  listed : p.chunks.flatten ++ p.tail = rows
  full : ∀ chunk ∈ p.chunks, chunk.length = patchChunk
  short : p.tail.length < patchChunk
  keyed : ∀ col, key = some col →
    p.keyed = p.chunks.mapIdx fun i chunk => indexOf col (base + i * patchChunk) chunk

/-- And counts it. -/
structure RowPatch.Reads (p : RowPatch) (base : ℕ) (key : Option ℕ) (rows : List (List Cell)) :
    Prop extends p.Laid base key rows where
  counted : p.len = rows.length
  weighed : p.bytes = (rows.map rowBytes).sum

namespace RowPatch

theorem reads_new (base : ℕ) (key : Option ℕ) : (new base key).Reads base key [] where
  based := rfl
  keyIs := rfl
  listed := rfl
  full := fun _ h => absurd h List.not_mem_nil
  short := patchChunk_pos
  counted := rfl
  weighed := rfl
  keyed := fun _ _ => rfl

section

variable {p : RowPatch} {base : ℕ} {key : Option ℕ} {rows : List (List Cell)}

theorem Reads.push (h : p.Reads base key rows) (cells : List Cell) :
    (p.push cells).Reads base key (rows ++ [cells]) := by
  have hlen : p.len + 1 = (rows ++ [cells]).length := by
    rw [h.counted, List.length_append, List.length_singleton]
  have hbytes : p.bytes + rowBytes cells = ((rows ++ [cells]).map rowBytes).sum := by
    rw [h.weighed, List.map_append, List.sum_append, List.map_singleton, List.sum_singleton]
  rw [RowPatch.push]
  split
  case isTrue hfull =>
    exact
      { based := h.based
        keyIs := h.keyIs
        listed := by
          simp only [List.flatten_append, List.flatten_singleton, List.append_nil]
          rw [← h.listed, List.append_assoc]
        full := by
          intro chunk hchunk
          cases List.mem_append.1 hchunk with
          | inl hold => exact h.full chunk hold
          | inr hnew => rw [List.mem_singleton.1 hnew, hfull]
        short := patchChunk_pos
        counted := hlen
        weighed := hbytes
        keyed := by
          intro col hcol
          simp only [h.keyIs, hcol, h.keyed col hcol, List.mapIdx_append, h.based]
          simp }
  case isFalse hshort =>
    exact
      { based := h.based
        keyIs := h.keyIs
        listed := by rw [← h.listed, List.append_assoc]
        full := h.full
        short := by
          have hle := h.short
          simp only [List.length_append, List.length_singleton] at hshort ⊢
          omega
        counted := hlen
        weighed := hbytes
        keyed := h.keyed }

theorem Laid.rowAt (h : p.Laid base key rows) (i : ℕ) : p.rowAt i = rows[i]? := by
  have hflat := getElem?_flatten_full patchChunk_pos h.full i
  have hsealed := length_flatten_full h.full
  rw [RowPatch.rowAt, ← h.listed]
  cases hchunk : p.chunks[i / patchChunk]? with
  | some chunk =>
      rw [hchunk, Option.bind_some] at hflat
      have hin : i / patchChunk < p.chunks.length := (List.getElem?_eq_some_iff.1 hchunk).1
      have hlt : i < p.chunks.flatten.length := by
        rw [hsealed]
        exact (Nat.div_lt_iff_lt_mul patchChunk_pos).1 hin
      rw [List.getElem?_append_left hlt, hflat]
  | none =>
      have hout : p.chunks.length ≤ i / patchChunk := List.getElem?_eq_none_iff.1 hchunk
      have hle : p.chunks.flatten.length ≤ i := by
        rw [hsealed]
        exact (Nat.le_div_iff_mul_le patchChunk_pos).1 hout
      rw [List.getElem?_append_right hle, hsealed]

theorem Laid.get (h : p.Laid base key rows) (col row : ℕ) :
    p.get col row = cellAt base rows col row := by
  rw [RowPatch.get, cellAt, h.based, h.rowAt]

theorem Laid.settable (h : p.Laid base key rows) (col row : ℕ) :
    p.settable col row = writable base key rows col row := by
  rw [RowPatch.settable, writable, h.keyIs, h.get]

theorem Laid.modifyRow (h : p.Laid base key rows) (i : ℕ) {col : ℕ} (hcol : key ≠ some col)
    (value : Cell) :
    (p.modifyRow i fun cells => cells.set col value).Laid base key
      (rows.modify i fun cells => cells.set col value) := by
  have hsealed := length_flatten_full h.full
  rw [RowPatch.modifyRow]
  split
  case isTrue hle =>
    exact
      { based := h.based
        keyIs := h.keyIs
        listed := by
          rw [← h.listed]
          apply List.ext_getElem?
          intro j
          rw [List.getElem?_modify, List.getElem?_append, List.getElem?_append, List.getElem?_modify,
            hsealed]
          by_cases hj : j < p.chunks.length * patchChunk
          · have hne : i ≠ j := by omega
            simp [if_pos hj, if_neg hne]
          · have hiff : i - p.chunks.length * patchChunk = j - p.chunks.length * patchChunk ↔
                i = j := by omega
            simp only [if_neg hj, hiff]
        full := h.full
        short := by
          simp only [List.length_modify]
          exact h.short
        keyed := h.keyed }
  case isFalse hlt =>
    exact
      { based := h.based
        keyIs := h.keyIs
        listed := by
          rw [← h.listed, flatten_modify_full patchChunk_pos h.full]
          apply List.ext_getElem?
          intro j
          rw [List.getElem?_modify, List.getElem?_append, List.getElem?_append, List.getElem?_modify,
            List.length_modify, hsealed]
          by_cases hj : j < p.chunks.length * patchChunk
          · simp only [if_pos hj]
          · have hne : i ≠ j := by omega
            simp [if_neg hj, if_neg hne]
        full := by
          intro chunk hchunk
          obtain ⟨j, hj⟩ := List.getElem?_of_mem hchunk
          rw [List.getElem?_modify] at hj
          obtain ⟨was, hwas, rfl⟩ := Option.map_eq_some_iff.1 hj
          have hlen := h.full was (List.mem_of_getElem? hwas)
          split
          · rw [List.length_modify, hlen]
          · exact hlen
        short := h.short
        keyed := by
          intro col' hcol'
          have hne : col ≠ col' := by
            rintro rfl
            exact hcol hcol'
          rw [h.keyed col' hcol']
          apply List.ext_getElem?
          intro j
          rw [List.getElem?_mapIdx, List.getElem?_mapIdx, List.getElem?_modify]
          cases p.chunks[j]? with
          | none => rfl
          | some chunk =>
              simp only [Option.map_eq_map, Option.map_some]
              split
              · rw [indexOf_modify hne]
              · rfl }

/-- The bytes of the rows when one cell is written over. -/
theorem sum_modify_cell {rows : List (List Cell)} {i col : ℕ} {was : Cell}
    (h : (rows[i]?.bind fun cells => cells[col]?) = some was) (value : Cell) :
    ((rows.modify i fun cells => cells.set col value).map rowBytes).sum + strBytes was =
      (rows.map rowBytes).sum + strBytes value := by
  obtain ⟨cells, hcells, hcell⟩ := Option.bind_eq_some_iff.1 h
  have hmodify : (rows.modify i fun cells => cells.set col value) = rows.set i (cells.set col value) := by
    rw [List.modify_eq_set_getElem?, hcells]
    rfl
  have hrow := sum_map_set strBytes hcell value
  have hrows := sum_map_set rowBytes hcells (cells.set col value)
  rw [hmodify]
  simp only [rowBytes] at hrow hrows ⊢
  omega

theorem Reads.set (h : p.Reads base key rows) (col row : ℕ) (value : Cell) :
    (p.set col row value).1.Reads base key (RowWrite.plain base key rows (.set col row value)) ∧
      (p.set col row value).2 = writable base key rows col row := by
  rw [RowPatch.set, h.settable, RowWrite.plain]
  cases hw : writable base key rows col row with
  | false =>
      constructor
      · exact h
      · rfl
  | true =>
      rw [writable, Bool.and_eq_true, decide_eq_true_iff] at hw
      obtain ⟨hcol, hcell⟩ := hw
      obtain ⟨was, hwas⟩ := Option.isSome_iff_exists.1 hcell
      have hget : p.get col row = some was := by rw [h.get, hwas]
      have hlaid := h.modifyRow (row - base) hcol value
      constructor
      · have hin : ¬ row < base := by
          intro hlt
          rw [cellAt, if_pos hlt] at hwas
          exact nomatch hwas
        rw [cellAt, if_neg hin] at hwas
        have hsum := sum_modify_cell hwas value
        have hle : strBytes was ≤ (rows.map rowBytes).sum :=
          (Nat.le_add_left _ _).trans (sum_modify_cell hwas .null).le
        have hbytes : ∀ i f, (p.modifyRow i f).bytes = p.bytes := by
          intro i f
          rw [RowPatch.modifyRow]
          split <;> rfl
        have hlen : ∀ i f, (p.modifyRow i f).len = p.len := by
          intro i f
          rw [RowPatch.modifyRow]
          split <;> rfl
        simp only [if_true, h.based]
        exact
          { based := hlaid.based
            keyIs := hlaid.keyIs
            listed := hlaid.listed
            full := hlaid.full
            short := hlaid.short
            keyed := hlaid.keyed
            counted := by
              rw [List.length_modify, ← h.counted]
              exact hlen _ _
            weighed := by
              have hp := h.weighed
              simp only [hbytes, hget, Option.map_some, Option.getD_some]
              omega }
      · rfl

end

end RowPatch

/-- The walk of the whole run keeps the last row it finds. -/
theorem foldl_found (q : List Cell → Bool) (base : ℕ) (rows : List (List Cell)) :
    rows.zipIdx.foldl (fun found e => if q e.1 then some (base + e.2) else found) none =
      (lastIdx q rows).map (base + ·) := by
  induction rows using List.reverseRecOn with
  | nil => rfl
  | append_singleton rows cells ih =>
      rw [List.zipIdx_append, List.foldl_append, ih, Nat.zero_add, lastIdx_concat]
      change (if q cells then some (base + rows.length) else (lastIdx q rows).map (base + ·)) = _
      split <;> rfl

theorem findSome?_keyed (col base : ℕ) (word : UInt64) {chunks : List (List (List Cell))}
    (hfull : ∀ chunk ∈ chunks, chunk.length = patchChunk) :
    (chunks.mapIdx fun i chunk => indexOf col (base + i * patchChunk) chunk).reverse.findSome?
        (latest word) =
      (lastIdx (holdsWord col word) chunks.flatten).map (base + ·) := by
  induction chunks using List.reverseRecOn with
  | nil => rfl
  | append_singleton chunks chunk ih =>
      have hfull' : ∀ part ∈ chunks, part.length = patchChunk := fun part hpart =>
        hfull part (List.mem_append_left _ hpart)
      rw [List.mapIdx_concat, List.reverse_concat, List.findSome?_cons, ih hfull',
        List.flatten_append, List.flatten_singleton, lastIdx_append, latest_indexOf,
        length_flatten_full hfull']
      cases lastIdx (holdsWord col word) chunk with
      | none => simp
      | some i => simp [Nat.add_assoc]

namespace RowPatch

variable {p : RowPatch} {base : ℕ} {key : Option ℕ} {rows : List (List Cell)}

theorem Laid.rowWith (h : p.Laid base key rows) (col : ℕ) (word : UInt64) :
    p.rowWith col word = (lastIdx (holdsWord col word) rows).map (base + ·) := by
  rw [RowPatch.rowWith, h.keyIs, h.based]
  split
  case isTrue =>
    rw [all, h.listed]
    exact foldl_found _ _ _
  case isFalse hkey =>
    have hcol : key = some col := not_not.1 hkey
    rw [h.keyed col hcol, findSome?_keyed col base word h.full, ← h.listed, lastIdx_append,
      length_flatten_full h.full]
    cases lastIdx (holdsWord col word) p.tail with
    | none => simp
    | some i => simp [Nat.add_assoc]

theorem Reads.span (h : p.Reads base key rows) (lo hi row : ℕ) :
    (p.span lo hi).1 ≤ row ∧ row < (p.span lo hi).2 ↔
      (lo ≤ row ∧ row < hi) ∧ base ≤ row ∧ row < base + rows.length := by
  rw [RowPatch.span, h.based, h.counted]
  simp only [max_le_iff, lt_max_iff, lt_min_iff]
  omega

/-- The patch answers as the list of rows does. -/
structure Answers (p : RowPatch) (base : ℕ) (key : Option ℕ) (rows : List (List Cell)) : Prop where
  all : p.all = rows
  get : ∀ col row, p.get col row = cellAt base rows col row
  word : ∀ col row, p.word col row = (cellAt base rows col row).map laneWord
  bytesOf : ∀ col row, p.bytesOf col row = (cellAt base rows col row).map blobBytes
  settable : ∀ col row, p.settable col row = writable base key rows col row
  rowWith : ∀ col word, p.rowWith col word = (lastIdx (holdsWord col word) rows).map (base + ·)
  span : ∀ lo hi row, (p.span lo hi).1 ≤ row ∧ row < (p.span lo hi).2 ↔
    (lo ≤ row ∧ row < hi) ∧ base ≤ row ∧ row < base + rows.length
  len : p.len = rows.length
  bytes : p.bytes = (rows.map rowBytes).sum

theorem Reads.answers (h : p.Reads base key rows) : p.Answers base key rows where
  all := h.listed
  get := h.get
  word := fun col row => by rw [word, h.get]
  bytesOf := fun col row => by rw [bytesOf, h.get]
  settable := h.settable
  rowWith := h.rowWith
  span := h.span
  len := h.counted
  bytes := h.weighed

theorem Reads.apply (h : p.Reads base key rows) (call : RowWrite) :
    (call.apply p).Reads base key (call.plain base key rows) ∧
      call.answer p = call.plainAnswer base key rows := by
  cases call with
  | push cells =>
      constructor
      · exact h.push cells
      · rw [RowWrite.answer, RowWrite.plainAnswer, h.based, h.counted]
  | set col row value =>
      obtain ⟨hreads, htook⟩ := h.set col row value
      constructor
      · exact hreads
      · rw [RowWrite.answer, RowWrite.plainAnswer, htook]

end RowPatch

end Zu.Props
