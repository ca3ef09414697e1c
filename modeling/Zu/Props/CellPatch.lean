import Zu.Lib.Ascending
import Zu.Lib.Latest
import Zu.Lib.Bytes

/-!
# Cells written over a column

What a commit writes onto stored rows is kept beside the columns until a fold: for each
lane column a sorted run and a short map of what came since, for each blob column a map.
Maps are in key order. It reads as the plain map from cells to what was last written to
them, and counts what that map holds.
-/

namespace Zu.Props

open Lib

def patchSeal : ℕ := 32

/-- `CellPatch`. A column no map has is one with nothing in it. -/
@[ext]
structure CellPatch where
  runs : ℕ → List (ℕ × UInt64) := fun _ => []
  cols : ℕ → List (ℕ × UInt64) := fun _ => []
  strs : ℕ → List (ℕ × Bytes) := fun _ => []
  bytes : ℕ := 0
  cells : ℕ := 0

namespace CellPatch

/-- The word written onto a row of a lane column: the recent ones first, and then a
search of the run. -/
def get (p : CellPatch) (col row : ℕ) : Option UInt64 :=
  match find row (p.cols col) with
  | some word => some word
  | none => searchKey row (p.runs col)

/-- The bytes written onto a row of a blob column. -/
def bytesOf (p : CellPatch) (col row : ℕ) : Option Bytes := find row (p.strs col)

/-- Folds a column's recent cells into its run. -/
def sealColumn (p : CellPatch) (col : ℕ) : CellPatch :=
  { p with
    cols := Function.update p.cols col []
    runs := Function.update p.runs col (overlay (p.runs col) (p.cols col)) }

def set (p : CellPatch) (col row : ℕ) (word : UInt64) : CellPatch :=
  let recent := overlay (p.cols col) [(row, word)]
  let written : CellPatch :=
    { p with
      cols := Function.update p.cols col recent
      cells := if (p.get col row).isNone then p.cells + 1 else p.cells }
  if patchSeal ≤ recent.length then written.sealColumn col else written

def setBytes (p : CellPatch) (col row : ℕ) (value : Bytes) : CellPatch :=
  let strs := Function.update p.strs col (overlay (p.strs col) [(row, value)])
  match find row (p.strs col) with
  | some was => { p with strs, bytes := p.bytes + value.length - was.length }
  | none => { p with strs, bytes := p.bytes + value.length, cells := p.cells + 1 }

/-- Whether a lane column has anything over it. -/
def holds (p : CellPatch) (col : ℕ) : Bool := !(p.runs col).isEmpty || !(p.cols col).isEmpty

/-- The entries of a lane column for the rows `lo..hi`, the run's and then the recent. -/
def span (p : CellPatch) (col lo hi : ℕ) : List (ℕ × UInt64) :=
  cut lo hi (p.runs col) ++ cut lo hi (p.cols col)

/-- The same of a blob column. -/
def strSpan (p : CellPatch) (col lo hi : ℕ) : List (ℕ × Bytes) := cut lo hi (p.strs col)

end CellPatch

/-- A call on the patch: the write of a cell, or the seal of a column. -/
inductive CellWrite
  | word (col row : ℕ) (word : UInt64)
  | bytes (col row : ℕ) (value : Bytes)
  | sealColumn (col : ℕ)

/-- The plain maps: what was last written onto each cell of the lanes and of the blobs. -/
structure Cells where
  lanes : List ((ℕ × ℕ) × UInt64) := []
  blobs : List ((ℕ × ℕ) × Bytes) := []

namespace CellWrite

def apply (p : CellPatch) : CellWrite → CellPatch
  | .word col row w => p.set col row w
  | .bytes col row value => p.setBytes col row value
  | .sealColumn col => p.sealColumn col

/-- What a call does to the plain maps. -/
def plain (c : Cells) : CellWrite → Cells
  | .word col row w => { c with lanes := write (col, row) w c.lanes }
  | .bytes col row value => { c with blobs := write (col, row) value c.blobs }
  | .sealColumn _ => c

end CellWrite

namespace CellPatch

/-- A patch that holds what the plain maps hold, and counts it. -/
structure Reads (p : CellPatch) (c : Cells) : Prop where
  runs : ∀ col, Ascending (p.runs col)
  cols : ∀ col, Ascending (p.cols col)
  strs : ∀ col, Ascending (p.strs col)
  word : ∀ col row, (find row (p.cols col)).or (find row (p.runs col)) = latest (col, row) c.lanes
  blob : ∀ col row, find row (p.strs col) = latest (col, row) c.blobs
  lanesOnce : (c.lanes.map Prod.fst).Nodup
  blobsOnce : (c.blobs.map Prod.fst).Nodup
  cells : p.cells = c.lanes.length + c.blobs.length
  bytes : p.bytes = (c.blobs.map fun e => e.2.length).sum

theorem reads_empty : Reads {} {} where
  runs := fun _ => List.Pairwise.nil
  cols := fun _ => List.Pairwise.nil
  strs := fun _ => List.Pairwise.nil
  word := fun _ _ => rfl
  blob := fun _ _ => rfl
  lanesOnce := List.nodup_nil
  blobsOnce := List.nodup_nil
  cells := rfl
  bytes := rfl

theorem get_eq {p : CellPatch} {c : Cells} (h : p.Reads c) (col row : ℕ) :
    p.get col row = latest (col, row) c.lanes := by
  rw [← h.word, get, searchKey_eq_find (h.runs col)]
  cases find row (p.cols col) <;> rfl

/-- Sealing a column moves its recent cells and changes no answer. -/
theorem Reads.sealColumn {p : CellPatch} {c : Cells} (h : p.Reads c) (col : ℕ) : (p.sealColumn col).Reads c where
  runs := by
    intro col'
    by_cases hc : col' = col
    · subst hc
      simp only [CellPatch.sealColumn, Function.update_self]
      exact ascending_overlay (h.runs col') (h.cols col')
    · simp only [CellPatch.sealColumn, Function.update_of_ne hc]
      exact h.runs col'
  cols := by
    intro col'
    by_cases hc : col' = col
    · subst hc
      simp only [CellPatch.sealColumn, Function.update_self]
      exact List.Pairwise.nil
    · simp only [CellPatch.sealColumn, Function.update_of_ne hc]
      exact h.cols col'
  strs := h.strs
  word := by
    intro col' row
    rw [← h.word]
    by_cases hc : col' = col
    · subst hc
      simp only [CellPatch.sealColumn, Function.update_self]
      rw [find_overlay (h.runs col') (h.cols col')]
      exact Option.none_or
    · simp only [CellPatch.sealColumn, Function.update_of_ne hc]
  blob := h.blob
  lanesOnce := h.lanesOnce
  blobsOnce := h.blobsOnce
  cells := h.cells
  bytes := h.bytes

theorem ascending_single {α : Type} (e : ℕ × α) : Ascending [e] := List.pairwise_singleton _ _

theorem find_single {α : Type} (row k : ℕ) (v : α) :
    find k [(row, v)] = if row = k then some v else none := by
  rw [find, List.find?_singleton]
  by_cases hk : row = k
  · simp [hk]
  · simp [hk]

/-- What is found in a map that was written at one column and row. -/
theorem find_update {α : Type} {m : ℕ → List (ℕ × α)} (h : ∀ col, Ascending (m col))
    (col row : ℕ) (v : α) (col' row' : ℕ) :
    find row' (Function.update m col (overlay (m col) [(row, v)]) col') =
      if (col, row) = (col', row') then some v else find row' (m col') := by
  by_cases hc : col' = col
  · subst hc
    rw [Function.update_self, find_overlay (h col') (ascending_single _), find_single]
    by_cases hr : row = row'
    · rw [if_pos hr, if_pos (by rw [hr]), Option.some_or]
    · rw [if_neg hr, if_neg fun heq => hr (congrArg Prod.snd heq), Option.none_or]
  · rw [Function.update_of_ne hc, if_neg fun heq => hc (congrArg Prod.fst heq).symm]

theorem ascending_update {α : Type} {m : ℕ → List (ℕ × α)} (h : ∀ col, Ascending (m col))
    (col row : ℕ) (v : α) (col' : ℕ) :
    Ascending (Function.update m col (overlay (m col) [(row, v)]) col') := by
  by_cases hc : col' = col
  · subst hc
    rw [Function.update_self]
    exact ascending_overlay (h col') (ascending_single _)
  · rw [Function.update_of_ne hc]
    exact h col'

theorem Reads.set {p : CellPatch} {c : Cells} (h : p.Reads c) (col row : ℕ) (word : UInt64) :
    (p.set col row word).Reads { c with lanes := write (col, row) word c.lanes } := by
  have hwritten : Reads
      { p with
        cols := Function.update p.cols col (overlay (p.cols col) [(row, word)])
        cells := if (p.get col row).isNone then p.cells + 1 else p.cells }
      { c with lanes := write (col, row) word c.lanes } :=
    { runs := h.runs
      cols := ascending_update h.cols col row word
      strs := h.strs
      word := by
        intro col' row'
        rw [latest_write, ← h.word]
        simp only [find_update h.cols]
        split
        · exact Option.some_or
        · rfl
      blob := h.blob
      lanesOnce := nodup_write h.lanesOnce _ _
      blobsOnce := h.blobsOnce
      cells := by
        simp only [length_write h.lanesOnce, get_eq h, h.cells]
        cases latest (col, row) c.lanes with
        | none => simp only [Option.isNone_none, Option.isSome_none, if_true, Bool.false_eq_true,
            if_false]; omega
        | some w => simp
      bytes := h.bytes }
  rw [CellPatch.set]
  split
  · exact hwritten.sealColumn col
  · exact hwritten

theorem Reads.setBytes {p : CellPatch} {c : Cells} (h : p.Reads c) (col row : ℕ) (value : Bytes) :
    (p.setBytes col row value).Reads { c with blobs := write (col, row) value c.blobs } := by
  have hsum := sum_write h.blobsOnce List.length (col, row) value
  have hlen := length_write h.blobsOnce (col, row) value
  have hblob := h.blob col row
  have hfound := fun col' row' => find_update h.strs col row value col' row'
  have hanswer : ∀ col' row',
      find row' (Function.update p.strs col (overlay (p.strs col) [(row, value)]) col') =
        latest (col', row') (write (col, row) value c.blobs) := by
    intro col' row'
    rw [hfound, latest_write, h.blob]
  rw [← hblob] at hsum hlen
  rw [CellPatch.setBytes]
  cases hwas : find row (p.strs col) with
  | some was =>
      rw [hwas] at hsum hlen
      simp only [Option.map_some, Option.getD_some, Option.isSome_some, if_true] at hsum hlen
      exact
        { runs := h.runs
          cols := h.cols
          strs := ascending_update h.strs col row value
          word := h.word
          blob := hanswer
          lanesOnce := h.lanesOnce
          blobsOnce := nodup_write h.blobsOnce _ _
          cells := by rw [hlen]; exact h.cells
          bytes := by
            have hbytes := h.bytes
            simp only
            omega }
  | none =>
      rw [hwas] at hsum hlen
      simp only [Option.map_none, Option.getD_none, Option.isSome_none, Bool.false_eq_true,
        if_false] at hsum hlen
      exact
        { runs := h.runs
          cols := h.cols
          strs := ascending_update h.strs col row value
          word := h.word
          blob := hanswer
          lanesOnce := h.lanesOnce
          blobsOnce := nodup_write h.blobsOnce _ _
          cells := by
            have hcells := h.cells
            simp only
            omega
          bytes := by
            have hbytes := h.bytes
            simp only
            omega }

theorem Reads.apply {p : CellPatch} {c : Cells} (h : p.Reads c) (write : CellWrite) :
    (write.apply p).Reads (write.plain c) := by
  cases write with
  | word col row w => exact h.set col row w
  | bytes col row value => exact h.setBytes col row value
  | sealColumn col => exact h.sealColumn col

/-- Writing the entries of a span in their order leaves what the map holds there. -/
theorem lastOf_span {p : CellPatch} {c : Cells} (h : p.Reads c) (col lo hi row : ℕ) :
    lastOf row (p.span col lo hi) =
      if lo ≤ row ∧ row < hi then latest (col, row) c.lanes else none := by
  rw [span, lastOf_append, lastOf_eq_find (ascending_cut (h.runs col) lo hi),
    lastOf_eq_find (ascending_cut (h.cols col) lo hi), find_cut (h.runs col),
    find_cut (h.cols col), ← h.word]
  split <;> rfl

theorem find_strSpan {p : CellPatch} {c : Cells} (h : p.Reads c) (col lo hi row : ℕ) :
    find row (p.strSpan col lo hi) =
      if lo ≤ row ∧ row < hi then latest (col, row) c.blobs else none := by
  rw [strSpan, find_cut (h.strs col), h.blob]

theorem holds_iff {p : CellPatch} {c : Cells} (h : p.Reads c) (col : ℕ) :
    p.holds col = true ↔ ∃ row, (latest (col, row) c.lanes).isSome := by
  have hfound : ∀ m : List (ℕ × UInt64), Ascending m → (m ≠ [] ↔ ∃ row, (find row m).isSome) := by
    intro m hm
    constructor
    · intro hne
      obtain ⟨e, he⟩ := List.exists_mem_of_ne_nil m hne
      exact ⟨e.1, by rw [(find_eq_some hm).2 he]; rfl⟩
    · rintro ⟨row, hrow⟩ hnil
      rw [hnil] at hrow
      exact nomatch hrow
  have hsplit : p.holds col = true ↔ p.runs col ≠ [] ∨ p.cols col ≠ [] := by
    simp [holds]
  rw [hsplit, hfound _ (h.runs col), hfound _ (h.cols col)]
  simp only [← h.word, Option.isSome_or, Bool.or_eq_true]
  constructor
  · rintro (⟨row, hrow⟩ | ⟨row, hrow⟩)
    · exact ⟨row, Or.inr hrow⟩
    · exact ⟨row, Or.inl hrow⟩
  · rintro ⟨row, hrow | hrow⟩
    · exact Or.inr ⟨row, hrow⟩
    · exact Or.inl ⟨row, hrow⟩

/-- The patch answers as the plain maps do. A later entry of a span is the newer one. -/
structure Answers (p : CellPatch) (c : Cells) : Prop where
  get : ∀ col row, p.get col row = latest (col, row) c.lanes
  bytesOf : ∀ col row, p.bytesOf col row = latest (col, row) c.blobs
  holds : ∀ col, p.holds col = true ↔ ∃ row, (latest (col, row) c.lanes).isSome
  span : ∀ col lo hi row, lastOf row (p.span col lo hi) =
    if lo ≤ row ∧ row < hi then latest (col, row) c.lanes else none
  strSpan : ∀ col lo hi row, find row (p.strSpan col lo hi) =
    if lo ≤ row ∧ row < hi then latest (col, row) c.blobs else none
  cells : p.cells = c.lanes.length + c.blobs.length
  bytes : p.bytes = (c.blobs.map fun e => e.2.length).sum

theorem Reads.answers {p : CellPatch} {c : Cells} (h : p.Reads c) : p.Answers c where
  get := get_eq h
  bytesOf := h.blob
  holds := holds_iff h
  span := lastOf_span h
  strSpan := find_strSpan h
  cells := h.cells
  bytes := h.bytes

end CellPatch

end Zu.Props
