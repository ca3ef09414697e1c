import Zu.Props.CellPatch
import Zu.Props.SharedRows

/-!
# What is laid over the columns

A cell patch holds its runs behind counted pointers and seals a run beside the one it
replaces. With the rows of `SharedRows` this is all a commit leaves over the columns
until a fold, and both read as what was written, a copy as what had been when it was
taken.
-/

namespace Zu.Props

open Lib Txn

/-- `CellPatch` with its pointers. -/
structure CellHold where
  runs : ℕ → Option ℕ := fun _ => none
  cols : ℕ → List (ℕ × UInt64) := fun _ => []
  strs : ℕ → List (ℕ × Bytes) := fun _ => []
  bytes : ℕ := 0
  cells : ℕ := 0

namespace CellHold

def read (h : List (List (ℕ × UInt64))) (p : CellHold) : CellPatch where
  runs := fun col => ((p.runs col).bind fun a => h[a]?).getD []
  cols := p.cols
  strs := p.strs
  bytes := p.bytes
  cells := p.cells

/-- `seal`: the new run is built beside the old one. -/
def sealColumn (h : List (List (ℕ × UInt64))) (p : CellHold) (col : ℕ) :
    List (List (ℕ × UInt64)) × CellHold :=
  (h ++ [overlay ((p.read h).runs col) (p.cols col)],
    { p with
      cols := Function.update p.cols col []
      runs := Function.update p.runs col (some h.length) })

def set (h : List (List (ℕ × UInt64))) (p : CellHold) (col row : ℕ) (word : UInt64) :
    List (List (ℕ × UInt64)) × CellHold :=
  let recent := overlay (p.cols col) [(row, word)]
  let written : CellHold :=
    { p with
      cols := Function.update p.cols col recent
      cells := if ((p.read h).get col row).isNone then p.cells + 1 else p.cells }
  if patchSeal ≤ recent.length then written.sealColumn h col else (h, written)

def setBytes (p : CellHold) (col row : ℕ) (value : Bytes) : CellHold :=
  let strs := Function.update p.strs col (overlay (p.strs col) [(row, value)])
  match find row (p.strs col) with
  | some was => { p with strs, bytes := p.bytes + value.length - was.length }
  | none => { p with strs, bytes := p.bytes + value.length, cells := p.cells + 1 }

def apply (h : List (List (ℕ × UInt64))) (p : CellHold) :
    CellWrite → List (List (ℕ × UInt64)) × CellHold
  | .word col row w => p.set h col row w
  | .bytes col row value => (h, p.setBytes col row value)
  | .sealColumn col => p.sealColumn h col

/-- The heap holds the runs. -/
def Held (h : List (List (ℕ × UInt64))) (p : CellHold) : Prop :=
  ∀ col a, p.runs col = some a → a < h.length

variable {h : List (List (ℕ × UInt64))} {p : CellHold}

theorem Held.read_append (hheld : p.Held h) (more : List (List (ℕ × UInt64))) :
    p.read (h ++ more) = p.read h := by
  rw [read, read]
  congr 1
  funext col
  cases hrun : p.runs col with
  | none => rfl
  | some a => rw [Option.bind_some, Option.bind_some, List.getElem?_append_left (hheld col a hrun)]

theorem Held.append (hheld : p.Held h) (more : List (List (ℕ × UInt64))) : p.Held (h ++ more) := by
  intro col a ha
  rw [List.length_append]
  exact (hheld col a ha).trans_le (Nat.le_add_right _ _)

theorem sealColumn_read (hheld : p.Held h) (col : ℕ) :
    (p.sealColumn h col).2.read (p.sealColumn h col).1 = (p.read h).sealColumn col := by
  have hcol : ∀ col', ((p.sealColumn h col).2.read (p.sealColumn h col).1).runs col' =
      ((p.read h).sealColumn col).runs col' := by
    intro col'
    by_cases hc : col' = col
    · subst hc
      simp [sealColumn, CellPatch.sealColumn, read]
    · have hkept := congrArg (fun q => CellPatch.runs q col')
        (hheld.read_append [overlay ((p.read h).runs col) (p.cols col)])
      simp only [sealColumn, CellPatch.sealColumn, Function.update_of_ne hc]
      simp only [read, Function.update_of_ne hc] at hkept ⊢
      exact hkept
  apply CellPatch.ext
  · exact funext hcol
  · rfl
  · rfl
  · rfl
  · rfl

theorem sealColumn_held (hheld : p.Held h) (col : ℕ) :
    (p.sealColumn h col).2.Held (p.sealColumn h col).1 := by
  intro col' a ha
  by_cases hc : col' = col
  · subst hc
    have hat : h.length = a := by simpa [sealColumn] using ha
    rw [← hat, sealColumn, List.length_append]
    exact Nat.lt_succ_self _
  · have hat : p.runs col' = some a := by simpa [sealColumn, Function.update_of_ne hc] using ha
    exact hheld.append _ col' a hat

/-- A call does to what the patch reads as what it does to a patch, and the heap grows. -/
structure Becomes (h : List (List (ℕ × UInt64))) (next : List (List (ℕ × UInt64)) × CellHold)
    (v : CellPatch) : Prop where
  read : next.2.read next.1 = v
  held : next.2.Held next.1
  grown : ∃ more, next.1 = h ++ more

theorem apply_becomes (hheld : p.Held h) (write : CellWrite) :
    Becomes h (p.apply h write) (write.apply (p.read h)) := by
  cases write with
  | word col row w =>
      have hwritten : Held h
          { p with
            cols := Function.update p.cols col (overlay (p.cols col) [(row, w)])
            cells := if ((p.read h).get col row).isNone then p.cells + 1 else p.cells } := hheld
      rw [apply, CellWrite.apply, set, CellPatch.set]
      by_cases hfull : patchSeal ≤ (overlay (p.cols col) [(row, w)]).length
      · have hread : patchSeal ≤ (overlay ((p.read h).cols col) [(row, w)]).length := hfull
        exact
          { read := by
              simp only [if_pos hfull, sealColumn_read hwritten]
              exact (if_pos hread).symm
            held := by
              simp only [if_pos hfull]
              exact sealColumn_held hwritten col
            grown := by
              simp only [if_pos hfull]
              exact ⟨_, rfl⟩ }
      · have hread : ¬ patchSeal ≤ (overlay ((p.read h).cols col) [(row, w)]).length := hfull
        exact
          { read := by
              simp only [if_neg hfull]
              exact (if_neg hread).symm
            held := by
              simp only [if_neg hfull]
              exact hwritten
            grown := by
              simp only [if_neg hfull]
              exact ⟨[], (List.append_nil h).symm⟩ }
  | bytes col row value =>
      have hread : (p.setBytes col row value).read h = (p.read h).setBytes col row value := by
        rw [setBytes, CellPatch.setBytes]
        simp only [read]
        cases find row (p.strs col) <;> rfl
      have hruns : (p.setBytes col row value).runs = p.runs := by
        rw [setBytes]
        cases find row (p.strs col) <;> rfl
      exact
        { read := hread
          held := fun col' a ha => hheld col' a (hruns ▸ ha)
          grown := ⟨[], (List.append_nil h).symm⟩ }
  | sealColumn col =>
      exact
        { read := sealColumn_read hheld col
          held := sealColumn_held hheld col
          grown := ⟨_, rfl⟩ }

end CellHold

/-- A cell patch and the copies of it that readers hold. -/
structure CellWorld where
  heap : List (List (ℕ × UInt64)) := []
  patch : CellHold := {}
  readers : List CellHold := []

def CellWorld.step (w : CellWorld) : Event CellWrite → CellWorld
  | .call write =>
      let next := w.patch.apply w.heap write
      { w with heap := next.1, patch := next.2 }
  | .share => { w with readers := w.patch :: w.readers }
  | .release i => { w with readers := w.readers.eraseIdx i }

/-- A patch behind pointers that holds what the plain maps hold. -/
structure CellHold.Reads (h : List (List (ℕ × UInt64))) (p : CellHold) (c : Cells) : Prop where
  held : p.Held h
  reads : (p.read h).Reads c

theorem CellHold.Reads.append {h : List (List (ℕ × UInt64))} {p : CellHold} {c : Cells}
    (hreads : p.Reads h c) (more : List (List (ℕ × UInt64))) : p.Reads (h ++ more) c where
  held := hreads.held.append more
  reads := by
    rw [hreads.held.read_append]
    exact hreads.reads

structure CellWorld.Sound (w : CellWorld) (plain : Copies Cells) : Prop where
  patch : w.patch.Reads w.heap plain.now
  readers : List.Forall₂ (CellHold.Reads w.heap) w.readers plain.readers

namespace CellWorld

theorem sound_new : Sound {} { now := {} } where
  patch :=
    { held := fun _ _ h => nomatch h
      reads := CellPatch.reads_empty }
  readers := List.Forall₂.nil

theorem Sound.step {w : CellWorld} {plain : Copies Cells} (hsound : w.Sound plain)
    (event : Event CellWrite) : (w.step event).Sound (plain.step CellWrite.plain event) := by
  cases event with
  | share =>
      exact
        { patch := hsound.patch
          readers := List.Forall₂.cons hsound.patch hsound.readers }
  | release i =>
      exact
        { patch := hsound.patch
          readers := forall₂_eraseIdx hsound.readers i }
  | call write =>
      have hnext := CellHold.apply_becomes hsound.patch.held write
      exact
        { patch :=
            { held := hnext.held
              reads := by
                have hreads := hsound.patch.reads.apply write
                rw [← hnext.read] at hreads
                exact hreads }
          readers := by
            obtain ⟨more, hmore⟩ := hnext.grown
            apply hsound.readers.imp
            intro p c hreads
            change p.Reads (w.patch.apply w.heap write).1 c
            rw [hmore]
            exact hreads.append more }

theorem sound_foldl {w : CellWorld} {plain : Copies Cells} (hsound : w.Sound plain)
    (events : List (Event CellWrite)) :
    (events.foldl CellWorld.step w).Sound (events.foldl (Copies.step CellWrite.plain) plain) := by
  induction events generalizing w plain with
  | nil => exact hsound
  | cons event events ih => exact ih (hsound.step event)

end CellWorld

/-- Whatever calls are made, copies taken and let go of, the patches and every copy read
as the plain maps and the list of rows that the calls leave: a copy as those were when it
was taken. -/
theorem overlays_exact (cellEvents : List (Event CellWrite)) (base : ℕ) (key : Option ℕ)
    (rowEvents : List (Event RowWrite)) :
    (let w := cellEvents.foldl CellWorld.step {}
      let plain := cellEvents.foldl (Copies.step CellWrite.plain) { now := {} }
      (w.patch.read w.heap).Answers plain.now ∧
        List.Forall₂ (fun p c => (p.read w.heap).Answers c) w.readers plain.readers) ∧
      (let w := rowEvents.foldl RowWorld.step (RowWorld.new base key)
        let plain := rowEvents.foldl (Copies.step (RowWrite.plain base key)) { now := [] }
        (w.patch.read w.heap).Answers base key plain.now ∧
          List.Forall₂ (fun p rows => (p.read w.heap).Answers base key rows) w.readers
            plain.readers ∧
          ∀ call : RowWrite, call.answer (w.patch.read w.heap) =
            call.plainAnswer base key plain.now) := by
  have hcells := CellWorld.sound_foldl CellWorld.sound_new cellEvents
  have hrows := RowWorld.sound_foldl (RowWorld.sound_new base key) rowEvents
  constructor
  · constructor
    · exact hcells.patch.reads.answers
    · exact hcells.readers.imp fun p c hreads => hreads.reads.answers
  · constructor
    · exact hrows.patch.answers
    · constructor
      · exact hrows.readers.imp fun p rows hreads => hreads.answers
      · exact fun call => hrows.patch.answer call

end Zu.Props
