import Zu.Txn.WriteTxn

/-!
# Runs of one kind

A batch is cut into runs of cells of one kind, and each run is one logged column.
The runs laid end to end are the batch, and a logged column gives back the cells
of its run.
-/

namespace Zu.Txn

open Lib Wal

/-- The cells of a run, all of one kind. -/
def OneKind (cells : List Cell) : Prop := ∀ c ∈ cells, ∀ d ∈ cells, kindOf c = kindOf d

theorem kindRuns_ne_nil {α : Type} (l : List (α × Cell)) :
    ∀ run ∈ kindRuns l, run ≠ [] := by
  induction l with
  | nil => simp [kindRuns]
  | cons x xs ih =>
      rw [kindRuns]
      split
      · rename_i y run runs hruns
        rw [hruns] at ih
        split_ifs
        · simpa using fun r hr => ih r (List.mem_cons_of_mem _ hr)
        · simpa using fun r hr => ih r (List.mem_cons_of_mem _ hr)
      · simpa using ih

@[simp] theorem flatten_kindRuns {α : Type} (l : List (α × Cell)) :
    (kindRuns l).flatten = l := by
  induction l with
  | nil => rfl
  | cons x xs ih =>
      rw [kindRuns]
      split
      · rename_i y run runs hruns
        rw [hruns] at ih
        split_ifs
        · simpa using ih
        · simpa using ih
      · simpa using ih

theorem oneKind_of_mem_kindRuns {α : Type} (l : List (α × Cell)) :
    ∀ run ∈ kindRuns l, OneKind (run.map Prod.snd) := by
  induction l with
  | nil => simp [kindRuns]
  | cons x xs ih =>
      have hsingle : OneKind ([x].map Prod.snd) := by
        intro c hc d hd
        rw [List.mem_singleton.1 hc, List.mem_singleton.1 hd]
      rw [kindRuns]
      split
      · rename_i y run runs hruns
        rw [hruns] at ih
        have hrun := ih _ List.mem_cons_self
        have hrest : ∀ r ∈ runs, OneKind (r.map Prod.snd) :=
          fun r hr => ih r (List.mem_cons_of_mem _ hr)
        split_ifs with hkind
        · intro r hr
          rcases List.mem_cons.1 hr with rfl | hr
          · -- the head has the kind of the run it joins
            have hall : ∀ c ∈ (x :: y :: run).map Prod.snd, kindOf c = kindOf y.2 := by
              intro c hc
              rcases List.mem_cons.1 hc with rfl | hc
              · exact hkind
              · exact hrun c hc y.2 (by simp)
            intro c hc d hd
            rw [hall c hc, hall d hd]
          · exact hrest r hr
        · intro r hr
          rcases List.mem_cons.1 hr with rfl | hr
          · exact hsingle
          · exact ih r hr
      · intro r hr
        rcases List.mem_cons.1 hr with rfl | hr
        · exact hsingle
        · exact ih r hr

theorem cellValues_oneKind {cells : List Cell} (h : OneKind cells) :
    cellValues cells = .ok (runValues cells) := by
  have hnone : (cells.any fun c => kindOf c ≠ cells.head?.elim .int kindOf) = false := by
    rw [List.any_eq_false]
    intro c hc
    cases cells with
    | nil => simp at hc
    | cons d cells => simp [h c hc d List.mem_cons_self]
  rw [runValues, cellValues]
  simp only [hnone]
  rfl

theorem oneKind_of_cellValues {cells : List Cell} {v : WalValues}
    (h : cellValues cells = .ok v) : OneKind cells ∧ v = runValues cells := by
  have hv : v = runValues cells := by rw [runValues, h]; rfl
  refine ⟨?_, hv⟩
  rw [cellValues] at h
  split at h
  · cases h
  · rename_i hany
    have hsame : ∀ c ∈ cells, kindOf c = cells.head?.elim .int kindOf := by
      intro c hc
      by_contra hne
      exact hany (List.any_eq_true.2 ⟨c, hc, decide_eq_true hne⟩)
    intro c hc d hd
    rw [hsame c hc, hsame d hd]

theorem runValues_eq {cells : List Cell} (h : OneKind cells) :
    runValues cells =
      match cells.head?.elim .int kindOf with
      | .int => .int (cells.map Cell.word)
      | .str => .str (cells.map Cell.bytes)
      | .null => .null (UInt32.ofNat cells.length) := by
  have hok := cellValues_oneKind h
  rw [cellValues] at hok
  split at hok
  · cases hok
  · exact (Except.ok.inj hok).symm

theorem kindOf_eq_head {cells : List Cell} (h : OneKind cells) {c : Cell}
    (hc : c ∈ cells) : cells.head?.elim .int kindOf = kindOf c := by
  cases cells with
  | nil => simp at hc
  | cons d cells => exact h d List.mem_cons_self c hc

theorem cellAt_runValues {cells : List Cell} (h : OneKind cells) {i : ℕ}
    (hi : i < cells.length) : cellAt (runValues cells) i = cells[i] := by
  have hkind := kindOf_eq_head h (List.getElem_mem hi)
  rw [runValues_eq h, hkind]
  cases hc : cells[i] with
  | int x => simp [kindOf, cellAt, hi, hc, Cell.word]
  | str s => simp [kindOf, cellAt, hi, hc, Cell.bytes]
  | null => rfl

theorem len_runValues {cells : List Cell} (h : OneKind cells)
    (hlen : cells.length < 2 ^ 32) : (runValues cells).len = cells.length := by
  rw [runValues_eq h]
  split
  · simp [WalValues.len]
  · simp [WalValues.len]
  · simpa [WalValues.len] using hlen

end Zu.Txn
