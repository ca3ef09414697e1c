import Zu.Txn.WriteTxn
import Zu.Lib.Trace

/-!
# What a fold writes into a column

A fold asks the overlay for the rows of a column it holds a value for, rather than for
each row in turn. The rows it is told are the rows a reader is given a value for, and a
column patched with them holds what a reader is given.
-/

namespace Zu.Txn

open Lib Wal

/-! ### Columns -/

/-- What a column can hold: the cells it takes and what it stores of them, the check of
a value, and what it stores for an absence. -/
structure Lane (α : Type) where
  take : Cell → Option α
  give : α → Cell
  give_take : ∀ {c v}, take c = some v → give v = c
  admits : α → Except ZuError Unit
  absent : α

def wordLane : Lane UInt64 where
  take
    | .int x => some x
    | _ => none
  give := .int
  give_take := by
    intro c v h
    cases c <;> cases h
    rfl
  admits _ := .ok ()
  absent := 0

/-- The byte strings of a column, whose declared width is `width` when it has one. -/
def blobLane (name type : String) (width : Option ℕ) : Lane Bytes where
  take
    | .str s => some s
    | _ => none
  give := .str
  give_take := by
    intro c v h
    cases c <;> cases h
    rfl
  admits s :=
    match width with
    | some n =>
        if s.length ≠ n then
          .error (.invalidArgument s!"column '{name}' is {type} and was given {s.length} octets")
        else .ok ()
    | none => .ok ()
  absent := width.elim [] fun n => List.replicate n 0

/-- A column: what is stored of its rows, and which of them hold a value. -/
structure Column (α : Type) where
  values : List α
  valid : List Bool

namespace Column

variable {α : Type}

def set (c : Column α) (row : ℕ) (v : α) : Column α where
  values := c.values.set row v
  valid := c.valid.set row true

/-- Takes the value out of a row, and stores `absent` there. -/
def clear (c : Column α) (row : ℕ) (absent : α) : Column α where
  values := c.values.set row absent
  valid := c.valid.set row false

/-- What a fold does with the rows the overlay lists. -/
def patch (lane : Lane α) (name : String) : List (UInt64 × Cell) → Column α →
    Except ZuError (Column α)
  | [], c => .ok c
  | (offset, .null) :: us, c => patch lane name us (c.clear offset.toNat lane.absent)
  | (offset, cell) :: us, c =>
      match lane.take cell with
      | none => .error (.invalidArgument
          s!"row {offset} of column '{name}' does not match its stored type")
      | some v => do
          lane.admits v
          patch lane name us (c.set offset.toNat v)

def cells (lane : Lane α) (c : Column α) : List Cell :=
  List.zipWith (fun valid v => if valid then lane.give v else .null) c.valid c.values

end Column

def patchCells (base : List Cell) (us : List (UInt64 × Cell)) : List Cell :=
  rewriteAt (fun cell _ => cell) base (us.map fun u => (u.1.toNat, u.2))

section

variable {α : Type} (lane : Lane α)

theorem zipWith_set {β γ δ : Type} (f : β → γ → δ) (bs : List β) (cs : List γ) (i : ℕ) (b : β)
    (c : γ) : List.zipWith f (bs.set i b) (cs.set i c) =
      (List.zipWith f bs cs).modify i fun _ => f b c := by
  induction i generalizing bs cs with
  | zero => cases bs <;> cases cs <;> rfl
  | succ i ih =>
      cases bs with
      | nil => rfl
      | cons b' bs =>
          cases cs with
          | nil => rfl
          | cons c' cs => exact congrArg _ (ih bs cs)

theorem cells_set (c : Column α) (row : ℕ) (v : α) :
    (c.set row v).cells lane = (c.cells lane).modify row fun _ => lane.give v :=
  zipWith_set _ c.valid c.values row true v

theorem cells_clear (c : Column α) (row : ℕ) (absent : α) :
    (c.clear row absent).cells lane = (c.cells lane).modify row fun _ => .null :=
  zipWith_set _ c.valid c.values row false absent

theorem cells_patch {name : String} {us : List (UInt64 × Cell)} {c c' : Column α}
    (h : c.patch lane name us = .ok c') : c'.cells lane = patchCells (c.cells lane) us := by
  induction us generalizing c with
  | nil =>
      cases h
      rfl
  | cons u us ih =>
      obtain ⟨offset, cell⟩ := u
      have hput : ∀ {v : α}, lane.take cell = some v →
          (lane.admits v >>= fun _ => (c.set offset.toNat v).patch lane name us) = .ok c' →
          c'.cells lane = patchCells (c.cells lane) ((offset, cell) :: us) := by
        intro v htake hrest
        obtain ⟨u, -, hpatch⟩ := except_bind_ok.1 hrest
        rw [ih hpatch, cells_set, lane.give_take htake]
        rfl
      cases cell with
      | null =>
          rw [Column.patch] at h
          rw [ih h, cells_clear]
          rfl
      | int x =>
          rw [Column.patch] at h
          · cases htake : lane.take (.int x) with
            | none =>
                rw [htake] at h
                cases h
            | some v =>
                rw [htake] at h
                exact hput htake h
          · exact fun h => nomatch h
      | str s =>
          rw [Column.patch] at h
          · cases htake : lane.take (.str s) with
            | none =>
                rw [htake] at h
                cases h
            | some v =>
                rw [htake] at h
                exact hput htake h
          · exact fun h => nomatch h

end

/-! ### The rows the overlay lists -/

section

variable (m : Mvcc) (table col : UInt32) (epoch : Epoch)

theorem mem_colUpdates {baseCount : ℕ} {row : UInt64} {value : Cell} :
    (row, value) ∈ m.colUpdates table col baseCount epoch ↔ row.toNat < baseCount ∧
      ∃ t chain, m.tables[table]? = some t ∧ t.updates[(row, col)]? = some chain ∧
        Mvcc.newest chain epoch = some value := by
  rw [Mvcc.colUpdates]
  cases m.tables[table]? with
  | none => exact iff_of_false List.not_mem_nil fun ⟨_, t, _, h, _⟩ => nomatch h
  | some t =>
      change _ ∈ List.mergeSort _ _ ↔ _
      rw [List.mem_mergeSort, List.mem_filterMap]
      constructor
      · rintro ⟨⟨⟨offset, c⟩, chain⟩, hmem, hvalue⟩
        rw [List.mem_filter, Std.ExtTreeMap.mem_toList_iff_getElem?_eq_some,
          decide_eq_true_eq] at hmem
        obtain ⟨hget, hcol, hrow⟩ := hmem
        rw [Option.map_eq_some_iff] at hvalue
        obtain ⟨v, hnewest, heq⟩ := hvalue
        cases heq
        cases hcol
        exact ⟨hrow, t, chain, rfl, hget, hnewest⟩
      · rintro ⟨hrow, t', chain, ht, hget, hnewest⟩
        cases ht
        refine ⟨((row, col), chain), ?_, ?_⟩
        · rw [List.mem_filter, Std.ExtTreeMap.mem_toList_iff_getElem?_eq_some, decide_eq_true_eq]
          exact ⟨hget, rfl, hrow⟩
        · rw [hnewest]
          rfl

theorem mem_colUpdates_iff_cell {baseCount : ℕ} {row : UInt64} (h : row.toNat < baseCount)
    {value : Cell} : (row, value) ∈ m.colUpdates table col baseCount epoch ↔
      m.cell table baseCount row col epoch = some value := by
  rw [mem_colUpdates, and_iff_right h, Mvcc.cell]
  cases m.tables[table]? with
  | none => exact iff_of_false (fun ⟨t, _, h, _⟩ => nomatch h) fun h => nomatch h
  | some t =>
      rw [Option.bind_some, if_pos h]
      cases hchain : t.updates[(row, col)]? with
      | none =>
          apply iff_of_false
          · rintro ⟨t', chain, ht, hget, -⟩
            cases ht
            rw [hchain] at hget
            cases hget
          · exact fun h => nomatch h
      | some chain =>
          rw [Option.bind_some]
          cases hnewest : Mvcc.newest chain epoch with
          | none =>
              apply iff_of_false
              · rintro ⟨t', chain', ht, hget, hvalue⟩
                cases ht
                rw [hchain] at hget
                cases hget
                rw [hnewest] at hvalue
                cases hvalue
              · exact fun h => nomatch h
          | some v =>
              constructor
              · rintro ⟨t', chain', ht, hget, hvalue⟩
                cases ht
                rw [hchain] at hget
                cases hget
                rwa [hnewest] at hvalue
              · exact fun h => ⟨t, chain, rfl, hchain, hnewest.trans h⟩

theorem ascending_mergeSort {us : List (UInt64 × Cell)} (h : us.Pairwise fun a b => a.1 ≠ b.1) :
    (us.mergeSort fun a b => a.1 ≤ b.1).Pairwise fun a b => a.1 < b.1 := by
  have hsorted := @List.pairwise_mergeSort _ (fun a b : UInt64 × Cell => a.1 ≤ b.1)
    (fun a b c hab hbc => by
      rw [decide_eq_true_eq] at hab hbc ⊢
      exact UInt64.le_trans hab hbc)
    (fun a b => by
      rw [Bool.or_eq_true, decide_eq_true_eq, decide_eq_true_eq]
      exact UInt64.le_total a.1 b.1) us
  have hdistinct := ((List.mergeSort_perm us fun a b => a.1 ≤ b.1).pairwise_iff
    fun hne => hne.symm).2 h
  apply (hsorted.and hdistinct).imp
  intro a b hab
  exact UInt64.lt_of_le_of_ne (of_decide_eq_true hab.1) hab.2

theorem ascending_colUpdates (baseCount : ℕ) :
    (m.colUpdates table col baseCount epoch).Pairwise fun a b => a.1 < b.1 := by
  rw [Mvcc.colUpdates]
  cases m.tables[table]? with
  | none => exact List.Pairwise.nil
  | some t =>
      apply ascending_mergeSort
      rw [List.pairwise_filterMap, List.pairwise_filter]
      apply t.updates.distinct_keys_toList.imp
      intro a b hne ha hb u hu v hv heq
      rw [decide_eq_true_eq] at ha hb
      obtain ⟨value, -, rfl⟩ := Option.map_eq_some_iff.1 hu
      obtain ⟨value', -, rfl⟩ := Option.map_eq_some_iff.1 hv
      apply hne
      rw [show a.1 = b.1 from Prod.ext heq (ha.1.trans hb.1.symm)]
      exact Std.ReflCmp.compare_self

theorem nodup_rows (baseCount : ℕ) :
    ((m.colUpdates table col baseCount epoch).map fun u => u.1.toNat).Nodup := by
  apply List.Pairwise.map _ _ (ascending_colUpdates m table col epoch baseCount)
  intro a b h
  exact (UInt64.lt_iff_toNat_lt.1 h).ne

end

/-- A column patched with the rows the overlay lists holds in every row what a reader
is given for it, and what the base holds where the reader is given nothing. The rows
listed ascend. -/
theorem patched_eq_cell (m : Mvcc) (table col : UInt32) (epoch : Epoch) (base : List Cell) :
    ((m.colUpdates table col base.length epoch).Pairwise fun a b => a.1 < b.1) ∧
    (∀ row : UInt64, row.toNat < base.length →
      (patchCells base (m.colUpdates table col base.length epoch))[row.toNat]? =
        (m.cell table base.length row col epoch).or base[row.toNat]?) ∧
    ∀ {α : Type} (lane : Lane α) (name : String) (c c' : Column α), c.cells lane = base →
      c.patch lane name (m.colUpdates table col base.length epoch) = .ok c' →
      c'.cells lane = patchCells base (m.colUpdates table col base.length epoch) := by
  refine ⟨ascending_colUpdates m table col epoch base.length, fun row hrow => ?_, ?_⟩
  · cases hcell : m.cell table base.length row col epoch with
    | none =>
        apply getElem?_rewriteAt_of_not_mem
        intro u hu heq
        obtain ⟨v, hv, rfl⟩ := List.mem_map.1 hu
        have hrowv : (row, v.2) ∈ m.colUpdates table col base.length epoch :=
          UInt64.toNat_inj.1 heq ▸ hv
        have hval := (mem_colUpdates_iff_cell m table col epoch hrow).1 hrowv
        rw [hcell] at hval
        cases hval
    | some value =>
        have hmem := (mem_colUpdates_iff_cell m table col epoch hrow).2 hcell
        rw [patchCells, getElem?_rewriteAt_of_mem (b := value)]
        · rw [List.getElem?_eq_getElem hrow]
          rfl
        · rw [List.map_map]
          exact nodup_rows m table col epoch base.length
        · exact List.mem_map.2 ⟨_, hmem, rfl⟩
  · intro α lane name c c' hbase h
    rw [← hbase]
    exact cells_patch lane (hbase ▸ h)

/-- A store of two commits that wrote one row of a column. -/
def twoWrites : Mvcc :=
  ((Mvcc.new 0).apply 1 [.update 1 0 0 (.int 7)]).apply 2 [.update 1 0 0 (.int 8)]

theorem patched_twoWrites :
    (patchCells [.int 1, .null] (twoWrites.colUpdates 1 0 2 1))[0]? =
      (twoWrites.cell 1 2 0 0 1).or (some (.int 1)) :=
  (patched_eq_cell twoWrites 1 0 1 [.int 1, .null]).2.1 0 (by decide)

end Zu.Txn
