import Zu.Txn.Commit
import Zu.Lib.Stamped

/-!
# Reads at an old epoch

A commit stamps what it publishes with the next epoch and leaves every entry that is
there where it is, so the overlays only grow by entries later than any epoch that
could be read before it. `Overlays.Grown` says so field by field, and no read at such
an epoch tells grown overlays from the old ones.
-/

namespace Zu.Txn

open Lib Wal

variable {mark : Epoch}

/-- A table's overlay that has grown by entries past the mark. -/
structure TableOverlay.Grown (mark : Epoch) (t t' : TableOverlay) : Prop where
  appended : Later AppendBatch.epoch mark t.appended t'.appended
  tombstones : ∀ row : UInt64,
    Later id mark (t.tombstones[row]?).toList (t'.tombstones[row]?).toList
  updates : LaterMap Prod.fst mark t.updates t'.updates
  labels : LaterMap Prod.fst mark t.labels t'.labels

/-- A rel table's overlay that has grown by entries past the mark. -/
structure RelOverlay.Grown (mark : Epoch) (r r' : RelOverlay) : Prop where
  edges : Later OverlayEdge.epoch mark r.edges r'.edges
  dead : LaterMap id mark r.dead r'.dead
  updates : LaterMap Prod.fst mark r.updates r'.updates

namespace TableOverlay

theorem Grown.refl (t : TableOverlay) : t.Grown mark t where
  appended := Later.refl _ _ _
  tombstones _ := Later.refl _ _ _
  updates := LaterMap.refl _ _ _
  labels := LaterMap.refl _ _ _

theorem Grown.trans {t t' t'' : TableOverlay} (h : t.Grown mark t')
    (h' : t'.Grown mark t'') : t.Grown mark t'' where
  appended := h.appended.trans h'.appended
  tombstones row := (h.tombstones row).trans (h'.tombstones row)
  updates := h.updates.trans h'.updates
  labels := h.labels.trans h'.labels

theorem grown_append (t : TableOverlay) {b : AppendBatch} (h : mark < b.epoch) :
    t.Grown mark (t.append b) :=
  { Grown.refl t with appended := Later.concat _ h }

/-- A row that is gone keeps its epoch, and one that goes is gone past the mark. -/
theorem grown_bury (t : TableOverlay) (offset : UInt64) {epoch : Epoch} (h : mark < epoch) :
    t.Grown mark (t.bury offset epoch) := by
  refine { Grown.refl t with tombstones := fun row => ?_ }
  by_cases hrow : offset = row
  · subst hrow
    rw [bury, getElem?_entry_self]
    cases t.tombstones[offset]? with
    | none => exact Later.concat [] h
    | some e => exact Later.refl _ _ _
  · rw [bury, getElem?_entry_of_ne _ hrow]
    exact Later.refl _ _ _

theorem grown_write (t : TableOverlay) (offset : UInt64) (col : UInt32) {epoch : Epoch}
    (value : Cell) (h : mark < epoch) : t.Grown mark (t.write offset col epoch value) :=
  { Grown.refl t with updates := LaterMap.entry _ _ fun l => Later.concat l h }

theorem grown_label (t : TableOverlay) (row : UInt64) {epoch : Epoch} (add remove : UInt64)
    (h : mark < epoch) : t.Grown mark (t.label row epoch add remove) :=
  { Grown.refl t with labels := LaterMap.entry _ _ fun l => Later.concat l h }

end TableOverlay

theorem later_stamp {epoch : Epoch} (h : mark < epoch) (stamps : List Epoch) :
    Later id mark stamps (stamp epoch stamps) := by
  rw [stamp]
  split_ifs
  · exact Later.refl _ _ _
  · exact Later.concat stamps h

namespace RelOverlay

theorem Grown.refl (r : RelOverlay) : r.Grown mark r where
  edges := Later.refl _ _ _
  dead := LaterMap.refl _ _ _
  updates := LaterMap.refl _ _ _

theorem Grown.trans {r r' r'' : RelOverlay} (h : r.Grown mark r') (h' : r'.Grown mark r'') :
    r.Grown mark r'' where
  edges := h.edges.trans h'.edges
  dead := h.dead.trans h'.dead
  updates := h.updates.trans h'.updates

theorem grown_insert (r : RelOverlay) {e : OverlayEdge} (h : mark < e.epoch) :
    r.Grown mark (r.insert e) :=
  { Grown.refl r with edges := Later.concat _ h }

theorem grown_kill (r : RelOverlay) (src dst : UInt64) {epoch : Epoch} (h : mark < epoch) :
    r.Grown mark (r.kill src dst epoch) :=
  { Grown.refl r with dead := LaterMap.entry _ _ (later_stamp h) }

theorem grown_write (r : RelOverlay) (src dst : UInt64) (col : UInt32) {epoch : Epoch}
    (value : Cell) (h : mark < epoch) : r.Grown mark (r.write src dst col epoch value) :=
  { Grown.refl r with updates := LaterMap.entry _ _ fun l => Later.concat l h }

theorem grown_insertAll (r : RelOverlay) {edges : List OverlayEdge}
    (h : ∀ e ∈ edges, mark < e.epoch) : r.Grown mark (edges.foldl RelOverlay.insert r) := by
  induction edges generalizing r with
  | nil => exact Grown.refl r
  | cons e edges ih =>
      have hfirst : r.Grown mark (r.insert e) := r.grown_insert (h e List.mem_cons_self)
      exact hfirst.trans (ih _ fun e he => h e (List.mem_cons_of_mem _ he))

end RelOverlay

namespace Overlays

/-- The overlay of a node table, which is empty until something is published. -/
def tableOf (o : Overlays) (t : UInt32) : TableOverlay := (o.tables[t]?).getD {}

def relOf (o : Overlays) (r : UInt32) : RelOverlay := (o.rels[r]?).getD {}

/-- Overlays that have grown by entries past the mark. -/
structure Grown (mark : Epoch) (o o' : Overlays) : Prop where
  table : ∀ t, (o.tableOf t).Grown mark (o'.tableOf t)
  rel : ∀ r, (o.relOf r).Grown mark (o'.relOf r)

theorem Grown.refl (o : Overlays) : o.Grown mark o where
  table _ := TableOverlay.Grown.refl _
  rel _ := RelOverlay.Grown.refl _

theorem Grown.trans {o o' o'' : Overlays} (h : o.Grown mark o') (h' : o'.Grown mark o'') :
    o.Grown mark o'' where
  table t := (h.table t).trans (h'.table t)
  rel r := (h.rel r).trans (h'.rel r)

theorem grown_table (o : Overlays) (t : UInt32) {f : TableOverlay → TableOverlay}
    (hf : ∀ t : TableOverlay, t.Grown mark (f t)) : o.Grown mark (o.table t f) where
  table := entry_rel TableOverlay.Grown.refl o.tables t {} hf
  rel _ := RelOverlay.Grown.refl _

theorem grown_rel (o : Overlays) (r : UInt32) {f : RelOverlay → RelOverlay}
    (hf : ∀ r : RelOverlay, r.Grown mark (f r)) : o.Grown mark (o.rel r f) where
  table _ := TableOverlay.Grown.refl _
  rel := entry_rel RelOverlay.Grown.refl o.rels r {} hf

theorem grown_publish (o : Overlays) {epoch : Epoch} (h : mark < epoch) (op : Op) :
    o.Grown mark (o.publish epoch op) := by
  cases op with
  | insertNodes table cols rows => exact o.grown_table table fun t => t.grown_append h
  | insertRel rel src dst cols => exact o.grown_rel rel fun r => r.grown_insert h
  | update table offset col value =>
      exact o.grown_table table fun t => t.grown_write offset col value h
  | delete table offset => exact o.grown_table table fun t => t.grown_bury offset h
  | deleteRel rel src dst => exact o.grown_rel rel fun r => r.grown_kill src dst h
  | updateRel rel src dst col value =>
      exact o.grown_rel rel fun r => r.grown_write src dst col value h
  | updateLabels table row add remove =>
      exact o.grown_table table fun t => t.grown_label row add remove h

end Overlays

namespace Mvcc

theorem grown_foldl_publish {epoch : Epoch} (h : mark < epoch) (ops : List Op) (m : Mvcc) :
    m.toOverlays.Grown mark (ops.foldl (Mvcc.publish epoch) m).toOverlays := by
  induction ops generalizing m with
  | nil => exact Overlays.Grown.refl _
  | cons op ops ih =>
      have hfirst : m.toOverlays.Grown mark (m.publish epoch op).toOverlays :=
        m.toOverlays.grown_publish h op
      exact hfirst.trans (ih _)

theorem grown_apply (m : Mvcc) {epoch : Epoch} (h : mark < epoch) (ops : List Op) :
    m.toOverlays.Grown mark (m.apply epoch ops).toOverlays :=
  grown_foldl_publish h ops { m with deferred := [] }

theorem grown_publishIngest (m : Mvcc) {epoch : Epoch} (h : mark < epoch) (table : UInt32)
    (payload : IngestPayload) (root : UInt64) :
    m.toOverlays.Grown mark (m.publishIngest epoch table payload root).toOverlays := by
  cases payload with
  | nodes cols rows => exact m.toOverlays.grown_table table fun t => t.grown_append h
  | edges src dst =>
      refine m.toOverlays.grown_rel table fun r => ?_
      have hmap : (src.zip dst).foldl
            (fun r e => r.insert { epoch, src := e.1, dst := e.2, cols := [] }) r =
          ((src.zip dst).map fun e =>
            ({ epoch, src := e.1, dst := e.2, cols := [] } : OverlayEdge)).foldl
              RelOverlay.insert r := by
        rw [List.foldl_map]
      rw [hmap]
      apply r.grown_insertAll
      intro e he
      obtain ⟨p, -, rfl⟩ := List.mem_map.1 he
      exact h

end Mvcc

/-! ### Reads at the mark -/

theorem newest_eq {chain chain' : Chain} (h : Later Prod.fst mark chain chain') :
    Mvcc.newest chain' mark = Mvcc.newest chain mark := by
  rw [Mvcc.newest, Mvcc.newest, h.find?_reverse_eq]
  intro e he
  simpa using he

/-- Batches past the mark hold no row for a reader at the mark. -/
theorem appendedCell_later (col : UInt32) (offset pos : ℕ) {batches : List AppendBatch}
    (h : ∀ b ∈ batches, mark < b.epoch) :
    Mvcc.appendedCell col mark offset pos batches = none := by
  induction batches with
  | nil => rfl
  | cons b batches ih =>
      have hb : ¬ b.epoch ≤ mark := Nat.not_le.2 (h b List.mem_cons_self)
      rw [Mvcc.appendedCell, if_neg fun hvisible => hb hvisible.1, if_neg hb]
      exact ih fun c hc => h c (List.mem_cons_of_mem b hc)

theorem appendedCell_eq {batches batches' : List AppendBatch}
    (h : Later AppendBatch.epoch mark batches batches') (col : UInt32) (offset pos : ℕ) :
    Mvcc.appendedCell col mark offset pos batches' =
      Mvcc.appendedCell col mark offset pos batches := by
  obtain ⟨new, rfl, hnew⟩ := h
  induction batches generalizing pos with
  | nil =>
      rw [List.nil_append, appendedCell_later col offset pos hnew]
      rfl
  | cons b batches ih =>
      rw [List.cons_append, Mvcc.appendedCell, Mvcc.appendedCell]
      split_ifs
      · rfl
      · exact ih _
      · exact ih _

namespace Mvcc

theorem appendedRows_eq (m : Mvcc) (table : UInt32) (epoch : Epoch) :
    m.appendedRows table epoch =
      (((m.tableOf table).appended.filter fun b => b.epoch ≤ epoch).map
        AppendBatch.rows).sum := by
  rw [appendedRows, Overlays.tableOf]
  cases m.tables[table]? <;> rfl

theorem isDeleted_eq (m : Mvcc) (table : UInt32) (offset : UInt64) (epoch : Epoch) :
    m.isDeleted table offset epoch =
      ((m.tableOf table).tombstones[offset]?).toList.any fun e => e ≤ epoch := by
  rw [isDeleted, Overlays.tableOf]
  cases m.tables[table]? with
  | none => rfl
  | some t =>
      rw [Option.getD_some]
      change Option.any _ (t.tombstones[offset]?) = _
      cases t.tombstones[offset]? <;> simp

theorem tombstones_eq (m : Mvcc) (table : UInt32) (epoch : Epoch) :
    m.tombstones table epoch =
      ((m.tableOf table).tombstones.filter fun _ e => e ≤ epoch).toList.map Prod.fst := by
  rw [tombstones, Overlays.tableOf, Std.ExtTreeMap.toList_filter]
  cases m.tables[table]? <;> rfl

theorem cell_eq (m : Mvcc) (table : UInt32) (baseCount : ℕ) (offset : UInt64) (col : UInt32)
    (epoch : Epoch) :
    m.cell table baseCount offset col epoch =
      match newest ((m.tableOf table).updates[(offset, col)]?.getD []) epoch with
      | some value => some value
      | none =>
          if offset.toNat < baseCount then none
          else appendedCell col epoch offset.toNat baseCount (m.tableOf table).appended := by
  rw [cell, Overlays.tableOf]
  cases m.tables[table]? with
  | none =>
      change none = if offset.toNat < baseCount then none else none
      rw [ite_self]
  | some t =>
      change (match (t.updates[(offset, col)]?).bind fun chain => newest chain epoch with
        | some value => some value
        | none => _) = match newest (t.updates[(offset, col)]?.getD []) epoch with
        | some value => some value
        | none => _
      cases t.updates[(offset, col)]? <;> rfl

theorem colUpdates_eq (m : Mvcc) (table col : UInt32) (baseCount : ℕ) (epoch : Epoch) :
    m.colUpdates table col baseCount epoch =
      (((m.tableOf table).updates.filterMap fun key chain =>
          if key.2 = col ∧ key.1.toNat < baseCount then newest chain epoch
          else none).toList.map fun e => (e.1.1, e.2)).mergeSort fun a b => a.1 ≤ b.1 := by
  rw [colUpdates, Overlays.tableOf, Std.ExtTreeMap.toList_filterMap]
  cases m.tables[table]? with
  | none => exact List.mergeSort_nil.symm
  | some t =>
      rw [Option.getD_some]
      change List.mergeSort (List.filterMap _ (List.filter _ t.updates.toList)) _ = _
      rw [List.filterMap_filter, List.map_filterMap]
      congr 2
      funext e
      by_cases hread : e.1.2 = col ∧ e.1.1.toNat < baseCount
      · rw [if_pos (by simpa using hread), if_pos hread, Option.map_map]
        rfl
      · rw [if_neg (by simpa using hread), if_neg hread]
        rfl

theorem labelChanges_eq (m : Mvcc) (table : UInt32) (epoch : Epoch) :
    m.labelChanges table epoch =
      (m.tableOf table).labels.filterMap fun _ chain =>
        let seen := chain.filter fun e => e.1 ≤ epoch
        if seen = [] then none else some (composeLabels seen) := by
  rw [labelChanges, Overlays.tableOf]
  cases m.tables[table]? <;> rfl

theorem edgeGone_eq (m : Mvcc) (rel : UInt32) (src dst : UInt64) (since epoch : Epoch) :
    m.edgeGone rel src dst since epoch =
      ((m.relOf rel).dead[(src, dst)]?.getD []).any fun e => since ≤ e && e ≤ epoch := by
  rw [edgeGone, Overlays.relOf]
  cases m.rels[rel]? with
  | none => rfl
  | some r =>
      rw [Option.getD_some]
      change Option.any _ (r.dead[(src, dst)]?) = _
      cases r.dead[(src, dst)]? <;> rfl

theorem edgeCells_eq (m : Mvcc) (rel : UInt32) (epoch : Epoch) :
    m.edgeCells rel epoch =
      ((m.relOf rel).edges.filter fun e =>
        e.epoch ≤ epoch && !m.edgeGone rel e.src e.dst e.epoch epoch).map
          fun e => (e.src, e.dst, e.cols) := by
  rw [edgeCells, Overlays.relOf]
  cases m.rels[rel]? <;> rfl

theorem neighbors_eq (m : Mvcc) (rel : UInt32) (node : UInt64) (reversed : Bool)
    (epoch : Epoch) :
    m.neighbors rel node reversed epoch =
      (m.relOf rel).edges.filterMap fun e =>
        if epoch < e.epoch ∨ m.edgeGone rel e.src e.dst e.epoch epoch then none
        else if !reversed ∧ e.src = node then some e.dst
        else if reversed ∧ e.dst = node then some e.src
        else none := by
  rw [neighbors, Overlays.relOf]
  cases m.rels[rel]? <;> rfl

theorem deadEdges_eq (m : Mvcc) (rel : UInt32) (epoch : Epoch) :
    m.deadEdges rel epoch =
      ((m.relOf rel).dead.filterMap fun _ stamps =>
        if stamps.head?.any (· ≤ epoch) then some () else none).toList.map Prod.fst := by
  rw [deadEdges, Overlays.relOf, Std.ExtTreeMap.toList_filterMap]
  cases m.rels[rel]? with
  | none => rfl
  | some r =>
      rw [Option.getD_some]
      change List.map _ (List.filter _ r.dead.toList) = _
      rw [List.map_filterMap, ← List.filterMap_eq_map, List.filterMap_filter]
      congr 1
      funext e
      split_ifs <;> rfl

theorem edgeUpdates_eq (m : Mvcc) (rel : UInt32) (epoch : Epoch) :
    m.edgeUpdates rel epoch =
      (m.relOf rel).updates.filterMap fun _ chain => newest chain epoch := by
  rw [edgeUpdates, Overlays.relOf]
  cases m.rels[rel]? <;> rfl

end Mvcc

/-- What every read of one epoch answers, the same in two stores. -/
structure SameReadsAt (epoch : Epoch) (m m' : Mvcc) : Prop where
  cell : ∀ table baseCount offset col,
    m'.cell table baseCount offset col epoch = m.cell table baseCount offset col epoch
  appendedRows : ∀ table, m'.appendedRows table epoch = m.appendedRows table epoch
  isDeleted : ∀ table offset, m'.isDeleted table offset epoch = m.isDeleted table offset epoch
  tombstones : ∀ table, m'.tombstones table epoch = m.tombstones table epoch
  neighbors : ∀ rel node reversed,
    m'.neighbors rel node reversed epoch = m.neighbors rel node reversed epoch
  edgeGone : ∀ rel src dst since,
    m'.edgeGone rel src dst since epoch = m.edgeGone rel src dst since epoch
  edgeCells : ∀ rel, m'.edgeCells rel epoch = m.edgeCells rel epoch
  deadEdges : ∀ rel, m'.deadEdges rel epoch = m.deadEdges rel epoch
  edgeUpdates : ∀ rel, m'.edgeUpdates rel epoch = m.edgeUpdates rel epoch
  labelChanges : ∀ table, m'.labelChanges table epoch = m.labelChanges table epoch
  colUpdates : ∀ table col baseCount,
    m'.colUpdates table col baseCount epoch = m.colUpdates table col baseCount epoch

theorem edgeGone_grown {m m' : Mvcc} (h : m.toOverlays.Grown mark m'.toOverlays)
    (rel : UInt32) (src dst : UInt64) (since : Epoch) :
    m'.edgeGone rel src dst since mark = m.edgeGone rel src dst since mark := by
  rw [Mvcc.edgeGone_eq, Mvcc.edgeGone_eq, ((h.rel rel).dead (src, dst)).any_eq]
  intro e he
  have hpast : ¬ e ≤ mark := Nat.not_le.2 he
  simp [hpast]

theorem SameReadsAt.of_grown {m m' : Mvcc} (h : m.toOverlays.Grown mark m'.toOverlays) :
    SameReadsAt mark m m' where
  cell table baseCount offset col := by
    rw [Mvcc.cell_eq, Mvcc.cell_eq, newest_eq ((h.table table).updates (offset, col)),
      appendedCell_eq (h.table table).appended]
  appendedRows table := by
    rw [Mvcc.appendedRows_eq, Mvcc.appendedRows_eq, (h.table table).appended.filter_eq]
    intro b hb
    simpa using hb
  isDeleted table offset := by
    rw [Mvcc.isDeleted_eq, Mvcc.isDeleted_eq, ((h.table table).tombstones offset).any_eq]
    intro e he
    simpa using he
  tombstones table := by
    have hsame : (m'.tableOf table).tombstones.filter (fun _ e => e ≤ mark) =
        (m.tableOf table).tombstones.filter fun _ e => e ≤ mark := by
      apply Std.ExtTreeMap.ext_getElem?
      intro row
      have hrow := ((h.table table).tombstones row).filter_eq
        (p := fun e => decide (e ≤ mark)) fun e he => by simpa using he
      rw [Std.ExtTreeMap.getElem?_filter', Std.ExtTreeMap.getElem?_filter']
      rw [← Option.toList_filter, ← Option.toList_filter] at hrow
      apply Option.ext
      intro e
      exact Option.mem_toList.symm.trans (hrow ▸ Option.mem_toList)
    rw [Mvcc.tombstones_eq, Mvcc.tombstones_eq, hsame]
  neighbors rel node reversed := by
    rw [Mvcc.neighbors_eq, Mvcc.neighbors_eq]
    simp only [edgeGone_grown h]
    rw [(h.rel rel).edges.filterMap_eq]
    intro e he
    rw [if_pos (Or.inl he)]
  edgeGone := edgeGone_grown h
  edgeCells rel := by
    rw [Mvcc.edgeCells_eq, Mvcc.edgeCells_eq]
    simp only [edgeGone_grown h]
    rw [(h.rel rel).edges.filter_eq]
    intro e he
    have hpast : ¬ e.epoch ≤ mark := Nat.not_le.2 he
    simp [hpast]
  deadEdges rel := by
    rw [Mvcc.deadEdges_eq, Mvcc.deadEdges_eq, (h.rel rel).dead.filterMap_eq (by simp)]
    intro _ stamps stamps' hlater
    rw [hlater.head?_any_eq]
    intro e he
    simpa using he
  edgeUpdates rel := by
    rw [Mvcc.edgeUpdates_eq, Mvcc.edgeUpdates_eq]
    apply (h.rel rel).updates.filterMap_eq
    · exact fun _ => rfl
    · exact fun _ _ _ hlater => newest_eq hlater
  labelChanges table := by
    rw [Mvcc.labelChanges_eq, Mvcc.labelChanges_eq]
    apply (h.table table).labels.filterMap_eq
    · exact fun _ => rfl
    · intro _ chain chain' hlater
      simp only []
      rw [hlater.filter_eq]
      intro e he
      simpa using he
  colUpdates table col baseCount := by
    rw [Mvcc.colUpdates_eq, Mvcc.colUpdates_eq]
    congr 3
    apply (h.table table).updates.filterMap_eq
    · exact fun _ => ite_self _
    · intro _ chain chain' hlater
      rw [newest_eq hlater]

/-! ### Runs of commits -/

variable {crc : Bytes → UInt32}

/-- A commit grows the overlays past every epoch that can be read before it. -/
theorem Side.grown_commit (s : Side) (c : Commit) (h : mark ≤ s.mvcc.epoch) :
    s.mvcc.toOverlays.Grown mark (s.commit crc c).mvcc.toOverlays ∧
      mark ≤ (s.commit crc c).mvcc.epoch := by
  have hnext : mark < s.mvcc.epoch + 1 := Nat.lt_succ_of_le h
  rcases s.commit_cases c with hsame | ⟨ops, htxn⟩ | ⟨table, payload, root, hingest⟩
  · rw [hsame]
    exact ⟨Overlays.Grown.refl _, h⟩
  · rw [htxn]
    exact ⟨s.mvcc.grown_apply hnext ops, hnext.le⟩
  · rw [hingest]
    exact ⟨s.mvcc.grown_publishIngest hnext table payload root,
      h.trans (le_max_left _ _)⟩

/-- A read at an epoch the store has reached answers the same after any commits,
whatever the store and its log held before them. -/
theorem reads_stable {s s' : Side} (hrun : Run (Side.step crc) anyAction s s')
    {epoch : Epoch} (hepoch : epoch ≤ s.mvcc.epoch) :
    SameReadsAt epoch s.mvcc s'.mvcc := by
  have hkeep : ∀ t c t', (s.mvcc.toOverlays.Grown epoch t.mvcc.toOverlays ∧
      epoch ≤ t.mvcc.epoch) → anyAction t c → Side.step crc t c = some t' →
        s.mvcc.toOverlays.Grown epoch t'.mvcc.toOverlays ∧ epoch ≤ t'.mvcc.epoch := by
    intro t c t' ht _ hstep
    rw [Side.step] at hstep
    split_ifs at hstep
    cases hstep
    obtain ⟨hgrown, hle⟩ := @Side.grown_commit _ crc t c ht.2
    exact ⟨ht.1.trans hgrown, hle⟩
  obtain ⟨hgrown, -⟩ := hrun.invariant hkeep ⟨Overlays.Grown.refl _, hepoch⟩
  exact SameReadsAt.of_grown hgrown

/-- A store that has lost row 3 of table 0 at epoch 1, and a log with no frame in
it. -/
def lostRow : Side where
  mvcc := (Mvcc.new 0).apply 1 [.delete 0 3]
  log := { file := { bytes := [], plan := [] }, commits := Marks.new 0, len := 0,
           reserved := 0, buf := [] }

/-- Another row deleted, a row added, and a value written onto it. -/
def laterRows : Commit where
  change := .txn [.delete 0 4, .insertNodes 0 [(0, [.int 7])], .update 0 5 0 (.int 8)]
  plan := []
  took := 0

theorem reads_stable_lostRow :
    SameReadsAt 1 lostRow.mvcc (lostRow.commit crc32c laterRows).mvcc :=
  reads_stable ((Run.refl lostRow).tail trivial (if_pos (by decide))) (le_refl 1)

end Zu.Txn
