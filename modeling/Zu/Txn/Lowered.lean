import Zu.Txn.Regroup
import Zu.Wal.Delivered

/-!
# The records of a transaction

Each of the six parts a lowering writes out stands for the ops of one shape, and
at every key the parts together hold the staged ops in their order
(`filter_recordOps`). The rows of a node insert are counted in 32 bits when every
value is an absence, so this needs a batch to be shorter than that.
-/

namespace Zu.Txn

open Lib Wal

/-- What the staging calls guarantee of an op. -/
def Op.Built : Op → Prop
  | .insertNodes _ cols rows =>
      (∀ c ∈ cols, ∃ cells, OneKind cells ∧ cells.length = rows ∧
        c.values = runValues cells) ∧ (cols = [] → rows = 0)
  | .updateLabels _ _ add remove => add &&& remove = 0
  | _ => True

theorem loggedColumns_spec {cols : List (UInt32 × List Cell)} {out : List WalColumn}
    (h : (cols.mapM fun c => do
      return ({ col := c.1, values := ← cellValues c.2 } : WalColumn) :
        Except ZuError (List WalColumn)) = .ok out) :
    out.length = cols.length ∧
      ∀ c ∈ out, ∃ e ∈ cols, cellValues e.2 = .ok c.values := by
  induction cols generalizing out with
  | nil =>
      cases h
      simp
  | cons e cols ih =>
      rw [List.mapM_cons] at h
      cases hv : cellValues e.2 with
      | error err => rw [hv] at h; cases h
      | ok v =>
          rw [hv] at h
          cases hrest : (cols.mapM fun c => do
              return ({ col := c.1, values := ← cellValues c.2 } : WalColumn) :
                Except ZuError (List WalColumn)) with
          | error err => simp only [bind_pure_comp] at h hrest; rw [hrest] at h; cases h
          | ok rest =>
              obtain ⟨hlen, hall⟩ := ih hrest
              simp only [bind_pure_comp] at h hrest
              rw [hrest] at h
              cases h
              refine ⟨by simp [hlen], fun c hc => ?_⟩
              rcases List.mem_cons.1 hc with rfl | hc
              · exact ⟨e, List.mem_cons_self, hv⟩
              · obtain ⟨e', he', hval⟩ := hall c hc
                exact ⟨e', List.mem_cons_of_mem e he', hval⟩

/-- Every op a call stages is built as the staging calls promise. -/
theorem built_of_op {c : Call} {op : Op} (h : c.op = .ok op) : op.Built := by
  cases c with
  | insertNodes table cols =>
      rw [Call.op, Txn.insertNodes] at h
      set rows := cols.head?.elim 0 fun c => c.2.length with hrows
      by_cases hragged : (cols.any fun c => decide (c.2.length ≠ rows)) = true
      · rw [if_pos hragged] at h
        cases h
      rw [if_neg hragged] at h
      cases hout : (cols.mapM fun c => do
          return ({ col := c.1, values := ← cellValues c.2 } : WalColumn) :
            Except ZuError (List WalColumn)) with
      | error err => rw [hout] at h; cases h
      | ok out =>
          rw [hout] at h
          cases h
          obtain ⟨hlen, hall⟩ := loggedColumns_spec hout
          refine ⟨fun c hc => ?_, fun hnil => ?_⟩
          · obtain ⟨e, he, hval⟩ := hall c hc
            obtain ⟨hkind, hvalues⟩ := oneKind_of_cellValues hval
            refine ⟨e.2, hkind, ?_, hvalues⟩
            by_contra hne
            exact hragged (List.any_eq_true.2 ⟨e, he, decide_eq_true hne⟩)
          · rw [hnil] at hlen
            rw [hrows, List.length_eq_zero_iff.1 hlen.symm]
            rfl
  | updateLabels table row add remove =>
      simp only [Call.op, updateLabels] at h
      split at h
      · cases h
      · rename_i hmasks
        cases h
        exact not_not.1 hmasks
  | _ => cases h; trivial

/-- The rows of a node insert can be counted in 32 bits. -/
def Op.RowsFit : Op → Prop
  | .insertNodes _ _ rows => rows < 2 ^ 32
  | _ => True

instance : DecidablePred Op.RowsFit := fun op => by
  cases op <;> unfold Op.RowsFit <;> infer_instance

def selectUpdate : Op → Option (BatchKey × (UInt64 × Cell))
  | .update table offset col value => some ((table, groupOf offset, col), (offset, value))
  | _ => none

def updateOp (key : BatchKey) (e : UInt64 × Cell) : Op := .update key.1 e.1 key.2.2 e.2

def selectEdgeUpdate : Op → Option ((UInt32 × UInt32) × (Pair × Cell))
  | .updateRel rel src dst col value => some ((rel, col), ((src, dst), value))
  | _ => none

def edgeUpdateOp (key : UInt32 × UInt32) (e : Pair × Cell) : Op :=
  .updateRel key.1 e.1.1 e.1.2 key.2 e.2

def selectDelete : Op → Option (UInt32 × UInt64)
  | .delete table offset => some (table, offset)
  | _ => none

def selectDeleteRel : Op → Option (UInt32 × Pair)
  | .deleteRel rel src dst => some (rel, (src, dst))
  | _ => none

def deleteRelOp (rel : UInt32) (e : Pair) : Op := .deleteRel rel e.1 e.2

def labelOps (runs : List ((UInt32 × UInt64 × UInt64) × List UInt64)) : List Op :=
  runs.flatMap fun e => e.2.map fun row => .updateLabels e.1.1 row e.1.2.1 e.1.2.2

/-- Inserts go out as they come. -/
def insertRecord : Op → Option WalRecord
  | .insertNodes table cols _ => some (.nodeInsert table cols)
  | .insertRel rel src dst cols =>
      some (.relInsert rel [src] [dst]
        (cols.map fun c => { col := c.1, values := runValues [c.2] }))
  | _ => none

def isLabel : Op → Bool
  | .updateLabels .. => true
  | _ => false

theorem foldl_push_out (ops : List Op) (l : Lowering) :
    (ops.foldl Lowering.push l).out = l.out ++ ops.filterMap insertRecord := by
  induction ops generalizing l with
  | nil => simp
  | cons op ops ih =>
      rw [List.foldl_cons, ih, List.filterMap_cons]
      cases op <;> simp [Lowering.push, insertRecord]

theorem foldl_push_updates (ops : List Op) (l : Lowering) :
    (ops.foldl Lowering.push l).updates = ops.foldl (batch selectUpdate) l.updates := by
  induction ops generalizing l with
  | nil => rfl
  | cons op ops ih =>
      rw [List.foldl_cons, ih]
      cases op <;> rfl

theorem foldl_push_edgeUpdates (ops : List Op) (l : Lowering) :
    (ops.foldl Lowering.push l).edgeUpdates =
      ops.foldl (batch selectEdgeUpdate) l.edgeUpdates := by
  induction ops generalizing l with
  | nil => rfl
  | cons op ops ih =>
      rw [List.foldl_cons, ih]
      cases op <;> rfl

theorem foldl_push_deletes (ops : List Op) (l : Lowering) :
    (ops.foldl Lowering.push l).deletes = ops.foldl (batch selectDelete) l.deletes := by
  induction ops generalizing l with
  | nil => rfl
  | cons op ops ih =>
      rw [List.foldl_cons, ih]
      cases op <;> rfl

theorem foldl_push_detaches (ops : List Op) (l : Lowering) :
    (ops.foldl Lowering.push l).detaches =
      ops.foldl (batch selectDeleteRel) l.detaches := by
  induction ops generalizing l with
  | nil => rfl
  | cons op ops ih =>
      rw [List.foldl_cons, ih]
      cases op <;> rfl

theorem labelOps_pushLabel (shape : UInt32 × UInt64 × UInt64) (row : UInt64)
    (runs : List ((UInt32 × UInt64 × UInt64) × List UInt64)) :
    labelOps (pushLabel shape row runs) =
      labelOps runs ++ [.updateLabels shape.1 row shape.2.1 shape.2.2] := by
  induction runs with
  | nil => rfl
  | cons run runs ih =>
      cases runs with
      | nil =>
          rw [pushLabel]
          split_ifs with hshape
          · subst hshape
            simp [labelOps]
          · simp [labelOps]
      | cons next runs =>
          rw [pushLabel]
          · simp only [labelOps, List.flatMap_cons] at ih ⊢
            rw [ih]
            simp
          · simp

theorem labelOps_foldl_push (ops : List Op) (l : Lowering) :
    labelOps (ops.foldl Lowering.push l).labels = labelOps l.labels ++ ops.filter isLabel := by
  induction ops generalizing l with
  | nil => simp
  | cons op ops ih =>
      rw [List.foldl_cons, ih]
      cases op <;> simp [Lowering.push, List.filter_cons, isLabel, labelOps_pushLabel]

theorem recordOps_updateRecord (key : BatchKey) {run : List (UInt64 × Cell)}
    (h : OneKind (run.map Prod.snd)) :
    recordOps (updateRecord key run) = run.map (updateOp key) := by
  refine List.ext_getElem (by simp [recordOps, updateRecord]) fun i hi hi' => ?_
  have hrun : i < (run.map Prod.snd).length := by simpa using hi'
  simp [recordOps, updateRecord, updateOp, cellAt_runValues h hrun]

theorem recordOps_edgeUpdateRecord (key : UInt32 × UInt32) {run : List (Pair × Cell)}
    (h : OneKind (run.map Prod.snd)) :
    recordOps (edgeUpdateRecord key run) = run.map (edgeUpdateOp key) := by
  refine List.ext_getElem (by simp [recordOps, edgeUpdateRecord]) fun i hi hi' => ?_
  have hrun : i < (run.map Prod.snd).length := by simpa using hi'
  simp [recordOps, edgeUpdateRecord, edgeUpdateOp, cellAt_runValues h hrun]

theorem flatMap_kindRuns {α : Type} {record : List (α × Cell) → WalRecord}
    {op : α × Cell → Op}
    (h : ∀ run, OneKind (run.map Prod.snd) → recordOps (record run) = run.map op)
    (batch : List (α × Cell)) :
    ((kindRuns batch).map record).flatMap recordOps = batch.map op := by
  have hruns : ((kindRuns batch).map record).flatMap recordOps =
      (kindRuns batch).flatMap fun run => run.map op := by
    rw [List.flatMap_map]
    exact List.flatMap_congr fun run hrun => h run (oneKind_of_mem_kindRuns batch run hrun)
  rw [hruns, List.flatMap_def, ← List.map_flatten, flatten_kindRuns]

/-- The parts of the records a transaction is lowered to, as the ops they stand
for. -/
theorem flatMap_recordOps (ops : List Op) :
    (buildRecords ops).flatMap recordOps =
      (ops.filterMap insertRecord).flatMap recordOps ++
        regrouped updateOp (batched batchOrder selectUpdate ops) ++
        regrouped edgeUpdateOp (batched (pairCmp compare compare) selectEdgeUpdate ops) ++
        ops.filter isLabel ++
        regrouped deleteRelOp (batched compare selectDeleteRel ops) ++
        regrouped Op.delete (batched compare selectDelete ops) := by
  have hupdates : ((ops.foldl Lowering.push {}).updates.toList.flatMap fun e =>
        (kindRuns e.2).map (updateRecord e.1)).flatMap recordOps =
      regrouped updateOp (batched batchOrder selectUpdate ops) := by
    rw [foldl_push_updates, List.flatMap_assoc]
    exact List.flatMap_congr fun e _ =>
      flatMap_kindRuns (fun run => recordOps_updateRecord e.1) e.2
  have hedges : ((ops.foldl Lowering.push {}).edgeUpdates.toList.flatMap fun e =>
        (kindRuns e.2).map (edgeUpdateRecord e.1)).flatMap recordOps =
      regrouped edgeUpdateOp
        (batched (pairCmp compare compare) selectEdgeUpdate ops) := by
    rw [foldl_push_edgeUpdates, List.flatMap_assoc]
    exact List.flatMap_congr fun e _ =>
      flatMap_kindRuns (fun run => recordOps_edgeUpdateRecord e.1) e.2
  have hlabels : ((ops.foldl Lowering.push {}).labels.map fun e =>
        WalRecord.labelUpdate e.1.1 e.2 e.1.2.1 e.1.2.2).flatMap recordOps =
      ops.filter isLabel := by
    rw [List.flatMap_map]
    exact labelOps_foldl_push ops {}
  have hdetaches : ((ops.foldl Lowering.push {}).detaches.toList.map fun e =>
        WalRecord.relDelete e.1 (e.2.map Prod.fst) (e.2.map Prod.snd)).flatMap recordOps =
      regrouped deleteRelOp (batched compare selectDeleteRel ops) := by
    rw [foldl_push_detaches, List.flatMap_map]
    refine List.flatMap_congr fun e _ => ?_
    have hzip : (e.2.map Prod.fst).zip (e.2.map Prod.snd) = e.2 := by
      rw [← List.unzip_fst, ← List.unzip_snd, List.zip_unzip]
    simp only [recordOps, hzip]
    rfl
  have hdeletes : ((ops.foldl Lowering.push {}).deletes.toList.map fun e =>
        WalRecord.delete e.1 e.2).flatMap recordOps =
      regrouped Op.delete (batched compare selectDelete ops) := by
    rw [foldl_push_deletes, List.flatMap_map]
    rfl
  rw [buildRecords, Lowering.records]
  simp only [List.flatMap_append]
  rw [hupdates, hedges, hlabels, hdetaches, hdeletes, foldl_push_out]
  rfl

/-- The rows of every column of a node insert are the rows it adds. -/
theorem len_values_of_built {table : UInt32} {cols : List WalColumn} {rows : ℕ}
    (h : (Op.insertNodes table cols rows).Built)
    (hfit : (Op.insertNodes table cols rows).RowsFit) :
    ∀ c ∈ cols, c.values.len = rows := by
  intro c hc
  obtain ⟨cells, hkind, hlen, hvalues⟩ := h.1 c hc
  rw [hvalues, len_runValues hkind (hlen.trans_lt hfit), hlen]

theorem head_len_of_built {table : UInt32} {cols : List WalColumn} {rows : ℕ}
    (h : (Op.insertNodes table cols rows).Built)
    (hfit : (Op.insertNodes table cols rows).RowsFit) :
    (cols.head?.elim 0 fun c => c.values.len) = rows := by
  cases cols with
  | nil => exact (h.2 rfl).symm
  | cons c cols => exact len_values_of_built h hfit c List.mem_cons_self

theorem recordOps_insertRecord {op : Op} {r : WalRecord} (hr : insertRecord op = some r)
    (h : op.Built) (hfit : op.RowsFit) : recordOps r = [op] := by
  cases op with
  | insertNodes table cols rows =>
      cases hr
      rw [recordOps, head_len_of_built h hfit]
  | insertRel rel src dst cols =>
      cases hr
      have hcell : ∀ c : Cell, cellAt (runValues [c]) 0 = c := fun c =>
        cellAt_runValues (show OneKind [c] by simp [OneKind]) (by simp)
      have hcols : cols.map ((fun c => (c.col, cellAt c.values 0)) ∘ fun c =>
          ({ col := c.1, values := runValues [c.2] } : WalColumn)) = cols := by
        have hid : ((fun c => (c.col, cellAt c.values 0)) ∘ fun c =>
            ({ col := c.1, values := runValues [c.2] } : WalColumn)) =
              (id : UInt32 × Cell → UInt32 × Cell) :=
          funext fun c => Prod.ext rfl (hcell c.2)
        rw [hid, List.map_id]
      simp [recordOps, hcols]
  | _ => cases hr

theorem flatMap_insertRecord {ops : List Op} (h : ∀ op ∈ ops, op.Built ∧ op.RowsFit) :
    (ops.filterMap insertRecord).flatMap recordOps =
      ops.filter fun op => (insertRecord op).isSome := by
  induction ops with
  | nil => rfl
  | cons op ops ih =>
      have hrest := ih fun o ho => h o (List.mem_cons_of_mem op ho)
      obtain ⟨hbuilt, hfit⟩ := h op List.mem_cons_self
      cases hr : insertRecord op with
      | none => simpa [hr] using hrest
      | some r =>
          rw [List.filterMap_cons_some hr, List.flatMap_cons, hrest,
            recordOps_insertRecord hr hbuilt hfit]
          simp [hr]

/-- Which part of the records holds the ops at a key. -/
def OpKey.part : OpKey → ℕ
  | .rows _ | .edges _ => 0
  | .cell .. => 1
  | .edgeCell .. => 2
  | .labels .. => 3
  | .pair .. => 4
  | .row .. => 5

theorem filter_eq_nil_of_part {ops : List Op} {i : ℕ}
    (h : ∀ op ∈ ops, (opKey op).part = i) {k : OpKey} (hk : k.part ≠ i) :
    ops.filter (opKey · = k) = [] := by
  rw [List.filter_eq_nil_iff]
  intro op hop hkey
  have hpart := congrArg OpKey.part (of_decide_eq_true hkey)
  exact hk (hpart.symm.trans (h op hop))

/-- The records of a transaction hold its ops in order at every key. -/
theorem filter_recordOps {ops : List Op} (h : ∀ op ∈ ops, op.Built ∧ op.RowsFit)
    (k : OpKey) :
    ((buildRecords ops).flatMap recordOps).filter (opKey · = k) =
      ops.filter (opKey · = k) := by
  have hupdate : ∀ op key v, selectUpdate op = some (key, v) → updateOp key v = op := by
    intro op key v hop
    cases op <;> cases hop
    rfl
  have hedge : ∀ op key v,
      selectEdgeUpdate op = some (key, v) → edgeUpdateOp key v = op := by
    intro op key v hop
    cases op <;> cases hop
    rfl
  have hdetach : ∀ op key v,
      selectDeleteRel op = some (key, v) → deleteRelOp key v = op := by
    intro op key v hop
    cases op <;> cases hop
    rfl
  have hdelete : ∀ op key v, selectDelete op = some (key, v) → Op.delete key v = op := by
    intro op key v hop
    cases op <;> cases hop
    rfl
  -- what each part holds
  have h0 : ∀ op ∈ ops.filter (fun op => (insertRecord op).isSome),
      (opKey op).part = 0 := by
    intro op hop
    have hsome := (List.mem_filter.1 hop).2
    cases op <;> simp_all [insertRecord, opKey, OpKey.part]
  have h1 : ∀ op ∈ regrouped updateOp (batched batchOrder selectUpdate ops),
      (opKey op).part = 1 := by
    intro op hop
    obtain ⟨e, he⟩ := mem_regrouped hupdate hop
    cases op <;> first | rfl | cases he
  have h2 : ∀ op ∈ regrouped edgeUpdateOp
      (batched (pairCmp compare compare) selectEdgeUpdate ops), (opKey op).part = 2 := by
    intro op hop
    obtain ⟨e, he⟩ := mem_regrouped hedge hop
    cases op <;> first | rfl | cases he
  have h3 : ∀ op ∈ ops.filter isLabel, (opKey op).part = 3 := by
    intro op hop
    have hlabel := (List.mem_filter.1 hop).2
    cases op <;> first | rfl | cases hlabel
  have h4 : ∀ op ∈ regrouped deleteRelOp (batched compare selectDeleteRel ops),
      (opKey op).part = 4 := by
    intro op hop
    obtain ⟨e, he⟩ := mem_regrouped hdetach hop
    cases op <;> first | rfl | cases he
  have h5 : ∀ op ∈ regrouped Op.delete (batched compare selectDelete ops),
      (opKey op).part = 5 := by
    intro op hop
    obtain ⟨e, he⟩ := mem_regrouped hdelete hop
    cases op <;> first | rfl | cases he
  -- a filter by key inside a filter that lets the key through is the first alone
  have hfilter : ∀ p : Op → Bool, (∀ op, opKey op = k → p op) →
      (ops.filter p).filter (opKey · = k) = ops.filter (opKey · = k) := by
    intro p hp
    rw [List.filter_filter]
    refine List.filter_congr fun op _ => ?_
    by_cases hk : opKey op = k
    · simp [hk, hp op hk]
    · simp [hk]
  rw [flatMap_recordOps, flatMap_insertRecord h]
  simp only [List.filter_append]
  -- one part holds the key, the others nothing at it
  have nil0 : (k.part == 0) = false → _ := filter_eq_nil_of_part h0 ∘ ne_of_beq_false
  have nil1 : (k.part == 1) = false → _ := filter_eq_nil_of_part h1 ∘ ne_of_beq_false
  have nil2 : (k.part == 2) = false → _ := filter_eq_nil_of_part h2 ∘ ne_of_beq_false
  have nil3 : (k.part == 3) = false → _ := filter_eq_nil_of_part h3 ∘ ne_of_beq_false
  have nil4 : (k.part == 4) = false → _ := filter_eq_nil_of_part h4 ∘ ne_of_beq_false
  have nil5 : (k.part == 5) = false → _ := filter_eq_nil_of_part h5 ∘ ne_of_beq_false
  cases k with
  | rows table =>
      rw [nil1 rfl, nil2 rfl,
        nil3 rfl, nil4 rfl,
        nil5 rfl, hfilter]
      · simp
      · intro op hop
        cases op <;> first | rfl | cases hop
  | edges rel =>
      rw [nil1 rfl, nil2 rfl,
        nil3 rfl, nil4 rfl,
        nil5 rfl, hfilter]
      · simp
      · intro op hop
        cases op <;> first | rfl | cases hop
  | cell table offset col =>
      rw [nil0 rfl, nil2 rfl,
        nil3 rfl, nil4 rfl,
        nil5 rfl,
        filter_regrouped hupdate ops _ (table, groupOf offset, col)]
      · simp
      · intro op hop
        have hkey := of_decide_eq_true hop
        cases op <;> cases hkey
        exact ⟨_, rfl⟩
  | edgeCell rel src dst col =>
      rw [nil0 rfl, nil1 rfl,
        nil3 rfl, nil4 rfl,
        nil5 rfl, filter_regrouped hedge ops _ (rel, col)]
      · simp
      · intro op hop
        have hkey := of_decide_eq_true hop
        cases op <;> cases hkey
        exact ⟨_, rfl⟩
  | labels table row =>
      rw [nil0 rfl, nil1 rfl,
        nil2 rfl, nil4 rfl,
        nil5 rfl, hfilter]
      · simp
      · intro op hop
        cases op <;> first | rfl | cases hop
  | pair rel src dst =>
      rw [nil0 rfl, nil1 rfl,
        nil2 rfl, nil3 rfl,
        nil5 rfl, filter_regrouped hdetach ops _ rel]
      · simp
      · intro op hop
        have hkey := of_decide_eq_true hop
        cases op <;> cases hkey
        exact ⟨_, rfl⟩
  | row table offset =>
      rw [nil0 rfl, nil1 rfl,
        nil2 rfl, nil3 rfl,
        nil4 rfl, filter_regrouped hdelete ops _ table]
      · simp
      · intro op hop
        have hkey := of_decide_eq_true hop
        cases op <;> cases hkey
        exact ⟨_, rfl⟩

theorem pushLabel_ne_nil {shape : UInt32 × UInt64 × UInt64} {row : UInt64}
    {runs : List ((UInt32 × UInt64 × UInt64) × List UInt64)}
    (h : ∀ e ∈ runs, e.2 ≠ []) : ∀ e ∈ pushLabel shape row runs, e.2 ≠ [] := by
  induction runs with
  | nil => simp [pushLabel]
  | cons run runs ih =>
      cases runs with
      | nil =>
          rw [pushLabel]
          split_ifs
          · simp
          · simpa using h
      | cons next runs =>
          have hrest := ih fun e he => h e (List.mem_cons_of_mem run he)
          rw [pushLabel]
          · intro e he
            rcases List.mem_cons.1 he with rfl | he
            · exact h e List.mem_cons_self
            · exact hrest e he
          · simp

theorem foldl_push_labels_ne_nil (ops : List Op) {l : Lowering}
    (h : ∀ e ∈ l.labels, e.2 ≠ []) :
    ∀ e ∈ (ops.foldl Lowering.push l).labels, e.2 ≠ [] := by
  induction ops generalizing l with
  | nil => exact h
  | cons op ops ih =>
      refine ih ?_
      cases op <;> first | exact h | exact pushLabel_ne_nil h

theorem forall_buildRecords {ops : List Op} {P : WalRecord → Prop}
    (hinsert : ∀ op ∈ ops, ∀ r, insertRecord op = some r → P r)
    (hupdate : ∀ key run, run ≠ [] → OneKind (run.map Prod.snd) →
      P (updateRecord key run))
    (hedge : ∀ key run, run ≠ [] → OneKind (run.map Prod.snd) →
      P (edgeUpdateRecord key run))
    (hlabel : ∀ (shape : UInt32 × UInt64 × UInt64) rows, rows ≠ [] →
      (∀ row ∈ rows, Op.updateLabels shape.1 row shape.2.1 shape.2.2 ∈ ops) →
        P (.labelUpdate shape.1 rows shape.2.1 shape.2.2))
    (hdetach : ∀ rel pairs, pairs ≠ [] →
      P (.relDelete rel (pairs.map Prod.fst) (pairs.map Prod.snd)))
    (hdelete : ∀ table ids, ids ≠ [] → P (.delete table ids)) :
    ∀ r ∈ buildRecords ops, P r := by
  intro r hr
  rw [buildRecords, Lowering.records, foldl_push_out, foldl_push_updates,
    foldl_push_edgeUpdates, foldl_push_detaches, foldl_push_deletes] at hr
  simp only [List.mem_append, List.mem_flatMap, List.mem_map] at hr
  obtain ((((hr | ⟨e, he, run, hrun, rfl⟩) | ⟨e, he, run, hrun, rfl⟩) | ⟨e, he, rfl⟩) |
    ⟨e, he, rfl⟩) | ⟨e, he, rfl⟩ := hr
  · obtain ⟨op, hop, hrec⟩ := List.mem_filterMap.1 (hr.resolve_left List.not_mem_nil)
    exact hinsert op hop r hrec
  · exact hupdate e.1 run (kindRuns_ne_nil e.2 run hrun)
      (oneKind_of_mem_kindRuns e.2 run hrun)
  · exact hedge e.1 run (kindRuns_ne_nil e.2 run hrun)
      (oneKind_of_mem_kindRuns e.2 run hrun)
  · refine hlabel e.1 e.2 (foldl_push_labels_ne_nil ops (by simp) e he) fun row hrow => ?_
    have hmem : Op.updateLabels e.1.1 row e.1.2.1 e.1.2.2 ∈
        labelOps (ops.foldl Lowering.push {}).labels :=
      List.mem_flatMap.2 ⟨e, he, List.mem_map.2 ⟨row, hrow, rfl⟩⟩
    rw [labelOps_foldl_push] at hmem
    exact (List.mem_filter.1 hmem).1
  · exact hdetach e.1 e.2 (ne_nil_of_mem_batched he)
  · exact hdelete e.1 e.2 (ne_nil_of_mem_batched he)

/-- The frame of every record of a transaction can say how long it is. -/
def RecordsFit (ops : List Op) : Prop :=
  ∀ r ∈ buildRecords ops, minBody + r.encodePayload.length < 2 ^ 32

instance (ops : List Op) : Decidable (RecordsFit ops) := by
  unfold RecordsFit
  infer_instance

theorem isData_buildRecords (ops : List Op) : ∀ r ∈ buildRecords ops, IsData r :=
  forall_buildRecords
    (fun op _ r hr => by cases op <;> cases hr <;> trivial)
    (fun _ _ _ _ => trivial) (fun _ _ _ _ => trivial) (fun _ _ _ _ => trivial)
    (fun _ _ _ => trivial) fun _ _ _ => trivial

/-- The records of a transaction run lists of one length beside each other, where their
runs are short. -/
theorem wellShaped_of_short {ops : List Op} (hbuilt : ∀ op ∈ ops, op.Built)
    {P : WalRecord → Prop}
    (hupdate : ∀ key run, P (updateRecord key run) → run.length < 2 ^ 32)
    (hedge : ∀ key run, P (edgeUpdateRecord key run) → run.length < 2 ^ 32) :
    ∀ r ∈ buildRecords ops, P r → r.WellShaped := by
  refine forall_buildRecords ?_ ?_ ?_ ?_ ?_ ?_
  · intro op _ r hr _
    cases op <;> cases hr
    · trivial
    · refine ⟨rfl, fun c hc => ?_⟩
      obtain ⟨cell, -, rfl⟩ := List.mem_map.1 hc
      exact len_runValues (show OneKind [cell.2] by simp [OneKind]) (by simp)
  · intro key run _ hkind hP
    have hlen := hupdate key run hP
    rw [updateRecord, WalRecord.WellShaped, len_runValues hkind (by simpa using hlen)]
    simp
  · intro key run _ hkind hP
    have hlen := hedge key run hP
    rw [edgeUpdateRecord, WalRecord.WellShaped, len_runValues hkind (by simpa using hlen)]
    simp
  · intro shape rows hne hmem _
    obtain ⟨row, rows', rfl⟩ := List.exists_cons_of_ne_nil hne
    exact hbuilt _ (hmem row List.mem_cons_self)
  · intro rel pairs _ _
    simp [WalRecord.WellShaped]
  · intro table ids _ _
    trivial

theorem wellShaped_buildRecords {ops : List Op} (hbuilt : ∀ op ∈ ops, op.Built) :
    ∀ r ∈ buildRecords ops, minBody + r.encodePayload.length < 2 ^ 32 → r.WellShaped := by
  apply wellShaped_of_short hbuilt
  all_goals
    intro key run hlen
    simp only [updateRecord, edgeUpdateRecord, WalRecord.encodePayload, List.length_append,
      length_putU64s, List.length_map] at hlen
    omega

/-- The records of a transaction whose frames fit are read back as they were. -/
theorem readsBack_buildRecords {ops : List Op} (hbuilt : ∀ op ∈ ops, op.Built)
    (hfit : RecordsFit ops) : ∀ r ∈ buildRecords ops, ReadsBack r :=
  fun r hr => ⟨hfit r hr, wellShaped_buildRecords hbuilt r hr (hfit r hr)⟩

/-- The records of a transaction are ones replay puts back. -/
theorem replayable_buildRecords {ops : List Op}
    (h : ∀ op ∈ ops, op.Built ∧ op.RowsFit) : ∀ r ∈ buildRecords ops, Replayable r := by
  refine forall_buildRecords ?_ ?_ ?_ ?_ ?_ ?_
  · intro op hop r hr
    obtain ⟨hbuilt, hfit⟩ := h op hop
    cases op <;> cases hr
    · intro c hc
      rw [head_len_of_built hbuilt hfit]
      exact len_values_of_built hbuilt hfit c hc
    · simp [Replayable, recordOps]
  · intro key run hne hkind
    change recordOps (updateRecord key run) ≠ []
    rw [recordOps_updateRecord key hkind]
    simpa using hne
  · intro key run hne hkind
    change recordOps (edgeUpdateRecord key run) ≠ []
    rw [recordOps_edgeUpdateRecord key hkind]
    simpa using hne
  · intro shape rows hne _
    simpa [Replayable, recordOps] using hne
  · intro rel pairs hne
    cases pairs with
    | nil => exact absurd rfl hne
    | cons p pairs => simp [Replayable, recordOps]
  · intro table ids hne
    simpa [Replayable, recordOps] using hne

end Zu.Txn
