import Zu.Lib.Edits
import Zu.Txn.Stable

/-!
# The order of edges inside a transaction

Every op of a transaction is published at the one epoch the transaction commits at,
and what a reader sees of an edge is decided by epochs alone: an edge goes when a
delete of its pair is stamped with the epoch it was added at or a later one. So a
delete takes the edges that its own transaction adds over the pair, wherever in the
transaction they stand.
-/

namespace Zu.Txn

open Lib Wal

/-- A staged insert or delete of an edge. -/
inductive EdgeOp
  | insert (rel : UInt32) (src dst : UInt64) (cols : List (UInt32 × Cell))
  | delete (rel : UInt32) (src dst : UInt64)
  deriving DecidableEq

def EdgeOp.op : EdgeOp → Op
  | .insert rel src dst cols => .insertRel rel src dst cols
  | .delete rel src dst => .deleteRel rel src dst

/-- An edge and what it was written with. -/
abbrev CarriedEdge := Pair × List (UInt32 × Cell)

/-- What an op says of one rel table's edges. -/
def EdgeOp.edit (rel : UInt32) : EdgeOp → Option (Edit CarriedEdge Pair)
  | .insert r src dst cols => if r = rel then some (.add ((src, dst), cols)) else none
  | .delete r src dst => if r = rel then some (.drop (src, dst)) else none

def edits (rel : UInt32) (ops : List EdgeOp) : List (Edit CarriedEdge Pair) :=
  ops.filterMap (EdgeOp.edit rel)

/-- The edges of a rel table a reader sees now: those of the base that no delete has
taken away, and those of the overlay. -/
def visibleEdges (m : Mvcc) (base : List CarriedEdge) (rel : UInt32) : List CarriedEdge :=
  (base.filter fun e => !m.edgeGone rel e.1.1 e.1.2 0 m.epoch) ++
    (m.edgeCells rel m.epoch).map fun e => ((e.1, e.2.1), e.2.2)

/-- The ops committed by one transaction. -/
def inOne (m : Mvcc) (ops : List EdgeOp) : Mvcc := m.apply (m.epoch + 1) (ops.map EdgeOp.op)

/-- Each op committed by a transaction of its own. -/
def inTurn (m : Mvcc) (ops : List EdgeOp) : Mvcc := ops.foldl (fun m op => inOne m [op]) m

/-- No edge and no delete of an edge is stamped past the mark. -/
structure RelOverlay.By (mark : Epoch) (r : RelOverlay) : Prop where
  edges : ∀ e ∈ r.edges, e.epoch ≤ mark
  dead : ∀ pair : Pair, ∀ e ∈ r.dead[pair]?.getD [], e ≤ mark

namespace RelOverlay

variable {mark : Epoch} {r : RelOverlay}

theorem By.mono (h : r.By mark) {mark' : Epoch} (hle : mark ≤ mark') : r.By mark' where
  edges e he := (h.edges e he).trans hle
  dead pair e he := (h.dead pair e he).trans hle

theorem By.insert (h : r.By mark) {e : OverlayEdge} (he : e.epoch ≤ mark) :
    (r.insert e).By mark where
  edges a ha := by
    rcases List.mem_append.1 ha with ha | ha
    · exact h.edges a ha
    · exact List.mem_singleton.1 ha ▸ he
  dead := h.dead

theorem mem_stamp {epoch a : Epoch} {stamps : List Epoch} :
    a ∈ stamp epoch stamps ↔ a ∈ stamps ∨ a = epoch := by
  rw [stamp]
  split_ifs with h
  · constructor
    · exact Or.inl
    · rintro (ha | rfl)
      · exact ha
      · exact List.mem_of_getLast? h
  · rw [List.mem_append, List.mem_singleton]

theorem mem_dead_kill {src dst : UInt64} {epoch a : Epoch} {pair : Pair} :
    a ∈ ((r.kill src dst epoch).dead[pair]?.getD []) ↔
      a ∈ (r.dead[pair]?.getD []) ∨ pair = (src, dst) ∧ a = epoch := by
  rw [kill]
  by_cases h : (src, dst) = pair
  · subst h
    rw [getElem?_entry_self, Option.getD_some, mem_stamp]
    simp
  · rw [getElem?_entry_of_ne _ h]
    simp [Ne.symm h]

theorem By.kill (h : r.By mark) (src dst : UInt64) {epoch : Epoch} (he : epoch ≤ mark) :
    (r.kill src dst epoch).By mark where
  edges := h.edges
  dead pair a ha := by
    rcases mem_dead_kill.1 ha with ha | ⟨_, rfl⟩
    · exact h.dead pair a ha
    · exact he

theorem By.write (h : r.By mark) (src dst : UInt64) (col : UInt32) (epoch : Epoch)
    (value : Cell) : (r.write src dst col epoch value).By mark where
  edges := h.edges
  dead := h.dead

end RelOverlay

/-- No edge of a store is stamped past its epoch, and no delete of one. -/
def Mvcc.Stamped (m : Mvcc) : Prop := ∀ rel, (m.relOf rel).By m.epoch

/-- A change of one rel table keeps what it keeps of every overlay. -/
theorem Overlays.by_rel {mark : Epoch} {o : Overlays} (h : ∀ rel, (o.relOf rel).By mark)
    (r : UInt32) {f : RelOverlay → RelOverlay} (hf : ∀ r : RelOverlay, r.By mark → (f r).By mark)
    (rel : UInt32) : ((o.rel r f).relOf rel).By mark :=
  entry_rel (R := fun v v' : RelOverlay => v.By mark → v'.By mark) (fun _ hv => hv) o.rels r {}
    hf rel (h rel)

theorem Overlays.by_publish {mark : Epoch} {o : Overlays} (h : ∀ rel, (o.relOf rel).By mark)
    {epoch : Epoch} (hepoch : epoch ≤ mark) (op : Op) (rel : UInt32) :
    ((o.publish epoch op).relOf rel).By mark := by
  cases op with
  | insertRel r src dst cols => exact o.by_rel h r (fun _ hr => hr.insert hepoch) rel
  | deleteRel r src dst => exact o.by_rel h r (fun _ hr => hr.kill src dst hepoch) rel
  | updateRel r src dst col value =>
      exact o.by_rel h r (fun _ hr => hr.write src dst col epoch value) rel
  | insertNodes table cols rows => exact h rel
  | update table offset col value => exact h rel
  | delete table offset => exact h rel
  | updateLabels table row add remove => exact h rel

namespace Mvcc

theorem stamped_new (epoch : Epoch) : (Mvcc.new epoch).Stamped := by
  intro rel
  have hempty : (Mvcc.new epoch).relOf rel = {} := by
    rw [Overlays.relOf, Mvcc.new, Std.ExtTreeMap.getElem?_empty, Option.getD_none]
  rw [hempty]
  constructor
  · intro e he
    cases he
  · intro pair e he
    rw [Std.ExtTreeMap.getElem?_empty, Option.getD_none] at he
    cases he

theorem by_foldl_publish {mark epoch : Epoch} (hepoch : epoch ≤ mark) (ops : List Op) {m : Mvcc}
    (h : ∀ rel, (m.relOf rel).By mark) (rel : UInt32) :
    ((ops.foldl (Mvcc.publish epoch) m).relOf rel).By mark := by
  induction ops generalizing m with
  | nil => exact h rel
  | cons op ops ih => exact ih fun rel => m.toOverlays.by_publish h hepoch op rel

theorem Stamped.apply {m : Mvcc} (h : m.Stamped) (ops : List Op) :
    (m.apply (m.epoch + 1) ops).Stamped :=
  by_foldl_publish (le_refl _) ops fun rel => (h rel).mono (Nat.le_succ _)

theorem Stamped.publishIngest {m : Mvcc} (h : m.Stamped) (table : UInt32)
    (payload : IngestPayload) (root : UInt64) :
    (m.publishIngest (m.epoch + 1) table payload root).Stamped := by
  have hepoch : (m.publishIngest (m.epoch + 1) table payload root).epoch = m.epoch + 1 :=
    max_eq_right (Nat.le_succ _)
  have hkeep : ∀ rel, (m.relOf rel).By (m.epoch + 1) := fun rel => (h rel).mono (Nat.le_succ _)
  rw [Stamped, hepoch]
  cases payload with
  | nodes cols rows => exact hkeep
  | edges src dst =>
      apply m.toOverlays.by_rel hkeep
      intro r hr
      induction src.zip dst generalizing r with
      | nil => exact hr
      | cons e es ih => exact ih _ (hr.insert (le_refl _))

end Mvcc

variable {crc : Bytes → UInt32}

theorem Side.stamped_run {s s' : Side} (hrun : Run (Side.step crc) anyAction s s')
    (h : s.mvcc.Stamped) : s'.mvcc.Stamped := by
  apply hrun.invariant _ h
  intro t c t' ht _ hstep
  rw [Side.step] at hstep
  split_ifs at hstep
  cases hstep
  rcases @Side.commit_cases crc t c with hsame | ⟨ops, htxn⟩ | ⟨table, payload, root, hingest⟩
  · rw [hsame]
    exact ht
  · rw [htxn]
    exact ht.apply ops
  · rw [hingest]
    exact ht.publishIngest table payload root

/-- What a list of edge ops publishes to a rel table: its inserts, in order, and a
stamp on each pair it deletes. -/
theorem relOf_published (epoch : Epoch) (rel : UInt32) (ops : List EdgeOp) (m : Mvcc) :
    let r := (ops.map EdgeOp.op).foldl (Mvcc.publish epoch) m |>.relOf rel
    r.edges = (m.relOf rel).edges ++
        (Edit.added (edits rel ops)).map (fun a => ⟨epoch, a.1.1, a.1.2, a.2⟩) ∧
      ∀ (pair : Pair) (a : Epoch), a ∈ (r.dead[pair]?.getD []) ↔
        a ∈ ((m.relOf rel).dead[pair]?.getD []) ∨
          pair ∈ Edit.dropped (edits rel ops) ∧ a = epoch := by
  induction ops generalizing m with
  | nil => simp [edits, Edit.added, Edit.dropped]
  | cons op ops ih =>
      obtain ⟨hedges, hdead⟩ := ih (m.publish epoch op.op)
      have hself : ∀ (r : UInt32) (f : RelOverlay → RelOverlay),
          ((m.toOverlays.rel r f).relOf rel) = if r = rel then f (m.relOf rel) else m.relOf rel := by
        intro r f
        split_ifs with h
        · subst h
          rw [Overlays.relOf, Overlays.rel, getElem?_entry_self, Option.getD_some]
          rfl
        · rw [Overlays.relOf, Overlays.rel, getElem?_entry_of_ne _ h]
          rfl
      dsimp only at hedges hdead ⊢
      rw [List.map_cons, List.foldl_cons, hedges]
      simp only [hdead]
      cases op with
      | insert r src dst cols =>
          have hfirst : (m.publish epoch (EdgeOp.insert r src dst cols).op).relOf rel =
              if r = rel then (m.relOf rel).insert ⟨epoch, src, dst, cols⟩ else m.relOf rel :=
            hself r _
          rw [hfirst]
          by_cases h : r = rel
          · have hedits : edits rel (.insert r src dst cols :: ops) =
                .add ((src, dst), cols) :: edits rel ops := by simp [edits, EdgeOp.edit, h]
            rw [if_pos h, hedits, Edit.added, Edit.dropped, RelOverlay.insert]
            constructor
            · rw [List.map_cons, List.append_assoc, List.singleton_append]
            · exact fun _ _ => Iff.rfl
          · have hedits : edits rel (.insert r src dst cols :: ops) = edits rel ops := by
              simp [edits, EdgeOp.edit, h]
            rw [if_neg h, hedits]
            exact ⟨rfl, fun _ _ => Iff.rfl⟩
      | delete r src dst =>
          have hfirst : (m.publish epoch (EdgeOp.delete r src dst).op).relOf rel =
              if r = rel then (m.relOf rel).kill src dst epoch else m.relOf rel :=
            hself r _
          rw [hfirst]
          by_cases h : r = rel
          · have hedits : edits rel (.delete r src dst :: ops) =
                .drop (src, dst) :: edits rel ops := by simp [edits, EdgeOp.edit, h]
            rw [if_pos h, hedits, Edit.added, Edit.dropped]
            constructor
            · rfl
            · intro pair a
              rw [RelOverlay.mem_dead_kill, List.mem_cons]
              tauto
          · have hedits : edits rel (.delete r src dst :: ops) = edits rel ops := by
              simp [edits, EdgeOp.edit, h]
            rw [if_neg h, hedits]
            exact ⟨rfl, fun _ _ => Iff.rfl⟩

/-- Whether an edge that has stood since `since` is gone at the epoch after the
store's: a delete of the transaction takes it as one before it does. -/
theorem edgeGone_inOne {m : Mvcc} (h : m.Stamped) (ops : List EdgeOp) (rel : UInt32)
    (pair : Pair) {since : Epoch} (hsince : since ≤ m.epoch + 1) :
    (inOne m ops).edgeGone rel pair.1 pair.2 since (m.epoch + 1) =
      (m.edgeGone rel pair.1 pair.2 since m.epoch ||
        decide (pair ∈ Edit.dropped (edits rel ops))) := by
  have hdead := (relOf_published (m.epoch + 1) rel ops { m with deferred := [] }).2 pair
  rw [Bool.eq_iff_iff, Bool.or_eq_true, decide_eq_true_iff, Mvcc.edgeGone_eq, Mvcc.edgeGone_eq,
    List.any_eq_true, List.any_eq_true]
  simp only [Bool.and_eq_true, decide_eq_true_eq]
  constructor
  · rintro ⟨a, ha, hle, _⟩
    rcases (hdead a).1 ha with hold | ⟨hdrop, _⟩
    · exact Or.inl ⟨a, hold, hle, (h rel).dead pair a hold⟩
    · exact Or.inr hdrop
  · rintro (⟨a, ha, hle, hle'⟩ | hdrop)
    · exact ⟨a, (hdead a).2 (Or.inl ha), hle, hle'.trans (Nat.le_succ _)⟩
    · exact ⟨m.epoch + 1, (hdead _).2 (Or.inr ⟨hdrop, rfl⟩), hsince, le_refl _⟩

/-- What a transaction leaves to be seen: its inserts on the end, less every pair that
it deletes. -/
theorem visibleEdges_inOne {m : Mvcc} (h : m.Stamped) (ops : List EdgeOp)
    (base : List CarriedEdge) (rel : UInt32) :
    visibleEdges (inOne m ops) base rel =
      Edit.together Prod.fst (visibleEdges m base rel) (edits rel ops) := by
  have hedges := (relOf_published (m.epoch + 1) rel ops { m with deferred := [] }).1
  have hgone := fun pair => @edgeGone_inOne m h ops rel pair
  have hnew : ∀ a : CarriedEdge, m.edgeGone rel a.1.1 a.1.2 (m.epoch + 1) m.epoch = false := by
    intro a
    rw [Mvcc.edgeGone_eq, List.any_eq_false]
    intro e he
    have hle := (h rel).dead a.1 e he
    have hlt : ¬ m.epoch + 1 ≤ e := Nat.not_le.2 (Nat.lt_succ_of_le hle)
    simp [hlt]
  have hbase : (base.filter fun e => !(inOne m ops).edgeGone rel e.1.1 e.1.2 0 (m.epoch + 1)) =
      (base.filter fun e => !m.edgeGone rel e.1.1 e.1.2 0 m.epoch).filter
        fun e => e.1 ∉ Edit.dropped (edits rel ops) := by
    rw [List.filter_filter]
    apply List.filter_congr
    intro e _
    rw [hgone e.1 (Nat.zero_le _), Bool.not_or, Bool.and_comm, decide_not]
  have hold : ((m.relOf rel).edges.filter fun e => e.epoch ≤ m.epoch + 1 &&
        !(inOne m ops).edgeGone rel e.src e.dst e.epoch (m.epoch + 1)).map
          (fun e => (((e.src, e.dst), e.cols) : CarriedEdge)) =
      (((m.relOf rel).edges.filter fun e => e.epoch ≤ m.epoch &&
        !m.edgeGone rel e.src e.dst e.epoch m.epoch).map
          fun e => (((e.src, e.dst), e.cols) : CarriedEdge)).filter
            fun e => e.1 ∉ Edit.dropped (edits rel ops) := by
    rw [List.filter_map, List.filter_filter]
    congr 1
    apply List.filter_congr
    intro e he
    have hle := (h rel).edges e he
    rw [hgone (e.src, e.dst) (hle.trans (Nat.le_succ _)), decide_eq_true hle,
      decide_eq_true (hle.trans (Nat.le_succ _)), Bool.true_and, Bool.true_and, Bool.not_or,
      Bool.and_comm, Function.comp_apply, decide_not]
  have hadded : (((Edit.added (edits rel ops)).map fun a =>
        (⟨m.epoch + 1, a.1.1, a.1.2, a.2⟩ : OverlayEdge)).filter fun e =>
          e.epoch ≤ m.epoch + 1 &&
            !(inOne m ops).edgeGone rel e.src e.dst e.epoch (m.epoch + 1)).map
              (fun e => (((e.src, e.dst), e.cols) : CarriedEdge)) =
      (Edit.added (edits rel ops)).filter fun e => e.1 ∉ Edit.dropped (edits rel ops) := by
    rw [List.filter_map, List.map_map]
    have hid : ((fun e : OverlayEdge => (((e.src, e.dst), e.cols) : CarriedEdge)) ∘
        fun a : CarriedEdge => ⟨m.epoch + 1, a.1.1, a.1.2, a.2⟩) = id := rfl
    rw [hid, List.map_id]
    apply List.filter_congr
    intro a _
    rw [Function.comp_apply]
    dsimp only
    rw [hgone a.1 (le_refl _), hnew a, decide_eq_true (le_refl _), Bool.true_and,
      Bool.false_or, decide_not]
  have hepoch : (inOne m ops).epoch = m.epoch + 1 := rfl
  rw [visibleEdges, hepoch, Mvcc.edgeCells_eq, List.map_map]
  change _ ++ List.map (fun e : OverlayEdge => (((e.src, e.dst), e.cols) : CarriedEdge)) _ = _
  have hrel : ((inOne m ops).relOf rel).edges = (m.relOf rel).edges ++
      (Edit.added (edits rel ops)).map
        (fun a => (⟨m.epoch + 1, a.1.1, a.1.2, a.2⟩ : OverlayEdge)) := hedges
  rw [hrel, List.filter_append, List.map_append, hbase, hold, hadded, Edit.together,
    List.filter_append, visibleEdges, List.filter_append, List.append_assoc,
    Mvcc.edgeCells_eq, List.map_map, Function.comp_def]
  congr!

/-- Transactions of one op each edit what is seen in turn. -/
theorem visibleEdges_inTurn {m : Mvcc} (h : m.Stamped) (ops : List EdgeOp)
    (base : List CarriedEdge) (rel : UInt32) :
    visibleEdges (inTurn m ops) base rel =
      Edit.run Prod.fst (visibleEdges m base rel) (edits rel ops) := by
  induction ops generalizing m with
  | nil => rfl
  | cons op ops ih =>
      have hstep : (inOne m [op]).Stamped := h.apply _
      have hone := visibleEdges_inOne h [op] base rel
      have hturn : inTurn m (op :: ops) = inTurn (inOne m [op]) ops := rfl
      rw [hturn, ih hstep, hone]
      cases hedit : op.edit rel with
      | none =>
          have hops : edits rel (op :: ops) = edits rel ops := by simp [edits, hedit]
          have hnil : edits rel [op] = [] := by simp [edits, hedit]
          rw [hops, hnil]
          simp [Edit.together, Edit.added, Edit.dropped]
      | some e =>
          have hops : edits rel (op :: ops) = e :: edits rel ops := by simp [edits, hedit]
          have hsingle : edits rel [op] = [e] := by simp [edits, hedit]
          rw [hops, hsingle, Edit.together_singleton]
          rfl

/-- The edges a transaction leaves to be seen are those its ops leave committed one by
one, with the copies of each pair and what they carry, exactly when no pair is
inserted behind its last delete. -/
theorem edges_inOne_iff_inTurn {epoch : Epoch} {log : Log} {s : Side}
    (hrun : Run (Side.step crc) anyAction ⟨Mvcc.new epoch, log⟩ s)
    (base : UInt32 → List CarriedEdge) (ops : List EdgeOp) :
    (∀ rel, (visibleEdges (inOne s.mvcc ops) (base rel) rel).Perm
        (visibleEdges (inTurn s.mvcc ops) (base rel) rel)) ↔
      ∀ rel, Edit.Settled Prod.fst (edits rel ops) := by
  have hstamped : s.mvcc.Stamped := Side.stamped_run hrun (Mvcc.stamped_new epoch)
  constructor
  · intro h rel
    have hrel := h rel
    rw [visibleEdges_inOne hstamped, visibleEdges_inTurn hstamped] at hrel
    exact (Edit.together_perm_run_iff _ _).1 hrel
  · intro h rel
    rw [visibleEdges_inOne hstamped, visibleEdges_inTurn hstamped]
    exact (Edit.together_perm_run_iff _ _).2 (h rel)

theorem edges_inOne_iff_inTurn_emptied :
    (∀ rel, (visibleEdges (inOne (Mvcc.new 0) [.insert 9 0 1 [], .delete 9 0 1]) [] rel).Perm
        (visibleEdges (inTurn (Mvcc.new 0) [.insert 9 0 1 [], .delete 9 0 1]) [] rel)) ↔
      ∀ rel, Edit.Settled Prod.fst (edits rel [.insert 9 0 1 [], .delete 9 0 1]) := by
  have hrun : Run (Side.step crc32c) anyAction ⟨Mvcc.new 0, lostRow.log⟩
      ⟨Mvcc.new 0, lostRow.log⟩ := Run.refl _
  exact edges_inOne_iff_inTurn hrun (fun _ => []) [.insert 9 0 1 [], .delete 9 0 1]

/-- An edge of the base deleted and inserted again: both ops in one transaction leave
no edge, and in two they leave the inserted one. -/
theorem reinserted_edge_lost :
    visibleEdges (inOne (Mvcc.new 0) [.delete 9 0 1, .insert 9 0 1 []]) [((0, 1), [])] 9 = [] ∧
      visibleEdges (inTurn (Mvcc.new 0) [.delete 9 0 1, .insert 9 0 1 []]) [((0, 1), [])] 9 =
        [((0, 1), [])] := by
  decide

end Zu.Txn
