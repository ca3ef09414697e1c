import Zu.Graph.Tables

/-!
# Freeing tables

Freeing enters blocks in the list of pending frees and touches nothing else, so
the tables that are not freed read as they did. What `free_graph_storage` enters
for a table is exactly the blocks of the table. At the end the index and the
statistics go into fresh chains, and the ones they replace are freed too.
-/

namespace Zu.Graph

open Lib

/-- A file with more blocks freed. -/
def Store.release (s : Store) (l : List BlockPtr) : Store :=
  { s with pendingFree := s.pendingFree ++ l }

theorem Store.release_nil (s : Store) : s.release [] = s := by
  rw [Store.release, List.append_nil]

theorem Store.release_release (s : Store) (l l' : List BlockPtr) :
    (s.release l).release l' = s.release (l ++ l') := by
  simp only [Store.release, List.append_assoc]

theorem freeBlock_exec {s : Store} {p : BlockPtr} (h : InRange s.blockCount p) :
    (freeBlock p).exec s = (.ok (), s.release [p]) := by
  have hcheck : (reads fun s => File.checkPtr s.blockCount p).exec s = (.ok (), s) :=
    reads_exec (File.checkPtr_ok h)
  rw [freeBlock, exec_bind_of_ok hcheck]
  rfl

theorem freeBlocks_exec {s : Store} {l : List BlockPtr} (h : ∀ p ∈ l, InRange s.blockCount p) :
    (freeBlocks l).exec s = (.ok (), s.release l) := by
  induction l generalizing s with
  | nil =>
      rw [Store.release_nil]
      rfl
  | cons p l ih =>
      have hrest := ih (s := s.release [p]) fun q hq => h q (List.mem_cons_of_mem p hq)
      rw [freeBlocks, exec_bind_of_ok (freeBlock_exec (h p List.mem_cons_self)), hrest,
        Store.release_release]
      rfl

/-! ### Sweeps -/

/-- With no column kept, every payload of every column is dropped. -/
theorem Sweep.columns_nil (going : Sweep) (i : ℕ) (columns : List (PropColumn BlockPtr)) :
    going.columns [] i columns = going.dropAll (columns.flatMap PropColumn.segments) := by
  induction columns generalizing going i with
  | nil => simp [Sweep.columns, Sweep.dropAll, blocksOf]
  | cons c columns ih =>
      rw [Sweep.columns, if_neg (by simp), ih]
      simp [Sweep.dropAll, blocksOf]

/-- With no list kept, every payload of every group is dropped. -/
theorem Sweep.groups_false (going : Sweep) (groups : List (GroupMeta BlockPtr)) :
    going.groups false groups = going.dropAll (groups.flatMap GroupMeta.segments) := by
  induction groups generalizing going with
  | nil => simp [Sweep.groups, Sweep.dropAll, blocksOf]
  | cons g groups ih =>
      rw [Sweep.groups]
      simp only [Bool.false_eq_true, if_false]
      rw [ih]
      simp [Sweep.dropAll, blocksOf, GroupMeta.segments]

section

variable {more : Payload → ℕ}

theorem freeProps_exec {s : Store} {root : BlockPtr} {l : List BlockPtr}
    (hl : propsBlocks more root s = .ok l) (hrange : ∀ p ∈ l, InRange s.blockCount p) :
    (freeProps more root).exec s = (.ok (), s.release l) := by
  obtain ⟨d, ptrs, hchain, rfl⟩ := propsBlocks_eq_ok.1 hl
  have hread := reads_exec (readProps_eq_ok.2 ⟨ptrs, hchain⟩)
  have hsweep := freeBlocks_exec (s := s) (l := difference (blocksOf d.segments) [])
    fun p hp => hrange p (List.mem_append_left _ hp)
  have hptrs : (reads (chainBlocks root)).exec (s.release (difference (blocksOf d.segments) [])) =
      (.ok ptrs, s.release (difference (blocksOf d.segments) [])) :=
    reads_exec hchain.blocks
  have hdropped : blocksOf (d.labels.toList ++ d.columns.flatMap PropColumn.segments) =
      blocksOf d.labels.toList ++ blocksOf (d.columns.flatMap PropColumn.segments) :=
    List.flatMap_append
  rw [freeProps, freePropsParts, exec_bind_of_ok hread]
  simp only [if_true, Sweep.columns_nil, Sweep.sweep, Sweep.dropAll, List.nil_append]
  rw [← hdropped]
  change (freeBlocks (difference (blocksOf d.segments) []) >>= fun _ => _).exec s = _
  rw [exec_bind_of_ok hsweep, exec_bind_of_ok hptrs, freeBlocks_exec, Store.release_release]
  exact fun p hp => hrange p (List.mem_append_right _ hp)

theorem freeEdgeProps_exec {s : Store} {root : BlockPtr} {l : List BlockPtr}
    (hl : edgePropsBlocks more root s = .ok l) (hrange : ∀ p ∈ l, InRange s.blockCount p) :
    (freeEdgeProps more root true).exec s = (.ok (), s.release l) := by
  by_cases hroot : root = nullBlock
  · rw [edgePropsBlocks, if_pos hroot] at hl
    cases hl
    rw [freeEdgeProps, if_neg (by simp [hroot]), Store.release_nil]
    rfl
  · rw [edgePropsBlocks, if_neg hroot] at hl
    rw [freeEdgeProps, if_pos ⟨rfl, hroot⟩]
    exact freeProps_exec hl hrange

theorem freeDirectory_exec {s : Store} {root : BlockPtr} {l : List BlockPtr}
    (hl : directoryBlocks more root s = .ok l) (hrange : ∀ p ∈ l, InRange s.blockCount p) :
    (freeDirectory more root).exec s = (.ok (), s.release l) := by
  obtain ⟨d, props, ptrs, hchain, hprops, rfl⟩ := directoryBlocks_eq_ok.1 hl
  have hread := reads_exec (readDirectory_eq_ok.2 ⟨ptrs, hchain⟩)
  have hfreed := freeEdgeProps_exec hprops fun p hp => hrange p (List.mem_append_left _ hp)
  have hsweep := freeBlocks_exec (s := s.release props) (l := difference (blocksOf d.segments) [])
    fun p hp => hrange p (List.mem_append_right _ (List.mem_append_left _ hp))
  rw [Store.release_release] at hsweep
  have hptrs : (reads (chainBlocks root)).exec
      (s.release (props ++ difference (blocksOf d.segments) [])) =
      (.ok ptrs, s.release (props ++ difference (blocksOf d.segments) [])) :=
    reads_exec hchain.blocks
  have hdropped : blocksOf (d.keys.toList.flatMap KeyIndex.segments ++
      d.groups.flatMap GroupMeta.segments) =
        blocksOf (d.keys.toList.flatMap KeyIndex.segments) ++
          blocksOf (d.groups.flatMap GroupMeta.segments) :=
    List.flatMap_append
  rw [freeDirectory, freeDirectoryParts, exec_bind_of_ok hread, exec_bind_of_ok hfreed]
  simp only [Sweep.groups_false, Sweep.sweep, Sweep.dropAll, List.nil_append]
  rw [← hdropped]
  change (freeBlocks (difference (blocksOf d.segments) []) >>= fun _ => _).exec _ = _
  rw [exec_bind_of_ok hsweep, exec_bind_of_ok hptrs, freeBlocks_exec, Store.release_release,
    List.append_assoc]
  exact fun p hp => hrange p (List.mem_append_right _ (List.mem_append_right _ hp))

theorem freeChain_exec {s : Store} {root : BlockPtr} {ptrs : List BlockPtr}
    (h : chainBlocks root s = .ok ptrs) :
    (freeChain root).exec s = (.ok (), s.release ptrs) := by
  by_cases hroot : root = nullBlock
  · subst hroot
    have hnil : chainBlocks nullBlock s = .ok [] := rfl
    have heq : ptrs = [] := Except.ok.inj (h.symm.trans hnil)
    rw [heq, Store.release_nil, freeChain, if_pos rfl]
    rfl
  · rw [freeChain, if_neg hroot]
    rw [exec_bind_of_ok (reads_exec h)]
    exact freeBlocks_exec (chainBlocks_range h)

/-! ### Tables -/

theorem freeRoot_exec {s : Store} {index : Entries BlockPtr} {id : ℕ} {kind : ElementKind}
    {l : List BlockPtr} (hl : optionBlocks (rootBlocks more kind) (index.get id) s = .ok l)
    (hrange : ∀ p ∈ l, InRange s.blockCount p) :
    ∃ index', (freeRoot more index id kind).exec s = (.ok index', s.release l) ∧
      ∀ id', id' ≠ id → index'.get id' = index.get id' := by
  cases hget : index.get id with
  | none =>
      rw [hget] at hl
      cases hl
      refine ⟨index, ?_, fun _ _ => rfl⟩
      simp only [freeRoot, hget]
      rw [Store.release_nil]
      rfl
  | some root =>
      rw [hget] at hl
      refine ⟨index.remove id, ?_, fun id' hne => Entries.get_remove_of_ne hne index⟩
      cases kind with
      | node =>
          simp only [freeRoot, hget]
          rw [exec_bind_of_ok (freeProps_exec hl hrange)]
          rfl
      | edge =>
          simp only [freeRoot, hget]
          rw [exec_bind_of_ok (freeDirectory_exec hl hrange)]
          rfl

theorem freeTombstones_exec {s : Store} {index : Entries BlockPtr} {id : ℕ} {kind : ElementKind}
    {l : List BlockPtr} (hl : optionBlocks chainBlocks (tombstonesRoot index id kind) s = .ok l) :
    ∃ index', (freeTombstones index id kind).exec s = (.ok index', s.release l) ∧
      ∀ id', id' ≠ tombstonesOf id → index'.get id' = index.get id' := by
  cases kind with
  | edge =>
      cases hl
      rw [Store.release_nil]
      exact ⟨index, rfl, fun _ _ => rfl⟩
  | node =>
      simp only [tombstonesRoot] at hl
      cases hget : index.get (tombstonesOf id) with
      | none =>
          rw [hget] at hl
          cases hl
          refine ⟨index, ?_, fun _ _ => rfl⟩
          simp only [freeTombstones, hget]
          rw [Store.release_nil]
          rfl
      | some root =>
          rw [hget] at hl
          refine ⟨index.remove (tombstonesOf id), ?_,
            fun id' hne => Entries.get_remove_of_ne hne index⟩
          simp only [freeTombstones, hget]
          rw [exec_bind_of_ok (freeChain_exec hl)]
          rfl

theorem tablesBlocks_agree {index index' : Entries BlockPtr} {stats stats' : Stats}
    {tables : List (ℕ × ElementKind)} (h : ∀ t ∈ tables, Agree index stats index' stats' t.1)
    (s : Store) : tablesBlocks more index' tables s = tablesBlocks more index tables s := by
  induction tables with
  | nil => rfl
  | cons t tables ih =>
      have hrest := ih fun u hu => h u (List.mem_cons_of_mem t hu)
      have hfirst : tableBlocks more index' t s = tableBlocks more index t s :=
        (h t List.mem_cons_self).tableBlocks s
      rw [tablesBlocks, tablesBlocks, hfirst, hrest]

/-- A table says nothing of a file but where its blocks are. -/
theorem tablesBlocks_release (index : Entries BlockPtr) (tables : List (ℕ × ElementKind))
    (s : Store) (l : List BlockPtr) :
    tablesBlocks more index tables (s.release l) = tablesBlocks more index tables s := by
  induction tables with
  | nil => rfl
  | cons t tables ih =>
      have hfirst : tableBlocks more index t (s.release l) = tableBlocks more index t s := rfl
      rw [tablesBlocks, tablesBlocks, hfirst, ih]

theorem freeTables_exec (stats : Stats) {tables : List (ℕ × ElementKind)} {s : Store}
    {index : Entries BlockPtr} {l : List BlockPtr}
    (hl : tablesBlocks more index tables s = .ok l) (hrange : ∀ p ∈ l, InRange s.blockCount p)
    (hlt : ∀ t ∈ tables, t.1 < tombstoneKey) (hnodup : (tables.map Prod.fst).Nodup) :
    ∃ index' stats', (freeTables more index stats tables).exec s =
        (.ok (index', stats'), s.release l) ∧
      ∀ id, id < tombstoneKey → (∀ t ∈ tables, id ≠ t.1) →
        Agree index stats index' stats' id := by
  induction tables generalizing s index stats l with
  | nil =>
      cases hl
      rw [Store.release_nil]
      exact ⟨index, stats, rfl, fun _ _ _ => Agree.refl _ _ _⟩
  | cons t tables ih =>
      obtain ⟨id, kind⟩ := t
      obtain ⟨first, rest, hfirst, hrest, rfl⟩ := tablesBlocks_cons.1 hl
      obtain ⟨lroot, lrows, hlroot, hlrows, rfl⟩ := tableBlocks_eq_ok.1 hfirst
      have hid : id < tombstoneKey := hlt _ List.mem_cons_self
      have hnodup' := List.nodup_cons.1 hnodup
      have hne : tombstonesOf id ≠ id := tombstonesOf_ne hid hid
      obtain ⟨index₁, hexec₁, hframe₁⟩ := freeRoot_exec hlroot fun p hp =>
        hrange p (List.mem_append_left _ (List.mem_append_left _ hp))
      have hlrows₁ : optionBlocks chainBlocks (tombstonesRoot index₁ id kind)
          (s.release lroot) = .ok lrows := by
        have hroot : tombstonesRoot index₁ id kind = tombstonesRoot index id kind := by
          cases kind with
          | node => exact hframe₁ _ hne
          | edge => rfl
        rw [hroot]
        exact hlrows
      obtain ⟨index₂, hexec₂, hframe₂⟩ := freeTombstones_exec hlrows₁
      rw [Store.release_release] at hexec₂
      have hagree : ∀ id', id' < tombstoneKey → id' ≠ id → Agree index stats index₂
          { rels := stats.rels.remove id, cols := stats.cols.remove id } id' := by
        intro id' hid' hne'
        exact
          { root := by rw [hframe₂ _ (tombstonesOf_ne hid hid').symm, hframe₁ _ hne']
            tombstones := by
              rw [hframe₂ _ (tombstonesOf_inj hid' hid hne'), hframe₁ _ (tombstonesOf_ne hid' hid)]
            rels := Entries.get_remove_of_ne hne' _
            cols := Entries.get_remove_of_ne hne' _ }
      have hrest₂ : tablesBlocks more index₂ tables (s.release (lroot ++ lrows)) = .ok rest := by
        rw [tablesBlocks_release, tablesBlocks_agree (fun t ht => hagree t.1
          (hlt t (List.mem_cons_of_mem _ ht))
          fun heq => hnodup'.1 (List.mem_map.2 ⟨t, ht, heq⟩)), hrest]
      obtain ⟨index₃, stats₃, hexec₃, hframe₃⟩ := ih _ hrest₂
        (fun p hp => hrange p (List.mem_append_right _ hp))
        (fun t ht => hlt t (List.mem_cons_of_mem _ ht)) hnodup'.2
      rw [Store.release_release] at hexec₃
      refine ⟨index₃, stats₃, ?_, fun id' hid' hne' => ?_⟩
      · rw [freeTables, exec_bind_of_ok hexec₁, exec_bind_of_ok hexec₂, hexec₃]
      · exact (hagree id' hid' (hne' _ List.mem_cons_self)).trans
          (hframe₃ id' hid' fun t ht => hne' t (List.mem_cons_of_mem _ ht))

/-! ### Staging the index and the statistics -/

/-- The blocks of `t` under what `s` says of them. -/
def Store.under (t s : Store) : Store :=
  { t with
    pendingFree := s.pendingFree
    tableIndexRoot := s.tableIndexRoot
    statsRoot := s.statsRoot }

theorem Taken.under {s t : Store} {taken : List BlockPtr} (h : Taken s taken t) (u : Store) :
    Taken (s.under u) taken (t.under u) where
  freeOk := ⟨h.freeOk.nodup, h.freeOk.range⟩
  count := h.count
  free := h.free
  nodup := h.nodup
  inUse := fun p hp => ⟨(h.inUse p hp).range, (h.inUse p hp).notFree⟩
  notInUse := fun p hp hused => h.notInUse p hp ⟨hused.range, hused.notFree⟩
  blocks := h.blocks
  pendingFree := rfl
  tableIndexRoot := rfl
  statsRoot := rfl

/-- A file whose index and statistics were staged: they are in fresh chains, and the
blocks of the chains they replaced are freed. -/
structure Staged (more : Payload → ℕ) (s : Store) (ci cs : List BlockPtr)
    (index : Entries BlockPtr) (stats : Stats) (t : Store) (ci' cs' : List BlockPtr) : Prop where
  took : Taken s (ci' ++ cs') (t.under s)
  freed : t.pendingFree = s.pendingFree ++ (ci ++ cs)
  loads : loadIndex more t = .ok index
  loadsStats : loadStats more t = .ok stats
  indexHeld : chainBlocks t.tableIndexRoot t = .ok ci'
  statsHeld : chainBlocks t.statsRoot t = .ok cs'

variable (more) in
theorem stageIndex_exec {s : Store} (hfree : FreeOk s) {ci cs : List BlockPtr}
    (hci : chainBlocks s.tableIndexRoot s = .ok ci) (hcs : chainBlocks s.statsRoot s = .ok cs)
    (index : Entries BlockPtr) (stats : Stats) :
    ∃ t ci' cs', (stageIndex more index stats).exec s = (.ok (), t) ∧
      Staged more s ci cs index stats t ci' cs' := by
  have hfree' : FreeOk (s.release (ci ++ cs)) := ⟨hfree.nodup, hfree.range⟩
  have hfreed : (freeChain s.statsRoot).exec (s.release ci) = (.ok (), s.release (ci ++ cs)) := by
    rw [← Store.release_release]
    exact freeChain_exec hcs
  obtain ⟨root, ci', t, hexec, ht, hchain, hroot⟩ :=
    writeChain_exec more (.index index) hfree'
  have hfree'' : FreeOk { t with tableIndexRoot := root } := ⟨ht.freeOk.nodup, ht.freeOk.range⟩
  obtain ⟨root', cs', u, hexec', hu, hchain', -⟩ :=
    writeChain_exec more (.stats stats) hfree''
  have hboth : Taken s (ci' ++ cs') (u.under s) := (ht.under s).trans (hu.under s)
  have hkept : Chain more u root (some (.index index)) ci' := by
    have hsame : ∀ p ∈ ci', u.blocks p = t.blocks p := fun p hp =>
      hu.blocks_eq ⟨(ht.inUse p hp).range, (ht.inUse p hp).notFree⟩
    exact hchain.congr hu.count hsame
  have hurroot : u.tableIndexRoot = root := hu.tableIndexRoot
  refine ⟨{ u with statsRoot := root' }, ci', cs', ?_, ?_⟩
  · rw [stageIndex, exec_bind_of_ok (exec_get s), exec_bind_of_ok (freeChain_exec hci),
      exec_bind_of_ok hfreed, exec_bind_of_ok hexec, exec_bind_of_ok (exec_modify _ t),
      exec_bind_of_ok hexec']
    rfl
  · exact
      { took := hboth
        freed := hu.pendingFree.trans ht.pendingFree
        loads := by
          have hread : readChain more u.tableIndexRoot u = .ok (some (.index index)) :=
            hurroot ▸ hkept.read
          have hnull : u.tableIndexRoot ≠ nullBlock := hurroot ▸ hroot
          rw [loadIndex, if_neg hnull]
          exact bind_eq_ok.2 ⟨_, hread, rfl⟩
        loadsStats := bind_eq_ok.2 ⟨_, hchain'.read, rfl⟩
        indexHeld := hurroot ▸ hkept.blocks
        statsHeld := hchain'.blocks }

end

end Zu.Graph
