import Zu.Graph.Freed

/-!
# A copied graph and its source

Two sets of tables are independent when no block belongs to both, what a reader
finds of the second is the same whatever is written into the blocks of the first,
before they are freed and after, and freeing first the one and then the other
enters no block in the free list twice. Tables whose blocks are accounted for,
each with one owner, are independent of each other. Copying keeps that account
when no zone plane names a block, and only then: the copy of a column with a zone
plane names the blocks of its source's.
-/

namespace Zu.Graph

open Lib

/-- A file with anything written into some of its blocks. -/
def Store.rewrite (s : Store) (ptrs : List BlockPtr) (data : BlockPtr → Block) : Store :=
  { s with blocks := fun p => if p ∈ ptrs then data p else s.blocks p }

section

variable (more : Payload → ℕ)

/-- What is done to the first tables leaves the second as they are, and no block is
freed twice. -/
def Independent (s : Store) (A B : List (ℕ × ElementKind)) : Prop :=
  ∃ a b, ownedBlocks more A s = .ok a ∧ ownedBlocks more B s = .ok b ∧ a.Disjoint b ∧
    (∀ data, ∀ t ∈ B, readTable more t (s.rewrite a data) = readTable more t s) ∧
    ∃ s₁, (freeGraphStorage more A).exec s = (.ok (), s₁) ∧
      (s₁.pendingFree ++ s₁.free).Nodup ∧
      (∀ data, ∀ t ∈ B, readTable more t (s₁.rewrite a data) = readTable more t s) ∧
      ∃ s₂, (freeGraphStorage more B).exec s₁ = (.ok (), s₂) ∧
        (s₂.pendingFree ++ s₂.free).Nodup

/-- A copy answers as its source does, and the two are independent of each other. -/
def CopyIndependent (s : Store) (tables : List CopyOf) : Prop :=
  ∃ t, (copyGraphStorage more tables).exec s = (.ok (), t) ∧
    (∀ c ∈ tables, readTable more (c.copy, c.kind) t = readTable more (c.source, c.kind) s ∧
      readTable more (c.source, c.kind) t = readTable more (c.source, c.kind) s) ∧
    Independent more t (sourcesOf tables) (copiesOf tables) ∧
    Independent more t (copiesOf tables) (sourcesOf tables)

/-- The blocks of a file's tables, its index and its statistics, and the free ones: each
is a block of the file, and none is listed twice. -/
structure Accounts (s : Store) (tables : List (ℕ × ElementKind)) (index : Entries BlockPtr)
    (stats : Stats) (l ci cs : List BlockPtr) : Prop where
  loads : loadIndex more s = .ok index
  loadsStats : loadStats more s = .ok stats
  held : tablesBlocks more index tables s = .ok l
  indexHeld : chainBlocks s.tableIndexRoot s = .ok ci
  statsHeld : chainBlocks s.statsRoot s = .ok cs
  nodup : (l ++ (ci ++ cs) ++ s.pendingFree ++ s.free).Nodup
  range : ∀ p ∈ l ++ (ci ++ cs) ++ s.pendingFree ++ s.free, InRange s.blockCount p

/-- What `copy_graph_storage` is called on: tables that can be read, whose blocks are
accounted for, and ids for the copies that nothing is under. -/
structure CopyReady (s : Store) (tables : List CopyOf) (index : Entries BlockPtr)
    (stats : Stats) : Prop where
  accounts : ∃ l ci cs, Accounts more s (sourcesOf tables) index stats l ci cs
  readable : ∀ c ∈ tables, ∃ found, readTable more (c.source, c.kind) s = .ok found
  lt : ∀ c ∈ tables, c.source < tombstoneKey ∧ c.copy < tombstoneKey
  nodup : (tables.map CopyOf.source ++ tables.map CopyOf.copy).Nodup
  new : ∀ c ∈ tables, index.get c.copy = none ∧ index.get (tombstonesOf c.copy) = none ∧
    stats.rels.get c.copy = none ∧ stats.cols.get c.copy = none

variable {more}

/-! ### Tables with their own blocks -/

section

variable {s t : Store} {tables A B : List (ℕ × ElementKind)} {index : Entries BlockPtr}
  {stats : Stats} {l la lb ci cs : List BlockPtr}

theorem tablesBlocks_append {s : Store} : tablesBlocks more index (A ++ B) s = .ok l ↔
    ∃ la lb, tablesBlocks more index A s = .ok la ∧ tablesBlocks more index B s = .ok lb ∧
      l = la ++ lb := by
  induction A generalizing l with
  | nil =>
      constructor
      · exact fun h => ⟨[], l, rfl, h, rfl⟩
      · rintro ⟨la, lb, hla, hlb, rfl⟩
        cases hla
        exact hlb
  | cons t A ih =>
      rw [List.cons_append, tablesBlocks_cons]
      constructor
      · rintro ⟨first, rest, hfirst, hrest, rfl⟩
        obtain ⟨la, lb, hla, hlb, rfl⟩ := ih.1 hrest
        exact ⟨first ++ la, lb, tablesBlocks_cons.2 ⟨first, la, hfirst, hla, rfl⟩, hlb,
          (List.append_assoc _ _ _).symm⟩
      · rintro ⟨la, lb, hla, hlb, rfl⟩
        obtain ⟨first, rest, hfirst, hrest, rfl⟩ := tablesBlocks_cons.1 hla
        exact ⟨first, rest ++ lb, hfirst, ih.2 ⟨rest, lb, hrest, hlb, rfl⟩,
          List.append_assoc _ _ _⟩

theorem tableBlocks_of_mem (h : tablesBlocks more index tables s = .ok l) {u : ℕ × ElementKind}
    (hu : u ∈ tables) : ∃ lu, tableBlocks more index u s = .ok lu ∧ lu ⊆ l := by
  induction tables generalizing l with
  | nil => cases hu
  | cons t tables ih =>
      obtain ⟨first, rest, hfirst, hrest, rfl⟩ := tablesBlocks_cons.1 h
      rcases List.mem_cons.1 hu with rfl | hu
      · exact ⟨first, hfirst, List.subset_append_left _ _⟩
      · obtain ⟨lu, hlu, hsub⟩ := ih hrest hu
        exact ⟨lu, hlu, fun p hp => List.mem_append_right _ (hsub hp)⟩

theorem tablesBlocks_sameOn (h : tablesBlocks more index tables s = .ok l)
    (hsame : SameOn s l t) : tablesBlocks more index tables t = .ok l := by
  induction tables generalizing l with
  | nil => exact h
  | cons u tables ih =>
      obtain ⟨first, rest, hfirst, hrest, rfl⟩ := tablesBlocks_cons.1 h
      refine tablesBlocks_cons.2 ⟨first, rest, ?_, ih hrest (hsame.sub
        (List.subset_append_right _ _)), rfl⟩
      exact (table_rests _ index {} u).holds hfirst (hsame.sub (List.subset_append_left _ _))

theorem Accounts.inUse (h : Accounts more s tables index stats l ci cs) {p : BlockPtr}
    (hp : p ∈ l ++ (ci ++ cs) ++ s.pendingFree) : InUse s p :=
  ⟨h.range p (List.mem_append_left _ hp), fun hfree =>
    (List.nodup_append.1 h.nodup).2.2 p hp p hfree rfl⟩

theorem Accounts.freeOk (h : Accounts more s tables index stats l ci cs) : FreeOk s :=
  ⟨(List.nodup_append.1 h.nodup).2.1, fun p hp => h.range p (List.mem_append_right _ hp)⟩

theorem Accounts.readTable (h : Accounts more s tables index stats l ci cs)
    (u : ℕ × ElementKind) : readTable more u s = findTable more index stats u s := by
  rw [Graph.readTable, h.loads, h.loadsStats]
  rfl

/-- A file with the same index and statistics that holds the same in the blocks of its
tables answers the same. -/
theorem Accounts.sameOn (h : Accounts more s tables index stats l ci cs)
    (hsame : SameOn s (l ++ (ci ++ cs)) t) (hroot : t.tableIndexRoot = s.tableIndexRoot)
    (hroot' : t.statsRoot = s.statsRoot) :
    ∀ u ∈ tables, Graph.readTable more u t = Graph.readTable more u s := by
  have hci : SameOn s ci t := hsame.sub fun p hp =>
    List.mem_append_right _ (List.mem_append_left _ hp)
  have hcs : SameOn s cs t := hsame.sub fun p hp =>
    List.mem_append_right _ (List.mem_append_right _ hp)
  have hindex : loadIndex more t = loadIndex more s := by
    rw [loadIndex, loadIndex, hroot, (chain_rests _ s.tableIndexRoot).finds h.indexHeld hci]
  have hstats : loadStats more t = loadStats more s := by
    rw [loadStats, loadStats, hroot', (chain_rests _ s.statsRoot).finds h.statsHeld hcs]
  intro u hu
  obtain ⟨lu, hlu, hsub⟩ := tableBlocks_of_mem h.held hu
  have hfound := (table_rests _ index stats u).finds hlu
    (hsame.sub fun p hp => List.mem_append_left _ (hsub hp))
  rw [Graph.readTable, Graph.readTable, hindex, hstats, h.loads, h.loadsStats]
  exact hfound

/-- Nothing is found to change by what is written elsewhere. -/
theorem Accounts.rewrite (h : Accounts more s tables index stats l ci cs) {a : List BlockPtr}
    (hdisjoint : ∀ p ∈ l ++ (ci ++ cs), p ∉ a) (data : BlockPtr → Block) :
    ∀ u ∈ tables, Graph.readTable more u (s.rewrite a data) = Graph.readTable more u s := by
  refine h.sameOn ⟨le_rfl, fun p hp => ?_, fun p hp => if_neg (hdisjoint p hp)⟩ rfl rfl
  exact h.range p (List.mem_append_left _ (List.mem_append_left _ hp))

theorem Accounts.comm (h : Accounts more s (A ++ B) index stats l ci cs) :
    ∃ l', Accounts more s (B ++ A) index stats l' ci cs := by
  obtain ⟨la, lb, hla, hlb, rfl⟩ := tablesBlocks_append.1 h.held
  have hperm : ((lb ++ la) ++ (ci ++ cs) ++ s.pendingFree ++ s.free).Perm
      ((la ++ lb) ++ (ci ++ cs) ++ s.pendingFree ++ s.free) :=
    ((List.perm_append_comm.append_right _).append_right _).append_right _
  exact ⟨lb ++ la,
    { loads := h.loads
      loadsStats := h.loadsStats
      held := tablesBlocks_append.2 ⟨lb, la, hlb, hla, rfl⟩
      indexHeld := h.indexHeld
      statsHeld := h.statsHeld
      nodup := hperm.nodup_iff.2 h.nodup
      range := fun p hp => h.range p (hperm.mem_iff.1 hp) }⟩

/-- Blocks that were in use, blocks taken since and the free ones are all different. -/
theorem Taken.apart {taken U V : List BlockPtr} (ht : Taken s taken t)
    (hU : ∀ p ∈ U, InUse s p) (hUnodup : U.Nodup) (hV : ∀ p ∈ V, p ∈ taken) (hVnodup : V.Nodup) :
    (U ++ V ++ t.free).Nodup ∧ ∀ p ∈ U ++ V ++ t.free, InRange t.blockCount p := by
  have hused : ∀ p ∈ U ++ V, InUse t p := by
    intro p hp
    rcases List.mem_append.1 hp with hp | hp
    · exact ht.keeps (hU p hp)
    · exact ht.inUse p (hV p hp)
  constructor
  · refine List.nodup_append.2 ⟨List.nodup_append.2 ⟨hUnodup, hVnodup, ?_⟩, ht.freeOk.nodup, ?_⟩
    · rintro p hp q hq rfl
      exact ht.notInUse p (hV p hq) (hU p hp)
    · rintro p hp q hq rfl
      exact (hused p hp).notFree hq
  · intro p hp
    rcases List.mem_append.1 hp with hp | hp
    · exact (hused p hp).range
    · exact ht.freeOk.range p hp

/-- `free_graph_storage` hands back the blocks of its tables and leaves the others
accounted for, as they were. -/
theorem Accounts.freed (h : Accounts more s (A ++ B) index stats l ci cs)
    (hlt : ∀ u ∈ A ++ B, u.1 < tombstoneKey) (hnodup : ((A ++ B).map Prod.fst).Nodup) :
    ∃ t index' stats' la lb ci' cs', (freeGraphStorage more A).exec s = (.ok (), t) ∧
      tablesBlocks more index A s = .ok la ∧ tablesBlocks more index B s = .ok lb ∧
      l = la ++ lb ∧ Accounts more t B index' stats' lb ci' cs' ∧
      (∀ p ∈ lb ++ (ci' ++ cs'), p ∉ la) ∧
      ∀ u ∈ B, Graph.readTable more u t = Graph.readTable more u s := by
  obtain ⟨la, lb, hla, hlb, rfl⟩ := tablesBlocks_append.1 h.held
  rw [List.map_append, List.nodup_append] at hnodup
  have hinUse : ∀ p ∈ (la ++ lb) ++ (ci ++ cs) ++ s.pendingFree, InUse s p :=
    fun p hp => h.inUse hp
  have hmem : ∀ p, p ∈ la ∨ p ∈ lb ∨ p ∈ ci ∨ p ∈ cs →
      p ∈ (la ++ lb) ++ (ci ++ cs) ++ s.pendingFree := by
    intro p hp
    simp only [List.mem_append]
    tauto
  obtain ⟨index', stats', hexec, hagree⟩ := freeTables_exec stats hla
    (fun p hp => (hinUse p (hmem p (Or.inl hp))).range)
    (fun u hu => hlt u (List.mem_append_left _ hu)) hnodup.1
  have hfree : FreeOk (s.release la) := ⟨h.freeOk.nodup, h.freeOk.range⟩
  obtain ⟨t, ci', cs', hexec', hstaged⟩ :=
    stageIndex_exec more hfree h.indexHeld h.statsHeld index' stats'
  have htook : Taken s (ci' ++ cs') ((t.under (s.release la)).under s) := hstaged.took.under s
  have hsame : SameOn s lb t :=
    have hunder := htook.sameOn fun p hp => hinUse p (hmem p (Or.inr (Or.inl hp)))
    ⟨hunder.count, hunder.range, hunder.blocks⟩
  have hB : ∀ u ∈ B, Agree index stats index' stats' u.1 := fun u hu =>
    hagree u.1 (hlt u (List.mem_append_right _ hu)) fun v hv heq =>
      hnodup.2.2 v.1 (List.mem_map_of_mem hv) u.1 (List.mem_map_of_mem hu) heq.symm
  have hheld : tablesBlocks more index' B t = .ok lb := by
    rw [tablesBlocks_agree hB]
    exact tablesBlocks_sameOn hlb hsame
  obtain ⟨hall, hrange⟩ := htook.apart hinUse (List.nodup_append.1 h.nodup).1
    (fun p hp => hp) hstaged.took.nodup
  have hperm : (lb ++ (ci' ++ cs') ++ t.pendingFree ++ t.free).Perm
      ((la ++ lb) ++ (ci ++ cs) ++ s.pendingFree ++ (ci' ++ cs') ++ t.free) := by
    rw [hstaged.freed, List.perm_iff_count]
    intro p
    simp only [Store.release, List.count_append]
    omega
  refine ⟨t, index', stats', la, lb, ci', cs', ?_, hla, hlb, rfl,
    { loads := hstaged.loads
      loadsStats := hstaged.loadsStats
      held := hheld
      indexHeld := hstaged.indexHeld
      statsHeld := hstaged.statsHeld
      nodup := hperm.nodup_iff.2 hall
      range := fun p hp => hrange p (hperm.mem_iff.1 hp) }, ?_, ?_⟩
  · rw [freeGraphStorage, exec_bind_of_ok (reads_exec h.loads),
      exec_bind_of_ok (reads_exec h.loadsStats), exec_bind_of_ok hexec]
    exact hexec'
  · intro p hp hpa
    rcases List.mem_append.1 hp with hp | hp
    · have hdisjoint := (List.nodup_append.1 (List.nodup_append.1 (List.nodup_append.1
        (List.nodup_append.1 h.nodup).1).1).1).2.2
      exact hdisjoint p hpa p hp rfl
    · exact hstaged.took.notInUse p hp
        ⟨(hinUse p (hmem p (Or.inl hpa))).range, (hinUse p (hmem p (Or.inl hpa))).notFree⟩
  · intro u hu
    obtain ⟨lu, hlu, hsub⟩ := tableBlocks_of_mem hlb hu
    rw [Graph.readTable, Graph.readTable, hstaged.loads, hstaged.loadsStats, h.loads, h.loadsStats]
    change findTable more index' stats' u t = findTable more index stats u s
    rw [show findTable more index' stats' u t = findTable more index stats u t from
      (hB u hu).findTable t]
    exact (table_rests _ index stats u).finds hlu (hsame.sub hsub)

theorem Accounts.independent (h : Accounts more s (A ++ B) index stats l ci cs)
    (hlt : ∀ u ∈ A ++ B, u.1 < tombstoneKey) (hnodup : ((A ++ B).map Prod.fst).Nodup) :
    Independent more s A B := by
  obtain ⟨s₁, index₁, stats₁, la, lb, ci₁, cs₁, hexec, hla, hlb, rfl, haccounts, hapart, hreads⟩ :=
    h.freed hlt hnodup
  have haccounts' : Accounts more s₁ (B ++ []) index₁ stats₁ lb ci₁ cs₁ := by
    rw [List.append_nil]
    exact haccounts
  rw [List.map_append, List.nodup_append] at hnodup
  obtain ⟨s₂, _, _, _, _, _, _, hexec', -, -, -, haccounts₂, -, -⟩ := haccounts'.freed
    (fun u hu => hlt u (List.mem_append_right _ (by simpa using hu))) (by simpa using hnodup.2.1)
  have hlist : ∀ {s : Store} {tables l ci cs} {index : Entries BlockPtr} {stats : Stats},
      Accounts more s tables index stats l ci cs → (s.pendingFree ++ s.free).Nodup := by
    intro s tables l ci cs index stats haccounts
    have hall := haccounts.nodup
    rw [List.append_assoc] at hall
    exact (List.nodup_append.1 hall).2.1
  have hdisjoint : ∀ p ∈ lb ++ (ci ++ cs), p ∉ la := by
    intro p hp hpa
    have hall := h.nodup
    rw [List.append_assoc, List.append_assoc, List.append_assoc, List.nodup_append] at hall
    refine hall.2.2 p hpa p ?_ rfl
    rw [← List.append_assoc]
    exact List.mem_append_left _ hp
  refine ⟨la, lb, ?_, ?_, fun p hp hp' => hdisjoint p (List.mem_append_left _ hp') hp, ?_, s₁,
    hexec, hlist haccounts, ?_, s₂, hexec', hlist haccounts₂⟩
  · rw [ownedBlocks, h.loads]
    exact hla
  · rw [ownedBlocks, h.loads]
    exact hlb
  · intro data u hu
    have hown : Accounts more s B index stats lb ci cs :=
      { loads := h.loads
        loadsStats := h.loadsStats
        held := hlb
        indexHeld := h.indexHeld
        statsHeld := h.statsHeld
        nodup := h.nodup.sublist (List.Sublist.append (List.Sublist.append (List.Sublist.append
          (List.sublist_append_right _ _) (List.Sublist.refl _)) (List.Sublist.refl _))
          (List.Sublist.refl _))
        range := fun p hp => h.range p (by
          simp only [List.mem_append] at hp ⊢
          tauto) }
    exact hown.rewrite hdisjoint data u hu
  · intro data u hu
    rw [haccounts.rewrite hapart data u hu, hreads u hu]

end

/-! ### Copying -/

section

variable {s t : Store} {tables : List CopyOf} {index : Entries BlockPtr} {stats : Stats}

theorem mem_sourcesOf {c : CopyOf} (hc : c ∈ tables) : (c.source, c.kind) ∈ sourcesOf tables :=
  List.mem_map.2 ⟨c, hc, rfl⟩

theorem CopyReady.loop (h : CopyReady more s tables index stats) :
    LoopReady more index stats tables s := by
  obtain ⟨l, ci, cs, haccounts⟩ := h.accounts
  have hnodup := List.nodup_append.1 h.nodup
  refine
    { turns := fun c hc => ?_
      nodup := hnodup.2.1
      apart := fun c hc d hd =>
        hnodup.2.2 c.source (List.mem_map_of_mem hc) d.copy (List.mem_map_of_mem hd) }
  obtain ⟨lc, hlc, hsub⟩ := tableBlocks_of_mem haccounts.held (mem_sourcesOf hc)
  obtain ⟨hroot, htombstones, hrels, hcols⟩ := h.new c hc
  exact ⟨lc,
    { source_lt := (h.lt c hc).1
      copy_lt := (h.lt c hc).2
      blocks := hlc
      inUse := fun p hp =>
        haccounts.inUse (List.mem_append_left _ (List.mem_append_left _ (hsub hp)))
      readable := by
        rw [← haccounts.readTable]
        exact h.readable c hc
      root_new := hroot
      tombstones_new := htombstones
      rels_new := hrels
      cols_new := hcols }⟩

/-- The ids of the sources and of the copies, and that none is listed twice. -/
theorem CopyReady.ids (h : CopyReady more s tables index stats) :
    (∀ u ∈ sourcesOf tables ++ copiesOf tables, u.1 < tombstoneKey) ∧
      ((sourcesOf tables ++ copiesOf tables).map Prod.fst).Nodup := by
  constructor
  · intro u hu
    rcases List.mem_append.1 hu with hu | hu
    · obtain ⟨c, hc, rfl⟩ := List.mem_map.1 hu
      exact (h.lt c hc).1
    · obtain ⟨c, hc, rfl⟩ := List.mem_map.1 hu
      exact (h.lt c hc).2
  · have hmap : (sourcesOf tables ++ copiesOf tables).map Prod.fst =
        tables.map CopyOf.source ++ tables.map CopyOf.copy := by
      simp [sourcesOf, copiesOf, Function.comp_def]
    rw [hmap]
    exact h.nodup

/-- What `copy_graph_storage` leaves: the sources as they were, copies that answer the
same, and an account of both when no zone plane names a block. -/
structure Copied (more : Payload → ℕ) (s : Store) (tables : List CopyOf)
    (zones : List BlockPtr) (t : Store) : Prop where
  copies : ∀ c ∈ tables,
    readTable more (c.copy, c.kind) t = readTable more (c.source, c.kind) s
  sources : ∀ c ∈ tables,
    readTable more (c.source, c.kind) t = readTable more (c.source, c.kind) s
  zones_source : ∃ l, ownedBlocks more (sourcesOf tables) t = .ok l ∧ ∀ p ∈ zones, p ∈ l
  zones_copy : ∃ l, ownedBlocks more (copiesOf tables) t = .ok l ∧ ∀ p ∈ zones, p ∈ l
  accounts : zones = [] → ∃ index stats l ci cs,
    Accounts more t (sourcesOf tables ++ copiesOf tables) index stats l ci cs

theorem copyGraphStorage_exec (h : CopyReady more s tables index stats) :
    ∃ t zones, (copyGraphStorage more tables).exec s = (.ok (), t) ∧
      zoneBlocks more (sourcesOf tables) s = .ok zones ∧ Copied more s tables zones t := by
  obtain ⟨l, ci, cs, haccounts⟩ := h.accounts
  have hfree := haccounts.freeOk
  have hinUse : ∀ p ∈ l ++ (ci ++ cs) ++ s.pendingFree, InUse s p := fun p hp =>
    haccounts.inUse hp
  have hl : ∀ p ∈ l, InUse s p := fun p hp =>
    hinUse p (List.mem_append_left _ (List.mem_append_left _ hp))
  obtain ⟨index', stats', taken, s₁, zones, hexec, ht, hframe, hzones, hcopied⟩ :=
    copyTables_exec hfree h.loop
  have hci : chainBlocks s₁.tableIndexRoot s₁ = .ok ci := by
    rw [ht.tableIndexRoot]
    exact (chain_rests more s.tableIndexRoot).holds haccounts.indexHeld
      (ht.sameOn fun p hp => hinUse p (by simp [hp]))
  have hcs : chainBlocks s₁.statsRoot s₁ = .ok cs := by
    rw [ht.statsRoot]
    exact (chain_rests more s.statsRoot).holds haccounts.statsHeld
      (ht.sameOn fun p hp => hinUse p (by simp [hp]))
  obtain ⟨t, ci', cs', hexec', hstaged⟩ :=
    stageIndex_exec more ht.freeOk hci hcs index' stats'
  have htook : Taken s (taken ++ (ci' ++ cs')) (t.under s₁) := ht.trans hstaged.took
  -- the staging writes to none of the blocks of a source or of a copy
  have hsame : SameOn s l t :=
    have hunder := htook.sameOn hl
    ⟨hunder.count, hunder.range, hunder.blocks⟩
  obtain ⟨l', hl', hholds⟩ := hcopied.holds
  have hzonesub := tablesZones_sub haccounts.held hzones
  have hused' : ∀ p ∈ l', InUse s₁ p := fun p hp =>
    (hholds.sub p hp).elim (ht.inUse p) fun hz => ht.keeps (hl p (hzonesub p hz))
  have hsame' : SameOn s₁ l' t :=
    have hunder := hstaged.took.sameOn hused'
    ⟨hunder.count, hunder.range, hunder.blocks⟩
  have hsources : ∀ u ∈ sourcesOf tables, Agree index stats index' stats' u.1 := by
    intro u hu
    obtain ⟨c, hc, rfl⟩ := List.mem_map.1 hu
    exact hframe c.source (h.lt c hc).1 fun d hd => h.loop.apart c hc d hd
  have hheld : tablesBlocks more index' (sourcesOf tables) t = .ok l := by
    rw [tablesBlocks_agree hsources]
    exact tablesBlocks_sameOn haccounts.held hsame
  have hheld' : tablesBlocks more index' (copiesOf tables) t = .ok l' :=
    tablesBlocks_sameOn hl' hsame'
  have hread : ∀ u, readTable more u t = findTable more index' stats' u t := by
    intro u
    rw [readTable, hstaged.loads, hstaged.loadsStats]
    rfl
  refine ⟨t, zones, ?_, ?_, ?_⟩
  · rw [copyGraphStorage, exec_bind_of_ok (reads_exec haccounts.loads),
      exec_bind_of_ok (reads_exec haccounts.loadsStats), exec_bind_of_ok hexec]
    exact hexec'
  · rw [zoneBlocks, haccounts.loads]
    exact hzones
  · refine
      { copies := fun c hc => ?_
        sources := fun c hc => ?_
        zones_source := ⟨l, ?_, hzonesub⟩
        zones_copy := ⟨l', ?_, hholds.zones_sub⟩
        accounts := fun hnil => ?_ }
    · obtain ⟨lc, hlc, hsub⟩ := tableBlocks_of_mem hl'
        (List.mem_map.2 ⟨c, hc, rfl⟩ : (c.copy, c.kind) ∈ copiesOf tables)
      rw [hread, haccounts.readTable, ← hcopied.finds c hc]
      exact (table_rests _ index' stats' _).finds hlc (hsame'.sub hsub)
    · obtain ⟨lc, hlc, hsub⟩ := tableBlocks_of_mem haccounts.held (mem_sourcesOf hc)
      rw [hread, haccounts.readTable, (hsources _ (mem_sourcesOf hc)).findTable]
      exact (table_rests _ index stats _).finds hlc (hsame.sub hsub)
    · rw [ownedBlocks, hstaged.loads]
      exact hheld
    · rw [ownedBlocks, hstaged.loads]
      exact hheld'
    · have hV : ∀ p ∈ l' ++ (ci' ++ cs'), p ∈ taken ++ (ci' ++ cs') := by
        intro p hp
        rcases List.mem_append.1 hp with hp | hp
        · exact List.mem_append_left _ ((hholds.sub p hp).resolve_right (by simp [hnil]))
        · exact List.mem_append_right _ hp
      have hVnodup : (l' ++ (ci' ++ cs')).Nodup := by
        refine List.nodup_append.2 ⟨hholds.nodup hnil, hstaged.took.nodup, ?_⟩
        rintro p hp q hq rfl
        exact hstaged.took.notInUse p hq (hused' p hp)
      obtain ⟨hall, hrange⟩ := htook.apart hinUse (List.nodup_append.1 haccounts.nodup).1 hV
        hVnodup
      have hperm : ((l ++ l') ++ (ci' ++ cs') ++ t.pendingFree ++ t.free).Perm
          (l ++ (ci ++ cs) ++ s.pendingFree ++ (l' ++ (ci' ++ cs')) ++ t.free) := by
        rw [hstaged.freed, ht.pendingFree, List.perm_iff_count]
        intro p
        simp only [List.count_append]
        omega
      exact ⟨index', stats', l ++ l', ci', cs',
        { loads := hstaged.loads
          loadsStats := hstaged.loadsStats
          held := tablesBlocks_append.2 ⟨l, l', hheld, hheld', rfl⟩
          indexHeld := hstaged.indexHeld
          statsHeld := hstaged.statsHeld
          nodup := hperm.nodup_iff.2 hall
          range := fun p hp => hrange p (hperm.mem_iff.1 hp) }⟩

/-- A block of a zone plane is a block of the source and of the copy. -/
theorem CopyIndependent.zones (hcopy : CopyIndependent more s tables)
    (h : CopyReady more s tables index stats) :
    zoneBlocks more (sourcesOf tables) s = .ok [] := by
  obtain ⟨t, zones, hexec, hzones, hcopied⟩ := copyGraphStorage_exec h
  obtain ⟨u, hexec', -, ⟨a, b, ha, hb, hdisjoint, -⟩, -⟩ := hcopy
  have hu : u = t := congrArg Prod.snd (hexec'.symm.trans hexec)
  rw [hu] at ha hb
  obtain ⟨a', ha', hsub⟩ := hcopied.zones_source
  obtain ⟨b', hb', hsub'⟩ := hcopied.zones_copy
  rw [ha] at ha'
  rw [hb] at hb'
  cases ha'
  cases hb'
  have hnil : zones = [] := List.eq_nil_iff_forall_not_mem.2 fun p hp =>
    hdisjoint (hsub p hp) (hsub' p hp)
  rw [hzones, hnil]

/-- A copied graph is independent of its source if and only if no zone plane of the
source names a block. -/
theorem copyGraphStorage_independent_iff (h : CopyReady more s tables index stats) :
    CopyIndependent more s tables ↔ zoneBlocks more (sourcesOf tables) s = .ok [] := by
  constructor
  · exact fun hcopy => hcopy.zones h
  · intro hnil
    obtain ⟨t, zones, hexec, hzones, hcopied⟩ := copyGraphStorage_exec h
    have hempty : zones = [] := Except.ok.inj (hzones.symm.trans hnil)
    obtain ⟨index', stats', l, ci, cs, haccounts⟩ := hcopied.accounts hempty
    obtain ⟨l', haccounts'⟩ := haccounts.comm
    obtain ⟨hlt, hnodup⟩ := h.ids
    refine ⟨t, hexec, fun c hc => ⟨hcopied.copies c hc, hcopied.sources c hc⟩,
      haccounts.independent hlt hnodup, haccounts'.independent (fun u hu => hlt u ?_) ?_⟩
    · exact (List.mem_append.1 hu).elim (List.mem_append_right _) (List.mem_append_left _)
    · rw [List.map_append, List.nodup_append_comm, ← List.map_append]
      exact hnodup

end

end

/-! ### A table of timestamps -/

def oneRow (ptr : BlockPtr) : SegmentMeta BlockPtr :=
  { valueCount := 1, payloadLen := 8, uncompressedBytes := 8, min := 0, max := 0, crc := 0,
    structural := .miniBlock, sorted := true, start := 0, blocks := [ptr] }

/-- A `ZONED DATETIME` column of one row, with its instants and its zones apart. -/
def zonedColumn : PropColumn BlockPtr :=
  { name := "at", ty := .zonedDatetime, colMeta := oneRow 3, validity := none, fixedLen := none,
    countWidth := 4, zones := some (oneRow 4), zones_isSome := rfl }

/-- The same without zones. -/
def localColumn : PropColumn BlockPtr :=
  { name := "at", ty := .other [], colMeta := oneRow 3, validity := none, fixedLen := none,
    countWidth := 4, zones := none, zones_isSome := rfl }

def tableOf (c : PropColumn BlockPtr) : Store :=
  { blockCount := 4, free := [], pendingFree := [], tableIndexRoot := 1, statsRoot := nullBlock
    blocks := fun p =>
      match p with
      | 1 => .link nullBlock (.index [(1, 2)]) 0
      | 2 => .link nullBlock (.props { nodeCount := 1, columns := [c], labels := none }) 0
      | _ => .segment [] }

theorem tableOf_ready {c : PropColumn BlockPtr} {l : List BlockPtr}
    (hl : propsBlocks (fun _ => 0) 2 (tableOf c) = .ok l) (hnodup : (l ++ [1]).Nodup)
    (hrange : ∀ p ∈ l ++ [1], 0 < p ∧ p ≤ 4)
    (hread : ∃ found, readTable (fun _ => 0) (1, .node) (tableOf c) = .ok found) :
    CopyReady (fun _ => 0) (tableOf c) [⟨1, 2, .node⟩] [(1, 2)] {} where
  accounts := by
    refine ⟨l, [1], [], rfl, rfl, ?_, rfl, rfl, by simpa [tableOf] using hnodup,
      by simpa [tableOf, InRange, File.InRange] using hrange⟩
    have htable : tableBlocks (fun _ => 0) [(1, 2)] (1, .node) (tableOf c) = .ok l := by
      refine tableBlocks_eq_ok.2 ⟨l, [], hl, rfl, ?_⟩
      rw [List.append_nil]
    refine tablesBlocks_cons.2 ⟨l, [], htable, rfl, ?_⟩
    rw [List.append_nil]
  readable := by
    intro t ht
    rw [List.mem_singleton.1 ht]
    exact hread
  lt := by decide
  nodup := by decide
  new := by
    intro t ht
    rw [List.mem_singleton.1 ht]
    exact ⟨rfl, rfl, rfl, rfl⟩

/-- A copied graph is not always independent of its source: the copy of a column of
timestamps names the block its source's zones are in. -/
theorem not_copyGraphStorage_independent :
    ¬ ∀ (more : Payload → ℕ) (s : Store) (tables : List CopyOf) (index : Entries BlockPtr)
      (stats : Stats), CopyReady more s tables index stats → CopyIndependent more s tables := by
  intro h
  have hready : CopyReady (fun _ => 0) (tableOf zonedColumn) [⟨1, 2, .node⟩] [(1, 2)] {} :=
    tableOf_ready (l := [3, 4, 2]) rfl (by decide) (by decide) ⟨_, rfl⟩
  have hnil : (Except.ok [4] : Except ZuError (List BlockPtr)) = .ok [] :=
    (h _ _ _ _ _ hready).zones hready
  cases hnil

theorem copyGraphStorage_independent_iff_localColumn :
    CopyIndependent (fun _ => 0) (tableOf localColumn) [⟨1, 2, .node⟩] :=
  (copyGraphStorage_independent_iff
    (tableOf_ready (l := [3, 2]) rfl (by decide) (by decide) ⟨_, rfl⟩)).2 rfl

end Zu.Graph
