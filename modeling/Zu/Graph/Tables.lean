import Zu.Graph.Copied

/-!
# Copying tables

A table has its storage under its id, its deleted rows under a reserved key, and
its statistics under its id. A turn of `copy_graph_storage` writes under the two
keys of the copy and leaves every other one alone, so the tables copied before it
and those still to come are as they were.
-/

namespace Zu.Graph

open Lib

/-! ### Ids -/

theorem tombstonesOf_eq {id : ℕ} (h : id < tombstoneKey) : tombstonesOf id = tombstoneKey + id := by
  have hor := Nat.two_pow_add_eq_or_of_lt (i := 31) h 1
  rw [Nat.mul_one, Nat.or_comm] at hor
  exact hor.symm

theorem tombstonesOf_ne {id id' : ℕ} (h : id < tombstoneKey) (h' : id' < tombstoneKey) :
    tombstonesOf id ≠ id' := by
  rw [tombstonesOf_eq h]
  omega

theorem tombstonesOf_inj {id id' : ℕ} (h : id < tombstoneKey) (h' : id' < tombstoneKey)
    (hne : id ≠ id') : tombstonesOf id ≠ tombstonesOf id' := by
  rw [tombstonesOf_eq h, tombstonesOf_eq h']
  omega

/-- Two indexes with statistics that say the same of a table. -/
structure Agree (index : Entries BlockPtr) (stats : Stats) (index' : Entries BlockPtr)
    (stats' : Stats) (id : ℕ) : Prop where
  root : index'.get id = index.get id
  tombstones : index'.get (tombstonesOf id) = index.get (tombstonesOf id)
  rels : stats'.rels.get id = stats.rels.get id
  cols : stats'.cols.get id = stats.cols.get id

section

variable {index index' index'' : Entries BlockPtr} {stats stats' stats'' : Stats} {id : ℕ}
  {kind : ElementKind}

theorem Agree.refl (index : Entries BlockPtr) (stats : Stats) (id : ℕ) :
    Agree index stats index stats id := ⟨rfl, rfl, rfl, rfl⟩

theorem Agree.trans (h : Agree index stats index' stats' id)
    (h' : Agree index' stats' index'' stats'' id) : Agree index stats index'' stats'' id :=
  ⟨h'.root.trans h.root, h'.tombstones.trans h.tombstones, h'.rels.trans h.rels,
    h'.cols.trans h.cols⟩

theorem Agree.tombstonesRoot (h : Agree index stats index' stats' id) :
    tombstonesRoot index' id kind = tombstonesRoot index id kind := by
  cases kind with
  | node => exact h.tombstones
  | edge => rfl

variable {more : Payload → ℕ}

theorem Agree.findTable (h : Agree index stats index' stats' id) (s : Store) :
    findTable more index' stats' (id, kind) s = findTable more index stats (id, kind) s := by
  simp only [Graph.findTable, h.root, h.tombstonesRoot, h.rels, h.cols]

theorem Agree.tableBlocks (h : Agree index stats index' stats' id) (s : Store) :
    tableBlocks more index' (id, kind) s = tableBlocks more index (id, kind) s := by
  simp only [Graph.tableBlocks, h.root, h.tombstonesRoot]

end

/-! ### Statistics -/

theorem get_cloneEntry_copy {α : Type} {source copy : ℕ} {entries : Entries α}
    (h : entries.get copy = none) :
    (cloneEntry source copy entries).get copy = entries.get source := by
  rw [cloneEntry]
  cases hsource : entries.get source with
  | none => exact h
  | some a => exact Entries.get_set_self copy a entries

theorem get_cloneEntry_of_ne {α : Type} {source copy id : ℕ} (hne : id ≠ copy)
    (entries : Entries α) : (cloneEntry source copy entries).get id = entries.get id := by
  rw [cloneEntry]
  cases entries.get source with
  | none => rfl
  | some a => exact Entries.get_set_of_ne hne a entries

/-! ### One table -/

section

variable {more : Payload → ℕ}

theorem PartCopied.some {α : Type} {held : BlockPtr → Store → Except ZuError (List BlockPtr)}
    {found : BlockPtr → Store → Except ZuError α} {zones taken : List BlockPtr} {s t : Store}
    {root copy : BlockPtr} (h : PartCopied held found zones s root copy taken t) :
    PartCopied (optionBlocks held) (readOption found) zones s (some root) (some copy) taken t := by
  refine ⟨?_, h.holds⟩
  rw [readOption, readOption, h.finds]

theorem PartCopied.none {α : Type} {held : BlockPtr → Store → Except ZuError (List BlockPtr)}
    {found : BlockPtr → Store → Except ZuError α} (s : Store) :
    PartCopied (optionBlocks held) (readOption found) [] s none none [] s :=
  ⟨rfl, [], rfl, CopyHolds.of_nodup List.nodup_nil⟩

/-- The storage a table's id names goes under the id of the copy. -/
theorem copyRoot_exec {s : Store} (hfree : FreeOk s) {index : Entries BlockPtr} {source copy : ℕ}
    {kind : ElementKind} {l : List BlockPtr}
    (hl : optionBlocks (rootBlocks more kind) (index.get source) s = .ok l)
    (hused : ∀ p ∈ l, InUse s p) (hnew : index.get copy = none) :
    ∃ index' taken t zones, (copyRoot more index source copy kind).exec s = (.ok index', t) ∧
      Taken s taken t ∧ (∀ id, id ≠ copy → index'.get id = index.get id) ∧
      optionBlocks (rootZones more kind) (index.get source) s = .ok zones ∧
      (∀ p ∈ zones, p ∈ l) ∧
      PartCopied (optionBlocks (rootBlocks more kind)) (readOption (findRoot more kind)) zones s
        (index.get source) (index'.get copy) taken t := by
  cases hget : index.get source with
  | none =>
      refine ⟨index, [], s, [], ?_, Taken.refl hfree, fun _ _ => rfl, rfl, by simp, ?_⟩
      · simp only [copyRoot, hget]
        rfl
      · rw [hnew]
        exact PartCopied.none s
  | some root =>
      rw [hget] at hl
      cases kind with
      | node =>
          obtain ⟨copied, taken, t, zones, hexec, htaken, -, hzones, hsub, hcopied⟩ :=
            copyProps_exec hfree hl hused
          refine ⟨index.set copy copied, taken, t, zones, ?_, htaken,
            fun id hid => Entries.get_set_of_ne hid _ _, hzones, hsub, ?_⟩
          · simp only [copyRoot, hget]
            rw [exec_bind_of_ok hexec]
            rfl
          · rw [Entries.get_set_self]
            refine PartCopied.some ⟨?_, hcopied.holds⟩
            rw [findRoot, findRoot, hcopied.finds]
      | edge =>
          obtain ⟨copied, taken, t, zones, hexec, htaken, -, hzones, hsub, hcopied⟩ :=
            copyDirectory_exec hfree hl hused
          refine ⟨index.set copy copied, taken, t, zones, ?_, htaken,
            fun id hid => Entries.get_set_of_ne hid _ _, hzones, hsub, ?_⟩
          · simp only [copyRoot, hget]
            rw [exec_bind_of_ok hexec]
            rfl
          · rw [Entries.get_set_self]
            refine PartCopied.some ⟨?_, hcopied.holds⟩
            rw [findRoot, findRoot, hcopied.finds]

/-- `copy_chain`: what a chain carries goes to a chain of its own. -/
theorem copyChain_exec {s : Store} (hfree : FreeOk s) {root : BlockPtr}
    {payload : Option Payload} (hread : readChain more root s = .ok payload) :
    ∃ copy taken t, (copyChain more root).exec s = (.ok copy, t) ∧ Taken s taken t ∧
      PartCopied chainBlocks (readChain more) [] s root copy taken t := by
  cases payload with
  | none =>
      have hnull : readChain more nullBlock s = .ok none ∧ chainBlocks nullBlock s = .ok [] := by
        constructor <;> rfl
      refine ⟨nullBlock, [], s, ?_, Taken.refl hfree, hnull.1.trans hread.symm, [], hnull.2,
        CopyHolds.of_nodup List.nodup_nil⟩
      rw [copyChain, exec_bind_of_ok (reads_exec hread)]
      rfl
  | some payload =>
      obtain ⟨copy, ptrs, t, hexec, htaken, hchain, -⟩ := writeChain_exec more payload hfree
      refine ⟨copy, ptrs, t, ?_, htaken, hchain.read.trans hread.symm, ptrs, hchain.blocks,
        CopyHolds.of_nodup htaken.nodup⟩
      rw [copyChain, exec_bind_of_ok (reads_exec hread)]
      exact hexec

/-- The deleted rows of a node table go under the reserved key of the copy. -/
theorem copyTombstones_exec {s : Store} (copy : ℕ) (hfree : FreeOk s) {index : Entries BlockPtr}
    {source : ℕ} {kind : ElementKind} {rows : Option (Option Payload)}
    (hread : readOption (readChain more) (tombstonesRoot index source kind) s = .ok rows)
    (hnew : index.get (tombstonesOf copy) = none) :
    ∃ index' taken t, (copyTombstones more index source copy kind).exec s = (.ok index', t) ∧
      Taken s taken t ∧ (∀ id, id ≠ tombstonesOf copy → index'.get id = index.get id) ∧
      PartCopied (optionBlocks chainBlocks) (readOption (readChain more)) [] s
        (tombstonesRoot index source kind) (tombstonesRoot index' copy kind) taken t := by
  cases kind with
  | edge => exact ⟨index, [], s, rfl, Taken.refl hfree, fun _ _ => rfl, PartCopied.none s⟩
  | node =>
      simp only [tombstonesRoot] at hread ⊢
      cases hget : index.get (tombstonesOf source) with
      | none =>
          refine ⟨index, [], s, ?_, Taken.refl hfree, fun _ _ => rfl, ?_⟩
          · simp only [copyTombstones, hget]
            rfl
          · rw [hnew]
            exact PartCopied.none s
      | some root =>
          rw [hget, readOption, bind_eq_ok] at hread
          obtain ⟨payload, hread, -⟩ := hread
          obtain ⟨copied, taken, t, hexec, htaken, hcopied⟩ := copyChain_exec hfree hread
          refine ⟨index.set (tombstonesOf copy) copied, taken, t, ?_, htaken,
            fun id hid => Entries.get_set_of_ne hid _ _, ?_⟩
          · simp only [copyTombstones, hget]
            rw [exec_bind_of_ok hexec]
            rfl
          · rw [Entries.get_set_self]
            exact hcopied.some

/-- What one turn of `copy_graph_storage` needs: the source can be read and is in use,
and nothing is under the keys of the copy. -/
structure TurnReady (more : Payload → ℕ) (index : Entries BlockPtr) (stats : Stats) (c : CopyOf)
    (s : Store) (l : List BlockPtr) : Prop where
  source_lt : c.source < tombstoneKey
  copy_lt : c.copy < tombstoneKey
  blocks : tableBlocks more index (c.source, c.kind) s = .ok l
  inUse : ∀ p ∈ l, InUse s p
  readable : ∃ found, findTable more index stats (c.source, c.kind) s = .ok found
  root_new : index.get c.copy = none
  tombstones_new : index.get (tombstonesOf c.copy) = none
  rels_new : stats.rels.get c.copy = none
  cols_new : stats.cols.get c.copy = none

/-- A table and its copy, under the index and the statistics that name it. -/
structure TableCopied (more : Payload → ℕ) (index : Entries BlockPtr) (stats : Stats) (s : Store)
    (c : CopyOf) (index' : Entries BlockPtr) (stats' : Stats) (zones taken : List BlockPtr)
    (t : Store) : Prop where
  finds : findTable more index' stats' (c.copy, c.kind) t =
    findTable more index stats (c.source, c.kind) s
  holds : ∃ l, tableBlocks more index' (c.copy, c.kind) t = .ok l ∧ CopyHolds zones taken l

theorem copyTable_exec {s : Store} (hfree : FreeOk s) {index : Entries BlockPtr} {stats : Stats}
    {c : CopyOf} {l : List BlockPtr} (h : TurnReady more index stats c s l) :
    ∃ index' stats' taken t zones, (copyTable more index stats c).exec s =
        (.ok (index', stats'), t) ∧ Taken s taken t ∧
      (∀ id, id < tombstoneKey → id ≠ c.copy → Agree index stats index' stats' id) ∧
      optionBlocks (rootZones more c.kind) (index.get c.source) s = .ok zones ∧
      (∀ p ∈ zones, p ∈ l) ∧
      TableCopied more index stats s c index' stats' zones taken t := by
  obtain ⟨lroot, lrows, hlroot, hlrows, hl⟩ := tableBlocks_eq_ok.1 h.blocks
  obtain ⟨found, hfound⟩ := h.readable
  rw [findTable] at hfound
  obtain ⟨storage, hstorage, hfound⟩ := bind_eq_ok.1 hfound
  obtain ⟨rows, hrows, -⟩ := bind_eq_ok.1 hfound
  have hne : tombstonesOf c.copy ≠ c.copy := tombstonesOf_ne h.copy_lt h.copy_lt
  have hne' : tombstonesOf c.source ≠ c.copy := tombstonesOf_ne h.source_lt h.copy_lt
  have husedroot : ∀ p ∈ lroot, InUse s p := fun p hp =>
    h.inUse p (hl ▸ List.mem_append_left _ hp)
  have husedrows : ∀ p ∈ lrows, InUse s p := fun p hp =>
    h.inUse p (hl ▸ List.mem_append_right _ hp)
  obtain ⟨index₁, taken₁, t, zones, hexec, ht, hframe, hzones, hsub, hroot⟩ :=
    copyRoot_exec hfree hlroot husedroot h.root_new
  have hrests : Rests (optionBlocks chainBlocks (tombstonesRoot index c.source c.kind))
      (readOption (readChain more) (tombstonesRoot index c.source c.kind)) :=
    Rests.option (fun root => chain_rests _ root) _
  have hsame : SameOn s lrows t := ht.sameOn husedrows
  have htomb : tombstonesRoot index₁ c.source c.kind = tombstonesRoot index c.source c.kind := by
    cases hkind : c.kind with
    | node => exact hframe _ hne'
    | edge => rfl
  have hrows₁ : readOption (readChain more) (tombstonesRoot index₁ c.source c.kind) t =
      .ok rows := by
    rw [htomb, hrests.finds hlrows hsame]
    exact hrows
  obtain ⟨index₂, taken₂, u, hexec', hu, hframe', hcopied⟩ :=
    copyTombstones_exec c.copy ht.freeOk hrows₁ (by rw [hframe _ hne, h.tombstones_new])
  have htook := ht.trans hu
  have hzused : ∀ p ∈ zones, InUse t p := fun p hp => ht.keeps (husedroot p (hsub p hp))
  have hroot' := hroot.later (Rests.option (fun root => root_rests _ c.kind root) _)
    ht.inUse hzused hu
  rw [htomb] at hcopied
  have hrowscopied := hcopied.earlier hrests hlrows husedrows ht
  have hcopyget : index₂.get c.copy = index₁.get c.copy := hframe' _ hne.symm
  refine ⟨index₂, stats.clone c.source c.copy, taken₁ ++ taken₂, u, zones, ?_, htook,
    fun id hid hidne => ?_, hzones, fun p hp => hl ▸ List.mem_append_left _ (hsub p hp), ?_, ?_⟩
  · rw [copyTable, exec_bind_of_ok hexec, exec_bind_of_ok hexec']
    rfl
  · exact
      { root := by
          rw [hframe' id (tombstonesOf_ne h.copy_lt hid).symm, hframe id hidne]
        tombstones := by
          rw [hframe' _ (tombstonesOf_inj hid h.copy_lt hidne),
            hframe _ (tombstonesOf_ne hid h.copy_lt)]
        rels := get_cloneEntry_of_ne hidne _
        cols := get_cloneEntry_of_ne hidne _ }
  · simp only [findTable, Stats.clone, get_cloneEntry_copy h.rels_new,
      get_cloneEntry_copy h.cols_new]
    rw [hcopyget, hroot'.finds, hrowscopied.finds]
  · obtain ⟨l₁, hl₁, hholds₁⟩ := hroot'.holds
    obtain ⟨l₂, hl₂, hholds₂⟩ := hrowscopied.holds
    refine ⟨l₁ ++ l₂, tableBlocks_eq_ok.2 ⟨l₁, l₂, ?_, hl₂, rfl⟩, hholds₁.append_own hholds₂ htook.nodup⟩
    rw [hcopyget]
    exact hl₁

/-! ### The loop -/

def sourcesOf (tables : List CopyOf) : List (ℕ × ElementKind) :=
  tables.map fun c => (c.source, c.kind)

def copiesOf (tables : List CopyOf) : List (ℕ × ElementKind) :=
  tables.map fun c => (c.copy, c.kind)

/-- What the loop needs: every turn is ready, and the ids are all different. -/
structure LoopReady (more : Payload → ℕ) (index : Entries BlockPtr) (stats : Stats)
    (tables : List CopyOf) (s : Store) : Prop where
  turns : ∀ c ∈ tables, ∃ l, TurnReady more index stats c s l
  nodup : (tables.map CopyOf.copy).Nodup
  apart : ∀ c ∈ tables, ∀ d ∈ tables, c.source ≠ d.copy

theorem TurnReady.later {index index' : Entries BlockPtr} {stats stats' : Stats} {c : CopyOf}
    {s t : Store} {l taken : List BlockPtr} (h : TurnReady more index stats c s l)
    (hsource : Agree index stats index' stats' c.source)
    (hcopy : Agree index stats index' stats' c.copy) (ht : Taken s taken t) :
    TurnReady more index' stats' c t l := by
  have hrests := table_rests more index stats (c.source, c.kind)
  have hsame := ht.sameOn h.inUse
  exact
    { source_lt := h.source_lt
      copy_lt := h.copy_lt
      blocks := (hsource.tableBlocks t).trans (hrests.holds h.blocks hsame)
      inUse := fun p hp => ht.keeps (h.inUse p hp)
      readable := by
        rw [hsource.findTable, hrests.finds h.blocks hsame]
        exact h.readable
      root_new := hcopy.root.trans h.root_new
      tombstones_new := hcopy.tombstones.trans h.tombstones_new
      rels_new := hcopy.rels.trans h.rels_new
      cols_new := hcopy.cols.trans h.cols_new }

theorem tablesBlocks_cons {index : Entries BlockPtr} {t : ℕ × ElementKind}
    {tables : List (ℕ × ElementKind)} {s : Store} {l : List BlockPtr} :
    tablesBlocks more index (t :: tables) s = .ok l ↔
      ∃ first rest, tableBlocks more index t s = .ok first ∧
        tablesBlocks more index tables s = .ok rest ∧ l = first ++ rest := by
  rw [tablesBlocks, bind_eq_ok]
  constructor
  · rintro ⟨first, hfirst, h⟩
    obtain ⟨rest, hrest, hl⟩ := bind_eq_ok.1 h
    exact ⟨first, rest, hfirst, hrest, (pure_eq_ok.1 hl).symm⟩
  · rintro ⟨first, rest, hfirst, hrest, rfl⟩
    exact ⟨first, hfirst, bind_eq_ok.2 ⟨rest, hrest, rfl⟩⟩

theorem tablesZones_cons {index : Entries BlockPtr} {t : ℕ × ElementKind}
    {tables : List (ℕ × ElementKind)} {s : Store} {first rest : List BlockPtr}
    (hfirst : optionBlocks (rootZones more t.2) (index.get t.1) s = .ok first)
    (hrest : tablesZones more index tables s = .ok rest) :
    tablesZones more index (t :: tables) s = .ok (first ++ rest) := by
  rw [tablesZones, hfirst, ok_bind, hrest]
  rfl

/-- The zone planes of the tables still to come are what they were. -/
theorem tablesZones_later {index index' : Entries BlockPtr} {stats stats' : Stats}
    {tables : List CopyOf} {s t : Store} {taken : List BlockPtr}
    (h : ∀ c ∈ tables, ∃ l, TurnReady more index stats c s l)
    (hagree : ∀ c ∈ tables, Agree index stats index' stats' c.source) (ht : Taken s taken t) :
    tablesZones more index' (sourcesOf tables) t = tablesZones more index (sourcesOf tables) s := by
  induction tables with
  | nil => rfl
  | cons c tables ih =>
      obtain ⟨l, hready⟩ := h c List.mem_cons_self
      obtain ⟨lroot, lrows, hlroot, -, hl⟩ := tableBlocks_eq_ok.1 hready.blocks
      have hrest := ih (fun d hd => h d (List.mem_cons_of_mem c hd))
        fun d hd => hagree d (List.mem_cons_of_mem c hd)
      have hsame : SameOn s lroot t :=
        ht.sameOn fun p hp => hready.inUse p (hl ▸ List.mem_append_left _ hp)
      have hzones := (Rests.optionBlocks (fun root => zones_rest more c.kind root)
        (index.get c.source)).finds hlroot hsame
      simp only [sourcesOf, List.map_cons, tablesZones] at hrest ⊢
      rw [(hagree c List.mem_cons_self).root, hzones, hrest]

/-- Tables and their copies, under the index and the statistics that name them. -/
structure LoopCopied (more : Payload → ℕ) (index : Entries BlockPtr) (stats : Stats) (s : Store)
    (tables : List CopyOf) (index' : Entries BlockPtr) (stats' : Stats)
    (zones taken : List BlockPtr) (t : Store) : Prop where
  finds : ∀ c ∈ tables, findTable more index' stats' (c.copy, c.kind) t =
    findTable more index stats (c.source, c.kind) s
  holds : ∃ l, tablesBlocks more index' (copiesOf tables) t = .ok l ∧ CopyHolds zones taken l

theorem copyTables_exec {tables : List CopyOf} {s : Store} (hfree : FreeOk s)
    {index : Entries BlockPtr} {stats : Stats} (h : LoopReady more index stats tables s) :
    ∃ index' stats' taken t zones, (copyTables more index stats tables).exec s =
        (.ok (index', stats'), t) ∧ Taken s taken t ∧
      (∀ id, id < tombstoneKey → (∀ c ∈ tables, id ≠ c.copy) →
        Agree index stats index' stats' id) ∧
      tablesZones more index (sourcesOf tables) s = .ok zones ∧
      LoopCopied more index stats s tables index' stats' zones taken t := by
  induction tables generalizing s index stats with
  | nil =>
      exact ⟨index, stats, [], s, [], rfl, Taken.refl hfree, fun _ _ _ => Agree.refl _ _ _, rfl,
        by simp, [], rfl, CopyHolds.of_nodup List.nodup_nil⟩
  | cons c tables ih =>
      obtain ⟨l, hready⟩ := h.turns c List.mem_cons_self
      have hnodup := List.nodup_cons.1 h.nodup
      have hnew : ∀ d ∈ tables, d.copy ≠ c.copy := fun d hd heq =>
        hnodup.1 (List.mem_map.2 ⟨d, hd, heq⟩)
      obtain ⟨index₁, stats₁, taken₁, t, zones₁, hexec, ht, hframe, hzones, hzsub, hcopied⟩ :=
        copyTable_exec hfree hready
      have hsource : ∀ d ∈ tables, Agree index stats index₁ stats₁ d.source := by
        intro d hd
        obtain ⟨ld, hd'⟩ := h.turns d (List.mem_cons_of_mem c hd)
        exact hframe _ hd'.source_lt (h.apart d (List.mem_cons_of_mem c hd) c List.mem_cons_self)
      have hloop : LoopReady more index₁ stats₁ tables t :=
        { turns := by
            intro d hd
            obtain ⟨ld, hd'⟩ := h.turns d (List.mem_cons_of_mem c hd)
            exact ⟨ld, hd'.later (hsource d hd) (hframe _ hd'.copy_lt (hnew d hd)) ht⟩
          nodup := hnodup.2
          apart := fun d hd e he =>
            h.apart d (List.mem_cons_of_mem c hd) e (List.mem_cons_of_mem c he) }
      obtain ⟨index₂, stats₂, taken₂, u, zones₂, hexec', hu, hframe', hzones', hrest⟩ :=
        ih ht.freeOk hloop
      have hthis : Agree index₁ stats₁ index₂ stats₂ c.copy :=
        hframe' _ hready.copy_lt fun d hd => (hnew d hd).symm
      have hzused : ∀ p ∈ zones₁, InUse s p := fun p hp => hready.inUse p (hzsub p hp)
      obtain ⟨l₁, hl₁, hholds₁⟩ := hcopied.holds
      obtain ⟨l₂, hl₂, hholds₂⟩ := hrest.holds
      have hrests := table_rests more index₁ stats₁ (c.copy, c.kind)
      have hsame : SameOn t l₁ u := hu.sameOn fun p hp =>
        (hholds₁.sub p hp).elim (ht.inUse p) fun hz => ht.keeps (hzused p hz)
      have hlater := tablesZones_later
        (fun d hd => h.turns d (List.mem_cons_of_mem c hd)) hsource ht
      refine ⟨index₂, stats₂, taken₁ ++ taken₂, u, zones₁ ++ zones₂, ?_, ht.trans hu,
        fun id hid hne => ?_, tablesZones_cons hzones (hlater ▸ hzones'),
        fun d hd => ?_, l₁ ++ l₂, ?_, hholds₁.append hholds₂ (ht.trans hu).nodup⟩
      · rw [copyTables, exec_bind_of_ok hexec]
        exact hexec'
      · exact (hframe id hid (hne c List.mem_cons_self)).trans
          (hframe' id hid fun d hd => hne d (List.mem_cons_of_mem c hd))
      · rcases List.mem_cons.1 hd with rfl | hd
        · rw [hthis.findTable, hrests.finds hl₁ hsame, hcopied.finds]
        · obtain ⟨ld, hd'⟩ := h.turns d (List.mem_cons_of_mem c hd)
          rw [hrest.finds d hd, (hsource d hd).findTable]
          exact (table_rests _ index stats (d.source, d.kind)).finds hd'.blocks
            (ht.sameOn hd'.inUse)
      · exact tablesBlocks_cons.2 ⟨l₁, l₂, (hthis.tableBlocks u).trans (hrests.holds hl₁ hsame),
          hl₂, rfl⟩

theorem tablesZones_sub {index : Entries BlockPtr} {tables : List (ℕ × ElementKind)} {s : Store}
    {l zones : List BlockPtr} (hl : tablesBlocks more index tables s = .ok l)
    (hzones : tablesZones more index tables s = .ok zones) : ∀ p ∈ zones, p ∈ l := by
  induction tables generalizing l zones with
  | nil =>
      cases hzones
      simp
  | cons t tables ih =>
      obtain ⟨first, rest, hfirst, hrest, rfl⟩ := tablesBlocks_cons.1 hl
      obtain ⟨storage, tombstones, hstorage, -, rfl⟩ := tableBlocks_eq_ok.1 hfirst
      rw [tablesZones, bind_eq_ok] at hzones
      obtain ⟨zones₁, hzones₁, hzones⟩ := hzones
      obtain ⟨zones₂, hzones₂, hzones⟩ := bind_eq_ok.1 hzones
      rw [← pure_eq_ok.1 hzones]
      intro p hp
      rcases List.mem_append.1 hp with hp | hp
      · refine List.mem_append_left _ (List.mem_append_left _ ?_)
        cases hget : index.get t.1 with
        | none =>
            rw [hget] at hzones₁
            cases hzones₁
            simp at hp
        | some root =>
            rw [hget] at hzones₁ hstorage
            exact rootZones_sub hstorage hzones₁ p hp
      · exact List.mem_append_right _ (ih hrest hzones₂ p hp)

end

end Zu.Graph
