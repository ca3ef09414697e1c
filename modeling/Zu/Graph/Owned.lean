import Zu.Graph.Storage
import Zu.Graph.Taken

/-!
# The blocks a table's storage depends on

A directory, what a reader finds under it, and the blocks that would be freed with
it depend on those blocks alone: a file that holds the same there answers the same.
-/

namespace Zu.Graph

open Lib

/-- `t` is a file no shorter than `s` that holds the same in the blocks of `l`. -/
structure SameOn (s : Store) (l : List BlockPtr) (t : Store) : Prop where
  count : s.blockCount ≤ t.blockCount
  range : ∀ p ∈ l, InRange s.blockCount p
  blocks : ∀ p ∈ l, t.blocks p = s.blocks p

theorem SameOn.sub {s t : Store} {l l' : List BlockPtr} (h : SameOn s l t) (hsub : l' ⊆ l) :
    SameOn s l' t :=
  ⟨h.count, fun p hp => h.range p (hsub hp), fun p hp => h.blocks p (hsub hp)⟩

theorem SameOn.readBlock {s t : Store} {l : List BlockPtr} (h : SameOn s l t) {p : BlockPtr}
    (hp : p ∈ l) : readBlock p t = readBlock p s := by
  rw [readBlock_ok (h.range p hp), readBlock_ok ((h.range p hp).mono h.count), h.blocks p hp]

@[simp] theorem mem_difference {p : BlockPtr} {dropped kept : List BlockPtr} :
    p ∈ difference dropped kept ↔ p ∈ dropped ∧ p ∉ kept := by
  rw [difference, List.mem_insertionSort, List.mem_dedup, List.mem_filter]
  simp

theorem nodup_difference (dropped kept : List BlockPtr) : (difference dropped kept).Nodup :=
  (List.perm_insertionSort _ _).nodup_iff.2 (List.nodup_dedup _)

/-! ### Reading the parts of a program that returned -/

theorem bind_eq_ok {α β : Type} {x : Except ZuError α} {f : α → Except ZuError β} {b : β} :
    (x >>= f) = .ok b ↔ ∃ a, x = .ok a ∧ f a = .ok b := by
  cases x with
  | ok a => simp [ok_bind]
  | error e => simp [error_bind]

theorem pure_eq_ok {α : Type} {a b : α} : (pure a : Except ZuError α) = .ok b ↔ a = b :=
  Except.ok.injEq a b ▸ Iff.rfl

/-! ### The same directory over two sets of blocks -/

section

variable {β γ : Type} {f g : β → γ}

theorem mem_blocksOf {m : SegmentMeta β} {segs : List (SegmentMeta β)} (hm : m ∈ segs) {p : β}
    (hp : p ∈ m.blocks) : p ∈ blocksOf segs :=
  List.mem_flatMap.2 ⟨m, hm, hp⟩

theorem SegmentMeta.map_congr {m : SegmentMeta β} (h : ∀ p ∈ m.blocks, f p = g p) :
    m.map f = m.map g := by
  rw [SegmentMeta.map, SegmentMeta.map, List.map_congr_left h]

theorem Option.map_congr_mem {α δ : Type} {o : Option α} {f g : α → δ}
    (h : ∀ a ∈ o, f a = g a) : o.map f = o.map g := by
  cases o with
  | none => rfl
  | some a => exact congrArg some (h a rfl)

theorem PropColumn.bimap_congr {c : PropColumn β} {f' g' : β → γ}
    (h : ∀ p ∈ blocksOf c.planes, f p = g p)
    (h' : ∀ p ∈ blocksOf c.zones.toList, f' p = g' p) : c.bimap f f' = c.bimap g g' := by
  have hmeta : c.colMeta.map f = c.colMeta.map g :=
    SegmentMeta.map_congr fun p hp => h p (mem_blocksOf (by simp [PropColumn.planes]) hp)
  have hvalidity : c.validity.map (SegmentMeta.map f) = c.validity.map (SegmentMeta.map g) :=
    Option.map_congr_mem fun m hm => SegmentMeta.map_congr fun p hp =>
      h p (mem_blocksOf (by simp_all [PropColumn.planes]) hp)
  have hzones : c.zones.map (SegmentMeta.map f') = c.zones.map (SegmentMeta.map g') :=
    Option.map_congr_mem fun m hm => SegmentMeta.map_congr fun p hp =>
      h' p (mem_blocksOf (Option.mem_toList.2 hm) hp)
  apply PropColumn.ext <;> simp only [PropColumn.bimap, hmeta, hvalidity, hzones]

theorem PropsDirectory.bimap_congr {d : PropsDirectory β} {f' g' : β → γ}
    (h : ∀ p ∈ blocksOf d.planes, f p = g p)
    (h' : ∀ p ∈ blocksOf d.zonePlanes, f' p = g' p) : d.bimap f f' = d.bimap g g' := by
  have hlabels : d.labels.map (SegmentMeta.map f) = d.labels.map (SegmentMeta.map g) :=
    Option.map_congr_mem fun m hm => SegmentMeta.map_congr fun p hp =>
      h p (mem_blocksOf (List.mem_append_left _ (Option.mem_toList.2 hm)) hp)
  have hcolumns : d.columns.map (PropColumn.bimap f f') =
      d.columns.map (PropColumn.bimap g g') := by
    apply List.map_congr_left
    intro c hc
    apply PropColumn.bimap_congr
    · intro p hp
      obtain ⟨m, hm, hp⟩ := List.mem_flatMap.1 hp
      exact h p (mem_blocksOf (List.mem_append_right _ (List.mem_flatMap.2 ⟨c, hc, hm⟩)) hp)
    · intro p hp
      obtain ⟨m, hm, hp⟩ := List.mem_flatMap.1 hp
      exact h' p (mem_blocksOf (List.mem_flatMap.2 ⟨c, hc, hm⟩) hp)
  apply PropsDirectory.ext
  · rfl
  · exact hcolumns
  · exact hlabels

theorem KeyIndex.map_congr {k : KeyIndex β} (h : ∀ p ∈ blocksOf k.segments, f p = g p) :
    k.map f = k.map g := by
  rw [KeyIndex.map, KeyIndex.map]
  congr 1
  · exact SegmentMeta.map_congr fun p hp => h p (mem_blocksOf (by simp [KeyIndex.segments]) hp)
  · exact SegmentMeta.map_congr fun p hp => h p (mem_blocksOf (by simp [KeyIndex.segments]) hp)

theorem GroupMeta.map_congr {m : GroupMeta β} (h : ∀ p ∈ blocksOf m.segments, f p = g p) :
    m.map f = m.map g := by
  have hseg : ∀ seg ∈ m.segments, seg.map f = seg.map g := fun seg hseg =>
    SegmentMeta.map_congr fun p hp => h p (mem_blocksOf hseg hp)
  simp only [GroupMeta.map, DirectionMeta.map, hseg m.fwd.offsets (by simp [GroupMeta.segments]),
    hseg m.fwd.neighbors (by simp [GroupMeta.segments]),
    hseg m.bwd.offsets (by simp [GroupMeta.segments]),
    hseg m.bwd.neighbors (by simp [GroupMeta.segments])]

theorem Directory.map_congr {π ρ : Type} {d : Directory β π} {props : ρ}
    (h : ∀ p ∈ blocksOf d.segments, f p = g p) : d.map f props = d.map g props := by
  have hkeys : d.keys.map (KeyIndex.map f) = d.keys.map (KeyIndex.map g) :=
    Option.map_congr_mem fun k hk => KeyIndex.map_congr fun p hp => by
      obtain ⟨m, hm, hp⟩ := List.mem_flatMap.1 hp
      exact h p (mem_blocksOf (List.mem_append_left _
        (List.mem_flatMap.2 ⟨k, Option.mem_toList.2 hk, hm⟩)) hp)
  have hgroups : d.groups.map (GroupMeta.map f) = d.groups.map (GroupMeta.map g) := by
    apply List.map_congr_left
    intro m hm
    apply GroupMeta.map_congr
    intro p hp
    obtain ⟨seg, hseg, hp⟩ := List.mem_flatMap.1 hp
    exact h p (mem_blocksOf (List.mem_append_right _ (List.mem_flatMap.2 ⟨m, hm, hseg⟩)) hp)
  rw [Directory.map, Directory.map, hkeys, hgroups]

/-- The payloads of a property directory are its planes and its zone planes. -/
theorem PropsDirectory.mem_blocksOf_segments {d : PropsDirectory β} {p : β} :
    p ∈ blocksOf d.segments ↔ p ∈ blocksOf d.planes ∨ p ∈ blocksOf d.zonePlanes := by
  simp only [blocksOf, PropsDirectory.segments, PropsDirectory.planes, PropsDirectory.zonePlanes,
    PropColumn.segments, List.mem_flatMap, List.mem_append]
  constructor
  · rintro ⟨m, hm | ⟨c, hc, hm | hm⟩, hp⟩
    · exact Or.inl ⟨m, Or.inl hm, hp⟩
    · exact Or.inl ⟨m, Or.inr ⟨c, hc, hm⟩, hp⟩
    · exact Or.inr ⟨m, ⟨c, hc, hm⟩, hp⟩
  · rintro (⟨m, hm | ⟨c, hc, hm⟩, hp⟩ | ⟨m, ⟨c, hc, hm⟩, hp⟩)
    · exact ⟨m, Or.inl hm, hp⟩
    · exact ⟨m, Or.inr ⟨c, hc, Or.inl hm⟩, hp⟩
    · exact ⟨m, Or.inr ⟨c, hc, Or.inr hm⟩, hp⟩

end

section

variable {more : Payload → ℕ}

theorem decodeProps_eq_ok {payload : Option Payload} {d : PropsDirectory BlockPtr} :
    decodeProps payload = .ok d ↔ payload = some (.props d) := by
  constructor
  · intro h
    match payload, h with
    | some (.props _), h => cases h; rfl
  · rintro rfl
    rfl

theorem decodeDirectory_eq_ok {payload : Option Payload} {d : Directory BlockPtr BlockPtr} :
    decodeDirectory payload = .ok d ↔ payload = some (.directory d) := by
  constructor
  · intro h
    match payload, h with
    | some (.directory _), h => cases h; rfl
  · rintro rfl
    rfl

theorem readProps_eq_ok {root : BlockPtr} {s : Store} {d : PropsDirectory BlockPtr} :
    readProps more root s = .ok d ↔ ∃ ptrs, Chain more s root (some (.props d)) ptrs := by
  rw [readProps, bind_eq_ok]
  constructor
  · rintro ⟨payload, hread, hdecode⟩
    rw [decodeProps_eq_ok.1 hdecode] at hread
    exact Chain.of_read hread
  · rintro ⟨ptrs, hchain⟩
    exact ⟨_, hchain.read, rfl⟩

theorem readDirectory_eq_ok {root : BlockPtr} {s : Store} {d : Directory BlockPtr BlockPtr} :
    readDirectory more root s = .ok d ↔
      ∃ ptrs, Chain more s root (some (.directory d)) ptrs := by
  rw [readDirectory, bind_eq_ok]
  constructor
  · rintro ⟨payload, hread, hdecode⟩
    rw [decodeDirectory_eq_ok.1 hdecode] at hread
    exact Chain.of_read hread
  · rintro ⟨ptrs, hchain⟩
    exact ⟨_, hchain.read, rfl⟩

/-! ### Property directories -/

theorem propsBlocks_eq_ok {root : BlockPtr} {s : Store} {l : List BlockPtr} :
    propsBlocks more root s = .ok l ↔ ∃ d ptrs, Chain more s root (some (.props d)) ptrs ∧
      l = difference (blocksOf d.segments) [] ++ ptrs := by
  rw [propsBlocks, bind_eq_ok]
  constructor
  · rintro ⟨d, hread, h⟩
    obtain ⟨ptrs, hptrs, hl⟩ := bind_eq_ok.1 h
    obtain ⟨ptrs', hchain⟩ := readProps_eq_ok.1 hread
    have heq : ptrs' = ptrs := Except.ok.inj (hchain.blocks.symm.trans hptrs)
    exact ⟨d, ptrs, heq ▸ hchain, (pure_eq_ok.1 hl).symm⟩
  · rintro ⟨d, ptrs, hchain, rfl⟩
    exact ⟨d, readProps_eq_ok.2 ⟨ptrs, hchain⟩, bind_eq_ok.2 ⟨ptrs, hchain.blocks, rfl⟩⟩

theorem findProps_eq {root : BlockPtr} {s : Store} {d : PropsDirectory BlockPtr}
    {ptrs : List BlockPtr} (h : Chain more s root (some (.props d)) ptrs) :
    findProps more root s = .ok (d.map fun ptr => readBlock ptr s) := by
  rw [findProps, readProps_eq_ok.2 ⟨ptrs, h⟩]
  rfl

theorem propsZones_eq {root : BlockPtr} {s : Store} {d : PropsDirectory BlockPtr}
    {ptrs : List BlockPtr} (h : Chain more s root (some (.props d)) ptrs) :
    propsZones more root s = .ok (blocksOf d.zonePlanes) := by
  rw [propsZones, readProps_eq_ok.2 ⟨ptrs, h⟩]
  rfl

/-- What is found rests on the blocks held, and on nothing else. -/
structure Rests {α : Type} (held : Store → Except ZuError (List BlockPtr))
    (found : Store → Except ZuError α) : Prop where
  holds {s t : Store} {l : List BlockPtr} : held s = .ok l → SameOn s l t → held t = .ok l
  finds {s t : Store} {l : List BlockPtr} : held s = .ok l → SameOn s l t → found t = found s

theorem props_rests (root : BlockPtr) :
    Rests (propsBlocks more root) (findProps more root) := by
  constructor
  all_goals
    intro s t l hl hsame
    obtain ⟨d, ptrs, hchain, rfl⟩ := propsBlocks_eq_ok.1 hl
    have hchain' := hchain.congr hsame.count
      (fun p hp => hsame.blocks p (List.mem_append_right _ hp))
  · exact propsBlocks_eq_ok.2 ⟨d, ptrs, hchain', rfl⟩
  · rw [findProps_eq hchain, findProps_eq hchain']
    have hall : ∀ p ∈ blocksOf d.segments, readBlock p t = readBlock p s := fun p hp =>
      hsame.readBlock (List.mem_append_left _ (mem_difference.2 ⟨hp, by simp⟩))
    congr 1
    apply PropsDirectory.bimap_congr
    · exact fun p hp => hall p (PropsDirectory.mem_blocksOf_segments.2 (Or.inl hp))
    · exact fun p hp => hall p (PropsDirectory.mem_blocksOf_segments.2 (Or.inr hp))

theorem edgeProps_rests (root : BlockPtr) :
    Rests (edgePropsBlocks more root) (findEdgeProps more root) := by
  by_cases hroot : root = nullBlock
  · constructor
    · intro s t l hl _
      rw [edgePropsBlocks, if_pos hroot] at hl ⊢
      exact hl
    · intro s t l _ _
      rw [findEdgeProps, findEdgeProps, if_pos hroot, if_pos hroot]
  · constructor
    · intro s t l hl hsame
      rw [edgePropsBlocks, if_neg hroot] at hl ⊢
      exact (props_rests root).holds hl hsame
    · intro s t l hl hsame
      rw [edgePropsBlocks, if_neg hroot] at hl
      rw [findEdgeProps, findEdgeProps, if_neg hroot, if_neg hroot,
        (props_rests root).finds hl hsame]

/-! ### Group directories -/

theorem directoryBlocks_eq_ok {root : BlockPtr} {s : Store} {l : List BlockPtr} :
    directoryBlocks more root s = .ok l ↔
      ∃ d props ptrs, Chain more s root (some (.directory d)) ptrs ∧
        edgePropsBlocks more d.props s = .ok props ∧
        l = props ++ (difference (blocksOf d.segments) [] ++ ptrs) := by
  rw [directoryBlocks, bind_eq_ok]
  constructor
  · rintro ⟨d, hread, h⟩
    obtain ⟨props, hprops, h⟩ := bind_eq_ok.1 h
    obtain ⟨ptrs, hptrs, hl⟩ := bind_eq_ok.1 h
    obtain ⟨ptrs', hchain⟩ := readDirectory_eq_ok.1 hread
    have heq : ptrs' = ptrs := Except.ok.inj (hchain.blocks.symm.trans hptrs)
    exact ⟨d, props, ptrs, heq ▸ hchain, hprops, (pure_eq_ok.1 hl).symm⟩
  · rintro ⟨d, props, ptrs, hchain, hprops, rfl⟩
    refine ⟨d, readDirectory_eq_ok.2 ⟨ptrs, hchain⟩, bind_eq_ok.2 ⟨props, hprops, ?_⟩⟩
    exact bind_eq_ok.2 ⟨ptrs, hchain.blocks, rfl⟩

theorem findDirectory_eq {root : BlockPtr} {s : Store} {d : Directory BlockPtr BlockPtr}
    {ptrs : List BlockPtr} (h : Chain more s root (some (.directory d)) ptrs) :
    findDirectory more root s = findEdgeProps more d.props s >>= fun props =>
      .ok (d.map (fun ptr => readBlock ptr s) props) := by
  rw [findDirectory, readDirectory_eq_ok.2 ⟨ptrs, h⟩]
  rfl

theorem directory_rests (root : BlockPtr) :
    Rests (directoryBlocks more root) (findDirectory more root) := by
  constructor
  all_goals
    intro s t l hl hsame
    obtain ⟨d, props, ptrs, hchain, hprops, rfl⟩ := directoryBlocks_eq_ok.1 hl
    have hchain' := hchain.congr hsame.count
      (fun p hp => hsame.blocks p (List.mem_append_right _ (List.mem_append_right _ hp)))
    have hpart : SameOn s props t := hsame.sub (List.subset_append_left _ _)
  · exact directoryBlocks_eq_ok.2
      ⟨d, props, ptrs, hchain', (edgeProps_rests d.props).holds hprops hpart, rfl⟩
  · rw [findDirectory_eq hchain, findDirectory_eq hchain',
      (edgeProps_rests d.props).finds hprops hpart]
    congr 1
    funext found
    congr 1
    apply Directory.map_congr
    intro p hp
    exact hsame.readBlock (List.mem_append_right _ (List.mem_append_left _
      (mem_difference.2 ⟨hp, by simp⟩)))

variable (more) in
theorem root_rests (kind : ElementKind) (root : BlockPtr) :
    Rests (rootBlocks more kind root) (findRoot more kind root) := by
  cases kind with
  | node =>
      constructor
      · exact (props_rests root).holds
      · intro s t l hl hsame
        rw [findRoot, findRoot, (props_rests root).finds hl hsame]
  | edge =>
      constructor
      · exact (directory_rests root).holds
      · intro s t l hl hsame
        rw [findRoot, findRoot, (directory_rests root).finds hl hsame]

theorem rootZones_edge {root : BlockPtr} {s : Store} {d : Directory BlockPtr BlockPtr}
    {ptrs : List BlockPtr} (h : Chain more s root (some (.directory d)) ptrs) :
    rootZones more .edge root s = edgePropsZones more d.props s := by
  rw [rootZones, readDirectory_eq_ok.2 ⟨ptrs, h⟩]
  rfl

theorem rootZones_sub {kind : ElementKind} {root : BlockPtr} {s : Store} {l zones : List BlockPtr}
    (hl : rootBlocks more kind root s = .ok l) (hzones : rootZones more kind root s = .ok zones) :
    ∀ p ∈ zones, p ∈ l := by
  have hprops : ∀ {root : BlockPtr} {l zones : List BlockPtr}, propsBlocks more root s = .ok l →
      propsZones more root s = .ok zones → ∀ p ∈ zones, p ∈ l := by
    intro root l zones hl hzones p hp
    obtain ⟨d, ptrs, hchain, rfl⟩ := propsBlocks_eq_ok.1 hl
    rw [propsZones_eq hchain] at hzones
    rw [← Except.ok.inj hzones] at hp
    exact List.mem_append_left _ (mem_difference.2
      ⟨PropsDirectory.mem_blocksOf_segments.2 (Or.inr hp), by simp⟩)
  cases kind with
  | node => exact hprops hl hzones
  | edge =>
      obtain ⟨d, props, ptrs, hchain, hpropsl, rfl⟩ := directoryBlocks_eq_ok.1 hl
      rw [rootZones_edge hchain, edgePropsZones] at hzones
      rw [edgePropsBlocks] at hpropsl
      split_ifs at hzones hpropsl with hnull
      · cases hzones
        simp
      · exact fun p hp => List.mem_append_left _ (hprops hpropsl hzones p hp)

variable (more) in
theorem zones_rest (kind : ElementKind) (root : BlockPtr) :
    Rests (rootBlocks more kind root) (rootZones more kind root) := by
  constructor
  · exact (root_rests _ kind root).holds
  · have hprops : ∀ {root : BlockPtr} {s t : Store} {l : List BlockPtr},
        propsBlocks more root s = .ok l → SameOn s l t →
          propsZones more root t = propsZones more root s := by
      intro root s t l hl hsame
      obtain ⟨d, ptrs, hchain, rfl⟩ := propsBlocks_eq_ok.1 hl
      have hchain' := hchain.congr hsame.count
        (fun p hp => hsame.blocks p (List.mem_append_right _ hp))
      rw [propsZones_eq hchain, propsZones_eq hchain']
    intro s t l hl hsame
    cases kind with
    | node => exact hprops hl hsame
    | edge =>
        obtain ⟨d, props, ptrs, hchain, hpropsl, rfl⟩ := directoryBlocks_eq_ok.1 hl
        have hchain' := hchain.congr hsame.count
          (fun p hp => hsame.blocks p (List.mem_append_right _ (List.mem_append_right _ hp)))
        rw [rootZones_edge hchain, rootZones_edge hchain', edgePropsZones, edgePropsZones]
        split_ifs with hnull
        · rfl
        · rw [edgePropsBlocks, if_neg hnull] at hpropsl
          exact hprops hpropsl (hsame.sub (List.subset_append_left _ _))

variable (more) in
theorem chain_rests (root : BlockPtr) : Rests (chainBlocks root) (readChain more root) :=
  ⟨fun hl hsame => (chainBlocks_congr more hl hsame.count hsame.blocks).1,
    fun hl hsame => (chainBlocks_congr _ hl hsame.count hsame.blocks).2⟩

/-! ### Tables -/

theorem Rests.option {α : Type} {held : BlockPtr → Store → Except ZuError (List BlockPtr)}
    {found : BlockPtr → Store → Except ZuError α} (h : ∀ root, Rests (held root) (found root))
    (root : Option BlockPtr) : Rests (optionBlocks held root) (readOption found root) := by
  cases root with
  | none => exact ⟨fun hl _ => hl, fun _ _ => rfl⟩
  | some root =>
      constructor
      · exact fun hl hsame => (h root).holds hl hsame
      · intro s t l hl hsame
        rw [readOption, readOption, (h root).finds hl hsame]

theorem Rests.optionBlocks {held found : BlockPtr → Store → Except ZuError (List BlockPtr)}
    (h : ∀ root, Rests (held root) (found root)) (root : Option BlockPtr) :
    Rests (optionBlocks held root) (optionBlocks found root) := by
  cases root with
  | none => exact ⟨fun hl _ => hl, fun _ _ => rfl⟩
  | some root => exact ⟨fun hl hsame => (h root).holds hl hsame, fun hl hsame =>
      (h root).finds hl hsame⟩

theorem tableBlocks_eq_ok {index : Entries BlockPtr} {t : ℕ × ElementKind} {s : Store}
    {l : List BlockPtr} : tableBlocks more index t s = .ok l ↔
      ∃ storage tombstones, optionBlocks (rootBlocks more t.2) (index.get t.1) s = .ok storage ∧
        optionBlocks chainBlocks (tombstonesRoot index t.1 t.2) s = .ok tombstones ∧
        l = storage ++ tombstones := by
  simp only [tableBlocks, bind_eq_ok, pure_eq_ok]
  constructor
  · rintro ⟨storage, hstorage, tombstones, htombstones, rfl⟩
    exact ⟨storage, tombstones, hstorage, htombstones, rfl⟩
  · rintro ⟨storage, tombstones, hstorage, htombstones, rfl⟩
    exact ⟨storage, hstorage, tombstones, htombstones, rfl⟩

variable (more) in
theorem table_rests (index : Entries BlockPtr) (stats : Stats) (t : ℕ × ElementKind) :
    Rests (tableBlocks more index t) (findTable more index stats t) := by
  have hstorage := Rests.option (fun root => root_rests more t.2 root) (index.get t.1)
  have htombstones := Rests.option (fun root => chain_rests more root)
    (tombstonesRoot index t.1 t.2)
  constructor
  all_goals
    intro s u l hl hsame
    obtain ⟨storage, tombstones, hs, ht, rfl⟩ := tableBlocks_eq_ok.1 hl
    have hsame₁ : SameOn s storage u := hsame.sub (List.subset_append_left _ _)
    have hsame₂ : SameOn s tombstones u := hsame.sub (List.subset_append_right _ _)
  · exact tableBlocks_eq_ok.2
      ⟨storage, tombstones, hstorage.holds hs hsame₁, htombstones.holds ht hsame₂, rfl⟩
  · rw [findTable, findTable, hstorage.finds hs hsame₁, htombstones.finds ht hsame₂]

end

end Zu.Graph
