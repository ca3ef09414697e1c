import Zu.Graph.Owned

/-!
# What a copy makes

A copy walks a directory with a table of the blocks it has made so far. What it
answers is the directory over the blocks that table names, so once the walk is
done the copy is the source's directory with each block it went past replaced by
a fresh one of the same contents. The zone planes are not walked: a copied column
names the blocks of its source's.
-/

namespace Zu.Graph

open Lib

/-! ### The table of blocks made -/

/-- The blocks made by a copy that began in `s₀`, which took those of `taken`. -/
structure Making (s₀ : Store) (done : Done) (taken : List BlockPtr) (s : Store) : Prop where
  took : Taken s₀ taken s
  made : ∀ p q, done.lookup p = some q → q ∈ taken ∧ s.blocks q = s₀.blocks p

/-- A later table has the blocks of an earlier one. -/
def Done.Sub (done later : Done) : Prop := ∀ p q, done.lookup p = some q → later.lookup p = some q

/-- Where a block went. -/
def Done.to (done : Done) (p : BlockPtr) : BlockPtr := (done.lookup p).getD p

theorem Done.Sub.refl (done : Done) : done.Sub done := fun _ _ h => h

theorem Done.Sub.trans {done later last : Done} (h : done.Sub later) (h' : later.Sub last) :
    done.Sub last := fun p q hq => h' p q (h p q hq)

theorem Done.to_of_lookup {done : Done} {p q : BlockPtr} (h : done.lookup p = some q) :
    done.to p = q := by
  rw [Done.to, h]
  rfl

theorem Done.Sub.isSome {done later : Done} (h : done.Sub later) {p : BlockPtr}
    (hp : (done.lookup p).isSome) : (later.lookup p).isSome := by
  obtain ⟨q, hq⟩ := Option.isSome_iff_exists.1 hp
  rw [h p q hq]
  rfl

/-- `copy` goes past the blocks of `a`, and answers `f` of where they went. -/
def Copies {α : Type} (s₀ : Store) (copy : Done → α → StoreM (α × Done))
    (f : (BlockPtr → BlockPtr) → α → α) (ptrs : α → List BlockPtr) (a : α) : Prop :=
  ∀ done taken s, Making s₀ done taken s →
    ∃ b done' taken' t, (copy done a).exec s = (.ok (b, done'), t) ∧
      Making s₀ done' taken' t ∧ done.Sub done' ∧
      (∀ p ∈ ptrs a, (done'.lookup p).isSome) ∧ ∀ last, done'.Sub last → b = f last.to a

theorem copyBlock_copies {s₀ : Store} {p : BlockPtr} (hp : InUse s₀ p) :
    Copies s₀ copyBlock (fun f p => f p) (fun p => [p]) p := by
  intro done taken s h
  cases hlookup : done.lookup p with
  | some q =>
      refine ⟨q, done, taken, s, ?_, h, Done.Sub.refl done, ?_, fun last hlast => ?_⟩
      · simp only [copyBlock, hlookup]
        rfl
      · intro r hr
        rw [List.mem_singleton.1 hr, hlookup]
        rfl
      · exact (Done.to_of_lookup (hlast p q hlookup)).symm
  | none =>
      have hread : (reads (readBlock p)).exec s = (.ok (s.blocks p), s) :=
        reads_exec (readBlock_ok (h.took.keeps hp).range)
      obtain ⟨q, t, halloc, htaken, hblocks⟩ := allocateBlock_exec h.took.freeOk
      have hq : q ∈ taken ++ [q] := by simp
      have hboth := h.took.trans htaken
      have hwrite := writeBlock_exec (hboth.inUse q hq).range (s.blocks p)
      have hself : ((p, q) :: done).lookup p = some q := by simp [List.lookup]
      refine ⟨q, (p, q) :: done, taken ++ [q], _, ?_, ⟨hboth.write hq (s.blocks p), ?_⟩, ?_, ?_,
        fun last hlast => ?_⟩
      · simp only [copyBlock, hlookup]
        rw [exec_bind_of_ok hread, exec_bind_of_ok halloc, exec_bind_of_ok hwrite]
        rfl
      · intro r c hr
        by_cases hrp : r = p
        · rw [hrp, hself] at hr
          cases hr
          rw [hrp]
          exact ⟨hq, (Function.update_self _ _ _).trans (h.took.blocks_eq hp)⟩
        · have hold : done.lookup r = some c := by
            simpa [List.lookup, beq_eq_false_iff_ne.2 hrp] using hr
          obtain ⟨hc, hsame⟩ := h.made r c hold
          have hne : c ≠ q := by
            rintro rfl
            exact htaken.notInUse c (by simp) (h.took.inUse c hc)
          refine ⟨List.mem_append_left _ hc, ?_⟩
          refine (Function.update_of_ne hne _ _).trans ?_
          rw [hblocks, hsame]
      · intro r c hr
        have hrp : r ≠ p := by
          rintro rfl
          rw [hlookup] at hr
          cases hr
        simpa [List.lookup, beq_eq_false_iff_ne.2 hrp] using hr
      · intro r hr
        rw [List.mem_singleton.1 hr, hself]
        rfl
      · exact (Done.to_of_lookup (hlast p q hself)).symm

section

variable {α β γ : Type} (s₀ : Store)

theorem Copies.each {copy : Done → α → StoreM (α × Done)} {f : (BlockPtr → BlockPtr) → α → α}
    {ptrs : α → List BlockPtr} {l : List α} (h : ∀ a ∈ l, Copies s₀ copy f ptrs a) :
    Copies s₀ (copyEach copy) (fun g => List.map (f g)) (fun l => l.flatMap ptrs) l := by
  induction l with
  | nil =>
      intro done taken s hs
      exact ⟨[], done, taken, s, rfl, hs, Done.Sub.refl done, by simp, fun _ _ => rfl⟩
  | cons a l ih =>
      intro done taken s hs
      obtain ⟨b, done₁, taken₁, t, hexec, ht, hsub, hsome, hmap⟩ :=
        h a List.mem_cons_self done taken s hs
      obtain ⟨bs, done₂, taken₂, u, hexec', hu, hsub', hsome', hmap'⟩ :=
        ih (fun c hc => h c (List.mem_cons_of_mem a hc)) done₁ taken₁ t ht
      refine ⟨b :: bs, done₂, taken₂, u, ?_, hu, hsub.trans hsub', ?_, fun last hlast => ?_⟩
      · rw [copyEach, exec_bind_of_ok hexec]
        simp only []
        rw [exec_bind_of_ok hexec']
        rfl
      · intro p hp
        simp only [List.flatMap_cons, List.mem_append] at hp
        rcases hp with hp | hp
        · exact hsub'.isSome (hsome p hp)
        · exact hsome' p hp
      · rw [hmap last (hsub'.trans hlast), hmap' last hlast]
        rfl

theorem Copies.option {copy : Done → α → StoreM (α × Done)}
    {f : (BlockPtr → BlockPtr) → α → α} {ptrs : α → List BlockPtr} {o : Option α}
    (h : ∀ a ∈ o, Copies s₀ copy f ptrs a) :
    Copies s₀ (copyOption copy) (fun g => Option.map (f g)) (fun o => o.toList.flatMap ptrs) o := by
  intro done taken s hs
  cases o with
  | none => exact ⟨none, done, taken, s, rfl, hs, Done.Sub.refl done, by simp, fun _ _ => rfl⟩
  | some a =>
      obtain ⟨b, done', taken', t, hexec, ht, hsub, hsome, hmap⟩ := h a rfl done taken s hs
      refine ⟨some b, done', taken', t, ?_, ht, hsub, by simpa using hsome, fun last hlast => ?_⟩
      · rw [copyOption, exec_bind_of_ok hexec]
        rfl
      · rw [hmap last hlast]
        rfl

theorem Copies.both {copy₁ : Done → α → StoreM (α × Done)} {copy₂ : Done → β → StoreM (β × Done)}
    {f₁ : (BlockPtr → BlockPtr) → α → α} {f₂ : (BlockPtr → BlockPtr) → β → β}
    {ptrs₁ : α → List BlockPtr} {ptrs₂ : β → List BlockPtr} (fst : γ → α) (snd : γ → β)
    (build : γ → α → β → γ) {c : γ} (h₁ : Copies s₀ copy₁ f₁ ptrs₁ (fst c))
    (h₂ : Copies s₀ copy₂ f₂ ptrs₂ (snd c)) :
    Copies s₀ (fun done c => do
        let (a, done) ← copy₁ done (fst c)
        let (b, done) ← copy₂ done (snd c)
        return (build c a b, done))
      (fun g c => build c (f₁ g (fst c)) (f₂ g (snd c)))
      (fun c => ptrs₁ (fst c) ++ ptrs₂ (snd c)) c := by
  intro done taken s hs
  obtain ⟨a, done₁, taken₁, t, hexec, ht, hsub, hsome, hmap⟩ := h₁ done taken s hs
  obtain ⟨b, done₂, taken₂, u, hexec', hu, hsub', hsome', hmap'⟩ := h₂ done₁ taken₁ t ht
  refine ⟨build c a b, done₂, taken₂, u, ?_, hu, hsub.trans hsub', ?_, fun last hlast => ?_⟩
  · simp only []
    rw [exec_bind_of_ok hexec]
    simp only []
    rw [exec_bind_of_ok hexec']
    rfl
  · intro p hp
    rcases List.mem_append.1 hp with hp | hp
    · exact hsub'.isSome (hsome p hp)
    · exact hsome' p hp
  · rw [hmap last (hsub'.trans hlast), hmap' last hlast]

end

/-! ### Directories -/

section

variable {s₀ : Store}

theorem copySegment_copies {m : SegmentMeta BlockPtr} (h : ∀ p ∈ m.blocks, InUse s₀ p) :
    Copies s₀ copySegment SegmentMeta.map SegmentMeta.blocks m := by
  have heach := Copies.each s₀ (l := m.blocks) fun p hp => copyBlock_copies (h p hp)
  intro done taken s hs
  obtain ⟨blocks, done', taken', t, hexec, ht, hsub, hsome, hmap⟩ := heach done taken s hs
  refine ⟨{ m with blocks }, done', taken', t, ?_, ht, hsub, by simpa using hsome,
    fun last hlast => ?_⟩
  · rw [copySegment, exec_bind_of_ok hexec]
    rfl
  · rw [hmap last hlast]
    rfl

@[simp] theorem map_id_segment (m : SegmentMeta BlockPtr) : m.map id = m := by
  simp [SegmentMeta.map]

@[simp] theorem map_id_zones (zones : Option (SegmentMeta BlockPtr)) :
    zones.map (SegmentMeta.map id) = zones := by
  cases zones <;> simp

theorem copyColumn_copies {c : PropColumn BlockPtr} (h : ∀ p ∈ blocksOf c.planes, InUse s₀ p) :
    Copies s₀ copyColumn (fun f => PropColumn.bimap f id) (fun c => blocksOf c.planes) c := by
  have hmeta : Copies s₀ copySegment SegmentMeta.map SegmentMeta.blocks c.colMeta :=
    copySegment_copies fun p hp => h p (mem_blocksOf (by simp [PropColumn.planes]) hp)
  have hvalidity := Copies.option s₀ (o := c.validity) fun m hm =>
    copySegment_copies fun p hp => h p (mem_blocksOf (by simp_all [PropColumn.planes]) hp)
  have hboth := Copies.both s₀ PropColumn.colMeta PropColumn.validity
    (fun c colMeta validity => { c with colMeta, validity }) hmeta hvalidity
  intro done taken s hs
  obtain ⟨b, done', taken', t, hexec, ht, hsub, hsome, hmap⟩ := hboth done taken s hs
  refine ⟨b, done', taken', t, hexec, ht, hsub, hsome, fun last hlast => ?_⟩
  rw [hmap last hlast]
  apply PropColumn.ext <;> simp [PropColumn.bimap]

theorem copyKeys_copies {k : KeyIndex BlockPtr} (h : ∀ p ∈ blocksOf k.segments, InUse s₀ p) :
    Copies s₀ copyKeys KeyIndex.map (fun k => k.keys.blocks ++ k.rows.blocks) k :=
  Copies.both s₀ KeyIndex.keys KeyIndex.rows
    (fun _ keys rows => { keys, rows })
    (copySegment_copies fun p hp => h p (mem_blocksOf (by simp [KeyIndex.segments]) hp))
    (copySegment_copies fun p hp => h p (mem_blocksOf (by simp [KeyIndex.segments]) hp))

theorem copyDirection_copies {m : DirectionMeta BlockPtr}
    (hoffsets : ∀ p ∈ m.offsets.blocks, InUse s₀ p)
    (hneighbors : ∀ p ∈ m.neighbors.blocks, InUse s₀ p) :
    Copies s₀ copyDirection DirectionMeta.map
      (fun m => m.offsets.blocks ++ m.neighbors.blocks) m :=
  Copies.both s₀ DirectionMeta.offsets DirectionMeta.neighbors
    (fun _ offsets neighbors => { offsets, neighbors })
    (copySegment_copies hoffsets) (copySegment_copies hneighbors)

theorem copyGroup_copies {g : GroupMeta BlockPtr} (h : ∀ p ∈ blocksOf g.segments, InUse s₀ p) :
    Copies s₀ copyGroup GroupMeta.map
      (fun g => (g.fwd.offsets.blocks ++ g.fwd.neighbors.blocks) ++
        (g.bwd.offsets.blocks ++ g.bwd.neighbors.blocks)) g := by
  have hseg : ∀ m ∈ g.segments, ∀ p ∈ m.blocks, InUse s₀ p := fun m hm p hp =>
    h p (mem_blocksOf hm hp)
  exact Copies.both s₀ GroupMeta.fwd GroupMeta.bwd
    (fun g fwd bwd => { g with fwd, bwd })
    (copyDirection_copies (hseg _ (by simp [GroupMeta.segments]))
      (hseg _ (by simp [GroupMeta.segments])))
    (copyDirection_copies (hseg _ (by simp [GroupMeta.segments]))
      (hseg _ (by simp [GroupMeta.segments])))

end

/-! ### Whole directories -/

theorem mem_blocksOf_append {p : BlockPtr} {as bs : List (SegmentMeta BlockPtr)} :
    p ∈ blocksOf (as ++ bs) ↔ p ∈ blocksOf as ∨ p ∈ blocksOf bs := by
  rw [blocksOf, List.flatMap_append, List.mem_append]
  rfl

theorem mem_blocksOf_flatMap {α : Type} {p : BlockPtr} {as : List α}
    {f : α → List (SegmentMeta BlockPtr)} :
    p ∈ blocksOf (as.flatMap f) ↔ ∃ a ∈ as, p ∈ blocksOf (f a) := by
  rw [blocksOf, List.flatMap_assoc, List.mem_flatMap]
  rfl

/-- `f` sends each block of `ps` to a block of `taken` that holds the same. -/
def SentTo (s : Store) (ps : List BlockPtr) (f : BlockPtr → BlockPtr) (taken : List BlockPtr)
    (t : Store) : Prop := ∀ p ∈ ps, f p ∈ taken ∧ t.blocks (f p) = s.blocks p

theorem Making.sentTo {s₀ s : Store} {done : Done} {taken ps : List BlockPtr}
    (h : Making s₀ done taken s) (hsome : ∀ p ∈ ps, (done.lookup p).isSome) :
    SentTo s₀ ps done.to taken s := by
  intro p hp
  obtain ⟨q, hq⟩ := Option.isSome_iff_exists.1 (hsome p hp)
  rw [Done.to_of_lookup hq]
  exact h.made p q hq

theorem SentTo.later {s t u : Store} {ps taken taken' : List BlockPtr} {f : BlockPtr → BlockPtr}
    (h : SentTo s ps f taken t) (ht : Taken s taken t) (hu : Taken t taken' u) :
    SentTo s ps f taken u := by
  intro p hp
  obtain ⟨hmem, hsame⟩ := h p hp
  exact ⟨hmem, (hu.blocks_eq (ht.inUse _ hmem)).trans hsame⟩

theorem SentTo.earlier {s t u : Store} {ps taken taken' : List BlockPtr}
    {f : BlockPtr → BlockPtr} (h : SentTo t ps f taken' u) (ht : Taken s taken t)
    (hps : ∀ p ∈ ps, InUse s p) : SentTo s ps f taken' u := by
  intro p hp
  obtain ⟨hmem, hsame⟩ := h p hp
  exact ⟨hmem, hsame.trans (ht.blocks_eq (hps p hp))⟩

theorem SentTo.readBlock {s t : Store} {ps taken : List BlockPtr} {f : BlockPtr → BlockPtr}
    (h : SentTo s ps f taken t) (hps : ∀ p ∈ ps, InUse s p) (htaken : ∀ p ∈ taken, InUse t p)
    {p : BlockPtr} (hp : p ∈ ps) : readBlock (f p) t = readBlock p s := by
  obtain ⟨hmem, hsame⟩ := h p hp
  rw [readBlock_ok (htaken _ hmem).range, readBlock_ok (hps p hp).range, hsame]

theorem Taken.sameOn {s t : Store} {taken l : List BlockPtr} (h : Taken s taken t)
    (hl : ∀ p ∈ l, InUse s p) : SameOn s l t :=
  ⟨h.count, fun p hp => (hl p hp).range, fun p hp => h.blocks_eq (hl p hp)⟩

/-- The blocks `l` of a copy that took those of `taken`: all taken, but for the blocks
of zone planes, which are the source's. -/
structure CopyHolds (zones taken l : List BlockPtr) : Prop where
  sub : ∀ p ∈ l, p ∈ taken ∨ p ∈ zones
  zones_sub : ∀ p ∈ zones, p ∈ l
  nodup : zones = [] → l.Nodup

theorem CopyHolds.append {zones zones' taken taken' l l' : List BlockPtr}
    (h : CopyHolds zones taken l) (h' : CopyHolds zones' taken' l')
    (hnodup : (taken ++ taken').Nodup) :
    CopyHolds (zones ++ zones') (taken ++ taken') (l ++ l') where
  sub := by
    intro p hp
    rw [List.mem_append, List.mem_append]
    rcases List.mem_append.1 hp with hp | hp
    · exact (h.sub p hp).imp Or.inl Or.inl
    · exact (h'.sub p hp).imp Or.inr Or.inr
  zones_sub := by
    intro p hp
    rw [List.mem_append]
    exact (List.mem_append.1 hp).imp (h.zones_sub p) (h'.zones_sub p)
  nodup := by
    intro hnil
    obtain ⟨rfl, rfl⟩ := List.append_eq_nil_iff.1 hnil
    refine List.nodup_append.2 ⟨h.nodup rfl, h'.nodup rfl, fun p hp q hq hpq => ?_⟩
    exact (List.nodup_append.1 hnodup).2.2 p ((h.sub p hp).resolve_right (by simp)) q
      ((h'.sub q hq).resolve_right (by simp)) hpq

theorem CopyHolds.append_own {zones taken taken' l l' : List BlockPtr}
    (h : CopyHolds zones taken l) (h' : CopyHolds [] taken' l')
    (hnodup : (taken ++ taken').Nodup) : CopyHolds zones (taken ++ taken') (l ++ l') := by
  have hboth := h.append h' hnodup
  rwa [List.append_nil] at hboth

theorem CopyHolds.of_nodup {l : List BlockPtr} (h : l.Nodup) : CopyHolds [] l l :=
  ⟨fun _ hp => Or.inl hp, by simp, fun _ => h⟩

/-- What a copy of a part is: the same is found there, in blocks of its own. -/
structure PartCopied {ι α : Type} (held : ι → Store → Except ZuError (List BlockPtr))
    (found : ι → Store → Except ZuError α) (zones : List BlockPtr) (s : Store) (root copy : ι)
    (taken : List BlockPtr) (t : Store) : Prop where
  finds : found copy t = found root s
  holds : ∃ l, held copy t = .ok l ∧ CopyHolds zones taken l

section

variable {ι α : Type} {held : ι → Store → Except ZuError (List BlockPtr)}
  {found : ι → Store → Except ZuError α} {zones taken taken' l : List BlockPtr}
  {s t u : Store} {root copy : ι}

theorem PartCopied.later (h : PartCopied held found zones s root copy taken t)
    (hrests : Rests (held copy) (found copy)) (htaken : ∀ p ∈ taken, InUse t p)
    (hzones : ∀ p ∈ zones, InUse t p) (hu : Taken t taken' u) :
    PartCopied held found zones s root copy taken u := by
  obtain ⟨l, hl, hholds⟩ := h.holds
  have hsame : SameOn t l u := hu.sameOn fun p hp => (hholds.sub p hp).elim (htaken p) (hzones p)
  exact ⟨(hrests.finds hl hsame).trans h.finds, l, hrests.holds hl hsame, hholds⟩

theorem PartCopied.earlier (h : PartCopied held found zones t root copy taken u)
    (hrests : Rests (held root) (found root)) (hl : held root s = .ok l)
    (hused : ∀ p ∈ l, InUse s p) (ht : Taken s taken' t) :
    PartCopied held found zones s root copy taken u :=
  ⟨h.finds.trans (hrests.finds hl (ht.sameOn hused)), h.holds⟩

end

/-! ### Property directories -/

section

variable {β γ δ : Type}

theorem SegmentMeta.map_map (f : β → γ) (g : γ → δ) (m : SegmentMeta β) :
    (m.map f).map g = m.map (g ∘ f) := by
  simp [SegmentMeta.map]

theorem PropColumn.bimap_bimap (f f' : β → γ) (g g' : γ → δ) (c : PropColumn β) :
    (c.bimap f f').bimap g g' = c.bimap (g ∘ f) (g' ∘ f') := by
  apply PropColumn.ext <;>
    simp [PropColumn.bimap, SegmentMeta.map_map, Function.comp_def]

theorem PropsDirectory.bimap_bimap (f f' : β → γ) (g g' : γ → δ) (d : PropsDirectory β) :
    (d.bimap f f').bimap g g' = d.bimap (g ∘ f) (g' ∘ f') := by
  apply PropsDirectory.ext <;>
    simp [PropsDirectory.bimap, SegmentMeta.map_map, PropColumn.bimap_bimap, Function.comp_def]

theorem KeyIndex.map_map (f : β → γ) (g : γ → δ) (k : KeyIndex β) :
    (k.map f).map g = k.map (g ∘ f) := by
  simp [KeyIndex.map, SegmentMeta.map_map]

theorem GroupMeta.map_map (f : β → γ) (g : γ → δ) (m : GroupMeta β) :
    (m.map f).map g = m.map (g ∘ f) := by
  simp [GroupMeta.map, DirectionMeta.map, SegmentMeta.map_map]

theorem Directory.map_map {π ρ ω : Type} (f : β → γ) (g : γ → δ) (props : ρ) (props' : ω)
    (d : Directory β π) : (d.map f props).map g props' = d.map (g ∘ f) props' := by
  simp [Directory.map, KeyIndex.map_map, GroupMeta.map_map, Function.comp_def]

/-- The planes of a directory over other blocks are its planes over those blocks. -/
theorem blocksOf_planes_bimap (f g : β → γ) (d : PropsDirectory β) :
    blocksOf (d.bimap f g).planes = (blocksOf d.planes).map f := by
  have hcolumn : ∀ c : PropColumn β,
      blocksOf (c.bimap f g).planes = (blocksOf c.planes).map f := by
    intro c
    cases hvalidity : c.validity <;>
      simp [blocksOf, PropColumn.planes, PropColumn.bimap, SegmentMeta.map, hvalidity]
  simp only [blocksOf] at hcolumn ⊢
  cases hlabels : d.labels <;>
    simp [PropsDirectory.planes, PropsDirectory.bimap, SegmentMeta.map, hlabels,
      List.flatMap_assoc, List.map_flatMap, List.flatMap_map, hcolumn]

theorem blocksOf_zonePlanes_bimap (f g : β → γ) (d : PropsDirectory β) :
    blocksOf (d.bimap f g).zonePlanes = (blocksOf d.zonePlanes).map g := by
  have hcolumn : ∀ c : PropColumn β, (c.bimap f g).zones.toList.flatMap SegmentMeta.blocks =
      (c.zones.toList.flatMap SegmentMeta.blocks).map g := by
    intro c
    cases hzones : c.zones <;> simp [PropColumn.bimap, SegmentMeta.map, hzones]
  simp [blocksOf, PropsDirectory.zonePlanes, PropsDirectory.bimap, List.flatMap_assoc,
    List.map_flatMap, List.flatMap_map, hcolumn]

theorem blocksOf_segments_map {π ρ : Type} (f : β → γ) (props : ρ) (d : Directory β π) :
    blocksOf (d.map f props).segments = (blocksOf d.segments).map f := by
  cases hkeys : d.keys <;>
    simp [blocksOf, Directory.segments, Directory.map, KeyIndex.segments, KeyIndex.map,
      GroupMeta.segments, GroupMeta.map, DirectionMeta.map, SegmentMeta.map, hkeys,
      List.flatMap_assoc, List.map_flatMap, List.flatMap_map]

end

section

variable {more : Payload → ℕ}

theorem mem_taken_append_left {s t : Store} {taken taken' : List BlockPtr}
    (h : Taken s (taken ++ taken') t) : ∀ p ∈ taken, InUse t p :=
  fun p hp => h.inUse p (List.mem_append_left _ hp)

/-- `copy_props`: every plane but the zone planes goes to a fresh block. -/
theorem copyProps_exec {s : Store} (hfree : FreeOk s) {root : BlockPtr} {l : List BlockPtr}
    (hl : propsBlocks more root s = .ok l) (hused : ∀ p ∈ l, InUse s p) :
    ∃ copy taken t zones, (copyProps more root).exec s = (.ok copy, t) ∧ Taken s taken t ∧
      copy ≠ nullBlock ∧ propsZones more root s = .ok zones ∧ (∀ p ∈ zones, p ∈ l) ∧
      PartCopied (propsBlocks more) (findProps more) zones s root copy taken t := by
  obtain ⟨d, chain, hchain, rfl⟩ := propsBlocks_eq_ok.1 hl
  have hseg : ∀ p ∈ blocksOf d.segments, InUse s p := fun p hp =>
    hused p (List.mem_append_left _ (mem_difference.2 ⟨hp, by simp⟩))
  have hplanes : ∀ p ∈ blocksOf d.planes, InUse s p := fun p hp =>
    hseg p (PropsDirectory.mem_blocksOf_segments.2 (Or.inl hp))
  have hzones : ∀ p ∈ blocksOf d.zonePlanes, InUse s p := fun p hp =>
    hseg p (PropsDirectory.mem_blocksOf_segments.2 (Or.inr hp))
  have hlabels := Copies.option s (o := d.labels) fun m hm =>
    copySegment_copies fun p hp => hplanes p (mem_blocksOf_append.2
      (Or.inl (mem_blocksOf (Option.mem_toList.2 hm) hp)))
  have hcolumns := Copies.each s (l := d.columns) fun c hc =>
    copyColumn_copies fun p hp => hplanes p (mem_blocksOf_append.2
      (Or.inr (mem_blocksOf_flatMap.2 ⟨c, hc, hp⟩)))
  have hstart : Making s [] [] s := ⟨Taken.refl hfree, by simp [List.lookup]⟩
  obtain ⟨labels, done₁, taken₁, t, hexec, ht, hsub, hsome, hmap⟩ := hlabels [] [] s hstart
  obtain ⟨columns, done₂, taken₂, u, hexec', hu, hsub', hsome', hmap'⟩ :=
    hcolumns done₁ taken₁ t ht
  obtain ⟨copy, ptrs, v, hexec'', hv, hchain', hnull⟩ := writeChain_exec more
    (.props { d with labels, columns }) hu.took.freeOk
  have hcopy : ({ d with labels, columns } : PropsDirectory BlockPtr) = d.bimap done₂.to id := by
    rw [hmap done₂ hsub', hmap' done₂ (Done.Sub.refl _)]
    rfl
  rw [hcopy] at hchain'
  have hall : ∀ p ∈ blocksOf d.planes, (done₂.lookup p).isSome := by
    intro p hp
    rcases mem_blocksOf_append.1 hp with hp | hp
    · exact hsub'.isSome (hsome p hp)
    · obtain ⟨c, hc, hp⟩ := mem_blocksOf_flatMap.1 hp
      exact hsome' p (List.mem_flatMap.2 ⟨c, hc, hp⟩)
  have hsent := (hu.sentTo hall).later hu.took hv
  have htook := hu.took.trans hv
  refine ⟨copy, taken₂ ++ ptrs, v, blocksOf d.zonePlanes, ?_, htook, hnull,
    propsZones_eq hchain, fun p hp => ?_, ?_, _, propsBlocks_eq_ok.2 ⟨_, _, hchain', rfl⟩, ?_⟩
  · rw [copyProps, exec_bind_of_ok (reads_exec (readProps_eq_ok.2 ⟨chain, hchain⟩)),
      exec_bind_of_ok hexec]
    simp only []
    rw [exec_bind_of_ok hexec']
    exact hexec''
  · exact List.mem_append_left _ (mem_difference.2
      ⟨PropsDirectory.mem_blocksOf_segments.2 (Or.inr hp), by simp⟩)
  · rw [findProps_eq hchain, findProps_eq hchain', PropsDirectory.map, PropsDirectory.bimap_bimap]
    congr 1
    apply PropsDirectory.bimap_congr
    · exact fun p hp => hsent.readBlock hplanes (mem_taken_append_left htook) hp
    · exact fun p hp => (htook.sameOn hzones).readBlock hp
  · have hmem : ∀ p ∈ difference (blocksOf (d.bimap done₂.to id).segments) [],
        p ∈ taken₂ ∨ p ∈ blocksOf d.zonePlanes := by
      intro p hp
      rcases PropsDirectory.mem_blocksOf_segments.1 (mem_difference.1 hp).1 with hp | hp
      · rw [blocksOf_planes_bimap, List.mem_map] at hp
        obtain ⟨q, hq, rfl⟩ := hp
        exact Or.inl (hsent q hq).1
      · rw [blocksOf_zonePlanes_bimap, List.map_id] at hp
        exact Or.inr hp
    refine CopyHolds.append_own ⟨hmem, fun p hp => ?_, fun _ => nodup_difference _ _⟩
      (CopyHolds.of_nodup hv.nodup) htook.nodup
    refine mem_difference.2 ⟨PropsDirectory.mem_blocksOf_segments.2 (Or.inr ?_), by simp⟩
    rwa [blocksOf_zonePlanes_bimap, List.map_id]

/-! ### Group directories -/

theorem copyEdgeProps_exec {s : Store} (hfree : FreeOk s) {root : BlockPtr} {l : List BlockPtr}
    (hl : edgePropsBlocks more root s = .ok l) (hused : ∀ p ∈ l, InUse s p) :
    ∃ copy taken t zones, (copyEdgeProps more root).exec s = (.ok copy, t) ∧ Taken s taken t ∧
      edgePropsZones more root s = .ok zones ∧ (∀ p ∈ zones, p ∈ l) ∧
      PartCopied (edgePropsBlocks more) (findEdgeProps more) zones s root copy taken t := by
  by_cases hroot : root = nullBlock
  · refine ⟨root, [], s, [], ?_, Taken.refl hfree, if_pos hroot, by simp, rfl, [],
      if_pos hroot, CopyHolds.of_nodup List.nodup_nil⟩
    rw [copyEdgeProps, if_pos hroot]
    rfl
  · rw [edgePropsBlocks, if_neg hroot] at hl
    obtain ⟨copy, taken, t, zones, hexec, htaken, hnull, hzones, hsub, hcopied⟩ :=
      copyProps_exec hfree hl hused
    obtain ⟨l', hl', hholds⟩ := hcopied.holds
    refine ⟨copy, taken, t, zones, ?_, htaken, (if_neg hroot).trans hzones, hsub, ?_, l',
      (if_neg hnull).trans hl', hholds⟩
    · rw [copyEdgeProps, if_neg hroot, hexec]
    · rw [findEdgeProps, findEdgeProps, if_neg hroot, if_neg hnull, hcopied.finds]

/-- `copy_directory`: the adjacency and the key index go to fresh blocks, and the edge
properties as `copy_props` copies them. -/
theorem copyDirectory_exec {s : Store} (hfree : FreeOk s) {root : BlockPtr} {l : List BlockPtr}
    (hl : directoryBlocks more root s = .ok l) (hused : ∀ p ∈ l, InUse s p) :
    ∃ copy taken t zones, (copyDirectory more root).exec s = (.ok copy, t) ∧ Taken s taken t ∧
      copy ≠ nullBlock ∧ rootZones more .edge root s = .ok zones ∧ (∀ p ∈ zones, p ∈ l) ∧
      PartCopied (directoryBlocks more) (findDirectory more) zones s root copy taken t := by
  obtain ⟨d, lprops, chain, hchain, hprops, rfl⟩ := directoryBlocks_eq_ok.1 hl
  have hlprops : ∀ p ∈ lprops, InUse s p := fun p hp => hused p (List.mem_append_left _ hp)
  have hseg : ∀ p ∈ blocksOf d.segments, InUse s p := fun p hp =>
    hused p (List.mem_append_right _ (List.mem_append_left _ (mem_difference.2 ⟨hp, by simp⟩)))
  obtain ⟨props, taken₀, s₁, zones, hexec₀, hs₁, hzones, hzsub, hcopied⟩ :=
    copyEdgeProps_exec hfree hprops hlprops
  have hseg₁ : ∀ p ∈ blocksOf d.segments, InUse s₁ p := fun p hp => hs₁.keeps (hseg p hp)
  have hkeys := Copies.option s₁ (o := d.keys) fun k hk =>
    copyKeys_copies fun p hp => hseg₁ p (mem_blocksOf_append.2
      (Or.inl (mem_blocksOf_flatMap.2 ⟨k, Option.mem_toList.2 hk, hp⟩)))
  have hgroups := Copies.each s₁ (l := d.groups) fun g hg =>
    copyGroup_copies fun p hp => hseg₁ p (mem_blocksOf_append.2
      (Or.inr (mem_blocksOf_flatMap.2 ⟨g, hg, hp⟩)))
  have hstart : Making s₁ [] [] s₁ := ⟨Taken.refl hs₁.freeOk, by simp [List.lookup]⟩
  obtain ⟨keys, done₁, taken₁, t, hexec, ht, hsub, hsome, hmap⟩ := hkeys [] [] s₁ hstart
  obtain ⟨groups, done₂, taken₂, u, hexec', hu, hsub', hsome', hmap'⟩ :=
    hgroups done₁ taken₁ t ht
  obtain ⟨copy, ptrs, v, hexec'', hv, hchain', hnull⟩ := writeChain_exec more
    (.directory { d with props, keys, groups }) hu.took.freeOk
  have hcopy : ({ d with props, keys, groups } : Directory BlockPtr BlockPtr) =
      d.map done₂.to props := by
    rw [hmap done₂ hsub', hmap' done₂ (Done.Sub.refl _)]
    rfl
  rw [hcopy] at hchain'
  have hall : ∀ p ∈ blocksOf d.segments, (done₂.lookup p).isSome := by
    intro p hp
    rcases mem_blocksOf_append.1 hp with hp | hp
    · obtain ⟨k, hk, hp⟩ := mem_blocksOf_flatMap.1 hp
      refine hsub'.isSome (hsome p (List.mem_flatMap.2 ⟨k, hk, ?_⟩))
      simpa [blocksOf, KeyIndex.segments] using hp
    · obtain ⟨g, hg, hp⟩ := mem_blocksOf_flatMap.1 hp
      refine hsome' p (List.mem_flatMap.2 ⟨g, hg, ?_⟩)
      simp only [blocksOf, GroupMeta.segments, List.flatMap_cons, List.flatMap_nil,
        List.mem_append, List.append_nil] at hp ⊢
      tauto
  have hlater := hu.took.trans hv
  have htook := hs₁.trans hlater
  have hsent := ((hu.sentTo hall).later hu.took hv).earlier hs₁ hseg
  have hzused : ∀ p ∈ zones, InUse s₁ p := fun p hp => hs₁.keeps (hlprops p (hzsub p hp))
  have hpropsCopied := hcopied.later (edgeProps_rests props) hs₁.inUse hzused hlater
  obtain ⟨l', hl', hholds⟩ := hpropsCopied.holds
  refine ⟨copy, taken₀ ++ (taken₂ ++ ptrs), v, zones, ?_, htook, hnull,
    (rootZones_edge hchain).trans hzones, fun p hp => List.mem_append_left _ (hzsub p hp), ?_, _,
    directoryBlocks_eq_ok.2 ⟨_, l', _, hchain', hl', rfl⟩, ?_⟩
  · rw [copyDirectory, exec_bind_of_ok (reads_exec (readDirectory_eq_ok.2 ⟨chain, hchain⟩)),
      exec_bind_of_ok hexec₀, exec_bind_of_ok hexec]
    simp only []
    rw [exec_bind_of_ok hexec']
    exact hexec''
  · rw [findDirectory_eq hchain, findDirectory_eq hchain']
    change (findEdgeProps more props v >>= _) = _
    rw [hpropsCopied.finds]
    congr 1
    funext found
    rw [Directory.map_map]
    congr 1
    apply Directory.map_congr
    intro p hp
    exact hsent.readBlock hseg (fun q hq => hlater.inUse q (List.mem_append_left _ hq)) hp
  · refine hholds.append_own (CopyHolds.append_own ⟨fun p hp => Or.inl ?_, by simp,
      fun _ => nodup_difference _ _⟩ (CopyHolds.of_nodup hv.nodup) hlater.nodup) htook.nodup
    rw [mem_difference, blocksOf_segments_map, List.mem_map] at hp
    obtain ⟨⟨q, hq, rfl⟩, -⟩ := hp
    exact (hsent q hq).1

end

end Zu.Graph
