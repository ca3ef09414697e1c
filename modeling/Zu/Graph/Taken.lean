import Zu.Graph.Store

/-!
# Taking blocks and writing chains into them

`Taken s taken t` says that the file went from `s` to `t` by taking the blocks of
`taken` out of the free ones, or past the end, and writing only into those. A
block that was neither free nor past the end keeps what it holds, so a chain of
such blocks still reads the same.
-/

namespace Zu.Graph

open Lib

export File (InRange)

/-- The free blocks are blocks of the file, none listed twice. -/
structure FreeOk (s : Store) : Prop where
  nodup : s.free.Nodup
  range : ∀ p ∈ s.free, InRange s.blockCount p

/-- A block that is in use: of the file, and not free. -/
structure InUse (s : Store) (p : BlockPtr) : Prop where
  range : InRange s.blockCount p
  notFree : p ∉ s.free

/-- From `s` to `t` the blocks of `taken` were taken, and nothing else was written. -/
structure Taken (s : Store) (taken : List BlockPtr) (t : Store) : Prop where
  freeOk : FreeOk t
  count : s.blockCount ≤ t.blockCount
  free : t.free.Sublist s.free
  nodup : taken.Nodup
  inUse : ∀ p ∈ taken, InUse t p
  notInUse : ∀ p ∈ taken, ¬ InUse s p
  blocks : ∀ p, p ∉ taken → t.blocks p = s.blocks p
  pendingFree : t.pendingFree = s.pendingFree
  tableIndexRoot : t.tableIndexRoot = s.tableIndexRoot
  statsRoot : t.statsRoot = s.statsRoot

theorem exec_bind_of_ok {α β : Type} {x : StoreM α} {f : α → StoreM β} {s t : Store} {a : α}
    (h : x.exec s = (.ok a, t)) : (x >>= f).exec s = (f a).exec t := by
  rw [exec_bind, h]

theorem reads_exec {α : Type} {f : Store → Except ZuError α} {s : Store} {a : α}
    (h : f s = .ok a) : (reads f).exec s = (.ok a, s) := by
  change (f s, s) = _
  rw [h]

namespace Taken

variable {s t u : Store} {taken taken' : List BlockPtr}

theorem refl (h : FreeOk s) : Taken s [] s where
  freeOk := h
  count := le_rfl
  free := List.Sublist.refl _
  nodup := List.nodup_nil
  inUse := by simp
  notInUse := by simp
  blocks := fun _ _ => rfl
  pendingFree := rfl
  tableIndexRoot := rfl
  statsRoot := rfl

theorem keeps (h : Taken s taken t) {p : BlockPtr} (hp : InUse s p) : InUse t p :=
  ⟨hp.range.mono h.count, fun hfree => hp.notFree (h.free.subset hfree)⟩

theorem not_mem (h : Taken s taken t) {p : BlockPtr} (hp : InUse s p) : p ∉ taken :=
  fun hmem => h.notInUse p hmem hp

theorem blocks_eq (h : Taken s taken t) {p : BlockPtr} (hp : InUse s p) :
    t.blocks p = s.blocks p := h.blocks p (h.not_mem hp)

theorem trans (h : Taken s taken t) (h' : Taken t taken' u) : Taken s (taken ++ taken') u where
  freeOk := h'.freeOk
  count := h.count.trans h'.count
  free := h'.free.trans h.free
  nodup := by
    refine List.nodup_append.2 ⟨h.nodup, h'.nodup, fun p hp q hq hpq => ?_⟩
    exact h'.notInUse q hq (hpq ▸ h.inUse p hp)
  inUse := by
    intro p hp
    rcases List.mem_append.1 hp with hp | hp
    · exact h'.keeps (h.inUse p hp)
    · exact h'.inUse p hp
  notInUse := by
    intro p hp hused
    rcases List.mem_append.1 hp with hp | hp
    · exact h.notInUse p hp hused
    · exact h'.notInUse p hp (h.keeps hused)
  blocks := by
    intro p hp
    rw [List.mem_append, not_or] at hp
    rw [h'.blocks p hp.2, h.blocks p hp.1]
  pendingFree := h'.pendingFree.trans h.pendingFree
  tableIndexRoot := h'.tableIndexRoot.trans h.tableIndexRoot
  statsRoot := h'.statsRoot.trans h.statsRoot

theorem write (h : Taken s taken t) {p : BlockPtr} (hp : p ∈ taken) (data : Block) :
    Taken s taken { t with blocks := Function.update t.blocks p data } where
  freeOk := ⟨h.freeOk.nodup, h.freeOk.range⟩
  count := h.count
  free := h.free
  nodup := h.nodup
  inUse := fun q hq => ⟨(h.inUse q hq).range, (h.inUse q hq).notFree⟩
  notInUse := h.notInUse
  blocks := by
    intro q hq
    have hne : q ≠ p := fun heq => hq (heq ▸ hp)
    exact (Function.update_of_ne hne _ _).trans (h.blocks q hq)
  pendingFree := h.pendingFree
  tableIndexRoot := h.tableIndexRoot
  statsRoot := h.statsRoot

end Taken

/-! ### The operations of the file -/

theorem readBlock_ok {s : Store} {p : BlockPtr} (h : InRange s.blockCount p) :
    readBlock p s = .ok (s.blocks p) := by
  rw [readBlock, File.checkPtr_ok h]
  rfl

theorem writeBlock_exec {s : Store} {p : BlockPtr} (h : InRange s.blockCount p) (data : Block) :
    (writeBlock p data).exec s =
      (.ok (), { s with blocks := Function.update s.blocks p data }) := by
  have hcheck : (reads fun s => File.checkPtr s.blockCount p).exec s = (.ok (), s) :=
    reads_exec (File.checkPtr_ok h)
  rw [writeBlock, exec_bind_of_ok hcheck]
  rfl

theorem allocateBlock_exec {s : Store} (h : FreeOk s) :
    ∃ p t, allocateBlock.exec s = (.ok p, t) ∧ Taken s [p] t ∧ t.blocks = s.blocks := by
  cases hlast : s.free.getLast? with
  | some p =>
      obtain ⟨rest, hfree⟩ := List.getLast?_eq_some_iff.1 hlast
      have hdrop : s.free.dropLast = rest := by rw [hfree, List.dropLast_concat]
      have hnodup : (rest ++ [p]).Nodup := hfree ▸ h.nodup
      have hnew : p ∉ rest := fun hmem => (List.nodup_append.1 hnodup).2.2 p hmem p (by simp) rfl
      have hmem : p ∈ s.free := by simp [hfree]
      have hsub : rest.Sublist s.free := hfree ▸ List.sublist_append_left rest [p]
      refine ⟨p, { s with free := rest }, ?_, ?_, rfl⟩
      · rw [allocateBlock, exec_bind_of_ok (exec_get s)]
        simp only [hlast, hdrop]
        rfl
      · exact
          { freeOk := ⟨h.nodup.sublist hsub, fun q hq => h.range q (hsub.subset hq)⟩
            count := le_rfl
            free := hsub
            nodup := List.nodup_singleton p
            inUse := by
              intro q hq
              rw [List.mem_singleton.1 hq]
              exact ⟨h.range p hmem, hnew⟩
            notInUse := by
              intro q hq hused
              rw [List.mem_singleton.1 hq] at hused
              exact hused.notFree hmem
            blocks := fun _ _ => rfl
            pendingFree := rfl
            tableIndexRoot := rfl
            statsRoot := rfl }
  | none =>
      have hnil : s.free = [] := List.getLast?_eq_none_iff.1 hlast
      refine ⟨s.blockCount + 1, { s with blockCount := s.blockCount + 1 }, ?_, ?_, rfl⟩
      · rw [allocateBlock, exec_bind_of_ok (exec_get s)]
        simp only [hlast]
        rfl
      · exact
          { freeOk := ⟨h.nodup, fun q hq => (h.range q hq).mono (Nat.le_succ _)⟩
            count := Nat.le_succ _
            free := List.Sublist.refl _
            nodup := List.nodup_singleton _
            inUse := by
              intro q hq
              rw [List.mem_singleton.1 hq]
              exact ⟨⟨Nat.succ_pos _, le_rfl⟩, by simp [hnil]⟩
            notInUse := by
              intro q hq hused
              rw [List.mem_singleton.1 hq] at hused
              exact absurd hused.range.2 (Nat.not_succ_le_self _)
            blocks := fun _ _ => rfl
            pendingFree := rfl
            tableIndexRoot := rfl
            statsRoot := rfl }

theorem allocateBlocks_exec (n : ℕ) {s : Store} (h : FreeOk s) :
    ∃ ptrs t, (allocateBlocks n).exec s = (.ok ptrs, t) ∧ Taken s ptrs t ∧
      t.blocks = s.blocks ∧ ptrs.length = n := by
  induction n generalizing s with
  | zero => exact ⟨[], s, rfl, Taken.refl h, rfl, rfl⟩
  | succ n ih =>
      obtain ⟨p, t, hp, htaken, hblocks⟩ := allocateBlock_exec h
      obtain ⟨ptrs, u, hptrs, htaken', hblocks', hlen⟩ := ih htaken.freeOk
      refine ⟨p :: ptrs, u, ?_, htaken.trans htaken', hblocks'.trans hblocks, by simp [hlen]⟩
      rw [allocateBlocks, exec_bind_of_ok hp, exec_bind_of_ok hptrs]
      rfl

/-! ### Chains -/

/-- A link of a chain: where it is, and what it carries. -/
abbrev Link := BlockPtr × Payload × ℕ

/-- The blocks that carry what `links` says, one after another. -/
def Linked (blocks : BlockPtr → Block) : List Link → Prop
  | [] => True
  | (ptr, payload, part) :: rest =>
      blocks ptr = .link ((rest.head?.map Prod.fst).getD nullBlock) payload part ∧
        Linked blocks rest

/-- A whole chain that a walk finds. -/
structure Walked (s : Store) (visited : List BlockPtr) (links : List Link) : Prop where
  linked : Linked s.blocks links
  range : ∀ l ∈ links, InRange s.blockCount l.1
  nodup : (links.map Prod.fst).Nodup
  unvisited : ∀ l ∈ links, l.1 ∉ visited

/-- Where a chain starts. -/
def headOf (links : List Link) : BlockPtr := (links.head?.map Prod.fst).getD nullBlock

theorem Linked.congr {blocks blocks' : BlockPtr → Block} {links : List Link}
    (h : Linked blocks links) (hsame : ∀ p ∈ links.map Prod.fst, blocks' p = blocks p) :
    Linked blocks' links := by
  induction links with
  | nil => trivial
  | cons link rest ih =>
      refine ⟨(hsame _ (by simp)).trans h.1, ih h.2 fun p hp => hsame p ?_⟩
      exact List.mem_cons_of_mem _ hp

theorem walkChain_of_walked {s : Store} {links : List Link} {visited : List BlockPtr}
    (h : Walked s visited links) {fuel : ℕ} (hfuel : links.length ≤ fuel) :
    walkChain (fun ptr => readBlock ptr s) fuel visited (headOf links) = .ok links := by
  induction links generalizing fuel visited with
  | nil =>
      rw [walkChain.eq_def]
      rfl
  | cons link rest ih =>
      obtain ⟨ptr, payload, part⟩ := link
      have hptr : InRange s.blockCount ptr := h.range _ List.mem_cons_self
      have hnew : ptr ∉ visited := h.unvisited _ List.mem_cons_self
      have hnodup := List.nodup_cons.1 h.nodup
      cases fuel with
      | zero => simp at hfuel
      | succ fuel =>
          have hrest : Walked s (ptr :: visited) rest :=
            { linked := h.linked.2
              range := fun l hl => h.range l (List.mem_cons_of_mem _ hl)
              nodup := hnodup.2
              unvisited := by
                intro l hl hmem
                rcases List.mem_cons.1 hmem with heq | hmem
                · exact hnodup.1 (List.mem_map.2 ⟨l, hl, heq⟩)
                · exact h.unvisited l (List.mem_cons_of_mem _ hl) hmem }
          have hwalk := ih hrest (Nat.le_of_succ_le_succ hfuel)
          have hnull : ptr ≠ nullBlock := hptr.1.ne'
          change walkChain _ (fuel + 1) visited ptr = _
          rw [walkChain, if_neg hnull, if_neg hnew]
          simp only [readBlock_ok hptr, h.linked.1, decodeLink, ok_bind]
          rw [headOf] at hwalk
          rw [hwalk]
          rfl

theorem walked_of_walkChain {s : Store} {fuel : ℕ} {visited : List BlockPtr} {ptr : BlockPtr}
    {links : List Link}
    (h : walkChain (fun ptr => readBlock ptr s) fuel visited ptr = .ok links) :
    Walked s visited links ∧ headOf links = ptr := by
  induction fuel generalizing visited ptr links with
  | zero =>
      rw [walkChain] at h
      split_ifs at h with hnull hvisited
      · cases h
        exact ⟨⟨trivial, by simp, List.nodup_nil, by simp⟩, hnull.symm⟩
  | succ fuel ih =>
      rw [walkChain] at h
      split_ifs at h with hnull hvisited
      · cases h
        exact ⟨⟨trivial, by simp, List.nodup_nil, by simp⟩, hnull.symm⟩
      · by_cases hrange : InRange s.blockCount ptr
        · rw [readBlock_ok hrange, ok_bind] at h
          cases hblock : s.blocks ptr with
          | segment data =>
              rw [hblock] at h
              cases h
          | link next payload part =>
              simp only [hblock, decodeLink, ok_bind] at h
              cases hrest : walkChain (fun ptr => readBlock ptr s) fuel (ptr :: visited) next with
              | error e =>
                  rw [hrest] at h
                  cases h
              | ok rest =>
                  rw [hrest] at h
                  cases h
                  obtain ⟨hwalked, hhead⟩ := ih hrest
                  refine ⟨⟨⟨?_, hwalked.linked⟩, ?_, ?_, ?_⟩, rfl⟩
                  · rw [hblock, ← hhead]
                    rfl
                  · intro l hl
                    rcases List.mem_cons.1 hl with rfl | hl
                    · exact hrange
                    · exact hwalked.range l hl
                  · refine List.nodup_cons.2 ⟨fun hmem => ?_, hwalked.nodup⟩
                    obtain ⟨l, hl, heq⟩ := List.mem_map.1 hmem
                    exact hwalked.unvisited l hl (by simp [heq])
                  · intro l hl hmem
                    rcases List.mem_cons.1 hl with rfl | hl
                    · exact hvisited hmem
                    · exact hwalked.unvisited l hl (List.mem_cons_of_mem _ hmem)
        · have hcheck : readBlock ptr s = .error (.corrupt "block pointer"
              s!"{ptr} out of range 1..={s.blockCount}") := by
            rw [readBlock, File.checkPtr, if_pos]
            · rfl
            · rw [InRange, not_and_or, Nat.pos_iff_ne_zero, not_not, not_le] at hrange
              exact hrange
          rw [hcheck] at h
          cases h

/-- A list of different blocks of the file is no longer than the file. -/
theorem length_le_blockCount {n : ℕ} {ptrs : List BlockPtr} (hnodup : ptrs.Nodup)
    (hrange : ∀ p ∈ ptrs, InRange n p) : ptrs.length ≤ n := by
  have hsub : ptrs.toFinset ⊆ Finset.Icc 1 n := by
    intro p hp
    rw [List.mem_toFinset] at hp
    exact Finset.mem_Icc.2 (hrange p hp)
  have hcard := Finset.card_le_card hsub
  rwa [List.toFinset_card_of_nodup hnodup, Nat.card_Icc, Nat.add_sub_cancel] at hcard

theorem chainAt_eq_ok {s : Store} {head : BlockPtr} {links : List Link} :
    chainAt head s = .ok links ↔ Walked s [] links ∧ headOf links = head := by
  constructor
  · exact walked_of_walkChain
  · rintro ⟨hwalked, rfl⟩
    have hlen := length_le_blockCount hwalked.nodup fun p hp => by
      obtain ⟨l, hl, rfl⟩ := List.mem_map.1 hp
      exact hwalked.range l hl
    rw [List.length_map] at hlen
    exact walkChain_of_walked hwalked (hlen.trans (Nat.le_succ _))

/-- A walk depends on the blocks of the chain and nothing else. -/
theorem chainAt_congr {s t : Store} {head : BlockPtr} {links : List Link}
    (h : chainAt head s = .ok links) (hcount : s.blockCount ≤ t.blockCount)
    (hsame : ∀ p ∈ links.map Prod.fst, t.blocks p = s.blocks p) :
    chainAt head t = .ok links := by
  obtain ⟨hwalked, hhead⟩ := chainAt_eq_ok.1 h
  exact chainAt_eq_ok.2 ⟨
    { linked := hwalked.linked.congr hsame
      range := fun l hl => (hwalked.range l hl).mono hcount
      nodup := hwalked.nodup
      unvisited := hwalked.unvisited }, hhead⟩

section

variable (more : Payload → ℕ)

/-- A chain that reads as `payload` and is in the blocks of `ptrs`. -/
structure Chain (s : Store) (root : BlockPtr) (payload : Option Payload)
    (ptrs : List BlockPtr) : Prop where
  read : readChain more root s = .ok payload
  blocks : chainBlocks root s = .ok ptrs

variable {more}

theorem Chain.of_chainAt {s : Store} {root : BlockPtr} {payload : Option Payload}
    {links : List Link} (hat : chainAt root s = .ok links)
    (hjoin : joinParts more (links.map Prod.snd) = .ok payload) :
    Chain more s root payload (links.map Prod.fst) := by
  constructor
  · rw [readChain, hat]
    exact hjoin
  · rw [chainBlocks, hat]
    rfl

theorem chainAt_of_chainBlocks {s : Store} {root : BlockPtr} {ptrs : List BlockPtr}
    (h : chainBlocks root s = .ok ptrs) :
    ∃ links, chainAt root s = .ok links ∧ ptrs = links.map Prod.fst := by
  rw [chainBlocks] at h
  cases hat : chainAt root s with
  | error e =>
      rw [hat] at h
      cases h
  | ok links =>
      rw [hat] at h
      cases h
      exact ⟨links, rfl, rfl⟩

theorem Chain.of_read {s : Store} {root : BlockPtr} {payload : Option Payload}
    (h : readChain more root s = .ok payload) : ∃ ptrs, Chain more s root payload ptrs := by
  have hread := h
  rw [readChain] at hread
  cases hat : chainAt root s with
  | error e =>
      rw [hat] at hread
      cases hread
  | ok links => exact ⟨links.map Prod.fst, h, by rw [chainBlocks, hat]; rfl⟩

theorem chainBlocks_range {s : Store} {root : BlockPtr} {ptrs : List BlockPtr}
    (h : chainBlocks root s = .ok ptrs) : ∀ p ∈ ptrs, InRange s.blockCount p := by
  obtain ⟨links, hat, rfl⟩ := chainAt_of_chainBlocks h
  intro p hp
  obtain ⟨l, hl, rfl⟩ := List.mem_map.1 hp
  exact (chainAt_eq_ok.1 hat).1.range l hl

variable (more) in
theorem chainBlocks_congr {s t : Store} {root : BlockPtr} {ptrs : List BlockPtr}
    (h : chainBlocks root s = .ok ptrs) (hcount : s.blockCount ≤ t.blockCount)
    (hsame : ∀ p ∈ ptrs, t.blocks p = s.blocks p) :
    chainBlocks root t = .ok ptrs ∧ readChain more root t = readChain more root s := by
  obtain ⟨links, hat, rfl⟩ := chainAt_of_chainBlocks h
  have hat' := chainAt_congr hat hcount hsame
  constructor
  · rw [chainBlocks, hat']
    rfl
  · rw [readChain, readChain, hat, hat']

theorem Chain.congr {s t : Store} {root : BlockPtr} {payload : Option Payload}
    {ptrs : List BlockPtr} (h : Chain more s root payload ptrs)
    (hcount : s.blockCount ≤ t.blockCount) (hsame : ∀ p ∈ ptrs, t.blocks p = s.blocks p) :
    Chain more t root payload ptrs := by
  obtain ⟨hblocks, hread⟩ := chainBlocks_congr more h.blocks hcount hsame
  exact ⟨hread.trans h.read, hblocks⟩

/-! ### Writing a chain -/

def linksFrom (payload : Payload) : ℕ → List BlockPtr → List Link
  | _, [] => []
  | part, ptr :: ptrs => (ptr, payload, part) :: linksFrom payload (part + 1) ptrs

@[simp] theorem map_fst_linksFrom (payload : Payload) (part : ℕ) (ptrs : List BlockPtr) :
    (linksFrom payload part ptrs).map Prod.fst = ptrs := by
  induction ptrs generalizing part with
  | nil => rfl
  | cons ptr ptrs ih => rw [linksFrom, List.map_cons, ih]

theorem map_snd_linksFrom (payload : Payload) (part : ℕ) (ptrs : List BlockPtr) :
    (linksFrom payload part ptrs).map Prod.snd =
      (List.range' part ptrs.length).map fun i => (payload, i) := by
  induction ptrs generalizing part with
  | nil => rfl
  | cons ptr ptrs ih => rw [linksFrom, List.map_cons, ih, List.length_cons, List.range'_succ,
      List.map_cons]

theorem head_linksFrom (payload : Payload) (part : ℕ) (ptrs : List BlockPtr) :
    headOf (linksFrom payload part ptrs) = ptrs.head?.getD nullBlock := by
  cases ptrs <;> rfl

theorem joinParts_partsOf (payload : Payload) :
    joinParts more (partsOf more payload) = .ok (some payload) := by
  have hcons : partsOf more payload = (payload, 0) ::
      (List.range' 1 (more payload)).map fun part => (payload, part) := by
    rw [partsOf, List.range_eq_range', List.range'_succ, List.map_cons]
  rw [hcons, joinParts, if_pos hcons.symm]

theorem writeLinks_exec (payload : Payload) (part : ℕ) {ptrs taken : List BlockPtr}
    {s₀ s : Store} (h : Taken s₀ taken s) (hsub : ∀ p ∈ ptrs, p ∈ taken) (hnodup : ptrs.Nodup) :
    ∃ t, (writeLinks payload part ptrs).exec s = (.ok (), t) ∧ Taken s₀ taken t ∧
      t.blockCount = s.blockCount ∧ (∀ p, p ∉ ptrs → t.blocks p = s.blocks p) ∧
      Linked t.blocks (linksFrom payload part ptrs) := by
  induction ptrs generalizing part s with
  | nil => exact ⟨s, rfl, h, rfl, fun _ _ => rfl, trivial⟩
  | cons ptr ptrs ih =>
      have hptr := hsub ptr List.mem_cons_self
      have hnew := (List.nodup_cons.1 hnodup).1
      have hwrite := writeBlock_exec (h.inUse ptr hptr).range
        (.link (ptrs.head?.getD nullBlock) payload part)
      obtain ⟨t, hexec, htaken, hcount, hframe, hlinked⟩ := ih (part + 1) (h.write hptr _)
        (fun p hp => hsub p (List.mem_cons_of_mem _ hp)) (List.nodup_cons.1 hnodup).2
      refine ⟨t, ?_, htaken, hcount, fun p hp => ?_, ?_, hlinked⟩
      · rw [writeLinks, exec_bind_of_ok hwrite]
        exact hexec
      · rw [List.mem_cons, not_or] at hp
        rw [hframe p hp.2]
        exact Function.update_of_ne hp.1 _ _
      · rw [hframe ptr hnew]
        change Function.update s.blocks ptr _ ptr = Block.link (headOf _) _ _
        rw [Function.update_self, head_linksFrom]

variable (more) in
/-- A value is written as a chain of blocks that were not in use. -/
theorem writeChain_exec (payload : Payload) {s : Store} (h : FreeOk s) :
    ∃ root ptrs t, (writeChain more payload).exec s = (.ok root, t) ∧ Taken s ptrs t ∧
      Chain more t root (some payload) ptrs ∧ root ≠ nullBlock := by
  obtain ⟨ptrs, t, hptrs, htaken, -, hlen⟩ := allocateBlocks_exec (more payload + 1) h
  obtain ⟨u, hexec, htaken', hcount, -, hlinked⟩ :=
    writeLinks_exec payload 0 htaken (fun p hp => hp) htaken.nodup
  have hwalked : Walked u [] (linksFrom payload 0 ptrs) :=
    { linked := hlinked
      range := fun l hl => (htaken'.inUse l.1 (by
        have hmem := List.mem_map_of_mem (f := Prod.fst) hl
        rwa [map_fst_linksFrom] at hmem)).range
      nodup := by rw [map_fst_linksFrom]; exact htaken.nodup
      unvisited := by simp }
  have hjoin : joinParts more ((linksFrom payload 0 ptrs).map Prod.snd) = .ok (some payload) := by
    rw [map_snd_linksFrom, hlen, ← List.range_eq_range']
    exact joinParts_partsOf payload
  have hchain := Chain.of_chainAt (chainAt_eq_ok.2 ⟨hwalked, rfl⟩) hjoin
  rw [head_linksFrom, map_fst_linksFrom] at hchain
  refine ⟨ptrs.head?.getD nullBlock, ptrs, u, ?_, htaken', hchain, ?_⟩
  · rw [writeChain, exec_bind_of_ok hptrs, exec_bind_of_ok hexec]
    rfl
  · cases ptrs with
    | nil => simp at hlen
    | cons ptr ptrs => exact (htaken'.inUse ptr List.mem_cons_self).range.1.ne'

end

end Zu.Graph
