import Zu.Schema.Codec
import Zu.File.Publish

/-!
# How a catalog gets into a file and out of it

A store checks the catalog, frees the chain of the one before it, writes the new one
into free blocks and publishes it with a checkpoint. Once the checkpoint is back, a
load decodes exactly the bytes that were encoded.
-/

namespace Zu.Schema

open Lib File

section

variable (crc : Bytes → UInt32)

/-- Gives blocks back, one after another. -/
def freeBlocks : List BlockPtr → FileM Unit
  | [] => pure ()
  | ptr :: ptrs => do
      freeBlock ptr
      freeBlocks ptrs

def freeChainAt (root : BlockPtr) : FileM Unit :=
  if root = nullBlock then pure ()
  else do
    let f ← get
    freeBlocks (← answer (chainBlocks crc f.db.blockCount f.device.view.blocks root))

namespace Catalog

def store (c : Catalog) : FileM Unit := do
  Schema.check c.validate
  let f ← get
  freeChainAt crc f.db.catalogRoot
  let root ← writeChain crc c.encode
  modify fun f => { f with db := { f.db with catalogRoot := root } }
  checkpoint crc

/-- `Catalog::load`: a file whose root is null reads as a new catalog. -/
def load (f : Zu1File) : Except ZuError Catalog :=
  if f.db.catalogRoot = nullBlock then .ok Catalog.new
  else do
    decode (← readChain crc f.db.blockCount f.device.view.blocks f.db.catalogRoot)

end Catalog

def catalogBlocks (f : Zu1File) : Except ZuError (List BlockPtr) :=
  if f.db.catalogRoot = nullBlock then .ok []
  else chainBlocks crc f.db.blockCount f.device.view.blocks f.db.catalogRoot

/-- A file whose catalog shares no block with what is listed as free, open for writing
and with room for `n` blocks more. -/
structure Storable (f : Zu1File) (n : ℕ) : Prop where
  writable : f.writable = true
  nodup : ∀ ptrs, catalogBlocks crc f = .ok ptrs → (ptrs ++ f.unreferenced).Nodup
  range : ∀ ptrs, catalogBlocks crc f = .ok ptrs →
    ∀ b ∈ ptrs ++ f.unreferenced, InRange f.db.blockCount b
  room : 2 * (f.db.blockCount + n) ≤ maxBlockCount

end

variable {crc : Bytes → UInt32}

/-! ### What each part does to the file -/

theorem freeBlock_triple (f₀ : Zu1File) (D : Disk) (P : List Write) (ptr : BlockPtr) :
    Triple (At f₀ D P) (freeBlock ptr)
      (fun _ => At { f₀ with pendingFree := f₀.pendingFree ++ [ptr] } D P) fun _ => True := by
  refine Triple.readState fun f hf => ?_
  refine Triple.bind (Q := fun _ g => g = f) ?_ fun _ => Triple.put fun g _ =>
    hf.update (fun f => { f with pendingFree := f.pendingFree ++ [ptr] }) fun _ => rfl
  cases checkPtr f.db.blockCount ptr with
  | ok u => exact Triple.pure fun g hg => hg
  | error err => exact Triple.throw fun _ _ => trivial

theorem freeBlocks_triple (f₀ : Zu1File) (D : Disk) (P : List Write) (ptrs : List BlockPtr) :
    Triple (At f₀ D P) (freeBlocks ptrs)
      (fun _ => At { f₀ with pendingFree := f₀.pendingFree ++ ptrs } D P) fun _ => True := by
  induction ptrs generalizing f₀ with
  | nil =>
      refine Triple.pure fun f hf => ?_
      rwa [List.append_nil]
  | cons ptr ptrs ih =>
      refine (freeBlock_triple f₀ D P ptr).bind fun _ => ?_
      refine (ih _).weaken (fun _ h => h) (fun _ f hf => ?_) fun _ h => h
      change At { f₀ with pendingFree := f₀.pendingFree ++ [ptr] ++ ptrs } D P f at hf
      rwa [List.append_assoc] at hf

theorem freeChainAt_triple {f₀ f : Zu1File} {D : Disk} {P : List Write} (hf : At f₀ D P f) :
    Triple (fun g => g = f) (freeChainAt crc f.db.catalogRoot)
      (fun _ g => ∃ ptrs, catalogBlocks crc f = .ok ptrs ∧
        At { f₀ with pendingFree := f₀.pendingFree ++ ptrs } D P g) fun _ => True := by
  refine Triple.ite (fun hroot => Triple.pure ?_) fun hroot => Triple.readState ?_
  · rintro g rfl
    refine ⟨[], if_pos hroot, ?_⟩
    rwa [List.append_nil]
  · rintro g rfl
    refine ((answer_triple _).weaken (fun _ h => h) (fun _ _ h => h)
      fun _ _ => trivial).bind fun ptrs => ?_
    rintro g ⟨rfl, hptrs⟩
    have hblocks : catalogBlocks crc g = .ok ptrs := (if_neg hroot).trans hptrs
    exact ((freeBlocks_triple f₀ D P ptrs).weaken (fun _ h => h)
      (fun _ t ht => ⟨ptrs, hblocks, ht⟩) fun _ h => h) g hf

theorem keepSavepoint_triple (f₀ : Zu1File) (D : Disk) (P : List Write) :
    Triple (At f₀ D P) keepSavepoint
      (fun _ f => ∃ s D' P', At { f₀ with savepoint := s } D' P' f ∧
        (applyAll P' D').blocks = (applyAll P D).blocks) fun _ => True := by
  refine Triple.readState fun f hf => ?_
  have hsame : Triple (fun g => g = f) (pure () : FileM Unit) (fun _ g => ∃ s D' P',
      At { f₀ with savepoint := s } D' P' g ∧ (applyAll P' D').blocks = (applyAll P D).blocks)
      fun _ => True :=
    Triple.pure fun g hg => ⟨f₀.savepoint, D, P, hg ▸ hf, rfl⟩
  cases hheld : f.savepoint with
  | none => exact hsame
  | some held =>
      refine Triple.ite (fun _ => ?_) fun _ => hsame
      refine Triple.bind ((writeAllAt_triple f₀ D P _).weaken (fun g hg => hg ▸ hf)
        (fun _ _ h => h) fun _ _ => trivial) fun _ => ?_
      refine Triple.bind ((syncAll_triple f₀ D _).weaken (fun _ h => h) (fun _ _ h => h)
        fun _ _ => trivial) fun _ => Triple.update fun g hg => ?_
      refine ⟨_, _, [], hg.update (fun f => { f with
        savepoint := f.savepoint.map fun s => { s with marked := true } }) fun _ => rfl, ?_⟩
      rw [applyAll_append]
      rfl

/-- Settling the lists leaves the header alone. -/
theorem settle_db (all reached : List BlockPtr) (e : Epoch) (f : Zu1File) :
    (Zu1File.settle all reached e f).db = f.db := by
  obtain ⟨device, path, db, slot, free, pending, chain, frozen, writable, savepoint, retained,
    defer, unpublished, interrupted⟩ := f
  simp only [Zu1File.settle, Zu1File.reclaim, Zu1File.releaseRetained]
  cases savepoint <;> cases defer <;> split_ifs <;> rfl

/-- What is free and what was taken is what was free and what is new. -/
theorem unreferenced_perm {f₀ f : Zu1File} {ptrs : List BlockPtr} (h : Allocated f₀ ptrs f) :
    (ptrs ++ f.unreferenced).Perm
      (f₀.unreferenced ++ newBlocks f₀.db.blockCount f.db.blockCount) := by
  refine List.perm_iff_count.2 fun b => ?_
  have hcount := h.perm.count_eq b
  have hlists : f.frozen = f₀.frozen ∧ f.pendingFree = f₀.pendingFree ∧
      f.freeChain = f₀.freeChain := by
    rw [h.rest]
    exact ⟨rfl, rfl, rfl⟩
  simp only [Zu1File.unreferenced, List.count_append, hlists] at hcount ⊢
  omega

/-- A checkpoint keeps a chain that shares no block with what is listed as free. -/
theorem checkpoint_keeps {f₀ : Zu1File} (hw : f₀.writable = true)
    {links : List (BlockPtr × Bytes)} (hnodup : (links.map Prod.fst ++ f₀.unreferenced).Nodup)
    (hrange : ∀ b ∈ links.map Prod.fst ++ f₀.unreferenced, InRange f₀.db.blockCount b)
    (hroom : 2 * f₀.db.blockCount ≤ maxBlockCount)
    (hpart : ∀ l ∈ links, l.2.length ≤ chainCapacity) {D : Disk} {P : List Write}
    (hlinked : Linked crc (applyAll P D).blocks links) :
    Triple (At f₀ D P) (checkpoint crc)
      (fun _ f => f.db.catalogRoot = f₀.db.catalogRoot ∧
        chainAt crc f.db.blockCount f.device.view.blocks
          (links.head?.elim nullBlock Prod.fst) = .ok links) fun _ => True := by
  refine (checkWritable_triple hw D P _).bind fun _ => (keepSavepoint_triple f₀ D P).bind fun _ => ?_
  refine Triple.of_forall fun s => Triple.of_forall fun D' => Triple.of_forall fun P' => ?_
  rintro f ⟨hf, hblocks⟩
  have hsaved : ({ f₀ with savepoint := s } : Zu1File).writable = true := hw
  have hpublish := @publish_triple crc _ hsaved _ hnodup hrange hroom D' P'
  refine (hpublish.weaken (fun _ h => h) (fun _ g hg => ?_) fun _ _ => trivial) f hf
  obtain ⟨N, extra, hpub⟩ := hg
  obtain ⟨u, hrest⟩ := hpub.rest
  have hdb : g.db = N.header := by
    rw [hrest]
    exact settle_db _ _ _ _
  have hcount : f₀.db.blockCount ≤ N.header.blockCount := hpub.drafted.le
  have hin : ∀ l ∈ links, InRange N.header.blockCount l.1 := fun l hl =>
    (hrange _ (List.mem_append_left _ (List.mem_map_of_mem hl))).mono hcount
  have hspares : Spares (· ∈ links.map Prod.fst) (linkWrites crc N.links) := by
    refine (into_linkWrites N.links).spares fun b hb hlink => ?_
    rcases hpub.drafted.source b hb with hfree | hnew
    · have hun : b ∈ f₀.unreferenced := by
        simp only [Zu1File.unreferenced, List.mem_append]
        exact Or.inl (Or.inl (Or.inl hfree))
      exact (List.nodup_append.1 hnodup).2.2 b hlink b hun rfl
    · exact absurd (hrange b (List.mem_append_left _ hlink)).2 (not_le.2 hnew)
  have hview : g.device.view.blocks = (applyAll (linkWrites crc N.links) (applyAll P' D')).blocks := by
    rw [CrashDisk.view, hpub.pending, hpub.durable, applyAll_append]
    rfl
  have hnow : Linked crc g.device.view.blocks links := by
    rw [hview]
    refine hlinked.congr fun b hb => ?_
    rw [(applyAll_spares _ hspares).2.2 b hb, hblocks]
  refine ⟨?_, ?_⟩
  · rw [hdb, hpub.drafted.header]
  · have hlen := length_le_of_range (List.nodup_append.1 hnodup).1
      fun b hb => (hrange b (List.mem_append_left _ hb)).mono hcount
    rw [List.length_map] at hlen
    rw [hdb]
    exact walkChain_linked (lt_of_le_of_lt hpub.drafted.sound.countLe maxBlockCount_lt) hnow hin
      hpart (hlen.trans (Nat.le_succ _)) (List.nodup_append.1 hnodup).1

theorem encode_ne_nil (c : Catalog) : c.encode ≠ [] := by
  have hlen : 2 ≤ c.encode.length := by
    rw [Catalog.encode, Catalog.encodeAs, encodeHead, List.append_assoc, List.length_append,
      length_leBytes]
    exact Nat.le_add_right _ _
  intro hnil
  rw [hnil] at hlen
  exact absurd hlen (by decide)

theorem length_chunks_le {links : List (BlockPtr × Bytes)} {payload : Bytes}
    (h : links.map Prod.snd = File.chunks chainCapacity payload) :
    (links.map Prod.fst).length = (File.chunks chainCapacity payload).length := by
  rw [← h, List.length_map, List.length_map]

/-- What a load finds after a store that returned: the bytes the catalog encodes to. -/
theorem store_triple (c : Catalog) {f₀ : Zu1File}
    (hfile : Storable crc f₀ (File.chunks chainCapacity c.encode).length) :
    Triple (fun f => f = f₀) (c.store crc)
      (fun _ f => c.validate = .ok () ∧ Catalog.load crc f = Catalog.decode c.encode)
      fun _ => True := by
  refine Triple.bind (Q := fun _ f => f = f₀ ∧ c.validate = .ok ()) ?_ fun _ =>
    Triple.readState fun f hf => ?_
  · exact (check_triple c.validate).weaken (fun _ h => h) (fun _ _ h => h) fun _ _ => trivial
  obtain ⟨rfl, hvalid⟩ := hf
  have hat : At f f.device.durable f.device.pending f := ⟨⟨rfl, rfl⟩, f.device, rfl⟩
  refine (freeChainAt_triple hat).bind fun _ => Triple.of_forall fun ptrs => ?_
  rintro g ⟨hptrs, hg⟩
  set f₁ : Zu1File := { f with pendingFree := f.pendingFree ++ ptrs } with hf₁
  have hperm : (ptrs ++ f.unreferenced).Perm f₁.unreferenced := by
    refine List.perm_iff_count.2 fun b => ?_
    simp only [hf₁, Zu1File.unreferenced, List.count_append]
    omega
  have hnodup₁ : f₁.unreferenced.Nodup := hperm.nodup_iff.1 (hfile.nodup ptrs hptrs)
  have hrange₁ : ∀ b ∈ f₁.unreferenced, InRange f₁.db.blockCount b := fun b hb =>
    hfile.range ptrs hptrs b (hperm.symm.subset hb)
  have hw₁ : f₁.writable = true := hfile.writable
  have hfree : ∀ b ∈ f₁.free, InRange f₁.db.blockCount b := by
    intro b hb
    apply hrange₁
    simp only [Zu1File.unreferenced, List.mem_append]
    exact Or.inl (Or.inl (Or.inl hb))
  refine (Triple.bind ((writeChain_triple hw₁ hfree _ _ _).weaken (fun _ h => h)
    (fun _ _ h => h) fun _ _ => trivial) fun root => ?_) g hg
  rintro g ⟨links, f₂, rfl, hparts, halloc, hg₂⟩
  set head := links.head?.elim nullBlock Prod.fst with hhead
  have hrest := halloc.rest
  have hall := unreferenced_perm halloc
  set f₃ : Zu1File := { f₂ with db := { f₂.db with catalogRoot := head } } with hf₃
  have hw₃ : f₃.writable = true := by
    rw [hf₃, hrest]
    exact hfile.writable
  have hnodup₃ : (links.map Prod.fst ++ f₃.unreferenced).Nodup :=
    hall.nodup_iff.2 (nodup_append_newBlocks _ hnodup₁ hrange₁)
  have hrange₃ : ∀ b ∈ links.map Prod.fst ++ f₃.unreferenced, InRange f₃.db.blockCount b := by
    intro b hb
    rcases List.mem_append.1 (hall.subset hb) with hold | hnew
    · exact (hrange₁ b hold).mono halloc.le
    · obtain ⟨hlt, hle⟩ := mem_newBlocks.1 hnew
      exact ⟨(Nat.zero_le _).trans_lt hlt, hle⟩
  have hroom₃ : 2 * f₃.db.blockCount ≤ maxBlockCount := by
    have hgrowth := halloc.growth
    rw [length_chunks_le hparts] at hgrowth
    have hroom := hfile.room
    change f₂.db.blockCount - f.db.blockCount ≤ _ at hgrowth
    change 2 * f₂.db.blockCount ≤ _
    omega
  have hpart : ∀ l ∈ links, l.2.length ≤ chainCapacity := by
    intro l hl
    have hmem : l.2 ∈ File.chunks chainCapacity c.encode := hparts ▸ List.mem_map_of_mem hl
    exact length_le_of_mem_chunksFrom hmem
  have hlinked : Linked crc
      (applyAll (f.device.pending ++ linkWrites crc links) f.device.durable).blocks links := by
    rw [applyAll_append]
    exact linked_applyAll (List.nodup_append.1 hnodup₃).1 _
  refine (Triple.bind (modify_triple f₂ _ _
    (fun f => { f with db := { f.db with catalogRoot := head } }) fun _ => rfl) fun _ =>
    (checkpoint_keeps hw₃ hnodup₃ hrange₃ hroom₃ hpart hlinked).weaken (fun _ h => h)
      (fun _ t ht => ?_) fun _ h => h) g hg₂
  obtain ⟨hroot, hchain⟩ := ht
  have hroot' : t.db.catalogRoot = head := hroot
  have hnull : head ≠ nullBlock := by
    rw [hhead]
    cases hlinks : links with
    | nil =>
        rw [hlinks] at hparts
        exact absurd hparts.symm (chunks_ne_nil (encode_ne_nil c))
    | cons l ls =>
        have hmem : l.1 ∈ links.map Prod.fst ++ f₃.unreferenced := by
          rw [hlinks]
          exact List.mem_cons_self
        exact (hrange₃ l.1 hmem).1.ne'
  have hread : readChain crc t.db.blockCount t.device.view.blocks t.db.catalogRoot =
      .ok c.encode := by
    rw [readChain, hroot', hchain, ok_bind, hparts, File.flatten_chunks (by decide)]
    rfl
  refine ⟨hvalid, ?_⟩
  rw [Catalog.load, if_neg (hroot' ▸ hnull), hread, ok_bind]

end Zu.Schema
