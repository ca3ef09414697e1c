import Zu.File.Zu1File

/-!
# What a header reaches

`Snapshot` is a header with what it stood for when it was taken: the blocks its
roots reach, the chain its free list is in, the blocks that list names, and what
the blocks held. A disk on which the blocks a sound snapshot reaches are intact
gives back its lists when its header is adopted.
-/

namespace Zu.File

open Lib

/-- A header and what it stands for. -/
structure Snapshot where
  header : DatabaseHeader
  /-- The blocks that were handed out and not freed. -/
  live : List BlockPtr
  /-- The blocks of the free-list chain, and what each carries. -/
  links : List (BlockPtr × Bytes)
  /-- The blocks the free list names. -/
  listed : List BlockPtr
  blocks : BlockPtr → Bytes

namespace Snapshot

def chain (s : Snapshot) : List BlockPtr := s.links.map Prod.fst

/-- The blocks the header reaches. -/
def Reaches (s : Snapshot) (b : BlockPtr) : Prop := b ∈ s.live ∨ b ∈ s.chain

/-- The blocks the header reaches hold what they held. -/
def Intact (s : Snapshot) (blocks : BlockPtr → Bytes) : Prop :=
  ∀ b, s.Reaches b → blocks b = s.blocks b

/-- The header can be adopted: it is in range, its chain reads as its list, and no
block is two of live, of the chain, or free. -/
structure Sound (crc : Bytes → UInt32) (s : Snapshot) : Prop where
  countLe : s.header.blockCount ≤ maxBlockCount
  rootEq : s.header.freeListRoot = s.links.head?.elim nullBlock Prod.fst
  linked : Linked crc s.blocks s.links
  partLe : ∀ l ∈ s.links, l.2.length ≤ chainCapacity
  payload : (s.links.map Prod.snd).flatten = encodeFreeList s.listed
  nodup : (s.live ++ s.chain ++ s.listed).Nodup
  range : ∀ b ∈ s.live ++ s.chain ++ s.listed, InRange s.header.blockCount b

end Snapshot

theorem maxBlockCount_lt : maxBlockCount < 2 ^ 64 := by decide

theorem encodeFreeList_eq_nil {ptrs : List BlockPtr} (h : encodeFreeList ptrs = []) :
    ptrs = [] := by
  cases ptrs with
  | nil => rfl
  | cons p ptrs =>
      have hlen := congrArg List.length h
      simp [encodeFreeList] at hlen

theorem length_le_of_range {ptrs : List BlockPtr} {n : ℕ} (hnodup : ptrs.Nodup)
    (hrange : ∀ p ∈ ptrs, InRange n p) : ptrs.length ≤ n := by
  have hsub : ptrs ⊆ List.range' 1 n := by
    intro p hp
    have hin := hrange p hp
    rw [List.mem_range'_1]
    exact ⟨hin.1, by rw [Nat.add_comm]; exact Nat.lt_succ_of_le hin.2⟩
  have hlen := (List.subperm_of_subset hnodup hsub).length_le
  rwa [List.length_range'] at hlen

namespace Snapshot

variable {crc : Bytes → UInt32} {s : Snapshot}

theorem Sound.chainAt (h : s.Sound crc) {blocks : BlockPtr → Bytes}
    (hsame : ∀ b ∈ s.chain, blocks b = s.blocks b) :
    chainAt crc s.header.blockCount blocks s.header.freeListRoot = .ok s.links := by
  have hnodup : s.chain.Nodup :=
    (List.nodup_append.1 (List.nodup_append.1 h.nodup).1).2.1
  have hrange : ∀ b ∈ s.chain, InRange s.header.blockCount b := fun b hb =>
    h.range b (List.mem_append_left _ (List.mem_append_right _ hb))
  have hlen := length_le_of_range hnodup hrange
  rw [chain, List.length_map] at hlen
  rw [File.chainAt, h.rootEq]
  exact walkChain_linked (lt_of_le_of_lt h.countLe maxBlockCount_lt) (h.linked.congr hsame)
    (fun l hl => hrange l.1 (List.mem_map_of_mem hl)) h.partLe (hlen.trans (Nat.le_succ _))
    (by rwa [List.nil_append])

theorem Sound.links_eq_nil (h : s.Sound crc) (hroot : s.header.freeListRoot = nullBlock) :
    s.links = [] := by
  have hlinks := h.rootEq
  cases hl : s.links with
  | nil => rfl
  | cons l ls =>
      rw [hl, hroot] at hlinks
      have hmem : l.1 ∈ s.chain := by rw [chain, hl]; exact List.mem_cons_self
      have hin := h.range l.1 (List.mem_append_left _ (List.mem_append_right _ hmem))
      exact absurd hlinks.symm hin.1.ne'

/-- A header whose blocks are intact gives its lists back. -/
theorem Sound.load (h : s.Sound crc) {blocks : BlockPtr → Bytes}
    (hsame : ∀ b ∈ s.chain, blocks b = s.blocks b) :
    loadFreeList crc s.header blocks = .ok (s.listed, s.chain) := by
  by_cases hroot : s.header.freeListRoot = nullBlock
  · have hlinks := h.links_eq_nil hroot
    have hlisted : s.listed = [] := by
      have hpayload := h.payload
      rw [hlinks] at hpayload
      exact encodeFreeList_eq_nil hpayload.symm
    rw [loadFreeList, if_pos hroot, chain, hlinks, hlisted]
    rfl
  · have hnodup : s.listed.Nodup := (List.nodup_append.1 h.nodup).2.1
    have hrange : ∀ b ∈ s.listed, InRange s.header.blockCount b := fun b hb =>
      h.range b (List.mem_append_right _ hb)
    have hchain := h.chainAt hsame
    have hread : readChain crc s.header.blockCount blocks s.header.freeListRoot =
        .ok (encodeFreeList s.listed) := by
      rw [readChain, hchain, ← h.payload]
      rfl
    have hblocks : chainBlocks crc s.header.blockCount blocks s.header.freeListRoot =
        .ok s.chain := by
      rw [chainBlocks, hchain]
      rfl
    rw [loadFreeList, if_neg hroot, hread, ok_bind, decodeFreeList_encodeFreeList
      (lt_of_le_of_lt h.countLe maxBlockCount_lt) hrange hnodup, ok_bind, hblocks]
    rfl

end Snapshot

end Zu.File
