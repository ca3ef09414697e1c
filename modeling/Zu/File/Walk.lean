import Zu.File.Publish
import Zu.Lib.Loop

/-!
# Walking a chain

A chain is walked by following pointers that are read out of its blocks, whatever is in
them. The walk remembers the blocks it has been in, so that it ends after as many turns
as the file has blocks, and it is an error to come to one of them again.
-/

namespace Zu.File

open Lib

/-- Blocks as the file hands them out: whole ones, with anything in them. -/
abbrev Blocks := BlockPtr → { block : Bytes // block.length = blockSize }

variable (crc : Bytes → UInt32)

/-- Reads the block at `ptr` as one of a chain, every slice against its end. -/
def linkIn (ptr : BlockPtr) (block : Bytes) : Checked ZuError (BlockPtr × Bytes) := do
  let next ← Checked.slice block 0 8
  let len ← Checked.slice block 8 12
  let stored ← Checked.slice block 12 16
  if chainCapacity < fromLe len then
    Checked.refuse (.corrupt "meta chain" s!"block {ptr} claims {fromLe len} payload bytes")
  else do
    let part ← Checked.slice block blockHeader (blockHeader + fromLe len)
    if (crc part).toNat ≠ fromLe stored then
      Checked.refuse (.corrupt "meta chain" s!"crc mismatch in block {ptr}")
    else .ok (fromLe next, part)

/-- Where a walk is: the blocks it has been in, the next one, and what it has seen. -/
structure Walk where
  visited : List BlockPtr
  ptr : BlockPtr
  seen : List (BlockPtr × Bytes)

/-- The walk once it has been in the block it was at. -/
def Walk.past (w : Walk) (link : BlockPtr × Bytes) : Walk where
  visited := w.ptr :: w.visited
  ptr := link.1
  seen := w.seen ++ [(w.ptr, link.2)]

/-- One turn of `walk_chain`. -/
def walkTurn (blockCount : ℕ) (blocks : Blocks) (w : Walk) :
    Checked ZuError (List (BlockPtr × Bytes)) ⊕ Walk :=
  if w.ptr = nullBlock then .inl (.ok w.seen)
  else if w.ptr ∈ w.visited then
    .inl (Checked.refuse (.corrupt "meta chain" s!"cycle detected at block {w.ptr}"))
  else
    match checkPtr blockCount w.ptr with
    | .error e => .inl (Checked.refuse e)
    | .ok _ =>
        match linkIn crc w.ptr (blocks w.ptr) with
        | .error s => .inl (.error s)
        | .ok link => .inr (w.past link)

def Walk.start (head : BlockPtr) : Walk := { visited := [], ptr := head, seen := [] }

/-! ### Where the pointers lead -/

/-- The pointer in a block's header. -/
def nextPtr (blocks : Blocks) (ptr : BlockPtr) : BlockPtr := fromLe ((blocks ptr).1.take 8)

/-- The block a chain comes to after `n` hops. -/
def hop (blocks : Blocks) (head : BlockPtr) (n : ℕ) : BlockPtr := (nextPtr blocks)^[n] head

/-- The chain comes to a block it has been in, before it comes to an end. -/
def VisitsTwice (blocks : Blocks) (head : BlockPtr) : Prop :=
  ∃ i j, i < j ∧ hop blocks head i = hop blocks head j ∧ ∀ k ≤ j, hop blocks head k ≠ nullBlock

variable {crc}

theorem linkIn_eq {ptr : BlockPtr} {block : Bytes} (h : block.length = blockSize) :
    linkIn crc ptr block = Checked.ofExcept (decodeLink crc ptr block) := by
  have hsize : blockSize = 32768 := rfl
  have hcap : chainCapacity = 32752 := rfl
  have hheader : blockHeader = 16 := rfl
  rw [linkIn, Checked.slice_of_le (by omega) (by omega), ok_bind,
    Checked.slice_of_le (by omega) (by omega), ok_bind,
    Checked.slice_of_le (by omega) (by omega), ok_bind, decodeLink]
  simp only [List.drop_zero, Nat.sub_zero, Nat.reduceSub]
  split
  case isTrue => rfl
  case isFalse hlen =>
    rw [Checked.slice_of_le (by omega) (by omega), ok_bind, Nat.add_sub_cancel_left]
    split <;> rfl

theorem decodeLink_next {ptr : BlockPtr} {block : Bytes} {link : BlockPtr × Bytes}
    (h : decodeLink crc ptr block = .ok link) : link.1 = fromLe (block.take 8) := by
  rw [decodeLink] at h
  simp only [] at h
  split at h
  · cases h
  · split at h
    · cases h
    · cases h
      rfl

/-- A walk that returns has followed the pointers to the end, and met no block twice. -/
theorem walkChain_ok {blockCount fuel : ℕ} {blocks : Blocks} {visited : List BlockPtr}
    {ptr : BlockPtr} {links : List (BlockPtr × Bytes)}
    (h : walkChain crc blockCount (fun p => (blocks p).1) fuel visited ptr = .ok links) :
    links.map Prod.fst = (List.range links.length).map (hop blocks ptr) ∧
      hop blocks ptr links.length = nullBlock ∧ (links.map Prod.fst).Nodup ∧
        ∀ p ∈ links.map Prod.fst, p ∉ visited := by
  induction fuel generalizing visited ptr links with
  | zero =>
      rw [walkChain] at h
      split at h
      case isTrue hnull =>
        cases h
        exact ⟨rfl, hnull, List.nodup_nil, fun p hp => absurd hp List.not_mem_nil⟩
      case isFalse => split at h <;> cases h
  | succ fuel ih =>
      rw [walkChain] at h
      split at h
      case isTrue hnull =>
        cases h
        exact ⟨rfl, hnull, List.nodup_nil, fun p hp => absurd hp List.not_mem_nil⟩
      case isFalse =>
        split at h
        case isTrue => cases h
        case isFalse hnew =>
          rw [except_bind_ok] at h
          obtain ⟨-, -, h⟩ := h
          rw [except_bind_ok] at h
          obtain ⟨⟨next, part⟩, hlink, h⟩ := h
          rw [except_bind_ok] at h
          obtain ⟨rest, hrest, h⟩ := h
          cases h
          have hnext : next = nextPtr blocks ptr := decodeLink_next hlink
          obtain ⟨hpath, hend, hnodup, hout⟩ := ih hrest
          have hhop : ∀ n, hop blocks ptr (n + 1) = hop blocks next n := fun n => by
            rw [hop, Function.iterate_succ_apply, ← hnext, hop]
          refine ⟨?_, (hhop _).trans hend, ?_, ?_⟩
          · rw [List.map_cons, hpath, List.length_cons, List.range_succ_eq_map, List.map_cons,
              List.map_map]
            congr 1
            exact List.map_congr_left fun n _ => (hhop n).symm
          · refine List.nodup_cons.2 ⟨fun hmem => ?_, hnodup⟩
            exact hout ptr hmem List.mem_cons_self
          · intro p hp
            cases List.mem_cons.1 hp with
            | inl hp => exact hp ▸ hnew
            | inr hp => exact fun hmem => hout p hp (List.mem_cons_of_mem ptr hmem)

/-- A chain that comes to a block twice is not walked to an end. -/
theorem walkChain_not_ok {blockCount fuel : ℕ} {blocks : Blocks} {visited : List BlockPtr}
    {head : BlockPtr} (h : VisitsTwice blocks head) (links : List (BlockPtr × Bytes)) :
    walkChain crc blockCount (fun p => (blocks p).1) fuel visited head ≠ .ok links := by
  intro hok
  obtain ⟨i, j, hij, hsame, hgoing⟩ := h
  obtain ⟨hpath, hend, hnodup, -⟩ := walkChain_ok hok
  have hj : j < links.length := by
    by_contra hle
    exact hgoing links.length (not_lt.1 hle) hend
  rw [hpath] at hnodup
  have hinj := List.inj_on_of_nodup_map hnodup
  exact hij.ne (hinj (List.mem_range.2 (hij.trans hj)) (List.mem_range.2 hj) hsame)

/-! ### The walk ends -/

/-- The loop ends, as the recursion with enough turns says: the blocks a walk has been
in are different blocks of the file, so it has no more turns than there are of them. -/
theorem walk_ends {blockCount : ℕ} {blocks : Blocks} {fuel : ℕ} {w : Walk}
    (hnodup : w.visited.Nodup) (hrange : ∀ p ∈ w.visited, InRange blockCount p)
    (hfuel : blockCount < fuel + w.visited.length) :
    Ends (walkTurn crc blockCount blocks) w (Checked.ofExcept
      ((w.seen ++ ·) <$> walkChain crc blockCount (fun p => (blocks p).1) fuel w.visited w.ptr)) := by
  induction fuel generalizing w with
  | zero =>
      have hlen := length_le_of_range hnodup hrange
      rw [Nat.zero_add] at hfuel
      exact absurd hlen (not_le.2 hfuel)
  | succ fuel ih =>
      rw [walkChain]
      by_cases hnull : w.ptr = nullBlock
      · rw [if_pos hnull]
        apply Ends.done
        rw [walkTurn, if_pos hnull]
        exact congrArg Sum.inl (congrArg Except.ok (List.append_nil _).symm)
      · by_cases hmem : w.ptr ∈ w.visited
        · rw [if_neg hnull, if_pos hmem]
          apply Ends.done
          rw [walkTurn, if_neg hnull, if_pos hmem]
          rfl
        · rw [if_neg hnull, if_neg hmem]
          cases hcheck : checkPtr blockCount w.ptr with
          | error e =>
              apply Ends.done
              rw [walkTurn, if_neg hnull, if_neg hmem, hcheck]
              rfl
          | ok u =>
              have hin : InRange blockCount w.ptr := by
                rw [checkPtr] at hcheck
                split at hcheck
                · cases hcheck
                · rename_i hout
                  rw [not_or] at hout
                  exact ⟨Nat.pos_of_ne_zero hout.1, not_lt.1 hout.2⟩
              rw [ok_bind]
              cases hlink : decodeLink crc w.ptr (blocks w.ptr).1 with
              | error e =>
                  apply Ends.done
                  rw [walkTurn, if_neg hnull, if_neg hmem, hcheck]
                  simp only [linkIn_eq (blocks w.ptr).2, hlink]
                  rfl
              | ok link =>
                  rw [ok_bind]
                  have hturn : walkTurn crc blockCount blocks w = .inr (w.past link) := by
                    rw [walkTurn, if_neg hnull, if_neg hmem, hcheck]
                    simp only [linkIn_eq (blocks w.ptr).2, hlink]
                    rfl
                  refine Ends.again hturn ?_
                  have hrest := ih (w := w.past link)
                    (List.nodup_cons.2 ⟨hmem, hnodup⟩)
                    (fun p hp => (List.mem_cons.1 hp).elim (fun h => h ▸ hin) (hrange p))
                    (by rw [Walk.past, List.length_cons]; omega)
                  change Ends _ _ (Checked.ofExcept ((w.seen ++ ·) <$>
                    (walkChain crc blockCount (fun p => (blocks p).1) fuel (w.ptr :: w.visited)
                      link.1 >>= fun rest => pure ((w.ptr, link.2) :: rest))))
                  cases hwalk : walkChain crc blockCount (fun p => (blocks p).1) fuel
                      (w.ptr :: w.visited) link.1 with
                  | error e =>
                      change Ends _ _ (Checked.ofExcept ((_ ++ ·) <$> walkChain crc blockCount
                        (fun p => (blocks p).1) fuel (w.ptr :: w.visited) link.1)) at hrest
                      rw [hwalk] at hrest
                      exact hrest
                  | ok links =>
                      change Ends _ _ (Checked.ofExcept ((w.seen ++ [(w.ptr, link.2)] ++ ·) <$>
                        walkChain crc blockCount (fun p => (blocks p).1) fuel
                          (w.ptr :: w.visited) link.1)) at hrest
                      rw [hwalk] at hrest
                      have hsame : w.seen ++ [(w.ptr, link.2)] ++ links =
                          w.seen ++ (w.ptr, link.2) :: links := by
                        rw [List.append_assoc, List.singleton_append]
                      change Ends _ _ (Except.ok (w.seen ++ [(w.ptr, link.2)] ++ links)) at hrest
                      rw [hsame] at hrest
                      exact hrest

/-! ### Reading back what was written -/

/-- The free list of an open file: blocks of the file, and none of them twice. -/
structure FreeSound (f : Zu1File) : Prop where
  range : ∀ b ∈ f.free, InRange f.db.blockCount b
  nodup : f.free.Nodup

theorem freeSound_create (path : String) : FreeSound (create path) where
  range := fun _ hb => absurd hb List.not_mem_nil
  nodup := List.nodup_nil

theorem writable_of_writeLinks {l : BlockPtr × Bytes} {ls : List (BlockPtr × Bytes)}
    {f g : Zu1File} {u : Unit} (h : (writeLinks crc (l :: ls)).exec f = (.ok u, g)) :
    f.writable = true := by
  obtain ⟨_, f₁, hblock, -⟩ := exec_bind_ok h
  obtain ⟨_, f₂, hcheck, -⟩ := exec_bind_ok hblock
  by_contra hw
  have hfalse : f.writable = false := Bool.eq_false_iff.2 hw
  rw [checkWritable, exec_bind, exec_get] at hcheck
  simp only [hfalse] at hcheck
  exact nomatch hcheck

/-- Blocks that were taken are blocks of the file, each taken once. -/
theorem Allocated.sound {f₀ f : Zu1File} {ptrs : List BlockPtr} (h : Allocated f₀ ptrs f)
    (hfree : FreeSound f₀) : (∀ b ∈ ptrs, InRange f.db.blockCount b) ∧ ptrs.Nodup := by
  constructor
  · intro b hb
    cases h.of_mem hb with
    | inl hb => exact (hfree.range b hb).mono h.le
    | inr hb => exact ⟨Nat.lt_of_le_of_lt (Nat.zero_le _) hb.1, hb.2⟩
  · have hnodup : (f₀.free ++ newBlocks f₀.db.blockCount f.db.blockCount).Nodup := by
      refine List.Nodup.append hfree.nodup (nodup_newBlocks _ _) fun b hb hnew => ?_
      exact absurd (hfree.range b hb).2 (not_le.2 (mem_newBlocks.1 hnew).1)
    exact (List.nodup_append.1 (h.perm.nodup_iff.2 hnodup)).2.1

/-- The chain a payload is written as: its parts, in blocks that were taken for it. -/
theorem writeChain_ok {f g : Zu1File} {payload : Bytes} {root : BlockPtr} (hfree : FreeSound f)
    (h : (writeChain crc payload).exec f = (.ok root, g)) :
    ∃ links f₁, root = links.head?.elim nullBlock Prod.fst ∧
      links.map Prod.snd = chunks chainCapacity payload ∧
      Allocated f (links.map Prod.fst) f₁ ∧ g = f₁.withDevice g.device ∧
      Linked crc g.device.view.blocks links := by
  obtain ⟨links, f₁, halloc, hrest⟩ := exec_bind_ok h
  obtain ⟨hparts, f₂, htaken, hat⟩ :=
    (allocateBlocks_triple f f.device.durable f.device.pending _ f
      ⟨⟨rfl, rfl⟩, f.device, rfl⟩).1 links f₁ halloc
  obtain ⟨_, g', hlinks, hout⟩ := exec_bind_ok hrest
  cases hout
  cases links with
  | nil =>
      cases hlinks
      exact ⟨[], f₂, rfl, hparts, htaken, hat.device_eq, trivial⟩
  | cons l ls =>
      have hw : f₂.writable = true := by
        have hf₁ := writable_of_writeLinks hlinks
        rw [hat.device_eq] at hf₁
        exact hf₁
      obtain ⟨hrange, hnodup⟩ := htaken.sound hfree
      have hlinked : ∀ l' ∈ l :: ls, InRange f₂.db.blockCount l'.1 :=
        fun l' hl => hrange l'.1 (List.mem_map_of_mem hl)
      have hwritten := (writeLinks_triple hw f.device.durable f.device.pending hlinked f₁ hat).1
        _ _ hlinks
      refine ⟨l :: ls, f₂, rfl, hparts, htaken, hwritten.device_eq, ?_⟩
      have hview : g.device.view = applyAll (linkWrites crc (l :: ls))
          (applyAll f.device.pending f.device.durable) := by
        rw [CrashDisk.view, hwritten.1.1, hwritten.1.2, applyAll_append]
      rw [hview]
      exact linked_applyAll hnodup _

theorem chainAt_written {f g : Zu1File} {payload : Bytes} {root : BlockPtr}
    {links : List (BlockPtr × Bytes)} {f₁ : Zu1File} (hfree : FreeSound f)
    (hcount : g.db.blockCount < 2 ^ 64) (hroot : root = links.head?.elim nullBlock Prod.fst)
    (hparts : links.map Prod.snd = chunks chainCapacity payload)
    (htaken : Allocated f (links.map Prod.fst) f₁) (hg : g = f₁.withDevice g.device)
    (hlinked : Linked crc g.device.view.blocks links) :
    chainAt crc g.db.blockCount g.device.view.blocks root = .ok links := by
  have hblocks : g.db.blockCount = f₁.db.blockCount := congrArg (fun x => x.db.blockCount) hg
  obtain ⟨hrange, hnodup⟩ := htaken.sound hfree
  have hlen := length_le_of_range hnodup hrange
  rw [List.length_map, ← hblocks] at hlen
  rw [chainAt, hroot]
  refine walkChain_linked hcount hlinked (fun l hl => ?_) (fun l hl => ?_)
    (hlen.trans (Nat.le_succ _)) (by rwa [List.nil_append])
  · rw [hblocks]
    exact hrange l.1 (List.mem_map_of_mem hl)
  · have hmem : l.2 ∈ chunks chainCapacity payload := hparts ▸ List.mem_map_of_mem hl
    exact length_le_of_mem_chunksFrom hmem

/-- A payload written as a chain is read back from it, and the chain's blocks are the
blocks that were taken for it. Whatever is in the blocks, a walk ends, with what the
chain's reader makes of it, without a slice out of range, and with an error where the
chain comes to a block twice. -/
theorem chain_walks {f g : Zu1File} {payload : Bytes} {root : BlockPtr} (hfree : FreeSound f)
    (hwrite : (writeChain crc payload).exec f = (.ok root, g))
    (hcount : g.db.blockCount < 2 ^ 64) (blockCount : ℕ) (blocks : Blocks) (head : BlockPtr) :
    (readChain crc g.db.blockCount g.device.view.blocks root = .ok payload ∧
      ∃ ptrs f₁, Allocated f ptrs f₁ ∧ g = f₁.withDevice g.device ∧
        chainBlocks crc g.db.blockCount g.device.view.blocks root = .ok ptrs) ∧
    ∃ r, Ends (walkTurn crc blockCount blocks) (Walk.start head) r ∧
      r = Checked.ofExcept (chainAt crc blockCount (fun p => (blocks p).1) head) ∧
      r ≠ .error .panicked ∧ (VisitsTwice blocks head → ∃ e, r = .error (.refused e)) := by
  constructor
  · obtain ⟨links, f₁, hroot, hparts, htaken, hg, hlinked⟩ := writeChain_ok hfree hwrite
    have hchain := chainAt_written hfree hcount hroot hparts htaken hg hlinked
    constructor
    · rw [readChain, hchain, ok_bind, hparts]
      exact congrArg Except.ok (flatten_chunks (by decide) payload)
    · refine ⟨links.map Prod.fst, f₁, htaken, hg, ?_⟩
      rw [chainBlocks, hchain]
      rfl
  · have hends : Ends (walkTurn crc blockCount blocks) (Walk.start head) _ :=
      walk_ends List.nodup_nil (fun p hp => absurd hp List.not_mem_nil)
        (Nat.lt_succ_self blockCount)
    have hsame : ((Walk.start head).seen ++ ·) <$> walkChain crc blockCount
        (fun p => (blocks p).1) (blockCount + 1) [] head =
          chainAt crc blockCount (fun p => (blocks p).1) head := by
      rw [chainAt]
      cases walkChain crc blockCount (fun p => (blocks p).1) (blockCount + 1) [] head <;> rfl
    refine ⟨_, hends, congrArg Checked.ofExcept hsame, Checked.calm_ofExcept _, fun htwice => ?_⟩
    change ∃ e, Checked.ofExcept (((Walk.start head).seen ++ ·) <$> walkChain crc blockCount
        (fun p => (blocks p).1) (blockCount + 1) [] head) = _
    rw [hsame]
    cases hchain : chainAt crc blockCount (fun p => (blocks p).1) head with
    | error e => exact ⟨e, rfl⟩
    | ok links => exact absurd hchain (walkChain_not_ok htwice links)

/-- Blocks that all point at the first. -/
def loopBlocks : Blocks := fun _ => ⟨encodeLink (fun _ => 0) 1 [], by
  simp [encodeLink, chainCapacity, blockSize, blockHeader]⟩

theorem nextPtr_loopBlocks (ptr : BlockPtr) : nextPtr loopBlocks ptr = 1 := by
  change fromLe ((encodeLink (fun _ => 0) 1 []).take 8) = 1
  rw [encodeLink, List.take_left' (length_leBytes 8 1)]
  rfl

theorem visitsTwice_loopBlocks : VisitsTwice loopBlocks 1 := by
  have hhop : ∀ n, hop loopBlocks 1 n = 1 := by
    intro n
    cases n with
    | zero => rfl
    | succ n => rw [hop, Function.iterate_succ_apply', nextPtr_loopBlocks]
  refine ⟨0, 1, Nat.one_pos, (hhop 0).trans (hhop 1).symm, fun k _ hnull => ?_⟩
  exact Nat.one_ne_zero ((hhop k).symm.trans hnull)

/-- Three bytes written to a new file, and a walk from a block that points at itself. -/
theorem chain_walks_loop : ∃ r, Ends (walkTurn (fun _ => 0) 1 loopBlocks) (Walk.start 1) r ∧
    ∃ e, r = .error (.refused e) := by
  have hwrite : (writeChain (fun _ => 0) [1, 2, 3]).exec (create "db") =
      (.ok 1, ((writeChain (fun _ => 0) [1, 2, 3]).exec (create "db")).2) := rfl
  obtain ⟨-, r, hends, -, -, htwice⟩ :=
    chain_walks (freeSound_create "db") hwrite (by decide) 1 loopBlocks 1
  exact ⟨r, hends, htwice visitsTwice_loopBlocks⟩

end Zu.File
