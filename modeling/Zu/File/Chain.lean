import Zu.File.Disk

/-!
# Meta-block chains

A payload too long for one block is written as a chain: each block says where the
next one is, how many bytes of the payload it carries, and their checksum. The
list of free blocks is such a payload.
-/

namespace Zu.File

open Lib

def blockHeader : ℕ := 16

/-- `CHAIN_CAPACITY`: payload bytes one chain block can carry. -/
def chainCapacity : ℕ := blockSize - blockHeader

def chunksFrom (n : ℕ) : ℕ → Bytes → List Bytes
  | 0, _ => []
  | fuel + 1, bs => if bs = [] then [] else bs.take n :: chunksFrom n fuel (bs.drop n)

attribute [grind =] chunksFrom

/-- `chunks`: parts of `n` bytes, the last one shorter. -/
def chunks (n : ℕ) (bs : Bytes) : List Bytes := chunksFrom n bs.length bs

def checkPtr (blockCount : ℕ) (ptr : BlockPtr) : Except ZuError Unit :=
  if ptr = nullBlock ∨ blockCount < ptr then
    .error (.corrupt "block pointer" s!"{ptr} out of range 1..={blockCount}")
  else .ok ()

section

variable (crc : Bytes → UInt32)

def encodeLink (next : BlockPtr) (part : Bytes) : Bytes :=
  leBytes 8 next ++ (leBytes 4 part.length ++ (leBytes 4 (crc part).toNat ++
    (part ++ zeros (chainCapacity - part.length))))

/-- Reads the block at `ptr` as one of a chain: where the next one is, and what
this one carries. -/
def decodeLink (ptr : BlockPtr) (block : Bytes) : Except ZuError (BlockPtr × Bytes) :=
  let next := fromLe (block.take 8)
  let len := fromLe ((block.drop 8).take 4)
  let stored := fromLe ((block.drop 12).take 4)
  if chainCapacity < len then
    .error (.corrupt "meta chain" s!"block {ptr} claims {len} payload bytes")
  else
    let part := (block.drop blockHeader).take len
    if (crc part).toNat ≠ stored then
      .error (.corrupt "meta chain" s!"crc mismatch in block {ptr}")
    else .ok (next, part)

/-- `walk_chain`: the blocks of a chain and what each carries. A chain in range
that meets no block twice has at most as many blocks as the file. -/
def walkChain (blockCount : ℕ) (blocks : BlockPtr → Bytes) :
    ℕ → List BlockPtr → BlockPtr → Except ZuError (List (BlockPtr × Bytes))
  | fuel, visited, ptr =>
      if ptr = nullBlock then .ok []
      else if ptr ∈ visited then
        .error (.corrupt "meta chain" s!"cycle detected at block {ptr}")
      else
        match fuel with
        | 0 => .error (.corrupt "meta chain" s!"cycle detected at block {ptr}")
        | fuel + 1 => do
            checkPtr blockCount ptr
            let (next, part) ← decodeLink crc ptr (blocks ptr)
            let rest ← walkChain blockCount blocks fuel (ptr :: visited) next
            return (ptr, part) :: rest

def chainAt (blockCount : ℕ) (blocks : BlockPtr → Bytes) (head : BlockPtr) :
    Except ZuError (List (BlockPtr × Bytes)) :=
  walkChain crc blockCount blocks (blockCount + 1) [] head

/-- `read_chain`: the payload of a chain. -/
def readChain (blockCount : ℕ) (blocks : BlockPtr → Bytes) (head : BlockPtr) :
    Except ZuError Bytes := do
  let links ← chainAt crc blockCount blocks head
  return (links.map Prod.snd).flatten

/-- `chain_blocks`: the blocks a chain occupies. -/
def chainBlocks (blockCount : ℕ) (blocks : BlockPtr → Bytes) (head : BlockPtr) :
    Except ZuError (List BlockPtr) := do
  let links ← chainAt crc blockCount blocks head
  return links.map Prod.fst

end

def encodeFreeList (ptrs : List BlockPtr) : Bytes := ptrs.flatMap (leBytes 8)

def decodeFreeList (bytes : Bytes) (blockCount : ℕ) : Except ZuError (List BlockPtr) := do
  if bytes.length % 8 ≠ 0 then
    throw (.corrupt "free list" s!"payload of {bytes.length} bytes is ragged")
  let ptrs ← (chunks 8 bytes).mapM fun chunk =>
    let ptr := fromLe chunk
    if ptr = nullBlock ∨ blockCount < ptr then
      throw (.corrupt "free list" s!"block {ptr} out of range 1..={blockCount}")
    else pure ptr
  if ¬ ptrs.Nodup then throw (.corrupt "free list" "duplicate block")
  return ptrs

/-! ### Reading back what was written -/

/-- A block the file has. -/
def InRange (blockCount : ℕ) (ptr : BlockPtr) : Prop := 0 < ptr ∧ ptr ≤ blockCount

theorem InRange.not_out {blockCount : ℕ} {ptr : BlockPtr} (h : InRange blockCount ptr) :
    ¬ (ptr = nullBlock ∨ blockCount < ptr) := by
  rintro (hnull | hout)
  · exact h.1.ne' hnull
  · exact absurd h.2 (not_le.2 hout)

theorem InRange.mono {m n : ℕ} {ptr : BlockPtr} (h : InRange m ptr) (hle : m ≤ n) :
    InRange n ptr := ⟨h.1, h.2.trans hle⟩

theorem checkPtr_ok {blockCount : ℕ} {ptr : BlockPtr} (h : InRange blockCount ptr) :
    checkPtr blockCount ptr = .ok () := if_neg h.not_out

theorem flatten_chunksFrom {n : ℕ} (hn : 0 < n) (fuel : ℕ) {bs : Bytes}
    (hfuel : bs.length ≤ fuel) : (chunksFrom n fuel bs).flatten = bs := by
  induction fuel generalizing bs with
  | zero => rw [List.length_eq_zero_iff.1 (Nat.le_zero.1 hfuel)]; rfl
  | succ fuel ih =>
      rw [chunksFrom]
      split_ifs with hnil
      · rw [hnil]; rfl
      · have hpos := List.length_pos_iff.2 hnil
        rw [List.flatten_cons, ih (by rw [List.length_drop]; omega), List.take_append_drop]

@[simp] theorem flatten_chunks {n : ℕ} (hn : 0 < n) (bs : Bytes) :
    (chunks n bs).flatten = bs := flatten_chunksFrom hn _ le_rfl

theorem length_le_of_mem_chunksFrom {n fuel : ℕ} {bs part : Bytes}
    (h : part ∈ chunksFrom n fuel bs) : part.length ≤ n := by
  induction fuel generalizing bs with
  | zero => cases h
  | succ fuel ih =>
      rw [chunksFrom] at h
      split_ifs at h
      · cases h
      · rcases List.mem_cons.1 h with rfl | h
        · rw [List.length_take]
          exact Nat.min_le_left _ _
        · exact ih h

theorem mul_length_chunksFrom_lt {n : ℕ} (hn : 0 < n) (fuel : ℕ) (bs : Bytes) :
    n * (chunksFrom n fuel bs).length < bs.length + n := by
  induction fuel generalizing bs with
  | zero => exact Nat.lt_of_lt_of_le hn (Nat.le_add_left _ _)
  | succ fuel ih =>
      rw [chunksFrom]
      split_ifs with hnil
      · exact Nat.lt_of_lt_of_le hn (Nat.le_add_left _ _)
      · have hpos := List.length_pos_iff.2 hnil
        have hrest := ih (bs.drop n)
        rw [List.length_drop] at hrest
        rw [List.length_cons, Nat.mul_succ]
        rcases Nat.lt_or_ge bs.length n with hlt | hge
        · have hzero : n * (chunksFrom n fuel (bs.drop n)).length = 0 := by
            rw [List.drop_eq_nil_of_le hlt.le]
            cases fuel <;> simp [chunksFrom]
          omega
        · omega

theorem chunks_ne_nil {n : ℕ} {bs : Bytes} (h : bs ≠ []) : chunks n bs ≠ [] := by
  cases bs with
  | nil => exact absurd rfl h
  | cons b bs => simp [chunks, chunksFrom]

theorem chunksFrom_flatMap {n : ℕ} (hn : 0 < n) {parts : List Bytes}
    (h : ∀ p ∈ parts, p.length = n) {fuel : ℕ} (hfuel : parts.length ≤ fuel) :
    chunksFrom n fuel parts.flatten = parts := by
  induction parts generalizing fuel with
  | nil => cases fuel <;> simp [chunksFrom]
  | cons p parts ih =>
      cases fuel with
      | zero => simp at hfuel
      | succ fuel =>
          have hp := h p List.mem_cons_self
          have hne : p ++ parts.flatten ≠ [] := by
            intro hnil
            rw [(List.append_eq_nil_iff.1 hnil).1] at hp
            exact hn.ne hp
          rw [List.flatten_cons, chunksFrom, if_neg hne, List.take_left' hp, List.drop_left' hp,
            ih (fun q hq => h q (List.mem_cons_of_mem p hq)) (Nat.le_of_succ_le_succ hfuel)]

@[simp] theorem length_encodeFreeList (ptrs : List BlockPtr) :
    (encodeFreeList ptrs).length = 8 * ptrs.length := by
  rw [encodeFreeList, List.length_flatMap]
  simp [Nat.mul_comm]

/-- A list of free blocks takes no more chain blocks than it names. -/
theorem length_chunks_encodeFreeList_le (ptrs : List BlockPtr) :
    (chunks chainCapacity (encodeFreeList ptrs)).length ≤ ptrs.length := by
  have hlt := mul_length_chunksFrom_lt (show 0 < chainCapacity by decide)
    (encodeFreeList ptrs).length (encodeFreeList ptrs)
  have hcap : chainCapacity = 32752 := rfl
  rw [length_encodeFreeList, hcap] at hlt
  rw [chunks, length_encodeFreeList, hcap]
  omega

/-- A list of blocks in range with none twice is read back from its payload. -/
theorem decodeFreeList_encodeFreeList {ptrs : List BlockPtr} {blockCount : ℕ}
    (hcount : blockCount < 2 ^ 64) (hrange : ∀ p ∈ ptrs, InRange blockCount p)
    (hnodup : ptrs.Nodup) : decodeFreeList (encodeFreeList ptrs) blockCount = .ok ptrs := by
  have hlen := length_encodeFreeList ptrs
  have hchunks : chunks 8 (encodeFreeList ptrs) = ptrs.map (leBytes 8) := by
    rw [chunks, hlen, encodeFreeList, List.flatMap_def]
    exact chunksFrom_flatMap (by decide) (by simp) (by rw [List.length_map]; omega)
  have hparse : ∀ qs : List BlockPtr, (∀ q ∈ qs, InRange blockCount q) →
      ((qs.map (leBytes 8)).mapM fun chunk =>
        let ptr := fromLe chunk
        if ptr = nullBlock ∨ blockCount < ptr then
          (throw (.corrupt "free list" s!"block {ptr} out of range 1..={blockCount}") :
            Except ZuError BlockPtr)
        else pure ptr) = .ok qs := by
    intro qs hqs
    induction qs with
    | nil => rfl
    | cons q qs ih =>
        have hrange := hqs q List.mem_cons_self
        have hq : fromLe (leBytes 8 q) = q :=
          fromLe_leBytes_of_lt (lt_of_le_of_lt hrange.2 (by simpa using hcount))
        rw [List.map_cons, List.mapM_cons]
        simp only [hq, if_neg hrange.not_out]
        rw [ih fun r hr => hqs r (List.mem_cons_of_mem q hr)]
        rfl
  rw [decodeFreeList, hchunks, hparse ptrs hrange, hlen, if_neg (by simp)]
  change (if ¬ ptrs.Nodup then _ else Except.ok ptrs) = _
  rw [if_neg (not_not.2 hnodup)]

section

variable {crc : Bytes → UInt32}

theorem decodeLink_encodeLink (ptr : BlockPtr) {next : BlockPtr} {part : Bytes}
    (hnext : next < 2 ^ 64) (hpart : part.length ≤ chainCapacity) :
    decodeLink crc ptr (encodeLink crc next part) = .ok (next, part) := by
  have hcap : chainCapacity = 32752 := rfl
  have hlen : fromLe (leBytes 4 part.length) = part.length :=
    fromLe_leBytes_of_lt (by rw [hcap] at hpart; omega)
  have hcrc : fromLe (leBytes 4 (crc part).toNat) = (crc part).toNat :=
    fromLe_leBytes_of_lt (by simpa using (crc part).toNat_lt)
  have hnext' : fromLe (leBytes 8 next) = next := fromLe_leBytes_of_lt (by simpa using hnext)
  have htake : (encodeLink crc next part).take 8 = leBytes 8 next := by simp [encodeLink]
  have hdrop8 : ((encodeLink crc next part).drop 8).take 4 = leBytes 4 part.length := by
    rw [encodeLink, List.drop_left' (length_leBytes 8 next), List.take_left' (length_leBytes 4 _)]
  have hdrop12 : ((encodeLink crc next part).drop 12).take 4 = leBytes 4 (crc part).toNat := by
    rw [encodeLink, ← List.append_assoc, List.drop_left' (by simp),
      List.take_left' (length_leBytes 4 _)]
  have hdrop16 : ((encodeLink crc next part).drop blockHeader).take part.length = part := by
    rw [encodeLink, ← List.append_assoc, ← List.append_assoc,
      List.drop_left' (by simp [blockHeader]), List.take_left' rfl]
  rw [decodeLink]
  simp only [htake, hdrop8, hdrop12, hlen, hcrc, hnext', hdrop16, if_neg (not_lt.2 hpart)]
  rw [if_neg (fun h => h rfl)]

/-- The blocks of a chain that carry what `links` says, one after another. -/
def Linked (crc : Bytes → UInt32) (blocks : BlockPtr → Bytes) :
    List (BlockPtr × Bytes) → Prop
  | [] => True
  | (ptr, part) :: rest =>
      blocks ptr = encodeLink crc (rest.head?.elim nullBlock Prod.fst) part ∧
        Linked crc blocks rest

theorem Linked.congr {blocks blocks' : BlockPtr → Bytes} {links : List (BlockPtr × Bytes)}
    (h : Linked crc blocks links)
    (hsame : ∀ p ∈ links.map Prod.fst, blocks' p = blocks p) :
    Linked crc blocks' links := by
  induction links with
  | nil => trivial
  | cons link rest ih =>
      refine ⟨(hsame _ (by simp)).trans h.1, ih h.2 fun p hp => hsame p ?_⟩
      exact List.mem_cons_of_mem _ hp

theorem walkChain_linked {blockCount : ℕ} (hcount : blockCount < 2 ^ 64)
    {blocks : BlockPtr → Bytes} {links : List (BlockPtr × Bytes)}
    (h : Linked crc blocks links)
    (hrange : ∀ l ∈ links, InRange blockCount l.1)
    (hpart : ∀ l ∈ links, l.2.length ≤ chainCapacity)
    {fuel : ℕ} (hfuel : links.length ≤ fuel) {visited : List BlockPtr}
    (hnodup : (visited ++ links.map Prod.fst).Nodup) :
    walkChain crc blockCount blocks fuel visited (links.head?.elim nullBlock Prod.fst) =
      .ok links := by
  induction links generalizing fuel visited with
  | nil => rw [walkChain.eq_def]; rfl
  | cons link rest ih =>
      obtain ⟨ptr, part⟩ := link
      have hptr : InRange blockCount ptr := hrange (ptr, part) List.mem_cons_self
      have hnull : ptr ≠ nullBlock := hptr.1.ne'
      cases fuel with
      | zero => simp at hfuel
      | succ fuel =>
          have hnew : ptr ∉ visited := fun hmem =>
            (List.nodup_append.1 hnodup).2.2 ptr hmem ptr (by simp) rfl
          have hnext : rest.head?.elim nullBlock Prod.fst < 2 ^ 64 := by
            cases rest with
            | nil => exact Nat.two_pow_pos 64
            | cons l rest =>
                exact lt_of_le_of_lt (hrange l (by simp)).2 hcount
          have hvisited : (ptr :: visited ++ rest.map Prod.fst).Nodup := by
            rw [List.map_cons] at hnodup
            exact List.perm_middle.nodup_iff.1 hnodup
          have hrest := ih h.2 (fun l hl => hrange l (List.mem_cons_of_mem _ hl))
            (fun l hl => hpart l (List.mem_cons_of_mem _ hl)) (Nat.le_of_succ_le_succ hfuel)
            hvisited
          change walkChain crc blockCount blocks (fuel + 1) visited ptr = _
          rw [walkChain, if_neg hnull, if_neg hnew]
          simp only [checkPtr_ok hptr, h.1,
            decodeLink_encodeLink ptr hnext (hpart _ List.mem_cons_self), ok_bind, hrest]
          rfl

end

end Zu.File
