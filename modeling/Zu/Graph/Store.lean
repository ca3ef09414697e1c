import Zu.Graph.Directory

/-!
# Blocks and the chains in them

The part of a file that storing, copying and freeing a graph works on. A block
holds a segment's bytes or one link of a meta chain. What a chain carries is given
as the value its bytes encode: a link is the part of that value with a given
number, and `more` says how many links a value takes past the first. Caches,
packing scopes and faults of the disk are left out.
-/

namespace Zu.Graph

open Lib

/-! ### Tables by id -/

/-- Values by table id, each id at most once. -/
abbrev Entries (α : Type) := List (ℕ × α)

namespace Entries

variable {α : Type}

def get (entries : Entries α) (id : ℕ) : Option α :=
  (entries.find? fun e => e.1 == id).map Prod.snd

/-- `TableIndex::set`: in place where the id is there, and last where it is not. -/
def set (id : ℕ) (a : α) : Entries α → Entries α
  | [] => [(id, a)]
  | e :: entries => if e.1 = id then (id, a) :: entries else e :: set id a entries

def remove (id : ℕ) (entries : Entries α) : Entries α := entries.filter fun e => e.1 ≠ id

@[simp] theorem get_set_self (id : ℕ) (a : α) (entries : Entries α) :
    (entries.set id a).get id = some a := by
  induction entries with
  | nil => simp [set, get]
  | cons e entries ih =>
      rw [set]
      split_ifs with he
      · simp [get]
      · rw [get] at ih
        simp [get, he, ih]

theorem get_set_of_ne {id id' : ℕ} (h : id' ≠ id) (a : α) (entries : Entries α) :
    (entries.set id a).get id' = entries.get id' := by
  induction entries with
  | nil => simp [set, get, h.symm]
  | cons e entries ih =>
      rw [get, get] at ih
      rw [set]
      split_ifs with he
      · simp [get, he, h.symm]
      · simp only [get, List.find?_cons]
        split
        · rfl
        · exact ih

theorem get_remove_of_ne {id id' : ℕ} (h : id' ≠ id) (entries : Entries α) :
    (entries.remove id).get id' = entries.get id' := by
  induction entries with
  | nil => rfl
  | cons e entries ih =>
      rw [get, get] at ih
      by_cases he : e.1 = id
      · have hne : (e.1 == id') = false := by simpa [he] using h.symm
        simpa [remove, get, List.filter_cons, he, List.find?_cons, hne, h.symm] using ih
      · simp only [remove, get, List.filter_cons, he, ne_eq, not_false_eq_true, decide_true,
          if_true, List.find?_cons]
        split
        · rfl
        · exact ih

end Entries

/-- `Stats`: the statistics of the rel tables and of the columns, each as encoded. -/
@[ext] structure Stats where
  rels : Entries Bytes := []
  cols : Entries Bytes := []
  deriving DecidableEq

/-- What a chain carries. -/
inductive Payload
  | props (directory : PropsDirectory BlockPtr)
  | directory (directory : Directory BlockPtr BlockPtr)
  | tombstones (rows : List ℕ)
  | index (entries : Entries BlockPtr)
  | stats (stats : Stats)
  deriving DecidableEq

/-- What a block holds. -/
inductive Block
  | segment (data : Bytes)
  | link (next : BlockPtr) (payload : Payload) (part : ℕ)
  deriving DecidableEq

/-! ### The file -/

/-- `Zu1File`, as far as storage is concerned. -/
structure Store where
  blockCount : ℕ
  /-- Free blocks, reusable at once. -/
  free : List BlockPtr
  /-- Freed since the last checkpoint. -/
  pendingFree : List BlockPtr
  tableIndexRoot : BlockPtr
  statsRoot : BlockPtr
  blocks : BlockPtr → Block

/-- A program over the file. -/
abbrev StoreM := Fallible ZuError Store

def reads {α : Type} (f : Store → Except ZuError α) : StoreM α := fun s => (f s, s)

def readBlock (ptr : BlockPtr) (s : Store) : Except ZuError Block := do
  File.checkPtr s.blockCount ptr
  return s.blocks ptr

/-- `allocate_block`: a free block when there is one, and otherwise one past the
high-water mark. -/
def allocateBlock : StoreM BlockPtr := do
  let s ← get
  match s.free.getLast? with
  | some ptr =>
      set { s with free := s.free.dropLast }
      return ptr
  | none =>
      set { s with blockCount := s.blockCount + 1 }
      return s.blockCount + 1

def writeBlock (ptr : BlockPtr) (data : Block) : StoreM Unit := do
  reads fun s => File.checkPtr s.blockCount ptr
  modify fun s => { s with blocks := Function.update s.blocks ptr data }

def freeBlock (ptr : BlockPtr) : StoreM Unit := do
  reads fun s => File.checkPtr s.blockCount ptr
  modify fun s => { s with pendingFree := s.pendingFree ++ [ptr] }

def freeBlocks : List BlockPtr → StoreM Unit
  | [] => pure ()
  | ptr :: ptrs => do
      freeBlock ptr
      freeBlocks ptrs

/-! ### Chains -/

def allocateBlocks : ℕ → StoreM (List BlockPtr)
  | 0 => pure []
  | n + 1 => do
      let ptr ← allocateBlock
      let ptrs ← allocateBlocks n
      return ptr :: ptrs

/-- Writes the links of a chain, each with the one after it as its next. -/
def writeLinks (payload : Payload) : ℕ → List BlockPtr → StoreM Unit
  | _, [] => pure ()
  | part, ptr :: ptrs => do
      writeBlock ptr (.link (ptrs.head?.getD nullBlock) payload part)
      writeLinks payload (part + 1) ptrs

/-- Reads the block at `ptr` as a link. A segment's bytes do not pass for one: they
fail the checksum. -/
def decodeLink (ptr : BlockPtr) : Block → Except ZuError (BlockPtr × Payload × ℕ)
  | .link next payload part => .ok (next, payload, part)
  | .segment _ => .error (.corrupt "meta chain" s!"crc mismatch in block {ptr}")

/-- `walk_chain`: the blocks of a chain and what each carries, where `read` reads a
block. A chain in range that meets no block twice has at most as many blocks as the
file. -/
def walkChain (read : BlockPtr → Except ZuError Block) :
    ℕ → List BlockPtr → BlockPtr → Except ZuError (List (BlockPtr × Payload × ℕ))
  | fuel, visited, ptr =>
      if ptr = nullBlock then .ok []
      else if ptr ∈ visited then
        .error (.corrupt "meta chain" s!"cycle detected at block {ptr}")
      else
        match fuel with
        | 0 => .error (.corrupt "meta chain" s!"cycle detected at block {ptr}")
        | fuel + 1 => do
            let block ← read ptr
            let (next, part) ← decodeLink ptr block
            let rest ← walkChain read fuel (ptr :: visited) next
            return (ptr, part) :: rest

def chainAt (head : BlockPtr) (s : Store) :
    Except ZuError (List (BlockPtr × Payload × ℕ)) :=
  walkChain (fun ptr => readBlock ptr s) (s.blockCount + 1) [] head

/-- `chain_blocks`: the blocks a chain occupies. -/
def chainBlocks (head : BlockPtr) (s : Store) : Except ZuError (List BlockPtr) := do
  let links ← chainAt head s
  return links.map Prod.fst

section

variable (more : Payload → ℕ)

/-- The parts of a value, which are what the links of its chain carry. -/
def partsOf (payload : Payload) : List (Payload × ℕ) :=
  (List.range (more payload + 1)).map fun part => (payload, part)

/-- `write_chain`: the value as a chain of fresh blocks, and its head. -/
def writeChain (payload : Payload) : StoreM BlockPtr := do
  let ptrs ← allocateBlocks (more payload + 1)
  writeLinks payload 0 ptrs
  return ptrs.head?.getD nullBlock

/-- The value whose parts these are; no part is no bytes at all. -/
def joinParts : List (Payload × ℕ) → Except ZuError (Option Payload)
  | [] => .ok none
  | (payload, part) :: rest =>
      if (payload, part) :: rest = partsOf more payload then .ok (some payload)
      else .error (.corrupt "meta chain" "trailing bytes")

/-- `read_chain`: what a chain carries. -/
def readChain (head : BlockPtr) (s : Store) : Except ZuError (Option Payload) := do
  let links ← chainAt head s
  joinParts more (links.map Prod.snd)

end

def freeChain (root : BlockPtr) : StoreM Unit := do
  if root = nullBlock then return
  let ptrs ← reads (chainBlocks root)
  freeBlocks ptrs

end Zu.Graph
