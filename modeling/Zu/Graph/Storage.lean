import Zu.Graph.Store

/-!
# Copying and freeing the storage of a graph

`copy_graph_storage` gives every table of a list a copy in blocks of its own, and
`free_graph_storage` hands the blocks of a graph's tables back. The copy is block
for block: a block is read whole and written into a fresh one, and a directory is
written again because it names the blocks its segments live in.
-/

namespace Zu.Graph

open Lib

inductive ElementKind
  | node
  | edge
  deriving DecidableEq, Repr

def tombstoneKey : ℕ := 2 ^ 31

/-- The reserved key a node table's deleted rows live under: `id | TOMBSTONE_KEY`. -/
def tombstonesOf (id : ℕ) : ℕ := id ||| tombstoneKey

/-! ### Decoding -/

def decodeProps : Option Payload → Except ZuError (PropsDirectory BlockPtr)
  | some (.props directory) => .ok directory
  | _ => .error (.corrupt "props directory" "truncated header")

def decodeDirectory : Option Payload → Except ZuError (Directory BlockPtr BlockPtr)
  | some (.directory directory) => .ok directory
  | _ => .error (.corrupt "group directory" "truncated header")

/-- `TableIndex::decode`. -/
def decodeIndex : Option Payload → Except ZuError (Entries BlockPtr)
  | some (.index entries) => .ok entries
  | _ => .error (.corrupt "table index" "truncated header")

/-- `Stats::decode`, where what is no statistics counts as none. -/
def decodeStats : Option Payload → Stats
  | some (.stats stats) => stats
  | _ => {}

section

variable (more : Payload → ℕ)

def readProps (root : BlockPtr) (s : Store) : Except ZuError (PropsDirectory BlockPtr) := do
  let payload ← readChain more root s
  decodeProps payload

def readDirectory (root : BlockPtr) (s : Store) :
    Except ZuError (Directory BlockPtr BlockPtr) := do
  let payload ← readChain more root s
  decodeDirectory payload

/-- `TableIndex::load`. -/
def loadIndex (s : Store) : Except ZuError (Entries BlockPtr) := do
  if s.tableIndexRoot = nullBlock then return []
  let payload ← readChain more s.tableIndexRoot s
  decodeIndex payload

def loadStats (s : Store) : Except ZuError Stats := do
  let payload ← readChain more s.statsRoot s
  return decodeStats payload

end

/-! ### Copying -/

/-- The blocks a copy has already made, by the block each is a copy of. -/
abbrev Done := List (BlockPtr × BlockPtr)

def copyBlock (done : Done) (ptr : BlockPtr) : StoreM (BlockPtr × Done) := do
  match done.lookup ptr with
  | some copy => return (copy, done)
  | none =>
      let data ← reads (readBlock ptr)
      let copy ← allocateBlock
      writeBlock copy data
      return (copy, (ptr, copy) :: done)

/-- Copies the members of a list, each past the blocks already made. -/
def copyEach {α : Type} (copy : Done → α → StoreM (α × Done)) :
    Done → List α → StoreM (List α × Done)
  | done, [] => pure ([], done)
  | done, a :: as => do
      let (b, done) ← copy done a
      let (bs, done) ← copyEach copy done as
      return (b :: bs, done)

/-- Copies a part that may be absent. -/
def copyOption {α : Type} (copy : Done → α → StoreM (α × Done)) (done : Done) :
    Option α → StoreM (Option α × Done)
  | none => pure (none, done)
  | some a => do
      let (b, done) ← copy done a
      return (some b, done)

def copySegment (done : Done) (m : SegmentMeta BlockPtr) :
    StoreM (SegmentMeta BlockPtr × Done) := do
  let (blocks, done) ← copyEach copyBlock done m.blocks
  return ({ m with blocks }, done)

/-- What `copy_props` does to a column: its values and its validity. -/
def copyColumn (done : Done) (c : PropColumn BlockPtr) :
    StoreM (PropColumn BlockPtr × Done) := do
  let (colMeta, done) ← copySegment done c.colMeta
  let (validity, done) ← copyOption copySegment done c.validity
  return ({ c with colMeta, validity }, done)

/-- What `copy_directory` does to the key index. -/
def copyKeys (done : Done) (k : KeyIndex BlockPtr) : StoreM (KeyIndex BlockPtr × Done) := do
  let (keys, done) ← copySegment done k.keys
  let (rows, done) ← copySegment done k.rows
  return ({ keys, rows }, done)

/-- What `copy_directory` does to a direction of a group. -/
def copyDirection (done : Done) (m : DirectionMeta BlockPtr) :
    StoreM (DirectionMeta BlockPtr × Done) := do
  let (offsets, done) ← copySegment done m.offsets
  let (neighbors, done) ← copySegment done m.neighbors
  return ({ offsets, neighbors }, done)

/-- What `copy_directory` does to a group. -/
def copyGroup (done : Done) (g : GroupMeta BlockPtr) : StoreM (GroupMeta BlockPtr × Done) := do
  let (fwd, done) ← copyDirection done g.fwd
  let (bwd, done) ← copyDirection done g.bwd
  return ({ g with fwd, bwd }, done)

section

variable (more : Payload → ℕ)

def copyProps (root : BlockPtr) : StoreM BlockPtr := do
  let directory ← reads (readProps more root)
  let (labels, done) ← copyOption copySegment [] directory.labels
  let (columns, _) ← copyEach copyColumn done directory.columns
  writeChain more (.props { directory with labels, columns })

/-- The edge properties of a group directory, copied where there are any. -/
def copyEdgeProps (root : BlockPtr) : StoreM BlockPtr :=
  if root = nullBlock then pure root else copyProps more root

def copyDirectory (root : BlockPtr) : StoreM BlockPtr := do
  let directory ← reads (readDirectory more root)
  let props ← copyEdgeProps more directory.props
  let (keys, done) ← copyOption copyKeys [] directory.keys
  let (groups, _) ← copyEach copyGroup done directory.groups
  writeChain more (.directory { directory with props, keys, groups })

/-- `write_chain` of a payload that was read, which may be no bytes at all. -/
def writeRead : Option Payload → StoreM BlockPtr
  | none => pure nullBlock
  | some payload => writeChain more payload

def copyChain (root : BlockPtr) : StoreM BlockPtr := do
  let payload ← reads (readChain more root)
  writeRead more payload

/-- The storage a table's id names, copied. -/
def copyRoot (index : Entries BlockPtr) (source copy : ℕ) (kind : ElementKind) :
    StoreM (Entries BlockPtr) := do
  match index.get source with
  | none => return index
  | some root =>
      let copied ← match kind with
        | .node => copyProps more root
        | .edge => copyDirectory more root
      return index.set copy copied

/-- The deleted rows of a node table, copied. -/
def copyTombstones (index : Entries BlockPtr) (source copy : ℕ) (kind : ElementKind) :
    StoreM (Entries BlockPtr) := do
  match kind, index.get (tombstonesOf source) with
  | .node, some root =>
      let copied ← copyChain more root
      return index.set (tombstonesOf copy) copied
  | _, _ => return index

/-- A value kept for the source, kept for the copy too. -/
def cloneEntry {α : Type} (source copy : ℕ) (entries : Entries α) : Entries α :=
  match entries.get source with
  | some a => entries.set copy a
  | none => entries

def Stats.clone (source copy : ℕ) (stats : Stats) : Stats :=
  { rels := cloneEntry source copy stats.rels, cols := cloneEntry source copy stats.cols }

/-- A table `copy_graph_storage` copies: its id, the id of its copy, and its kind. -/
structure CopyOf where
  source : ℕ
  copy : ℕ
  kind : ElementKind
  deriving DecidableEq, Repr

/-- One turn of the loop of `copy_graph_storage`. -/
def copyTable (index : Entries BlockPtr) (stats : Stats) (t : CopyOf) :
    StoreM (Entries BlockPtr × Stats) := do
  let index ← copyRoot more index t.source t.copy t.kind
  let index ← copyTombstones more index t.source t.copy t.kind
  return (index, stats.clone t.source t.copy)

/-- The loop of `copy_graph_storage`. -/
def copyTables : Entries BlockPtr → Stats → List CopyOf → StoreM (Entries BlockPtr × Stats)
  | index, stats, [] => pure (index, stats)
  | index, stats, t :: tables => do
      let (index, stats) ← copyTable more index stats t
      copyTables index stats tables

/-- The index and the statistics go into chains of their own, and the ones they
replace are freed. -/
def stageIndex (index : Entries BlockPtr) (stats : Stats) : StoreM Unit := do
  let s ← get
  freeChain s.tableIndexRoot
  freeChain s.statsRoot
  let indexRoot ← writeChain more (.index index)
  modify fun s => { s with tableIndexRoot := indexRoot }
  let statsRoot ← writeChain more (.stats stats)
  modify fun s => { s with statsRoot }

def copyGraphStorage (tables : List CopyOf) : StoreM Unit := do
  let index ← reads (loadIndex more)
  let stats ← reads (loadStats more)
  let (index, stats) ← copyTables more index stats tables
  stageIndex more index stats

end

/-! ### Freeing -/

/-- `Sweep`: the blocks a free is about to hand back, and the ones something it is
keeping still reads. -/
structure Sweep where
  dropped : List BlockPtr := []
  kept : List BlockPtr := []

def Sweep.dropAll (going : Sweep) (segs : List (SegmentMeta BlockPtr)) : Sweep :=
  { going with dropped := going.dropped ++ blocksOf segs }

def Sweep.keepAll (going : Sweep) (segs : List (SegmentMeta BlockPtr)) : Sweep :=
  { going with kept := going.kept ++ blocksOf segs }

/-- The difference of two ordered sets of blocks, in order. -/
def difference (dropped kept : List BlockPtr) : List BlockPtr :=
  (dropped.filter (· ∉ kept)).dedup.insertionSort (· ≤ ·)

def Sweep.sweep (going : Sweep) : StoreM Unit :=
  freeBlocks (difference going.dropped going.kept)

/-- Sweeps the columns, each dropped unless `keepCols` says it is kept. -/
def Sweep.columns (keepCols : List Bool) (going : Sweep) :
    ℕ → List (PropColumn BlockPtr) → Sweep
  | _, [] => going
  | i, c :: columns =>
      if keepCols[i]? = some true then (going.keepAll c.segments).columns keepCols (i + 1) columns
      else (going.dropAll c.segments).columns keepCols (i + 1) columns

def Sweep.groups (neighbors : Bool) (going : Sweep) : List (GroupMeta BlockPtr) → Sweep
  | [] => going
  | g :: groups =>
      let offsets := going.dropAll [g.fwd.offsets, g.bwd.offsets]
      let lists := [g.fwd.neighbors, g.bwd.neighbors]
      if neighbors then (offsets.keepAll lists).groups neighbors groups
      else (offsets.dropAll lists).groups neighbors groups

section

variable (more : Payload → ℕ)

def freePropsParts (root : BlockPtr) (labels : Bool) (keepCols : List Bool) : StoreM Unit := do
  let directory ← reads (readProps more root)
  let going : Sweep := {}
  let going := if labels then going.dropAll directory.labels.toList
    else going.keepAll directory.labels.toList
  let going := going.columns keepCols 0 directory.columns
  going.sweep
  let ptrs ← reads (chainBlocks root)
  freeBlocks ptrs

def freeProps (root : BlockPtr) : StoreM Unit := freePropsParts more root true []

/-- The edge properties of a group directory, freed where there are any and `props`
says so. -/
def freeEdgeProps (root : BlockPtr) (props : Bool) : StoreM Unit :=
  if props ∧ root ≠ nullBlock then freeProps more root else pure ()

def freeDirectoryParts (root : BlockPtr) (props neighbors : Bool) : StoreM Unit := do
  let directory ← reads (readDirectory more root)
  freeEdgeProps more directory.props props
  let going : Sweep := {}
  let going := going.dropAll (directory.keys.toList.flatMap KeyIndex.segments)
  let going := going.groups neighbors directory.groups
  going.sweep
  let ptrs ← reads (chainBlocks root)
  freeBlocks ptrs

def freeDirectory (root : BlockPtr) : StoreM Unit := freeDirectoryParts more root true false

/-- The storage a table's id names, freed. -/
def freeRoot (index : Entries BlockPtr) (id : ℕ) (kind : ElementKind) :
    StoreM (Entries BlockPtr) := do
  match index.get id with
  | none => return index
  | some root =>
      match kind with
      | .node => freeProps more root
      | .edge => freeDirectory more root
      return index.remove id

/-- The deleted rows of a node table, freed. -/
def freeTombstones (index : Entries BlockPtr) (id : ℕ) (kind : ElementKind) :
    StoreM (Entries BlockPtr) := do
  match kind, index.get (tombstonesOf id) with
  | .node, some root =>
      freeChain root
      return index.remove (tombstonesOf id)
  | _, _ => return index

/-- The loop of `free_graph_storage`. -/
def freeTables : Entries BlockPtr → Stats → List (ℕ × ElementKind) →
    StoreM (Entries BlockPtr × Stats)
  | index, stats, [] => pure (index, stats)
  | index, stats, (id, kind) :: tables => do
      let index ← freeRoot more index id kind
      let index ← freeTombstones index id kind
      freeTables index
        { rels := stats.rels.remove id, cols := stats.cols.remove id } tables

/-- `free_graph_storage`, of the graph that has these tables. -/
def freeGraphStorage (tables : List (ℕ × ElementKind)) : StoreM Unit := do
  let index ← reads (loadIndex more)
  let stats ← reads (loadStats more)
  let (index, stats) ← freeTables more index stats tables
  stageIndex more index stats

end

/-! ### Reading -/

/-- What a reader finds in a block. -/
abbrev Contents := Except ZuError Block

/-- What a reader finds in the storage of a table. -/
inductive Storage
  | node (props : PropsDirectory Contents)
  | edge (directory : Directory Contents (Option (PropsDirectory Contents)))

/-- What a reader finds of a table: its storage, its deleted rows, its statistics. -/
structure Found where
  storage : Option Storage
  tombstones : Option (Option Payload)
  rels : Option Bytes
  cols : Option Bytes

section

variable (more : Payload → ℕ)

/-- A property directory with the contents of its segments. -/
def findProps (root : BlockPtr) (s : Store) : Except ZuError (PropsDirectory Contents) := do
  let directory ← readProps more root s
  return directory.map fun ptr => readBlock ptr s

/-- The edge properties of a group directory. -/
def findEdgeProps (root : BlockPtr) (s : Store) :
    Except ZuError (Option (PropsDirectory Contents)) :=
  if root = nullBlock then .ok none
  else do
    let props ← findProps more root s
    return some props

/-- A group directory with the contents of its segments. -/
def findDirectory (root : BlockPtr) (s : Store) :
    Except ZuError (Directory Contents (Option (PropsDirectory Contents))) := do
  let directory ← readDirectory more root s
  let props ← findEdgeProps more directory.props s
  return directory.map (fun ptr => readBlock ptr s) props

def findRoot (kind : ElementKind) (root : BlockPtr) (s : Store) : Except ZuError Storage :=
  match kind with
  | .node => do
      let props ← findProps more root s
      return .node props
  | .edge => do
      let directory ← findDirectory more root s
      return .edge directory

/-- Runs a reader where there is something to read. -/
def readOption {α : Type} (read : BlockPtr → Store → Except ZuError α) (root : Option BlockPtr)
    (s : Store) : Except ZuError (Option α) :=
  match root with
  | none => .ok none
  | some root => do
      let a ← read root s
      return some a

/-- Where the deleted rows of a table are. -/
def tombstonesRoot (index : Entries BlockPtr) (id : ℕ) : ElementKind → Option BlockPtr
  | .node => index.get (tombstonesOf id)
  | .edge => none

/-- What a reader finds of a table under an index and statistics. -/
def findTable (index : Entries BlockPtr) (stats : Stats) (t : ℕ × ElementKind) (s : Store) :
    Except ZuError Found := do
  let storage ← readOption (findRoot more t.2) (index.get t.1) s
  let tombstones ← readOption (readChain more) (tombstonesRoot index t.1 t.2) s
  return { storage, tombstones, rels := stats.rels.get t.1, cols := stats.cols.get t.1 }

def readTable (t : ℕ × ElementKind) (s : Store) : Except ZuError Found := do
  let index ← loadIndex more s
  let stats ← loadStats more s
  findTable more index stats t s

/-! ### The blocks of a table -/

/-- The blocks of a property directory: its segments' and its chain's. -/
def propsBlocks (root : BlockPtr) (s : Store) : Except ZuError (List BlockPtr) := do
  let directory ← readProps more root s
  let ptrs ← chainBlocks root s
  return difference (blocksOf directory.segments) [] ++ ptrs

/-- The blocks of the edge properties of a group directory. -/
def edgePropsBlocks (root : BlockPtr) (s : Store) : Except ZuError (List BlockPtr) :=
  if root = nullBlock then .ok [] else propsBlocks more root s

def directoryBlocks (root : BlockPtr) (s : Store) : Except ZuError (List BlockPtr) := do
  let directory ← readDirectory more root s
  let props ← edgePropsBlocks more directory.props s
  let ptrs ← chainBlocks root s
  return props ++ (difference (blocksOf directory.segments) [] ++ ptrs)

def rootBlocks (kind : ElementKind) (root : BlockPtr) (s : Store) :
    Except ZuError (List BlockPtr) :=
  match kind with
  | .node => propsBlocks more root s
  | .edge => directoryBlocks more root s

/-- The blocks of a part that may be absent. -/
def optionBlocks (held : BlockPtr → Store → Except ZuError (List BlockPtr))
    (root : Option BlockPtr) (s : Store) : Except ZuError (List BlockPtr) :=
  match root with
  | none => .ok []
  | some root => held root s

def tableBlocks (index : Entries BlockPtr) (t : ℕ × ElementKind) (s : Store) :
    Except ZuError (List BlockPtr) := do
  let storage ← optionBlocks (rootBlocks more t.2) (index.get t.1) s
  let tombstones ← optionBlocks chainBlocks (tombstonesRoot index t.1 t.2) s
  return storage ++ tombstones

def tablesBlocks (index : Entries BlockPtr) : List (ℕ × ElementKind) → Store →
    Except ZuError (List BlockPtr)
  | [], _ => .ok []
  | t :: tables, s => do
      let blocks ← tableBlocks more index t s
      let rest ← tablesBlocks index tables s
      return blocks ++ rest

def ownedBlocks (tables : List (ℕ × ElementKind)) (s : Store) :
    Except ZuError (List BlockPtr) := do
  let index ← loadIndex more s
  tablesBlocks more index tables s

/-- The blocks of the zone planes of a property directory. -/
def propsZones (root : BlockPtr) (s : Store) : Except ZuError (List BlockPtr) := do
  let directory ← readProps more root s
  return blocksOf directory.zonePlanes

/-- The blocks of the zone planes of the edge properties of a group directory. -/
def edgePropsZones (root : BlockPtr) (s : Store) : Except ZuError (List BlockPtr) :=
  if root = nullBlock then .ok [] else propsZones more root s

def rootZones (kind : ElementKind) (root : BlockPtr) (s : Store) :
    Except ZuError (List BlockPtr) :=
  match kind with
  | .node => propsZones more root s
  | .edge => do
      let directory ← readDirectory more root s
      edgePropsZones more directory.props s

def tablesZones (index : Entries BlockPtr) : List (ℕ × ElementKind) → Store →
    Except ZuError (List BlockPtr)
  | [], _ => .ok []
  | t :: tables, s => do
      let zones ← optionBlocks (rootZones more t.2) (index.get t.1) s
      let rest ← tablesZones index tables s
      return zones ++ rest

def zoneBlocks (tables : List (ℕ × ElementKind)) (s : Store) :
    Except ZuError (List BlockPtr) := do
  let index ← loadIndex more s
  tablesZones more index tables s

end

end Zu.Graph
