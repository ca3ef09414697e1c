import Zu.Schema.CatalogStmt
import Zu.Lib.Run

/-!
# What a file goes through

The catalog statements, the loads, the statements that make a table or declare a label
as they write, the fold and the reopen: each starts from the catalog read back from its
bytes, and one that fails leaves the file as it was.
-/

namespace Zu.Schema

open Lib

/-- `Catalog::load`: the catalog read back from its bytes. -/
def loadCatalog : LedgerM Unit := fun s =>
  match Catalog.decode s.catalog.encode with
  | .ok catalog => (.ok (), { s with catalog })
  | .error err => (.error err, s)

/-- `Catalog::store`, of the catalog in hand: the check that may refuse it. -/
def storeCatalog : LedgerM Unit := do check (← get).catalog.validate

/-- Fills a created graph with a copy of another one: `copy_into`. -/
def copyInto (source : Option UInt32) (target : UInt32) : LedgerM Unit := do
  match source with
  | none => return ()
  | some source =>
      let _ ← note (copyGraphTables source target)
      return ()

/-- Ends a statement: the catalog is stored. -/
def published (effect : Effect) : LedgerM Effect := do
  storeCatalog
  return effect

/-- What a statement answers when the name it creates is taken, or the one it drops is
free, and it did not say that was acceptable. -/
def refused (accepted : Bool) (detail : String) : LedgerM Effect :=
  if accepted then return .nothing else throw (.invalidArgument detail)

def createGraphType (name : String) (ifNotExists orReplace : Bool) (source : GraphTypeSource) :
    LedgerM Effect := do
  let c := (← get).catalog
  if (c.graphType name).isSome ∧ (ifNotExists ∨ ¬ orReplace) then
    refused ifNotExists s!"'{name}' is already a graph type"
  else if (c.graphType name).isSome then
    let type ← note (build name source)
    let _ ← note (dropGraphType name)
    note (addGraphType type)
    published .created
  else
    let type ← note (build name source)
    note (addGraphType type)
    published .created

def dropGraphTypeStmt (name : String) (ifExists : Bool) : LedgerM Effect := do
  if ← note (dropGraphType name) then published .dropped
  else refused ifExists s!"'{name}' is no graph type here"

def createSchema (path : String) (ifNotExists : Bool) : LedgerM Effect := do
  let c := (← get).catalog
  if c.hasSchema path then refused ifNotExists s!"'{path}' is already a schema"
  else
    note (addSchema path)
    published .created

def dropSchemaStmt (path : String) (ifExists : Bool) : LedgerM Effect := do
  let c := (← get).catalog
  if path = rootSchema then
    throw (.invalidArgument
      "the root schema is the one every file has, so it is not one to drop")
  else if ¬ c.hasSchema path then refused ifExists s!"'{path}' is no schema here"
  else
    match c.graphs.find? fun g => g.schema = path with
    | some g => throw (.invalidArgument s!"'{path}' still holds the graph '{g.name}'")
    | none =>
        let _ ← note (dropSchema path)
        published .dropped

def replaceGraph (schema name : String) (id : UInt32) (of : GraphTypeRef)
    (copyOf : Option GraphRef) (params : Params) : LedgerM Effect := do
  let type ← note (graphTypeOf name of)
  let c := (← get).catalog
  let source ← answer (c.copySource copyOf params)
  if source = some id then
    throw (.invalidArgument s!"'{name}' cannot be replaced by a copy of itself")
  else
    check (c.checkGraph schema type)
    let _ ← note (dropGraph id)
    let target ← note (addGraph name schema type)
    copyInto source target
    published .created

def createNewGraph (schema name : String) (of : GraphTypeRef) (copyOf : Option GraphRef)
    (params : Params) : LedgerM Effect := do
  let type ← note (graphTypeOf name of)
  let c := (← get).catalog
  let source ← answer (c.copySource copyOf params)
  let target ← note (addGraph name schema type)
  copyInto source target
  published .created

def createGraph (name : GraphName) (ifNotExists orReplace : Bool) (of : GraphTypeRef)
    (copyOf : Option GraphRef) (params : Params) : LedgerM Effect := do
  let c := (← get).catalog
  match c.graph name.split.1 name.split.2 with
  | some existing =>
      if ifNotExists ∨ ¬ orReplace then
        refused ifNotExists s!"'{name.split.2}' is already a graph in '{name.split.1}'"
      else replaceGraph name.split.1 name.split.2 existing.id of copyOf params
  | none => createNewGraph name.split.1 name.split.2 of copyOf params

def dropGraphStmt (name : GraphName) (ifExists : Bool) : LedgerM Effect := do
  let c := (← get).catalog
  match c.graph name.split.1 name.split.2 with
  | some g =>
      let _ ← note (dropGraph g.id)
      published .dropped
  | none => refused ifExists s!"'{name.split.2}' is no graph in '{name.split.1}'"

namespace CatalogStmt

def apply (stmt : CatalogStmt) (params : Params) : LedgerM Effect := do
  loadCatalog
  match stmt with
  | .createGraphType name ifNotExists orReplace source =>
      Schema.createGraphType name ifNotExists orReplace source
  | .dropGraphType name ifExists => dropGraphTypeStmt name ifExists
  | .createSchema path ifNotExists => Schema.createSchema path ifNotExists
  | .dropSchema path ifExists => dropSchemaStmt path ifExists
  | .createGraph name ifNotExists orReplace of copyOf =>
      Schema.createGraph name ifNotExists orReplace of copyOf params
  | .dropGraph name ifExists => dropGraphStmt name ifExists

/-- The graph a statement takes out of a catalog. -/
def takes (c : Catalog) : CatalogStmt → Option UInt32
  | .createGraph name ifNotExists orReplace _ _ =>
      if ifNotExists ∨ ¬ orReplace then none
      else (c.graph name.split.1 name.split.2).map GraphDef.id
  | .dropGraph name _ => (c.graph name.split.1 name.split.2).map GraphDef.id
  | _ => none

end CatalogStmt

/-! ### Everything that changes a catalog -/

/-- Runs an operation for each entry of a list. -/
def noteAll {α β : Type} (f : α → CatalogM β) : List α → LedgerM Unit
  | [] => return ()
  | a :: as => do
      let _ ← note (f a)
      noteAll f as

/-- `bulk_load_body`: a load makes the tables of its ends, and stores what it made
without a check. -/
def bulkLoad (fromTable : String) (fromCount : UInt64) (toTable : String) (toCount : UInt64)
    (relTable : String) (edgeCount : UInt64) (undirected : Bool) : LedgerM Unit := do
  loadCatalog
  let fromId ← note (upsertNode fromTable fromCount)
  let toId ← if toTable = fromTable then pure fromId else note (upsertNode toTable toCount)
  let _ ← note (upsertRelAs relTable fromId toId edgeCount undirected)
  return ()

/-- `declare::create`, of one node table. -/
def declareNode (graph : UInt32) (name : String) : LedgerM Unit := do
  loadCatalog
  let _ ← note (createNodeIn graph name)
  storeCatalog

/-- The id of the node table an edge table ends at. -/
def endOf (c : Catalog) (graph : UInt32) (rel fin : String) : Except ZuError UInt32 :=
  match c.nodeIn graph fin with
  | some t => .ok t.id
  | none => .error (.gql "42002"
      s!"no edge table is named '{rel}', and an edge of it would run between elements of '{fin}', which no node table is named by either")

/-- `declare::create`, of one rel table: `create_empty_rel`. -/
def declareRel (graph : UInt32) (name fromTable toTable : String) (undirected : Bool) :
    LedgerM Unit := do
  loadCatalog
  let c := (← get).catalog
  let fromId ← answer (endOf c graph name fromTable)
  let toId ← answer (endOf c graph name toTable)
  let _ ← note (upsertRelAs name fromId toId 0 undirected)
  storeCatalog

/-- Labels that a statement or a load declares for the rows of a table. -/
def declareLabels (table : UInt32) (labels : List String) : LedgerM Unit := do
  loadCatalog
  noteAll (declareLabel table) labels
  storeCatalog

/-- What a fold tells the catalog: how far its tables have grown. -/
def foldCounts (nodes : List (UInt32 × UInt64)) (rels : List (UInt32 × UInt64)) :
    LedgerM Unit := do
  loadCatalog
  noteAll (fun n => growNode n.1 n.2) nodes
  noteAll (fun r => setEdgeCount r.1 r.2) rels
  storeCatalog

/-- What can happen to a file. -/
inductive FileAct
  | statement (stmt : CatalogStmt) (params : Params)
  | bulkLoad (fromTable : String) (fromCount : UInt64) (toTable : String) (toCount : UInt64)
      (relTable : String) (edgeCount : UInt64) (undirected : Bool)
  | declareNode (graph : UInt32) (name : String)
  | declareRel (graph : UInt32) (name fromTable toTable : String) (undirected : Bool)
  | declareLabels (table : UInt32) (labels : List String)
  | fold (nodes rels : List (UInt32 × UInt64))
  | reopen

namespace FileAct

def run : FileAct → LedgerM Unit
  | .statement stmt params => do
      let _ ← stmt.apply params
      return ()
  | .bulkLoad fromTable fromCount toTable toCount relTable edgeCount undirected =>
      Schema.bulkLoad fromTable fromCount toTable toCount relTable edgeCount undirected
  | .declareNode graph name => Schema.declareNode graph name
  | .declareRel graph name fromTable toTable undirected =>
      Schema.declareRel graph name fromTable toTable undirected
  | .declareLabels table labels => Schema.declareLabels table labels
  | .fold nodes rels => foldCounts nodes rels
  | .reopen => loadCatalog

/-- The graph an act takes out of a catalog. -/
def takes (c : Catalog) : FileAct → Option UInt32
  | .statement stmt _ => stmt.takes c
  | _ => none

end FileAct

/-- One act: what fails leaves the file as it was. -/
def Ledger.step (s : Ledger) (a : FileAct) : Option Ledger :=
  match a.run.exec s with
  | (.ok _, t) => some t
  | (.error _, _) => some s

end Zu.Schema
