import Zu.Schema.Validate

/-!
# What changes a catalog

Each operation works on the catalog in hand, and one that fails keeps what it did
before it failed. Ids are handed out from what the catalog holds: the next graph id
and the next table id are one above the highest there is.
-/

namespace Zu.Schema

open Lib

/-- A program over the catalog in hand. -/
abbrev CatalogM := Fallible ZuError Catalog

/-- A check that changes nothing. -/
def check {σ : Type} (e : Except ZuError Unit) : Fallible ZuError σ Unit :=
  match e with
  | .ok _ => pure ()
  | .error err => throw err

/-- The answer of a function that may fail. -/
def answer {σ α : Type} (e : Except ZuError α) : Fallible ZuError σ α :=
  match e with
  | .ok a => pure a
  | .error err => throw err

theorem check_triple {σ : Type} {P : σ → Prop} (e : Except ZuError Unit) :
    Triple P (check e) (fun _ s => P s ∧ e = .ok ()) P := by
  cases e with
  | ok u => exact Triple.pure fun s hs => ⟨hs, rfl⟩
  | error err => exact Triple.throw fun s hs => hs

theorem answer_triple {σ α : Type} {P : σ → Prop} (e : Except ZuError α) :
    Triple P (answer e) (fun a s => P s ∧ e = .ok a) P := by
  cases e with
  | ok a => exact Triple.pure fun s hs => ⟨hs, rfl⟩
  | error err => exact Triple.throw fun s hs => hs

def u32Max : UInt32 := 2 ^ 32 - 1

def maxId : List UInt32 → Option UInt32
  | [] => none
  | id :: ids => some (match maxId ids with
      | some m => if m ≤ id then id else m
      | none => id)

/-- Changes the first entry that `p` picks. -/
def updateFirst {α : Type} (p : α → Bool) (f : α → α) : List α → List α
  | [] => []
  | a :: as => if p a then f a :: as else a :: updateFirst p f as

/-- A row count that only grows. -/
def NodeTable.grow (nodeCount : UInt64) (t : NodeTable) : NodeTable :=
  { t with nodeCount := max t.nodeCount nodeCount }

/-- One more label its rows may carry. -/
def NodeTable.declare (label : UInt16) (t : NodeTable) : NodeTable :=
  if label ∈ t.labels then t else { t with labels := t.labels ++ [label] }

def RelTable.setEdgeCount (edgeCount : UInt64) (t : RelTable) : RelTable := { t with edgeCount }

def RelTable.redefine (fromId toId : UInt32) (edgeCount : UInt64) (undirected : Bool)
    (t : RelTable) : RelTable :=
  { t with fromId, toId, edgeCount, undirected }

namespace Catalog

def nextGraphId (c : Catalog) : Except ZuError UInt32 :=
  match maxId (c.graphs.map GraphDef.id) with
  | none => .ok homeId
  | some id =>
      if id < u32Max then .ok (id + 1)
      else .error (.invalidArgument "graph id space exhausted")

def nextId (c : Catalog) : Except ZuError UInt32 :=
  match maxId c.tableIds with
  | none => .ok 0
  | some id =>
      if id < maxTableId then .ok (id + 1)
      else .error (.invalidArgument s!"table id space exhausted at {maxTableId.toNat}")

def ensureHome (c : Catalog) : Catalog :=
  if (c.graph rootSchema homeGraph).isSome then c
  else
    let schemas := if c.hasSchema rootSchema then c.schemas else c.schemas ++ [rootSchema]
    let id := (c.nextGraphId.toOption).getD homeId
    { c with schemas, graphs := c.graphs ++ [⟨id, homeGraph, rootSchema, .any⟩] }

def checkGraph (c : Catalog) (schema : String) (type : GraphTypeOf) : Except ZuError Unit := do
  ensure (c.hasSchema schema) (.invalidArgument s!"'{schema}' is no schema here")
  match type with
  | .any => pure ()
  | .named name =>
      ensure (c.graphType name).isSome (.invalidArgument s!"'{name}' is no graph type here")
  | .inline type => type.validate c.labels.length .declared
  let _ ← c.nextGraphId

/-- `infer_graph_type`: the closed type the tables of a graph describe. -/
def inferGraphType (c : Catalog) (name : String) (graph : UInt32) : Except ZuError GraphType := do
  let nodes := (c.nodes.filter fun t => t.graph = graph).map fun t =>
    (ElementType.ofNode t.name t.labels).withKey [t.labels.headD 0]
  let rels ← (c.rels.filter fun t => t.graph = graph).mapM fun t => do
    let some src := c.nodeById t.fromId
      | throw (.invalidArgument s!"rel table '{t.name}' has no FROM node table")
    let some dst := c.nodeById t.toId
      | throw (.invalidArgument s!"rel table '{t.name}' has no TO node table")
    return ElementType.ofEdge t.name [] src.name dst.name
  let type : GraphType := { name, closed := true, elements := nodes ++ rels }
  type.validate c.labels.length .stored
  return type

end Catalog

def internLabel (name : String) : CatalogM UInt16 := do
  let c ← get
  match c.labelId name with
  | some id => return id
  | none =>
      check (ensure (name ≠ "" ∧ name.utf8ByteSize ≤ maxNameLen)
        (.invalidArgument s!"label name length {name.utf8ByteSize} out of 1..{maxNameLen}"))
      check (ensure (c.labels.length ≠ maxLabels)
        (.unsupported "a label dictionary wider than one bitset word" maxLabels))
      set { c with labels := c.labels ++ [name] }
      return UInt16.ofNat c.labels.length

def declareLabel (table : UInt32) (label : String) : CatalogM UInt16 := do
  let id ← internLabel label
  let c ← get
  check (ensure (c.nodeById table).isSome
    (.invalidArgument s!"no node table with id {table.toNat}"))
  let nodes := updateFirst (fun t => t.id = table) (NodeTable.declare id) c.nodes
  set { c with nodes }
  return id

def addGraphType (type : GraphType) : CatalogM Unit := do
  let c ← get
  check (ensure (c.graphType type.name = none)
    (.invalidArgument s!"'{type.name}' is already a graph type"))
  check (type.validate c.labels.length .declared)
  set { c with graphTypes := c.graphTypes ++ [type] }

def dropGraphType (name : String) : CatalogM Bool := do
  let c ← get
  let graphTypes := c.graphTypes.filter fun t => t.name ≠ name
  set { c with graphTypes }
  return graphTypes.length ≠ c.graphTypes.length

def addSchema (path : String) : CatalogM Unit := do
  let c ← get
  check (ensure (path.toList.head? = some '/' ∧ path.utf8ByteSize ≤ maxNameLen)
    (.invalidArgument s!"'{path}' is no absolute directory path"))
  check (ensure (¬ c.hasSchema path) (.invalidArgument s!"'{path}' is already a schema"))
  set { c with schemas := c.schemas ++ [path] }

def dropSchema (path : String) : CatalogM Bool := do
  let c ← get
  let schemas := c.schemas.filter fun s => s ≠ path
  set { c with schemas }
  return schemas.length ≠ c.schemas.length

def addGraph (name schema : String) (type : GraphTypeOf) : CatalogM UInt32 := do
  let c ← get
  check (ensure (c.graph schema name).isNone
    (.invalidArgument s!"'{name}' is already a graph in '{schema}'"))
  check (c.checkGraph schema type)
  let id ← answer c.nextGraphId
  let graphs := c.graphs ++ [⟨id, name, schema, type⟩]
  set { c with graphs }
  return id

def dropGraph (id : UInt32) : CatalogM Bool := do
  let c ← get
  let graphs := c.graphs.filter fun g => g.id ≠ id
  if graphs.length = c.graphs.length then return false
  let nodes := c.nodes.filter fun t => t.graph ≠ id
  let rels := c.rels.filter fun t => t.graph ≠ id
  set { c with graphs, nodes, rels }
  return true

/-- A table of the source graph, and the id its copy got. -/
abbrev TableCopy := UInt32 × UInt32 × ElementKind

def copyNodes (target : UInt32) : List NodeTable → CatalogM (List TableCopy)
  | [] => return []
  | t :: ts => do
      let id ← answer (← get).nextId
      modify fun c => { c with nodes := c.nodes ++ [{ t with id, graph := target }] }
      let copied ← copyNodes target ts
      return (t.id, id, .node) :: copied

def mapped (copied : List TableCopy) (id : UInt32) : Option UInt32 :=
  (copied.find? fun e => e.1 = id).map fun e => e.2.1

/-- The copies of rel tables, each between the copies of its two node tables. -/
def copyRels (source target : UInt32) (nodes : List TableCopy) :
    List RelTable → CatalogM (List TableCopy)
  | [] => return []
  | t :: ts => do
      match mapped nodes t.fromId, mapped nodes t.toId with
      | some fromId, some toId =>
          let id ← answer (← get).nextId
          modify fun c => { c with
            rels := c.rels ++ [{ t with id, graph := target, fromId, toId }] }
          let copied ← copyRels source target nodes ts
          return (t.id, id, .edge) :: copied
      | _, _ => throw (corrupt s!"rel table '{t.name}' ends outside graph {source.toNat}")

def copyGraphTables (source target : UInt32) : CatalogM (List TableCopy) := do
  let c ← get
  let nodes ← copyNodes target (c.nodes.filter fun t => t.graph = source)
  let rels ← copyRels source target nodes (c.rels.filter fun t => t.graph = source)
  return nodes ++ rels

def homeIdOf : CatalogM UInt32 := do
  modify Catalog.ensureHome
  return (← get).homeGraphId

def growNode (id : UInt32) (nodeCount : UInt64) : CatalogM Unit := do
  let c ← get
  check (ensure (c.nodeById id).isSome (.invalidArgument s!"no node table has id {id.toNat}"))
  let nodes := updateFirst (fun t => t.id = id) (NodeTable.grow nodeCount) c.nodes
  set { c with nodes }

def setEdgeCount (id : UInt32) (edgeCount : UInt64) : CatalogM Unit := do
  let c ← get
  check (ensure (c.relById id).isSome (.invalidArgument s!"no rel table has id {id.toNat}"))
  let rels := updateFirst (fun t => t.id = id) (RelTable.setEdgeCount edgeCount) c.rels
  set { c with rels }

/-- A new node table whose first label is its name. -/
def pushNode (graph : UInt32) (name : String) (nodeCount : UInt64) : CatalogM UInt32 := do
  let id ← answer (← get).nextId
  let primary ← internLabel name
  modify fun c => { c with nodes := c.nodes ++ [⟨id, name, graph, nodeCount, [primary]⟩] }
  return id

def upsertNode (name : String) (nodeCount : UInt64) : CatalogM UInt32 := do
  check (ensure ((← get).relByName name).isNone
    (.invalidArgument s!"'{name}' is already a rel table"))
  let home ← homeIdOf
  let c ← get
  match c.nodeIn home name with
  | some t =>
      let nodes := updateFirst (fun t => t.graph = home ∧ t.name = name)
        (NodeTable.grow nodeCount) c.nodes
      set { c with nodes }
      return t.id
  | none => pushNode home name nodeCount

def createNodeIn (graph : UInt32) (name : String) : CatalogM UInt32 := do
  let c ← get
  check (ensure (c.graphById graph).isSome
    (.invalidArgument s!"no graph with id {graph.toNat}"))
  check (ensure (c.relIn graph name).isNone
    (.invalidArgument s!"'{name}' is already a rel table"))
  check (ensure (c.nodeIn graph name).isNone
    (.invalidArgument s!"'{name}' is already a node table"))
  pushNode graph name 0

/-- The graph a rel table is in: the one its FROM table is in. -/
def graphOfRel (fromId : UInt32) : CatalogM UInt32 := do
  match (← get).nodeById fromId with
  | some t => return t.graph
  | none => homeIdOf

def upsertRelAs (name : String) (fromId toId : UInt32) (edgeCount : UInt64)
    (undirected : Bool) : CatalogM UInt32 := do
  check (ensure ((← get).nodeByName name).isNone
    (.invalidArgument s!"'{name}' is already a node table"))
  let graph ← graphOfRel fromId
  let c ← get
  match c.relIn graph name with
  | some t =>
      let rels := updateFirst (fun t => t.graph = graph ∧ t.name = name)
        (RelTable.redefine fromId toId edgeCount undirected) c.rels
      set { c with rels }
      return t.id
  | none =>
      let id ← answer c.nextId
      let rels := c.rels ++ [⟨id, name, graph, fromId, toId, edgeCount, undirected⟩]
      set { c with rels }
      return id

def upsertRel (name : String) (fromId toId : UInt32) (edgeCount : UInt64) : CatalogM UInt32 :=
  upsertRelAs name fromId toId edgeCount false

end Zu.Schema
