import Zu.Common.Error

/-!
# What a catalog holds

Tables, the label dictionary, graph types, schemas and graphs. A table says which
graph it is in, so what a graph holds is a filter over the tables; a label is its
position in the dictionary. The masks a plan prunes by are left out.
-/

namespace Zu.Schema

inductive IntBits
  | b8 | b16 | b32 | b64 | b128 | b256
  deriving DecidableEq, Repr

inductive FloatBits
  | b16 | b32 | b64 | b128 | b256
  deriving DecidableEq, Repr

inductive DurationKind
  | yearMonth | dayTime
  deriving DecidableEq, Repr

/-- `LogicalType`. A record type is its fields and whether it is open; a path type is
its node types and its edge types. -/
inductive LogicalType
  | null
  | nothing
  | bool
  | int (signed : Bool) (bits : IntBits) (precision : Option UInt16)
  | decimal (precision scale : UInt16)
  | float (bits : FloatBits) (precision : Option UInt16)
  | str (least most : Option UInt32) (fixed : Bool)
  | bytes (least most : Option UInt32) (fixed : Bool)
  | date
  | localTime
  | localDatetime
  | zonedTime
  | zonedDatetime
  | duration (kind : DurationKind)
  | node (type : Option String)
  | edge (type : Option String)
  | graph (type : Option String)
  | bindingTable (row : Option (List (String × LogicalType) × Bool))
  | path (type : Option (List (Option String) × List (Option String)))
  | list (elem : LogicalType) (most : Option UInt32)
  | record (fields : List (String × LogicalType)) (isOpen : Bool)
  | any
  | union (members : List LogicalType)
  | anyProperty
  | nullable (inner : LogicalType)

structure NodeTable where
  id : UInt32
  name : String
  graph : UInt32
  nodeCount : UInt64
  /-- The labels its rows may carry, the first of them its own name. -/
  labels : List UInt16
  deriving DecidableEq, Repr

/-- `RelTable`. -/
structure RelTable where
  id : UInt32
  name : String
  graph : UInt32
  fromId : UInt32
  toId : UInt32
  edgeCount : UInt64
  undirected : Bool
  deriving DecidableEq, Repr

inductive ElementKind
  | node | edge
  deriving DecidableEq, Repr

structure PropertyType where
  name : String
  type : LogicalType
  optional : Bool

/-- `KeyLabels`: the labels that pick an element type out. -/
inductive KeyLabels
  | declared (ids : List UInt16)
  | inferred (ids : List UInt16)
  | none
  deriving DecidableEq, Repr

def KeyLabels.ids : KeyLabels → List UInt16
  | .declared ids => ids
  | .inferred ids => ids
  | .none => []

structure ElementType where
  name : String
  kind : ElementKind
  labels : List UInt16
  keyLabels : KeyLabels
  properties : List PropertyType := []
  isOpen : Bool := false
  fromType : Option String := none
  toType : Option String := none
  undirected : Bool := false

namespace ElementType

/-- `ElementType::node`: the key label set is the whole label set. -/
def ofNode (name : String) (labels : List UInt16) : ElementType :=
  { name, kind := .node, labels, keyLabels := .inferred labels }

def ofEdge (name : String) (labels : List UInt16) (fromType toType : String) : ElementType :=
  { ofNode name labels with kind := .edge, fromType := some fromType, toType := some toType }

def withKey (key : List UInt16) (e : ElementType) : ElementType :=
  { e with keyLabels := .declared key }

end ElementType

def maskOf (ids : List UInt16) : UInt64 :=
  ids.foldl (fun m l => m ||| ((1 : UInt64) <<< l.toUInt64)) 0

def ElementType.labelMask (e : ElementType) : UInt64 := maskOf e.labels

/-- `selection_mask`: a type with no key label set is selected by its whole label set. -/
def ElementType.selectionMask (e : ElementType) : UInt64 :=
  match e.keyLabels with
  | .none => e.labelMask
  | key => maskOf key.ids

structure GraphType where
  name : String
  closed : Bool
  elements : List ElementType

def GraphType.element (t : GraphType) (name : String) : Option ElementType :=
  t.elements.find? fun e => e.name = name

/-- `holder`: the element type an element carrying `labels` belongs to. -/
def GraphType.holder (t : GraphType) (kind : ElementKind) (labels : UInt64) : Option ElementType :=
  ((t.elements.filter fun e => e.kind = kind).filter fun e =>
    labels &&& e.selectionMask = e.selectionMask).find? fun e => labels &&& ~~~e.labelMask = 0

inductive GraphTypeOf
  | any
  | named (type : String)
  | inline (type : GraphType)

structure GraphDef where
  id : UInt32
  name : String
  schema : String
  graphType : GraphTypeOf

def maxLabels : ℕ := 64

def maxTableId : UInt32 := 2 ^ 14 - 1

def maxNameLen : ℕ := 256

def rootSchema : String := "/"

def homeGraph : String := "home"

def homeId : UInt32 := 0

/-- `Catalog`. A new one holds the root schema and the home graph. -/
structure Catalog where
  nodes : List NodeTable := []
  rels : List RelTable := []
  labels : List String := []
  graphTypes : List GraphType := []
  schemas : List String := [rootSchema]
  graphs : List GraphDef := [⟨homeId, homeGraph, rootSchema, .any⟩]

namespace Catalog

/-- `Catalog::default`. -/
def new : Catalog := {}

variable (c : Catalog)

def graph (schema name : String) : Option GraphDef :=
  c.graphs.find? fun g => g.schema = schema ∧ g.name = name

def graphById (id : UInt32) : Option GraphDef :=
  c.graphs.find? fun g => g.id = id

/-- `home_graph_id`: the home graph's id, and the first one's when there is none. -/
def homeGraphId : UInt32 :=
  ((c.graph rootSchema homeGraph).map GraphDef.id).getD homeId

def nodeIn (graph : UInt32) (name : String) : Option NodeTable :=
  c.nodes.find? fun t => t.graph = graph ∧ t.name = name

def relIn (graph : UInt32) (name : String) : Option RelTable :=
  c.rels.find? fun t => t.graph = graph ∧ t.name = name

def nodeByName (name : String) : Option NodeTable := c.nodeIn c.homeGraphId name

def relByName (name : String) : Option RelTable := c.relIn c.homeGraphId name

def nodeById (id : UInt32) : Option NodeTable := c.nodes.find? fun t => t.id = id

def relById (id : UInt32) : Option RelTable := c.rels.find? fun t => t.id = id

def hasSchema (path : String) : Bool := path ∈ c.schemas

def graphType (name : String) : Option GraphType :=
  c.graphTypes.find? fun t => t.name = name

def labelName (id : UInt16) : Option String := c.labels[id.toNat]?

/-- `label_id`: a label is its position in the dictionary. -/
def labelId (name : String) : Option UInt16 := (c.labels.idxOf? name).map UInt16.ofNat

def tableIds : List UInt32 := c.nodes.map NodeTable.id ++ c.rels.map RelTable.id

/-- `graph_tables`: the tables a graph holds, node tables first. -/
def graphTables (graph : UInt32) : List (UInt32 × ElementKind) :=
  ((c.nodes.filter fun t => t.graph = graph).map fun t => (t.id, .node)) ++
    ((c.rels.filter fun t => t.graph = graph).map fun t => (t.id, .edge))

end Catalog

end Zu.Schema
