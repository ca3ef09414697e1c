import Zu.Schema.Ledger

/-!
# The statements that change what a file declares

A statement reads the catalog, changes it and publishes it; one that fails leaves the
file as it was, whatever it did before. The storage of the tables a graph holds is
freed and copied in `Zu.Graph` and left out here.
-/

namespace Zu.Schema

open Lib

/-! ### What a statement says -/

/-- `ElementTypeDef`. The kind of one written as an endpoint is never read. -/
structure ElementTypeDef where
  name : Option String
  keyLabels : List String
  labels : List String
  properties : List PropertyType

inductive Endpoint
  | named (name : String)
  | inline (type : ElementTypeDef)

inductive ElementDefKind
  | node
  | edge (fromEnd toEnd : Endpoint) (undirected : Bool)

inductive GraphTypeSource
  | elements (defs : List (ElementTypeDef × ElementDefKind))
  | like (graph : String)
  | copy (type : String)

inductive GraphTypeRef
  | any
  | named (type : String)
  | source (source : GraphTypeSource)

structure GraphName where
  schema : Option String
  name : String

inductive GraphRef
  | current
  | home
  | named (name : GraphName)
  | param (name : String)

/-- `GraphHandle`: a graph reference a caller holds. -/
structure GraphHandle where
  id : UInt32
  schema : String
  name : String
  epoch : UInt64

def GraphHandle.label (h : GraphHandle) : String :=
  if h.schema = rootSchema then s!"GRAPH /{h.name}" else s!"GRAPH {h.schema}/{h.name}"

/-- A parameter's value: a graph reference, or something else and what it is called. -/
inductive Value
  | graph (handle : GraphHandle)
  | other (what : String)

def Value.describe : Value → String
  | .graph _ => "a graph reference"
  | .other what => what

/-- The values of a statement's parameters, by name. -/
abbrev Params := List (String × Value)

inductive CatalogStmt
  | createGraphType (name : String) (ifNotExists orReplace : Bool) (source : GraphTypeSource)
  | dropGraphType (name : String) (ifExists : Bool)
  | createSchema (path : String) (ifNotExists : Bool)
  | dropSchema (path : String) (ifExists : Bool)
  | createGraph (name : GraphName) (ifNotExists orReplace : Bool) (of : GraphTypeRef)
      (copyOf : Option GraphRef)
  | dropGraph (name : GraphName) (ifExists : Bool)

/-- `Effect`: what a statement did. -/
inductive Effect
  | created | dropped | nothing
  deriving DecidableEq, Repr

/-! ### The type a statement describes -/

/-- `intern`: labels to their places in the dictionary. -/
def intern : List String → CatalogM (List UInt16)
  | [] => return []
  | name :: names => do
      let id ← internLabel name
      let ids ← intern names
      return id :: ids

/-- `derive_name`: the labels, and a number after them when a type has that name. One of
as many numbers as there are types and one more is free. -/
def deriveName (t : GraphType) (labels : List String) : String :=
  let base := if labels = [] then "element" else "&".intercalate labels
  let names := base :: (List.range (t.elements.length + 1)).map fun n => s!"{base}_{n + 2}"
  (names.find? fun name => (t.element name).isNone).getD base

/-- `element`: an element type as the catalog holds it, a node type so far. -/
def elementOf (t : GraphType) (d : ElementTypeDef) : CatalogM ElementType := do
  let labels ← intern d.labels
  let out := ElementType.ofNode (d.name.getD (deriveName t d.labels)) labels
  if d.keyLabels = [] then return { out with properties := d.properties }
  else do
    let key ← intern d.keyLabels
    return { out.withKey key with properties := d.properties }

/-- The node type an endpoint written out is folded into. -/
def sameNode (t : GraphType) (d : ElementTypeDef) (e : ElementType) : Option ElementType :=
  if d.name = none ∧ d.properties.isEmpty then
    t.elements.find? fun o => o.kind = .node ∧ o.properties.isEmpty ∧ o.labels = e.labels ∧
      o.keyLabels = e.keyLabels
  else none

/-- `resolve`: the name of the node type an edge type ends at, and the graph type with
that node type in it. -/
def resolve (t : GraphType) : Endpoint → CatalogM (GraphType × String)
  | .named name =>
      match t.element name with
      | some e =>
          if e.kind = .node then return (t, name)
          else throw (.invalidArgument
            s!"an edge type ends at '{name}', which is an edge type here")
      | none => throw (.invalidArgument
          s!"an edge type ends at '{name}', which no node type in this graph type is called")
  | .inline d => do
      let e ← elementOf t d
      match sameNode t d e with
      | some same => return (t, same.name)
      | none => return ({ t with elements := t.elements ++ [e] }, e.name)

/-- The element types of a graph type, one after another. -/
def buildElements (t : GraphType) : List (ElementTypeDef × ElementDefKind) → CatalogM GraphType
  | [] => return t
  | (d, .node) :: defs => do
      let e ← elementOf t d
      buildElements { t with elements := t.elements ++ [e] } defs
  | (d, .edge fromEnd toEnd undirected) :: defs => do
      let src ← resolve t fromEnd
      let dst ← resolve src.1 toEnd
      let e ← elementOf dst.1 d
      let edge := { e with
        kind := .edge
        fromType := some src.2
        toType := some dst.2
        undirected := undirected }
      buildElements { dst.1 with elements := dst.1.elements ++ [edge] } defs

def rsplitOnce (name : String) : Option (String × String) :=
  let cs := name.toList.reverse
  match cs.dropWhile (· ≠ '/') with
  | [] => none
  | _ :: before =>
      some (String.ofList before.reverse, String.ofList (cs.takeWhile (· ≠ '/')).reverse)

/-- The schema and the name a written name stands for. -/
def namedIn (name : String) : String × String :=
  match rsplitOnce name with
  | some (parent, rest) => (if parent = "" then rootSchema else parent, rest)
  | none => (rootSchema, name)

def GraphName.split (n : GraphName) : String × String := (n.schema.getD rootSchema, n.name)

namespace Catalog

variable (c : Catalog)

def graphAt (place : String × String) : Except ZuError GraphDef :=
  match c.graph place.1 place.2 with
  | some g => .ok g
  | none => .error (.invalidArgument s!"'{place.2}' is no graph in '{place.1}'")

def graphNamed (name : String) : Except ZuError GraphDef := c.graphAt (namedIn name)

def graphOfParam (name : String) (params : Params) : Except ZuError UInt32 :=
  match params.find? fun p => p.1 = name with
  | none => .error (.gql "42002" s!"USE names ${name}, and no parameter of that name was given")
  | some (_, .graph handle) =>
      if (c.graph handle.schema handle.name).any fun g => g.id = handle.id then .ok handle.id
      else .error (.gql "42002"
        s!"USE ${name} names {handle.label}, which is no longer the graph the reference was taken on")
  | some (_, value) => .error (.gql "42002"
      s!"USE ${name} names a graph, so ${name} has to be a graph reference and not {value.describe}: take one with Session::graph_ref")

def workingGraph (working : UInt32) : Except ZuError UInt32 :=
  if (c.graphById working).isSome then .ok working
  else .error (.gql "42002"
    "the graph this session is working in has been dropped, so a statement that names no graph names nothing: SESSION RESET PROPERTY GRAPH goes back to the home graph")

/-- `check_ref`, of a graph reference. -/
def checkRef (name : String) (handle : GraphHandle) : Except ZuError Unit :=
  ensure (c.graphById handle.id).isSome (.gql "42002"
    s!"${name} references {handle.label}, and that graph has been dropped")

def copySource (source : Option GraphRef) (params : Params) : Except ZuError (Option UInt32) :=
  match source with
  | none => .ok none
  | some .current => .ok (some c.homeGraphId)
  | some .home => .ok (some c.homeGraphId)
  | some (.param name) => (c.graphOfParam name params).map some
  | some (.named name) => (c.graphAt name.split).map fun g => some g.id

end Catalog

def build (name : String) : GraphTypeSource → CatalogM GraphType
  | .like graph => do
      let c ← get
      let g ← answer (c.graphNamed graph)
      answer (c.inferGraphType name g.id)
  | .copy type => do
      match (← get).graphType type with
      | some t => return { t with name }
      | none => throw (.invalidArgument s!"'{type}' is no graph type here")
  | .elements defs => buildElements { name, closed := true, elements := [] } defs

/-- The type of an existing graph, for a new one of the given name. -/
def likeGraph (name source : String) : CatalogM GraphTypeOf := do
  let c ← get
  let g ← answer (c.graphNamed source)
  match g.graphType with
  | .named type => return .named type
  | .inline type => return .inline { type with name }
  | .any =>
      if c.graphTables g.id = [] then return .any
      else do
        let type ← answer (c.inferGraphType name g.id)
        return .inline type

def graphTypeOf (name : String) : GraphTypeRef → CatalogM GraphTypeOf
  | .any => return .any
  | .named type => return .named type
  | .source (.like source) => likeGraph name source
  | .source source => do
      let type ← build name source
      return .inline type

end Zu.Schema
