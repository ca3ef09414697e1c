import Zu.Schema.Operations

/-!
# The bytes of a catalog

`encode` writes every length and count in a field of its own width, cut to that width;
`decode` has limits of its own on names and label sets, and checks the catalog it
read. How a declared type is spelled is a parameter of both, so that what the reader
takes can be compared with what the writer gives.
-/

namespace Zu.Schema

open Lib

def catalogVersion : ℕ := 5

def utf8 (s : String) : Bytes := s.toByteArray.data.toList

def ofUtf8 (bs : Bytes) : Option String := String.fromUTF8? ⟨bs.toArray⟩

/-! ### Writing -/

def encodeName (name : String) : Bytes := leBytes 2 (utf8 name).length ++ utf8 name

def encodeLabels (labels : List UInt16) : Bytes :=
  leBytes 2 labels.length ++ labels.flatMap fun l => leBytes 2 l.toNat

def ElementKind.code : ElementKind → UInt8
  | .node => 0
  | .edge => 1

def KeyLabels.code : KeyLabels → UInt8
  | .declared _ => 0
  | .inferred _ => 1
  | .none => 2

def GraphTypeOf.code : GraphTypeOf → UInt8
  | .any => 0
  | .named _ => 1
  | .inline _ => 2

def ElementType.flags (e : ElementType) : UInt8 :=
  UInt8.ofNat (e.isOpen.toNat + 2 * e.undirected.toNat)

/-- A list behind its length in `k` bytes. -/
def encodeList {α : Type} (k : ℕ) (enc : α → Bytes) (as : List α) : Bytes :=
  leBytes k as.length ++ as.flatMap enc

section

variable (spell : LogicalType → Bytes)

def encodeProperty (p : PropertyType) : Bytes :=
  encodeName p.name ++ spell p.type ++ [putFlag p.optional]

def encodeEnds (e : ElementType) : Bytes :=
  match e.kind with
  | .node => []
  | .edge => encodeName (e.fromType.getD "") ++ encodeName (e.toType.getD "")

def encodeElement (e : ElementType) : Bytes :=
  encodeName e.name ++ ([e.kind.code] ++ ([e.flags] ++ (encodeLabels e.labels ++
    ([e.keyLabels.code] ++ (encodeLabels e.keyLabels.ids ++ (encodeEnds e ++
      encodeList 2 (encodeProperty spell) e.properties))))))

def encodeGraphType (t : GraphType) : Bytes :=
  encodeName t.name ++ ([putFlag t.closed] ++ encodeList 4 (encodeElement spell) t.elements)

def encodeTypeOf : GraphTypeOf → Bytes
  | .any => []
  | .named name => encodeName name
  | .inline type => encodeGraphType spell type

def encodeGraph (g : GraphDef) : Bytes :=
  leBytes 4 g.id.toNat ++ (encodeName g.name ++ (encodeName g.schema ++
    ([g.graphType.code] ++ encodeTypeOf spell g.graphType)))

def encodeNode (t : NodeTable) : Bytes :=
  leBytes 4 t.id.toNat ++ (encodeName t.name ++ (leBytes 4 t.graph.toNat ++
    (leBytes 8 t.nodeCount.toNat ++ encodeLabels t.labels)))

def encodeRel (t : RelTable) : Bytes :=
  leBytes 4 t.id.toNat ++ (encodeName t.name ++ (leBytes 4 t.graph.toNat ++
    (leBytes 4 t.fromId.toNat ++ (leBytes 4 t.toId.toNat ++ (leBytes 8 t.edgeCount.toNat ++
      [putFlag t.undirected])))))

/-- What follows the version and the two table counts. -/
def encodeBody (c : Catalog) : Bytes :=
  leBytes 4 c.labels.length ++ (c.nodes.flatMap encodeNode ++ (c.rels.flatMap encodeRel ++
    (c.labels.flatMap encodeName ++ (encodeList 4 (encodeGraphType spell) c.graphTypes ++
      (encodeList 4 encodeName c.schemas ++ encodeList 4 (encodeGraph spell) c.graphs)))))

/-- The version and the two table counts. -/
def encodeHead (c : Catalog) : Bytes :=
  leBytes 2 catalogVersion ++ (leBytes 4 c.nodes.length ++ leBytes 4 c.rels.length)

def Catalog.encodeAs (c : Catalog) : Bytes := encodeHead c ++ encodeBody spell c

end

/-- The bytes of a type that was checked to be declarable. -/
def typeSpelling (type : LogicalType) : Bytes := (declaredTypeBytes type).getD []

def Catalog.encode (c : Catalog) : Bytes := c.encodeAs typeSpelling

/-! ### Reading -/

/-- A number in `k` bytes. -/
def readNat (k : ℕ) : Reader ZuError ℕ := do
  return fromLe (← nextBytes k (corrupt "truncated entry"))

def readU16 : Reader ZuError UInt16 := do return UInt16.ofNat (← readNat 2)

def readU32 : Reader ZuError UInt32 := do return UInt32.ofNat (← readNat 4)

def readU64 : Reader ZuError UInt64 := do return UInt64.ofNat (← readNat 8)

/-- Fails with the error if the condition holds. -/
def refuseIf (p : Prop) [Decidable p] (err : ZuError) : Reader ZuError Unit :=
  if p then throw err else return ()

def decodeName : Reader ZuError String := do
  let len := fromLe (← nextBytes 2 (corrupt "truncated name length"))
  refuseIf (len = 0 ∨ maxNameLen < len) (corrupt s!"name length {len} out of 1..{maxNameLen}")
  let raw ← nextBytes len (corrupt "truncated name")
  match ofUtf8 raw with
  | some name => return name
  | none => throw (corrupt "name is not UTF-8")

def decodeLabels : Reader ZuError (List UInt16) := do
  let count ← readNat 2
  refuseIf (maxLabels < count) (corrupt s!"a label set of {count} above {maxLabels}")
  readN readU16 count

def readFlag (what : String) : Reader ZuError Bool := do
  let byte ← nextByte (corrupt s!"truncated {what}")
  if byte = 0 then return false
  else if byte = 1 then return true
  else throw (corrupt s!"{what} is {byte.toNat}, not 0 or 1")

def decodeKind : Reader ZuError ElementKind := do
  let byte ← nextByte (corrupt "truncated element kind")
  if byte = 0 then return .node
  else if byte = 1 then return .edge
  else throw (corrupt s!"element kind {byte.toNat}")

/-- A number as `#x` prints it. -/
def hex (n : ℕ) : String := "0x" ++ String.ofList (Nat.toDigits 16 n)

def decodeFlags : Reader ZuError UInt8 := do
  let flags ← nextByte (corrupt "truncated element type flags")
  refuseIf (4 ≤ flags.toNat) (corrupt s!"element type flags {hex flags.toNat}")
  return flags

/-- The key label set of an element type. -/
def decodeKey : Reader ZuError KeyLabels := do
  let code ← nextByte (corrupt "truncated key label set kind")
  refuseIf (2 < code.toNat) (corrupt s!"key label set kind {code.toNat}")
  let ids ← decodeLabels
  if code = 0 then return .declared ids
  else if code = 1 then return .inferred ids
  else if ids = [] then return .none
  else throw (corrupt "a key label set that is not one")

def decodeEnds : ElementKind → Reader ZuError (Option String × Option String)
  | .node => return (none, none)
  | .edge => do
      let fromType ← decodeName
      let toType ← decodeName
      return (some fromType, some toType)

/-- A list behind its length in `k` bytes. -/
def decodeList {α : Type} (k : ℕ) (p : Reader ZuError α) : Reader ZuError (List α) := do
  let count ← readNat k
  readN p count

section

variable (readType : Reader ZuError LogicalType)

def decodeProperty : Reader ZuError PropertyType := do
  let name ← decodeName
  let type ← readType
  let optional ← readFlag "a property's optionality"
  return { name, type, optional }

def decodeElement : Reader ZuError ElementType := do
  let name ← decodeName
  let kind ← decodeKind
  let flags ← decodeFlags
  let labels ← decodeLabels
  let keyLabels ← decodeKey
  let ends ← decodeEnds kind
  let properties ← decodeList 2 (decodeProperty readType)
  return { name, kind, labels, keyLabels, properties
           isOpen := flags.toNat % 2 = 1
           fromType := ends.1
           toType := ends.2
           undirected := 2 ≤ flags.toNat }

def decodeGraphType : Reader ZuError GraphType := do
  let name ← decodeName
  let closed ← readFlag "graph type closedness"
  let elements ← decodeList 4 (decodeElement readType)
  return { name, closed, elements }

def decodeTypeOf : Reader ZuError GraphTypeOf := do
  let code ← nextByte (corrupt "truncated graph type kind")
  if code = 0 then return .any
  else if code = 1 then return .named (← decodeName)
  else if code = 2 then return .inline (← decodeGraphType readType)
  else throw (corrupt s!"graph type kind {code.toNat}")

def decodeGraph : Reader ZuError GraphDef := do
  let id ← readU32
  let name ← decodeName
  let schema ← decodeName
  let graphType ← decodeTypeOf readType
  return { id, name, schema, graphType }

/-- The labels a node table declares, of `labelCount` there are. -/
def decodeDeclared (name : String) (labelCount : ℕ) : Reader ZuError (List UInt16) := do
  let count ← readNat 2
  refuseIf (labelCount < count)
    (corrupt s!"table '{name}' declares {count} of {labelCount} labels")
  readN readU16 count

/-- A field a version older than `first` does not have. -/
def sinceVersion {α : Type} (first version : ℕ) (default : α) (p : Reader ZuError α) :
    Reader ZuError α :=
  if first ≤ version then p else return default

def decodeNode (version labelCount : ℕ) : Reader ZuError NodeTable := do
  let id ← readU32
  let name ← decodeName
  let graph ← sinceVersion 4 version homeId readU32
  let nodeCount ← readU64
  let labels ← sinceVersion 2 version [] (decodeDeclared name labelCount)
  return { id, name, graph, nodeCount, labels }

/-- Whether the edges of a rel table have no direction. -/
def decodeDirection : Reader ZuError Bool := do
  let byte ← nextByte (corrupt "truncated edge direction")
  if byte = 0 then return false
  else if byte = 1 then return true
  else throw (corrupt s!"edge direction byte {byte.toNat}")

def decodeRel (version : ℕ) : Reader ZuError RelTable := do
  let id ← readU32
  let name ← decodeName
  let graph ← sinceVersion 4 version homeId readU32
  let fromId ← readU32
  let toId ← readU32
  let edgeCount ← readU64
  let undirected ← sinceVersion 5 version false decodeDirection
  return { id, name, graph, fromId, toId, edgeCount, undirected }

/-- What follows the version and the two table counts. -/
def decodeBody (version nodeCount relCount : ℕ) : Reader ZuError Catalog := do
  let labelCount ← sinceVersion 2 version 0 (readNat 4)
  let nodes ← readN (decodeNode version labelCount) nodeCount
  let rels ← readN (decodeRel version) relCount
  let labels ← readN decodeName labelCount
  let graphTypes ← sinceVersion 3 version [] (decodeList 4 (decodeGraphType readType))
  let schemas ← sinceVersion 4 version Catalog.new.schemas (decodeList 4 decodeName)
  let graphs ← sinceVersion 4 version Catalog.new.graphs (decodeList 4 (decodeGraph readType))
  return { nodes, rels, labels, graphTypes, schemas, graphs }

/-- A file without labels is the graph it always was: every table has one label, its
name. -/
def internNames : List NodeTable → CatalogM (List NodeTable)
  | [] => return []
  | t :: ts => do
      let id ← internLabel t.name
      let rest ← internNames ts
      return { t with labels := t.labels ++ [id] } :: rest

/-- The catalog of a file, with the labels a version without labels left out. -/
def Catalog.withNames (version : ℕ) (c : Catalog) : Except ZuError Catalog :=
  if version < 2 then
    match (internNames c.nodes).exec c with
    | (.ok nodes, c) => .ok { c with nodes }
    | (.error err, _) => .error err
  else .ok c

def Catalog.decodeAs (bytes : Bytes) : Except ZuError Catalog := do
  let head ← nextBytes 10 (corrupt "truncated header") bytes
  let version := fromLe (head.1.take 2)
  ensure (version ≠ 0 ∧ version ≤ catalogVersion) (.unsupported "catalog version" version)
  let nodeCount := fromLe ((head.1.drop 2).take 4)
  let relCount := fromLe (head.1.drop 6)
  let body ← decodeBody readType version nodeCount relCount head.2
  ensure (body.2 = []) (corrupt "trailing bytes")
  let c ← body.1.withNames version
  c.validate
  return c

end

def Catalog.decode (bytes : Bytes) : Except ZuError Catalog :=
  Catalog.decodeAs decodeDeclaredType bytes

end Zu.Schema
