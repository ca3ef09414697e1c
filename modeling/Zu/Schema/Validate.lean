import Zu.Schema.TypeCodec
import Zu.Lib.Fallible

/-!
# What a catalog is checked for

`GraphType.validate` is asked of a type a statement declares and of one read out of a
file, and says so in the error it gives. `Catalog.validate` runs before a catalog is
published and after one is read.
-/

namespace Zu.Schema

/-- The first value a list holds twice, once the list is sorted. -/
def firstRepeat {α : Type} [LinearOrder α] (xs : List α) : Option α :=
  let sorted := xs.mergeSort (· ≤ ·)
  ((sorted.zip sorted.tail).find? fun w => w.1 = w.2).map Prod.fst

/-- `Origin`: where a graph type came from. -/
inductive Origin
  | declared | stored
  deriving DecidableEq, Repr

def corrupt (detail : String) : ZuError := .corrupt "catalog" detail

def Origin.refuse (origin : Origin) (status detail : String) : ZuError :=
  match origin with
  | .declared => .gql status detail
  | .stored => corrupt detail

/-- Fails with the error unless the condition holds. -/
def ensure (p : Prop) [Decidable p] (err : ZuError) : Except ZuError Unit :=
  if p then .ok () else .error err

theorem ensure_ok {p : Prop} [Decidable p] {err : ZuError} {u : Unit} :
    ensure p err = .ok u ↔ p := by
  unfold ensure
  by_cases hp : p
  · rw [if_pos hp]
    exact iff_of_true rfl hp
  · rw [if_neg hp]
    exact iff_of_false (fun h => nomatch h) hp

theorem forM_ok {α : Type} {f : α → Except ZuError Unit} {xs : List α} :
    xs.forM f = .ok () ↔ ∀ x ∈ xs, f x = .ok () := by
  induction xs with
  | nil => exact iff_of_true rfl fun x hx => nomatch hx
  | cons x xs ih =>
      change (f x >>= fun _ => xs.forM f) = _ ↔ _
      rw [Lib.except_bind_ok, List.forall_mem_cons, ← ih]
      constructor
      · rintro ⟨⟨⟩, hx, hxs⟩
        exact ⟨hx, hxs⟩
      · rintro ⟨hx, hxs⟩
        exact ⟨(), hx, hxs⟩

/-- Fails on a list that holds a value twice, with the error for that value. -/
def noRepeat {α : Type} [LinearOrder α] (xs : List α) (err : α → ZuError) :
    Except ZuError Unit :=
  match firstRepeat xs with
  | some twice => .error (err twice)
  | none => .ok ()

theorem noRepeat_nil {α : Type} [LinearOrder α] (err : α → ZuError) :
    noRepeat [] err = .ok () := by
  simp [noRepeat, firstRepeat]

theorem noRepeat_singleton {α : Type} [LinearOrder α] (a : α) (err : α → ZuError) :
    noRepeat [a] err = .ok () := by
  simp [noRepeat, firstRepeat]

namespace ElementType

/-- What an element type is called in an error. -/
def label (e : ElementType) (graph : String) : String := s!"element type '{graph}.{e.name}'"

def checkEnd (e : ElementType) (t : GraphType) (origin : Origin) (fin : Option String) :
    Except ZuError Unit :=
  match fin with
  | none => .error (origin.refuse "42000"
      s!"{e.label t.name} is an edge type with no endpoint")
  | some fin => ensure ((t.element fin).any fun o => o.kind = .node)
      (origin.refuse "42002" s!"{e.label t.name} ends at '{fin}', which is no node type here")

/-- A node type has no ends, and an edge type has two. -/
def checkEnds (e : ElementType) (t : GraphType) (origin : Origin) : Except ZuError Unit :=
  match e.kind with
  | .node => ensure (e.fromType = none ∧ e.toType = none)
      (origin.refuse "42000" s!"{e.label t.name} is a node type with endpoints")
  | .edge => [e.fromType, e.toType].forM (e.checkEnd t origin)

def validate (e : ElementType) (t : GraphType) (labels : ℕ) (origin : Origin) :
    Except ZuError Unit := do
  (e.labels ++ e.keyLabels.ids).forM fun l => ensure (l.toNat < labels)
    (origin.refuse "42002" s!"{e.label t.name} names label {l.toNat} of {labels}")
  e.keyLabels.ids.forM fun key => ensure (key ∈ e.labels)
    (origin.refuse "42000" s!"{e.label t.name} keys on label {key.toNat}, which it does not carry")
  noRepeat (e.properties.map PropertyType.name) fun twice => origin.refuse "42000"
    s!"{e.label t.name} declares a property twice, both named '{twice}'"
  e.properties.forM fun p => ensure (declaredTypeBytes p.type).isSome
    (origin.refuse "42000"
      s!"{e.label t.name} declares '{p.name}' with a type this file cannot write")
  e.checkEnds t origin
  ensure (¬ (t.closed ∧ e.keyLabels = .none))
    (origin.refuse (if e.kind = .node then "42012" else "42014")
      s!"{e.label t.name} has no key label set in a closed graph type")
  ensure (¬ (t.closed ∧ e.isOpen))
    (origin.refuse "42000" s!"{e.label t.name} is open in a closed graph type")

end ElementType

def GraphType.validate (t : GraphType) (labels : ℕ) (origin : Origin) :
    Except ZuError Unit := do
  noRepeat (t.elements.map ElementType.name) fun twice => origin.refuse "42000"
    s!"graph type '{t.name}' declares an element type twice, both named '{twice}'"
  t.elements.forM fun e => e.validate t labels origin

namespace Catalog

variable (c : Catalog)

/-- No label of a node table is past the end of the dictionary. -/
def checkWorst (t : NodeTable) : Except ZuError Unit :=
  match (t.labels.map UInt16.toNat).max? with
  | some worst => ensure (worst < c.labels.length)
      (corrupt s!"node table '{t.name}' declares label {worst} of {c.labels.length}")
  | none => .ok ()

def checkLabels (t : NodeTable) : Except ZuError Unit := do
  ensure (t.labels.head?.bind c.labelName = some t.name)
    (corrupt s!"node table '{t.name}' does not declare its own name")
  ensure t.labels.Nodup (corrupt s!"node table '{t.name}' declares a label twice")
  c.checkWorst t

def checkEnd (t : RelTable) (fin : UInt32) : Except ZuError Unit :=
  match c.nodeById fin with
  | none => .error (corrupt
      s!"rel table '{t.name}' references missing node table id {fin.toNat}")
  | some node => ensure (node.graph = t.graph) (corrupt
      s!"rel table '{t.name}' is in graph {t.graph.toNat} and ends on '{node.name}' in graph {node.graph.toNat}")

def checkTypeOf (g : GraphDef) : Except ZuError Unit :=
  match g.graphType with
  | .any => .ok ()
  | .named name => ensure (c.graphType name).isSome (corrupt
      s!"graph '{g.name}' is of graph type '{name}', which this file does not hold")
  | .inline type => type.validate c.labels.length .stored

def checkDef (g : GraphDef) : Except ZuError Unit := do
  ensure (c.hasSchema g.schema) (corrupt
    s!"graph '{g.name}' is in schema '{g.schema}', which this file does not hold")
  c.checkTypeOf g

/-- The tables by graph and name, node tables first. -/
def tableNames : List (UInt32 × String) :=
  (c.nodes.map fun t => (t.graph, t.name)) ++ (c.rels.map fun t => (t.graph, t.name))

def validate : Except ZuError Unit := do
  c.tableIds.forM fun id => ensure (id ≤ maxTableId)
    (corrupt s!"table id {id.toNat} above {maxTableId.toNat}")
  ensure c.tableIds.Nodup (corrupt "duplicate table id")
  noRepeat (c.tableNames.map fun n => toLex (n.1.toNat, n.2)) fun twice =>
    corrupt s!"graph {(ofLex twice).1} holds two tables called '{(ofLex twice).2}'"
  ensure (c.labels.length ≤ maxLabels) (corrupt s!"{c.labels.length} labels above {maxLabels}")
  ensure c.labels.Nodup (corrupt "duplicate label name")
  c.nodes.forM c.checkLabels
  c.rels.forM fun t => [t.fromId, t.toId].forM (c.checkEnd t)
  ensure (c.graphTypes.map GraphType.name).Nodup (corrupt "duplicate graph type name")
  c.graphTypes.forM fun t => t.validate c.labels.length .stored
  ensure c.schemas.Nodup (corrupt "duplicate schema path")
  ensure (c.graphs.map GraphDef.id).Nodup (corrupt "duplicate graph id")
  ensure (c.graphs.map fun g => (g.schema, g.name)).Nodup (corrupt "duplicate graph name")
  c.graphs.forM c.checkDef
  c.tableNames.forM fun n => ensure (c.graphById n.1).isSome
    (corrupt s!"table '{n.2}' is in graph {n.1.toNat}, which this file does not hold")

end Catalog

end Zu.Schema
