import Zu.Schema.Loads

/-!
# What one operation does to the names and the ids of a catalog

`Closed` says once what the operations that leave the graphs alone can do, and one
lemma for each operation derives from it what the operation keeps. `Grown` is the
instance for ids: graphs and tables only come in, under ids above all there are.
-/

namespace Zu.Schema

open Lib

/-! ### Ids above all there are -/

/-- Ids handed out one after another, each above all before it. -/
def Above (ids new : List UInt32) : Prop :=
  new.Pairwise (· < ·) ∧ ∀ x ∈ ids, ∀ y ∈ new, x < y

theorem Above.nil (ids : List UInt32) : Above ids [] :=
  ⟨List.Pairwise.nil, fun _ _ _ hy => nomatch hy⟩

theorem Above.snoc {ids new : List UInt32} (h : Above ids new) {id : UInt32}
    (hid : ∀ x ∈ ids ++ new, x < id) : Above ids (new ++ [id]) := by
  constructor
  · refine List.pairwise_append.2 ⟨h.1, List.pairwise_singleton .., fun x hx y hy => ?_⟩
    rw [List.mem_singleton.1 hy]
    exact hid x (List.mem_append_right _ hx)
  · intro x hx y hy
    rcases List.mem_append.1 hy with hy | hy
    · exact h.2 x hx y hy
    · rw [List.mem_singleton.1 hy]
      exact hid x (List.mem_append_left _ hx)

theorem maxId_eq_none {ids : List UInt32} (h : maxId ids = none) : ids = [] := by
  cases ids with
  | nil => rfl
  | cons id ids => exact nomatch h

theorem le_maxId {ids : List UInt32} {m x : UInt32} (h : maxId ids = some m) (hx : x ∈ ids) :
    x ≤ m := by
  induction ids generalizing m with
  | nil => exact nomatch hx
  | cons id ids ih =>
      rw [maxId] at h
      cases hmax : maxId ids with
      | none =>
          rw [maxId_eq_none hmax] at hx
          rw [hmax] at h
          rw [List.mem_singleton.1 hx, ← Option.some.inj h]
          exact UInt32.le_refl id
      | some m' =>
          rw [hmax] at h
          have hm : (if m' ≤ id then id else m') = m := Option.some.inj h
          rcases List.mem_cons.1 hx with rfl | hx
          · split_ifs at hm with hle
            · exact hm ▸ UInt32.le_refl x
            · exact hm ▸ UInt32.le_of_lt (UInt32.not_le.1 hle)
          · refine UInt32.le_trans (ih hmax hx) ?_
            split_ifs at hm with hle
            · exact hm ▸ hle
            · exact hm ▸ UInt32.le_refl m'

theorem lt_succ_of_le {x m bound : UInt32} (hx : x ≤ m) (hm : m < bound) : x < m + 1 := by
  rw [UInt32.lt_iff_toNat_lt] at hm ⊢
  rw [UInt32.le_iff_toNat_le] at hx
  have hbound := bound.toNat_lt
  rw [UInt32.toNat_add]
  have hone : (1 : UInt32).toNat = 1 := rfl
  omega

def Catalog.graphIds (c : Catalog) : List UInt32 := c.graphs.map GraphDef.id

theorem Catalog.nextGraphId_above {c : Catalog} {id : UInt32} (h : c.nextGraphId = .ok id) :
    ∀ x ∈ c.graphIds, x < id := by
  intro x hx
  unfold Catalog.nextGraphId at h
  cases hmax : maxId (c.graphs.map GraphDef.id) with
  | none =>
      have hnil := maxId_eq_none hmax
      rw [Catalog.graphIds, hnil] at hx
      exact nomatch hx
  | some m =>
      rw [hmax] at h
      dsimp only at h
      split_ifs at h with hlt
      cases h
      exact lt_succ_of_le (le_maxId hmax hx) hlt

theorem Catalog.nextId_above {c : Catalog} {id : UInt32} (h : c.nextId = .ok id) :
    ∀ x ∈ c.tableIds, x < id := by
  intro x hx
  unfold Catalog.nextId at h
  cases hmax : maxId c.tableIds with
  | none =>
      rw [maxId_eq_none hmax] at hx
      exact nomatch hx
  | some m =>
      rw [hmax] at h
      dsimp only at h
      split_ifs at h with hlt
      cases h
      exact lt_succ_of_le (le_maxId hmax hx) hlt

/-! ### What the operations keep -/

/-- Kept by every change of a catalog that leaves its graphs alone: the labels and the
schemas that come in have names the reader takes, and the tables that come in have the
next id. -/
structure Closed (P : Catalog → Prop) : Prop where
  label : ∀ c name, P c → NameFits name → P { c with labels := c.labels ++ [name] }
  types : ∀ c graphTypes, P c → P { c with graphTypes }
  schemas : ∀ c schemas, P c → (∀ s ∈ schemas, s ∈ c.schemas ∨ NameFits s) →
    P { c with schemas }
  node : ∀ c (t : NodeTable), P c → c.nextId = .ok t.id → P { c with nodes := c.nodes ++ [t] }
  rel : ∀ c (t : RelTable), P c → c.nextId = .ok t.id → P { c with rels := c.rels ++ [t] }
  same : ∀ c nodes rels, P c → nodes.map NodeTable.id = c.nodes.map NodeTable.id →
    rels.map RelTable.id = c.rels.map RelTable.id → P { c with nodes, rels }

theorem Closed.and {P Q : Catalog → Prop} (hP : Closed P) (hQ : Closed Q) :
    Closed fun c => P c ∧ Q c where
  label c name h hname := ⟨hP.label c name h.1 hname, hQ.label c name h.2 hname⟩
  types c ts h := ⟨hP.types c ts h.1, hQ.types c ts h.2⟩
  schemas c ss h hss := ⟨hP.schemas c ss h.1 hss, hQ.schemas c ss h.2 hss⟩
  node c t h hid := ⟨hP.node c t h.1 hid, hQ.node c t h.2 hid⟩
  rel c t h hid := ⟨hP.rel c t h.1 hid, hQ.rel c t h.2 hid⟩
  same c ns rs h hns hrs := ⟨hP.same c ns rs h.1 hns hrs, hQ.same c ns rs h.2 hns hrs⟩

theorem Closed.of_graphs (p : List GraphDef → Prop) : Closed fun c => p c.graphs where
  label _ _ h _ := h
  types _ _ h := h
  schemas _ _ h _ := h
  node _ _ h _ := h
  rel _ _ h _ := h
  same _ _ _ h _ _ := h

/-- The labels and the schemas have names the reader takes. -/
def Catalog.NamesFit (c : Catalog) : Prop :=
  (∀ l ∈ c.labels, NameFits l) ∧ ∀ s ∈ c.schemas, NameFits s

theorem closed_namesFit : Closed Catalog.NamesFit where
  label c name h hname := by
    refine ⟨fun l hl => ?_, h.2⟩
    rcases List.mem_append.1 hl with hl | hl
    · exact h.1 l hl
    · exact List.mem_singleton.1 hl ▸ hname
  types _ _ h := h
  schemas _ _ h hss := ⟨h.1, fun s hs => (hss s hs).elim (h.2 s) id⟩
  node _ _ h _ := h
  rel _ _ h _ := h
  same _ _ _ h _ _ := h

theorem nameFits_rootSchema : NameFits rootSchema := by
  constructor <;> decide

theorem Catalog.NamesFit.ensureHome {c : Catalog} (h : c.NamesFit) : c.ensureHome.NamesFit := by
  unfold Catalog.ensureHome
  split_ifs
  · exact h
  all_goals refine ⟨h.1, fun s hs => ?_⟩
  · exact h.2 s hs
  · rcases List.mem_append.1 hs with hs | hs
    · exact h.2 s hs
    · exact List.mem_singleton.1 hs ▸ nameFits_rootSchema

/-! ### What only adds -/

/-- The home graph is there, or an id is left for it. -/
def Catalog.HomeOk (c : Catalog) : Prop :=
  (c.graph rootSchema homeGraph).isSome ∨ ∃ id, c.nextGraphId = .ok id

/-- Graphs and tables only came in, under ids above all there were in `c₀`. -/
structure Grown (c₀ c : Catalog) : Prop where
  graphs : ∃ new, c.graphs = c₀.graphs ++ new ∧ Above c₀.graphIds (new.map GraphDef.id)
  tables : ∃ new, c.tableIds.Perm (c₀.tableIds ++ new) ∧ Above c₀.tableIds new

namespace Grown

variable {c₀ c : Catalog}

theorem refl (c : Catalog) : Grown c c where
  graphs := ⟨[], (List.append_nil _).symm, Above.nil _⟩
  tables := ⟨[], by rw [List.append_nil], Above.nil _⟩

theorem pushTable (h : Grown c₀ c) {id : UInt32} (hid : c.nextId = .ok id)
    {nodes : List NodeTable} {rels : List RelTable}
    (hids : (nodes.map NodeTable.id ++ rels.map RelTable.id).Perm (c.tableIds ++ [id])) :
    Grown c₀ { c with nodes, rels } where
  graphs := h.graphs
  tables := by
    obtain ⟨new, hperm, habove⟩ := h.tables
    refine ⟨new ++ [id], ?_, habove.snoc fun x hx => ?_⟩
    · rw [← List.append_assoc]
      exact hids.trans (hperm.append_right [id])
    · exact Catalog.nextId_above hid x (hperm.mem_iff.2 hx)

theorem pushGraph (h : Grown c₀ c) {g : GraphDef} (hid : c.nextGraphId = .ok g.id)
    (schemas : List String) : Grown c₀ { c with schemas, graphs := c.graphs ++ [g] } where
  graphs := by
    obtain ⟨new, hgraphs, habove⟩ := h.graphs
    refine ⟨new ++ [g], ?_, ?_⟩
    · rw [← List.append_assoc, ← hgraphs]
    · rw [List.map_append]
      refine habove.snoc fun x hx => Catalog.nextGraphId_above hid x ?_
      rw [Catalog.graphIds, hgraphs, List.map_append]
      exact hx
  tables := h.tables

theorem closed (c₀ : Catalog) : Closed (Grown c₀) where
  label _ _ h _ := ⟨h.graphs, h.tables⟩
  types _ _ h := ⟨h.graphs, h.tables⟩
  schemas _ _ h _ := ⟨h.graphs, h.tables⟩
  node c t h hid := by
    refine h.pushTable hid ?_
    rw [List.map_append, List.append_assoc, Catalog.tableIds, List.append_assoc]
    exact List.Perm.append_left _ List.perm_append_comm
  rel c t h hid := by
    refine h.pushTable hid (List.Perm.of_eq ?_)
    rw [List.map_append, Catalog.tableIds, List.append_assoc]
    rfl
  same c ns rs h hns hrs := by
    obtain ⟨new, hperm, habove⟩ := h.tables
    have hids : ns.map NodeTable.id ++ rs.map RelTable.id = c.tableIds := by
      rw [hns, hrs]
      rfl
    exact ⟨h.graphs, new, (List.Perm.of_eq hids).trans hperm, habove⟩

theorem ensureHome (h : Grown c₀ c) (hhome : c.HomeOk) : Grown c₀ c.ensureHome := by
  unfold Catalog.ensureHome
  split_ifs with hhere hroot
  · exact h
  all_goals
    obtain ⟨id, hid⟩ := hhome.resolve_left hhere
    refine h.pushGraph ?_ _
    rw [hid]
    rfl

end Grown

theorem Catalog.homeOk_ensureHome (c : Catalog) : c.ensureHome.HomeOk := by
  refine Or.inl ?_
  unfold Catalog.ensureHome
  split_ifs with hhere
  · exact hhere
  all_goals
    rw [Catalog.graph, List.find?_isSome]
    exact ⟨_, List.mem_append_right _ List.mem_cons_self, by simp⟩

/-! ### The parts of an operation -/

section

variable {P : Catalog → Prop}

/-- A label is in the dictionary already, or goes in under a name the reader takes. -/
theorem internLabel_triple
    (hP : ∀ c name, P c → NameFits name → P { c with labels := c.labels ++ [name] })
    (name : String) : Triple P (internLabel name) (fun _ => P) P := by
  refine Triple.readState fun c hc => ?_
  cases hid : c.labelId name with
  | some id => exact Triple.pure fun s hs => hs ▸ hc
  | none =>
      have hcheck := check_triple (P := fun s => s = c) (ensure (name ≠ "" ∧
        name.utf8ByteSize ≤ maxNameLen)
        (.invalidArgument s!"label name length {name.utf8ByteSize} out of 1..{maxNameLen}"))
      refine (hcheck.weaken (fun _ h => h) (fun _ _ h => h) fun s hs => hs ▸ hc).bind fun _ => ?_
      refine ((check_triple _).weaken (fun _ h => h) (fun _ _ h => h) fun s hs => hs.1 ▸ hc).bind
        fun _ => ?_
      refine Triple.bind (Q := fun _ => P) (Triple.put fun s hs => ?_) fun _ =>
        Triple.pure fun s hs => hs
      obtain ⟨hne, hlen⟩ := ensure_ok.1 hs.1.2
      refine hP c name hc ⟨Nat.pos_of_ne_zero fun hzero => hne ?_, hlen⟩
      exact String.utf8ByteSize_eq_zero_iff.1 hzero

theorem Catalog.nextId_congr {c c' : Catalog} (h : c'.tableIds = c.tableIds) :
    c'.nextId = c.nextId := by
  rw [nextId, nextId, h]

theorem map_updateFirst {α β : Type} {p : α → Bool} {f : α → α} {g : α → β}
    (h : ∀ a, g (f a) = g a) (as : List α) : (updateFirst p f as).map g = as.map g := by
  induction as with
  | nil => rfl
  | cons a as ih =>
      rw [updateFirst]
      split_ifs
      · rw [List.map_cons, List.map_cons, h]
      · rw [List.map_cons, List.map_cons, ih]

theorem NodeTable.declare_id (label : UInt16) (t : NodeTable) : (t.declare label).id = t.id := by
  unfold declare
  split_ifs <;> rfl

theorem Closed.updateNode (hP : Closed P) {c : Catalog} (h : P c) {p : NodeTable → Bool}
    {f : NodeTable → NodeTable} (hf : ∀ t, (f t).id = t.id) :
    P { c with nodes := updateFirst p f c.nodes } :=
  hP.same c _ c.rels h (map_updateFirst hf _) rfl

theorem Closed.updateRel (hP : Closed P) {c : Catalog} (h : P c) {p : RelTable → Bool}
    {f : RelTable → RelTable} (hf : ∀ t, (f t).id = t.id) :
    P { c with rels := updateFirst p f c.rels } :=
  hP.same c c.nodes _ h rfl (map_updateFirst hf _)

/-- A program that only reads and then puts back what it made. -/
theorem put_triple {c' : Catalog} (h : P c') {Q : Catalog → Prop} {α : Type} (a : α) :
    Triple Q (do set c'; return a : CatalogM α) (fun _ => P) P :=
  Triple.bind (Q := fun _ => P) (Triple.put fun _ _ => h) fun _ => Triple.pure fun _ hs => hs

theorem checked_triple {c : Catalog} (hc : P c) {e : Except ZuError Unit} {α : Type}
    {f : Unit → CatalogM α}
    (hf : e = .ok () → Triple (fun s => s = c) (f ()) (fun _ => P) P) :
    Triple (fun s => s = c) (check e >>= f) (fun _ => P) P := by
  refine Triple.bind ((check_triple e).weaken (fun _ h => h) (fun _ _ h => h)
    fun s hs => hs ▸ hc) fun _ => ?_
  intro s hs
  exact hf hs.2 s hs.1

theorem answered_triple {c : Catalog} (hc : P c) {α β : Type} {e : Except ZuError α}
    {f : α → CatalogM β}
    (hf : ∀ a, e = .ok a → Triple (fun s => s = c) (f a) (fun _ => P) P) :
    Triple (fun s => s = c) (answer e >>= f) (fun _ => P) P := by
  refine Triple.bind ((answer_triple e).weaken (fun _ h => h) (fun _ _ h => h)
    fun s hs => hs ▸ hc) fun a => ?_
  intro s hs
  exact hf a hs.2 s hs.1

theorem pushNode_triple (hP : Closed P) (graph : UInt32) (name : String) (nodeCount : UInt64) :
    Triple P (pushNode graph name nodeCount) (fun _ => P) P := by
  refine Triple.readState fun c hc => answered_triple hc fun id hid => ?_
  refine Triple.bind (Q := fun _ s => P s ∧ s.nextId = .ok id) ?_ fun primary => ?_
  · refine (internLabel_triple (P := fun s => P s ∧ s.nextId = .ok id) ?_ name).weaken
      (fun s hs => ?_) (fun _ _ h => h) fun s hs => hs.1
    · exact fun s l hs hl => ⟨hP.label s l hs.1 hl, (Catalog.nextId_congr rfl).trans hs.2⟩
    · rw [hs]
      exact ⟨hc, hid⟩
  · refine Triple.bind (Q := fun _ => P) (Triple.update fun s hs => ?_) fun _ =>
      Triple.pure fun s hs => hs
    exact hP.node s ⟨id, name, graph, nodeCount, [primary]⟩ hs.1 hs.2

/-! ### The operations -/

theorem declareLabel_triple (hP : Closed P) (table : UInt32) (label : String) :
    Triple P (declareLabel table label) (fun _ => P) P := by
  refine (internLabel_triple hP.label label).bind fun id => ?_
  refine Triple.readState fun c hc => checked_triple hc fun _ => ?_
  exact put_triple (hP.updateNode hc (NodeTable.declare_id id)) id

theorem addGraphType_triple (hP : Closed P) (type : GraphType) :
    Triple P (addGraphType type) (fun _ => P) P := by
  refine Triple.readState fun c hc => checked_triple hc fun _ => checked_triple hc fun _ => ?_
  exact Triple.put fun _ _ => hP.types c _ hc

theorem dropGraphType_triple (hP : Closed P) (name : String) :
    Triple P (dropGraphType name) (fun _ => P) P :=
  Triple.readState fun c hc => put_triple (hP.types c _ hc) _

theorem addSchema_triple (hP : Closed P) (path : String) :
    Triple P (addSchema path) (fun _ => P) P := by
  refine Triple.readState fun c hc => checked_triple hc fun hpath => checked_triple hc fun _ => ?_
  refine Triple.put fun _ _ => hP.schemas c _ hc fun s hs => ?_
  obtain ⟨habs, hlen⟩ := ensure_ok.1 hpath
  rcases List.mem_append.1 hs with hs | hs
  · exact Or.inl hs
  · rw [List.mem_singleton.1 hs]
    refine Or.inr ⟨Nat.pos_of_ne_zero fun hzero => ?_, hlen⟩
    rw [String.utf8ByteSize_eq_zero_iff.1 hzero] at habs
    exact absurd habs (by decide)

theorem dropSchema_triple (hP : Closed P) (path : String) :
    Triple P (dropSchema path) (fun _ => P) P :=
  Triple.readState fun c hc => put_triple
    (hP.schemas c _ hc fun _ hs => Or.inl (List.mem_of_mem_filter hs)) _

theorem growNode_triple (hP : Closed P) (id : UInt32) (nodeCount : UInt64) :
    Triple P (growNode id nodeCount) (fun _ => P) P :=
  Triple.readState fun _ hc => checked_triple hc fun _ =>
    Triple.put fun _ _ => hP.updateNode hc fun _ => rfl

theorem setEdgeCount_triple (hP : Closed P) (id : UInt32) (edgeCount : UInt64) :
    Triple P (setEdgeCount id edgeCount) (fun _ => P) P :=
  Triple.readState fun _ hc => checked_triple hc fun _ =>
    Triple.put fun _ _ => hP.updateRel hc fun _ => rfl

theorem createNodeIn_triple (hP : Closed P) (graph : UInt32) (name : String) :
    Triple P (createNodeIn graph name) (fun _ => P) P := by
  refine Triple.readState fun c hc => checked_triple hc fun _ => checked_triple hc fun _ =>
    checked_triple hc fun _ => ?_
  exact (pushNode_triple hP graph name 0).weaken (fun s hs => hs ▸ hc) (fun _ _ h => h) fun _ h => h

theorem copyNodes_triple (hP : Closed P) (target : UInt32) (ts : List NodeTable) :
    Triple P (copyNodes target ts) (fun _ => P) P := by
  induction ts with
  | nil => exact Triple.pure fun _ hs => hs
  | cons t ts ih =>
      refine Triple.readState fun c hc => answered_triple hc fun id hid => ?_
      refine Triple.bind (Q := fun _ => P) (Triple.update fun s hs => ?_) fun _ =>
        ih.bind fun _ => Triple.pure fun _ hs => hs
      rw [hs]
      exact hP.node c { t with id, graph := target } hc hid

theorem copyRels_triple (hP : Closed P) (source target : UInt32) (nodes : List TableCopy)
    (ts : List RelTable) :
    Triple P (copyRels source target nodes ts) (fun _ => P) P := by
  induction ts with
  | nil => exact Triple.pure fun _ hs => hs
  | cons t ts ih =>
      rw [copyRels]
      split
      · refine Triple.readState fun c hc => answered_triple hc fun id hid => ?_
        refine Triple.bind (Q := fun _ => P) (Triple.update fun s hs => ?_) fun _ =>
          ih.bind fun _ => Triple.pure fun _ hs => hs
        rw [hs]
        exact hP.rel c { t with id, graph := target, fromId := _, toId := _ } hc hid
      · exact Triple.throw fun _ hs => hs

theorem copyGraphTables_triple (hP : Closed P) (source target : UInt32) :
    Triple P (copyGraphTables source target) (fun _ => P) P := by
  refine Triple.readState fun c hc => ?_
  refine Triple.bind (Q := fun _ => P) ((copyNodes_triple hP target _).weaken
    (fun s hs => hs ▸ hc) (fun _ _ h => h) fun _ h => h) fun nodes => ?_
  exact (copyRels_triple hP source target nodes _).bind fun _ => Triple.pure fun _ hs => hs

theorem addGraph_triple
    (hP : ∀ c (g : GraphDef), P c → c.nextGraphId = .ok g.id → P { c with graphs := c.graphs ++ [g] })
    (name schema : String) (type : GraphTypeOf) :
    Triple P (addGraph name schema type) (fun _ => P) P := by
  refine Triple.readState fun c hc => checked_triple hc fun _ => checked_triple hc fun _ =>
    answered_triple hc fun id hid => ?_
  exact put_triple (hP c ⟨id, name, schema, type⟩ hc hid) id

theorem homeIdOf_triple (hhome : ∀ c, P c → P c.ensureHome) :
    Triple P homeIdOf (fun _ => P) P :=
  Triple.bind (Q := fun _ => P) (Triple.update hhome) fun _ =>
    Triple.readState fun _ hc => Triple.pure fun _ hs => hs ▸ hc

theorem upsertNode_triple (hP : Closed P) (hhome : ∀ c, P c → P c.ensureHome) (name : String)
    (nodeCount : UInt64) : Triple P (upsertNode name nodeCount) (fun _ => P) P := by
  refine Triple.readState fun c hc => checked_triple hc fun _ => ?_
  refine Triple.bind ((homeIdOf_triple hhome).weaken (fun s hs => hs ▸ hc) (fun _ _ h => h)
    fun _ h => h) fun home => Triple.readState fun c' hc' => ?_
  cases c'.nodeIn home name with
  | some t => exact put_triple (hP.updateNode hc' (f := NodeTable.grow nodeCount) fun _ => rfl) t.id
  | none =>
      exact (pushNode_triple hP home name nodeCount).weaken (fun s hs => hs ▸ hc') (fun _ _ h => h)
        fun _ h => h

theorem graphOfRel_triple (hhome : ∀ c, P c → P c.ensureHome) (fromId : UInt32) :
    Triple P (graphOfRel fromId) (fun _ => P) P := by
  refine Triple.readState fun c hc => ?_
  cases c.nodeById fromId with
  | some t => exact Triple.pure fun s hs => hs ▸ hc
  | none =>
      exact (homeIdOf_triple hhome).weaken (fun s hs => hs ▸ hc) (fun _ _ h => h) fun _ h => h

theorem upsertRelAs_triple (hP : Closed P) (hhome : ∀ c, P c → P c.ensureHome) (name : String)
    (fromId toId : UInt32) (edgeCount : UInt64) (undirected : Bool) :
    Triple P (upsertRelAs name fromId toId edgeCount undirected) (fun _ => P) P := by
  refine Triple.readState fun c hc => checked_triple hc fun _ => ?_
  refine Triple.bind ((graphOfRel_triple hhome fromId).weaken (fun s hs => hs ▸ hc)
    (fun _ _ h => h) fun _ h => h) fun graph => Triple.readState fun c' hc' => ?_
  cases c'.relIn graph name with
  | some t =>
      exact put_triple (hP.updateRel hc'
        (f := RelTable.redefine fromId toId edgeCount undirected) fun _ => rfl) t.id
  | none =>
      refine answered_triple hc' fun id hid => ?_
      exact put_triple (hP.rel c' ⟨id, name, graph, fromId, toId, edgeCount, undirected⟩ hc' hid) id

end

def Catalog.without (c : Catalog) (id : UInt32) : Catalog :=
  { c with
    graphs := c.graphs.filter fun g => g.id ≠ id
    nodes := c.nodes.filter fun t => t.graph ≠ id
    rels := c.rels.filter fun t => t.graph ≠ id }

theorem exec_dropGraph (c : Catalog) (id : UInt32) :
    ((dropGraph id).exec c).2 =
      if (c.graphs.filter fun g => g.id ≠ id).length = c.graphs.length then c
      else c.without id := by
  change ((if _ then _ else _ : CatalogM Bool).exec c).2 = _
  split_ifs <;> rfl

end Zu.Schema
