import Zu.Schema.Statements
import Zu.Schema.Stored

/-!
# An id names one graph or one table

A drop that takes the graph or the table with the highest id away gives that id to the
next one that is made. As long as no statement takes those, every id is handed out once,
so a reference that is still accepted names the graph it was taken for.
-/

namespace Zu.Schema

open Lib

/-! ### What building a type does -/

theorem likeGraph_triple {P : Catalog → Prop} (name source : String) :
    Triple P (likeGraph name source) (fun _ => P) P := by
  refine Triple.readState fun c hc => answered_triple hc fun g _ => ?_
  split
  · exact Triple.pure fun s hs => hs ▸ hc
  · exact Triple.pure fun s hs => hs ▸ hc
  · refine Triple.ite (fun _ => Triple.pure fun s hs => hs ▸ hc) fun _ => ?_
    exact answered_triple hc fun _ _ => Triple.pure fun s hs => hs ▸ hc

section

variable {P : Catalog → Prop}
  (hP : ∀ c name, P c → NameFits name → P { c with labels := c.labels ++ [name] })

include hP

theorem intern_triple (names : List String) : Triple P (intern names) (fun _ => P) P := by
  induction names with
  | nil => exact Triple.pure fun _ hs => hs
  | cons name names ih =>
      exact (internLabel_triple hP name).bind fun _ => ih.bind fun _ => Triple.pure fun _ hs => hs

theorem elementOf_triple (t : GraphType) (d : ElementTypeDef) :
    Triple P (elementOf t d) (fun _ => P) P := by
  refine (intern_triple hP d.labels).bind fun labels => Triple.ite (fun _ => ?_) fun _ => ?_
  · exact Triple.pure fun _ hs => hs
  · exact (intern_triple hP d.keyLabels).bind fun _ => Triple.pure fun _ hs => hs

theorem resolve_triple (t : GraphType) (fin : Endpoint) :
    Triple P (resolve t fin) (fun _ => P) P := by
  cases fin with
  | named name =>
      rw [resolve]
      split
      · exact Triple.ite (fun _ => Triple.pure fun _ hs => hs) fun _ => Triple.throw fun _ hs => hs
      · exact Triple.throw fun _ hs => hs
  | inline d =>
      refine (elementOf_triple hP t d).bind fun e => ?_
      split
      · exact Triple.pure fun _ hs => hs
      · exact Triple.pure fun _ hs => hs

theorem buildElements_triple (defs : List (ElementTypeDef × ElementDefKind)) (t : GraphType) :
    Triple P (buildElements t defs) (fun _ => P) P := by
  induction defs generalizing t with
  | nil => exact Triple.pure fun _ hs => hs
  | cons def_ defs ih =>
      obtain ⟨d, kind⟩ := def_
      cases kind with
      | node => exact (elementOf_triple hP t d).bind fun _ => ih _
      | edge fromEnd toEnd undirected =>
          exact (resolve_triple hP t fromEnd).bind fun src =>
            (resolve_triple hP src.1 toEnd).bind fun dst =>
              (elementOf_triple hP dst.1 d).bind fun _ => ih _

theorem build_triple (name : String) (source : GraphTypeSource) :
    Triple P (build name source) (fun _ => P) P := by
  cases source with
  | elements defs => exact buildElements_triple hP defs _
  | like graph =>
      refine Triple.readState fun c hc => answered_triple hc fun g _ => ?_
      exact (answer_triple _).weaken (fun s hs => hs ▸ hc) (fun _ _ h => h.1) fun _ h => h
  | copy type =>
      refine Triple.readState fun c hc => ?_
      split
      · exact Triple.pure fun s hs => hs ▸ hc
      · exact Triple.throw fun s hs => hs ▸ hc

theorem graphTypeOf_triple (name : String) (of : GraphTypeRef) :
    Triple P (graphTypeOf name of) (fun _ => P) P := by
  cases of with
  | any => exact Triple.pure fun _ hs => hs
  | named type => exact Triple.pure fun _ hs => hs
  | source source =>
      have hbuild : Triple P (do return GraphTypeOf.inline (← build name source))
          (fun _ => P) P := (build_triple hP name source).bind fun _ => Triple.pure fun _ hs => hs
      cases source with
      | like graph => exact likeGraph_triple name graph
      | elements defs => exact hbuild
      | copy type => exact hbuild

end

/-! ### What a statement does to the notes -/

/-- The catalog, when its bytes can be read, is read back from them as it is. -/
def Catalog.ReadsBack (c : Catalog) : Prop := ∀ c', Catalog.decode c.encode = .ok c' → c' = c

section

variable {s₀ : Ledger} {P : Ledger → Prop}

theorem loadCatalog_triple :
    Triple (fun s => P s ∧ s.catalog.ReadsBack) loadCatalog (fun _ => P) fun _ => True := by
  rintro s ⟨hs, hback⟩
  refine ⟨fun a t ht => ?_, fun _ _ _ => trivial⟩
  rw [Fallible.exec, loadCatalog] at ht
  cases hread : Catalog.decode s.catalog.encode with
  | ok c =>
      rw [hread, hback c hread] at ht
      cases ht
      exact hs
  | error err =>
      rw [hread] at ht
      cases ht

theorem storeCatalog_triple : Triple P storeCatalog (fun _ => P) fun _ => True :=
  Triple.readState fun _ hs => (check_triple _).weaken (fun _ h => h) (fun _ _ h => h.1 ▸ hs)
    fun _ _ => trivial

theorem published_triple (effect : Effect) :
    Triple P (published effect) (fun _ => P) fun _ => True :=
  storeCatalog_triple.bind fun _ => Triple.pure fun _ hs => hs

theorem refused_triple (accepted : Bool) (detail : String) :
    Triple P (refused accepted detail) (fun _ => P) fun _ => True :=
  Triple.ite (fun _ => Triple.pure fun _ hs => hs) fun _ => Triple.throw fun _ _ => trivial

theorem note_closed {α : Type} {x : CatalogM α}
    (hx : ∀ c, Triple (Grown c) x (fun _ => Grown c) (Grown c)) :
    Triple s₀.After (note x) (fun _ => s₀.After) fun _ => True := by
  refine (note_triple (P := fun _ => True) (Q := fun _ => True) fun c _ => ?_).weaken
    (fun s hs => ⟨hs, trivial⟩) (fun _ s hs => hs.1) fun _ h => h
  exact (hx c).weaken (fun c' hc => hc ▸ Grown.refl c) (fun _ _ h => ⟨h, trivial⟩)
    fun _ _ => trivial

theorem note_addGraph (name schema : String) (type : GraphTypeOf) :
    Triple s₀.After (note (addGraph name schema type)) (fun _ => s₀.After) fun _ => True :=
  note_closed fun _ => addGraph_triple (fun c _ h hid => h.pushGraph hid c.schemas) name schema type

theorem copyInto_triple (source : Option UInt32) (target : UInt32) :
    Triple s₀.After (copyInto source target) (fun _ => s₀.After) fun _ => True := by
  cases source with
  | none => exact Triple.pure fun _ hs => hs
  | some source =>
      exact (note_closed fun c => copyGraphTables_triple (Grown.closed c) source target).bind
        fun _ => Triple.pure fun _ hs => hs

theorem createGraphType_triple (name : String) (ifNotExists orReplace : Bool)
    (source : GraphTypeSource) :
    Triple s₀.After (createGraphType name ifNotExists orReplace source) (fun _ => s₀.After)
      fun _ => True := by
  have hbuild : Triple s₀.After (note (build name source)) (fun _ => s₀.After) fun _ => True :=
    note_closed fun c => build_triple (Grown.closed c).label name source
  have hadd : ∀ type, Triple s₀.After (note (addGraphType type)) (fun _ => s₀.After)
      fun _ => True := fun type => note_closed fun c => addGraphType_triple (Grown.closed c) type
  have hdrop : Triple s₀.After (note (dropGraphType name)) (fun _ => s₀.After) fun _ => True :=
    note_closed fun c => dropGraphType_triple (Grown.closed c) name
  refine Triple.readState fun s hs => Triple.weaken (P := s₀.After) ?_ (fun t ht => ht ▸ hs)
    (fun _ _ h => h) fun _ h => h
  refine Triple.ite (fun _ => refused_triple _ _) fun _ => Triple.ite (fun _ => ?_) fun _ => ?_
  · exact hbuild.bind fun type => hdrop.bind fun _ => (hadd type).bind fun _ => published_triple _
  · exact hbuild.bind fun type => (hadd type).bind fun _ => published_triple _

theorem dropGraphTypeStmt_triple (name : String) (ifExists : Bool) :
    Triple s₀.After (dropGraphTypeStmt name ifExists) (fun _ => s₀.After) fun _ => True :=
  (note_closed fun c => dropGraphType_triple (Grown.closed c) name).bind fun _ =>
    Triple.ite (fun _ => published_triple _) fun _ => refused_triple _ _

theorem createSchema_triple (path : String) (ifNotExists : Bool) :
    Triple s₀.After (createSchema path ifNotExists) (fun _ => s₀.After) fun _ => True := by
  refine Triple.readState fun s hs => Triple.weaken (P := s₀.After) ?_ (fun t ht => ht ▸ hs)
    (fun _ _ h => h) fun _ h => h
  refine Triple.ite (fun _ => refused_triple _ _) fun _ => ?_
  exact (note_closed fun c => addSchema_triple (Grown.closed c) path).bind fun _ =>
    published_triple _

theorem dropSchemaStmt_triple (path : String) (ifExists : Bool) :
    Triple s₀.After (dropSchemaStmt path ifExists) (fun _ => s₀.After) fun _ => True := by
  refine Triple.readState fun s hs => Triple.weaken (P := s₀.After) ?_ (fun t ht => ht ▸ hs)
    (fun _ _ h => h) fun _ h => h
  refine Triple.ite (fun _ => Triple.throw fun _ _ => trivial) fun _ =>
    Triple.ite (fun _ => refused_triple _ _) fun _ => ?_
  split
  · exact Triple.throw fun _ _ => trivial
  · exact (note_closed fun c => dropSchema_triple (Grown.closed c) path).bind fun _ =>
      published_triple _

/-- Building a type takes no graph and no table away. -/
theorem keepsNewest_label {id : UInt32} (c : Catalog) (name : String) (h : c.KeepsNewest id) :
    ({ c with labels := c.labels ++ [name] } : Catalog).KeepsNewest id :=
  ⟨h.graphs, h.tables⟩

theorem replaceGraph_triple (schema name : String) (id : UInt32) (of : GraphTypeRef)
    (copyOf : Option GraphRef) (params : Params) :
    Triple (fun s => s₀.After s ∧ s.catalog.KeepsNewest id)
      (replaceGraph schema name id of copyOf params) (fun _ => s₀.After) fun _ => True := by
  have htype : Triple (fun s => s₀.After s ∧ s.catalog.KeepsNewest id)
      (note (graphTypeOf name of)) (fun _ s => s₀.After s ∧ s.catalog.KeepsNewest id)
      fun _ => True := by
    refine note_triple (P := fun c => c.KeepsNewest id) (Q := fun c => c.KeepsNewest id)
      fun c hc => ?_
    refine (graphTypeOf_triple (P := fun c' => Grown c c' ∧ c'.KeepsNewest id)
      (fun c' l h hl => ⟨(Grown.closed c).label c' l h.1 hl, keepsNewest_label c' l h.2⟩)
      name of).weaken
      (fun c' h => ?_) (fun _ _ h => h) fun _ _ => trivial
    rw [h]
    exact ⟨Grown.refl c, hc⟩
  refine htype.bind fun type => Triple.readState fun s hs => ?_
  refine Triple.bind ((answer_triple _).weaken (fun _ h => h) (fun _ _ h => h.1)
    fun _ _ => trivial) fun source => ?_
  refine Triple.ite (fun _ => Triple.throw fun _ _ => trivial) fun _ => ?_
  refine Triple.bind ((check_triple _).weaken (fun _ h => h) (fun _ _ h => h.1 ▸ hs)
    fun _ _ => trivial) fun _ => ?_
  exact (note_dropGraph_triple id).bind fun _ => (note_addGraph name schema type).bind
    fun target => (copyInto_triple source target).bind fun _ => published_triple _

theorem createNewGraph_triple (schema name : String) (of : GraphTypeRef)
    (copyOf : Option GraphRef) (params : Params) :
    Triple s₀.After (createNewGraph schema name of copyOf params) (fun _ => s₀.After)
      fun _ => True := by
  refine (note_closed fun c => graphTypeOf_triple (Grown.closed c).label name of).bind
    fun type => Triple.readState fun s hs => ?_
  refine Triple.bind ((answer_triple _).weaken (fun _ h => h) (fun _ _ h => h.1 ▸ hs)
    fun _ _ => trivial) fun source => ?_
  exact (note_addGraph name schema type).bind fun target =>
    (copyInto_triple source target).bind fun _ => published_triple _

theorem createGraph_triple {name : GraphName} {ifNotExists orReplace : Bool} (of : GraphTypeRef)
    (copyOf : Option GraphRef) (params : Params) :
    Triple (fun s => s₀.After s ∧ ∀ id, (CatalogStmt.createGraph name ifNotExists orReplace of
        copyOf).takes s.catalog = some id → s.catalog.KeepsNewest id)
      (createGraph name ifNotExists orReplace of copyOf params) (fun _ => s₀.After)
      fun _ => True := by
  refine Triple.readState fun s hs => ?_
  obtain ⟨hafter, hkeeps⟩ := hs
  dsimp only
  cases hgraph : s.catalog.graph name.split.1 name.split.2 with
  | none =>
      exact (createNewGraph_triple _ _ of copyOf params).weaken (fun t ht => ht ▸ hafter)
        (fun _ _ h => h) fun _ h => h
  | some existing =>
      refine Triple.ite (fun _ => ?_) fun hreplace => ?_
      · exact (refused_triple _ _).weaken (fun t ht => ht ▸ hafter) (fun _ _ h => h) fun _ h => h
      · have hid := hkeeps existing.id
          ((if_neg hreplace).trans (by rw [hgraph]; rfl))
        exact (replaceGraph_triple _ _ existing.id of copyOf params).weaken
          (fun t ht => ht ▸ ⟨hafter, hid⟩) (fun _ _ h => h) fun _ h => h

theorem dropGraphStmt_triple {name : GraphName} {ifExists : Bool} :
    Triple (fun s => s₀.After s ∧ ∀ id, (CatalogStmt.dropGraph name ifExists).takes s.catalog =
        some id → s.catalog.KeepsNewest id)
      (dropGraphStmt name ifExists) (fun _ => s₀.After) fun _ => True := by
  refine Triple.readState fun s hs => ?_
  obtain ⟨hafter, hkeeps⟩ := hs
  dsimp only
  cases hgraph : s.catalog.graph name.split.1 name.split.2 with
  | none =>
      exact (refused_triple _ _).weaken (fun t ht => ht ▸ hafter) (fun _ _ h => h) fun _ h => h
  | some g =>
      have hid := hkeeps g.id (by rw [CatalogStmt.takes, hgraph]; rfl)
      refine Triple.bind ((note_dropGraph_triple g.id).weaken (fun t ht => ht ▸ ⟨hafter, hid⟩)
        (fun _ _ h => h) fun _ h => h) fun _ => published_triple _

/-- What an act needs of the file it starts from: the catalog is read back as it is, an
id is left for the home graph if that is gone, and the highest ids stay. -/
structure FileAct.Safe (s : Ledger) (a : FileAct) : Prop where
  readsBack : s.catalog.ReadsBack
  home : s.catalog.HomeOk
  keeps : ∀ id, a.takes s.catalog = some id → s.catalog.KeepsNewest id

theorem apply_triple (stmt : CatalogStmt) (params : Params) :
    Triple (fun s => s₀.After s ∧ (FileAct.statement stmt params).Safe s) (stmt.apply params)
      (fun _ => s₀.After) fun _ => True := by
  have hload : Triple (fun s => s₀.After s ∧ (FileAct.statement stmt params).Safe s) loadCatalog
      (fun _ s => s₀.After s ∧ ∀ id, stmt.takes s.catalog = some id → s.catalog.KeepsNewest id)
      fun _ => True :=
    (loadCatalog_triple (P := fun s => s₀.After s ∧ ∀ id, stmt.takes s.catalog = some id →
      s.catalog.KeepsNewest id)).weaken (fun _ h => ⟨⟨h.1, h.2.keeps⟩, h.2.readsBack⟩)
        (fun _ _ h => h) fun _ h => h
  refine hload.bind fun _ => ?_
  cases stmt with
  | createGraphType name ifNotExists orReplace source =>
      exact (createGraphType_triple name ifNotExists orReplace source).weaken (fun _ h => h.1)
        (fun _ _ h => h) fun _ h => h
  | dropGraphType name ifExists =>
      exact (dropGraphTypeStmt_triple name ifExists).weaken (fun _ h => h.1) (fun _ _ h => h)
        fun _ h => h
  | createSchema path ifNotExists =>
      exact (createSchema_triple path ifNotExists).weaken (fun _ h => h.1) (fun _ _ h => h)
        fun _ h => h
  | dropSchema path ifExists =>
      exact (dropSchemaStmt_triple path ifExists).weaken (fun _ h => h.1) (fun _ _ h => h)
        fun _ h => h
  | createGraph name ifNotExists orReplace of copyOf => exact createGraph_triple of copyOf params
  | dropGraph name ifExists => exact dropGraphStmt_triple

/-- An operation that may put the home graph back, and leaves an id for it. -/
theorem note_home {α : Type} {x : CatalogM α}
    (hx : ∀ c, Triple (fun c' => Grown c c' ∧ c'.HomeOk) x (fun _ c' => Grown c c' ∧ c'.HomeOk)
      fun c' => Grown c c' ∧ c'.HomeOk) :
    Triple (fun s => s₀.After s ∧ s.catalog.HomeOk) (note x)
      (fun _ s => s₀.After s ∧ s.catalog.HomeOk) fun _ => True := by
  refine note_triple (P := Catalog.HomeOk) (Q := Catalog.HomeOk) fun c hc => ?_
  refine (hx c).weaken (fun c' h => ?_) (fun _ _ h => h) fun _ _ => trivial
  rw [h]
  exact ⟨Grown.refl c, hc⟩

theorem closed_home (c : Catalog) : Closed fun c' => Grown c c' ∧ c'.HomeOk :=
  (Grown.closed c).and (Closed.of_graphs fun gs => ({ graphs := gs } : Catalog).HomeOk)

theorem ensureHome_home (c c' : Catalog) (h : Grown c c' ∧ c'.HomeOk) :
    Grown c c'.ensureHome ∧ c'.ensureHome.HomeOk :=
  ⟨h.1.ensureHome h.2, Catalog.homeOk_ensureHome c'⟩

theorem note_upsertNode (name : String) (nodeCount : UInt64) :
    Triple (fun s => s₀.After s ∧ s.catalog.HomeOk) (note (upsertNode name nodeCount))
      (fun _ s => s₀.After s ∧ s.catalog.HomeOk) fun _ => True :=
  note_home fun c => upsertNode_triple (closed_home c) (ensureHome_home c) name nodeCount

theorem note_upsertRelAs (name : String) (fromId toId : UInt32) (edgeCount : UInt64)
    (undirected : Bool) :
    Triple (fun s => s₀.After s ∧ s.catalog.HomeOk)
      (note (upsertRelAs name fromId toId edgeCount undirected))
      (fun _ s => s₀.After s ∧ s.catalog.HomeOk) fun _ => True :=
  note_home fun c => upsertRelAs_triple (closed_home c) (ensureHome_home c) name fromId toId
    edgeCount undirected

theorem noteAll_triple {α β : Type} {f : α → CatalogM β}
    (hf : ∀ a c, Triple (Grown c) (f a) (fun _ => Grown c) (Grown c)) (as : List α) :
    Triple s₀.After (noteAll f as) (fun _ => s₀.After) fun _ => True := by
  induction as with
  | nil => exact Triple.pure fun _ hs => hs
  | cons a as ih => exact (note_closed (hf a)).bind fun _ => ih

theorem run_triple (a : FileAct) :
    Triple (fun s => s₀.After s ∧ a.Safe s) a.run (fun _ => s₀.After) fun _ => True := by
  have hload : Triple (fun s => s₀.After s ∧ a.Safe s) loadCatalog
      (fun _ s => s₀.After s ∧ s.catalog.HomeOk) fun _ => True :=
    (loadCatalog_triple (P := fun s => s₀.After s ∧ s.catalog.HomeOk)).weaken
      (fun _ h => ⟨⟨h.1, h.2.home⟩, h.2.readsBack⟩) (fun _ _ h => h) fun _ h => h
  have hload' : Triple (fun s => s₀.After s ∧ a.Safe s) loadCatalog (fun _ => s₀.After)
      fun _ => True := hload.weaken (fun _ h => h) (fun _ _ h => h.1) fun _ h => h
  cases a with
  | statement stmt params =>
      exact (apply_triple stmt params).bind fun _ => Triple.pure fun _ hs => hs
  | bulkLoad fromTable fromCount toTable toCount relTable edgeCount undirected =>
      refine hload.bind fun _ => (note_upsertNode fromTable fromCount).bind fun fromId => ?_
      have hrel : ∀ toId, Triple (fun s => s₀.After s ∧ s.catalog.HomeOk)
          (do let _ ← note (upsertRelAs relTable fromId toId edgeCount undirected); pure ())
          (fun _ => s₀.After) fun _ => True := fun toId =>
        (note_upsertRelAs relTable fromId toId edgeCount undirected).bind fun _ =>
          Triple.pure fun _ hs => hs.1
      refine Triple.ite (fun _ => ?_) fun _ => (note_upsertNode toTable toCount).bind hrel
      exact (Triple.pure fun _ hs => hs).bind hrel
  | declareNode graph name =>
      exact hload'.bind fun _ =>
        (note_closed fun c => createNodeIn_triple (Grown.closed c) graph name).bind fun _ =>
          storeCatalog_triple
  | declareRel graph name fromTable toTable undirected =>
      refine hload.bind fun _ => Triple.readState fun s hs => ?_
      refine Triple.bind ((answer_triple _).weaken (fun t ht => ht) (fun _ _ h => h.1 ▸ hs)
        fun _ _ => trivial) fun fromId => ?_
      refine Triple.bind ((answer_triple _).weaken (fun _ h => h) (fun _ _ h => h.1)
        fun _ _ => trivial) fun toId => ?_
      refine Triple.bind (note_upsertRelAs name fromId toId 0 undirected) fun _ => ?_
      exact storeCatalog_triple.weaken (fun _ h => h.1) (fun _ _ h => h) fun _ h => h
  | declareLabels table labels =>
      exact hload'.bind fun _ =>
        (noteAll_triple (fun l c => declareLabel_triple (Grown.closed c) table l) labels).bind
          fun _ => storeCatalog_triple
  | fold nodes rels =>
      exact hload'.bind fun _ =>
        (noteAll_triple (fun n c => growNode_triple (Grown.closed c) n.1 n.2) nodes).bind fun _ =>
          (noteAll_triple (fun r c => setEdgeCount_triple (Grown.closed c) r.1 r.2) rels).bind
            fun _ => storeCatalog_triple
  | reopen => exact hload'

/-- One act keeps the notes right. -/
theorem step_after {s t : Ledger} {a : FileAct} (hs : s₀.After s) (hsafe : a.Safe s)
    (hstep : s.step a = some t) : s₀.After t := by
  rw [Ledger.step] at hstep
  cases hrun : a.run.exec s with
  | mk r u =>
      rw [hrun] at hstep
      cases r with
      | ok v =>
          rw [← Option.some.inj hstep]
          exact (run_triple a s ⟨hs, hsafe⟩).1 v u hrun
      | error err =>
          rw [← Option.some.inj hstep]
          exact hs

/-- A whole run keeps them right. -/
theorem run_after {s t : Ledger} (hs : s₀.After s)
    (hrun : Run Ledger.step (fun s a => FileAct.Safe s a) s t) : s₀.After t :=
  hrun.invariant (fun _ _ _ h hsafe hstep => step_after h hsafe hstep) hs

end

/-! ### The ids of a file -/

/-- In a run that takes the highest ids away in no step, no id is handed out twice, and a
reference that is accepted later names the graph it was taken for. -/
theorem ids_nameOne {s t : Ledger}
    (hs : Run Ledger.step (fun s a => FileAct.Safe s a) Ledger.new s)
    (ht : Run Ledger.step (fun s a => FileAct.Safe s a) s t) :
    t.graphLog.Nodup ∧ t.tableLog.Nodup ∧
      ∀ (handle : GraphHandle) (n : ℕ), s.Means handle.id n →
        (∀ name, t.catalog.checkRef name handle = .ok () → t.Means handle.id n) ∧
        (∀ id, t.catalog.workingGraph handle.id = .ok id → id = handle.id ∧ t.Means id n) ∧
        ∀ (name : String) (params : Params) (id : UInt32),
          (params.find? fun p => p.1 = name).map Prod.snd = some (.graph handle) →
            t.catalog.graphOfParam name params = .ok id → id = handle.id ∧ t.Means id n := by
  have hnew : s.After s := (run_after Ledger.after_new hs).refl
  have hafter : s.After t := run_after hnew ht
  refine ⟨hafter.graphs.once, hafter.tables.once, fun handle n hmeans => ⟨?_, ?_, ?_⟩⟩
  · intro name hok
    exact hnew.means hafter hmeans (ensure_ok.1 hok)
  · intro id hok
    rw [Catalog.workingGraph] at hok
    split_ifs at hok with hthere
    cases hok
    exact ⟨rfl, hnew.means hafter hmeans hthere⟩
  · intro name params id hparam hok
    obtain ⟨⟨name', value⟩, hfind, hvalue⟩ := Option.map_eq_some_iff.1 hparam
    cases hvalue
    rw [Catalog.graphOfParam, hfind] at hok
    dsimp only at hok
    split_ifs at hok with hthere
    cases hok
    obtain ⟨g, hg, hid⟩ := (Option.any_eq_true _ _).1 hthere
    refine ⟨rfl, hnew.means hafter hmeans (List.find?_isSome.2 ⟨g, ?_, hid⟩)⟩
    exact List.mem_of_find?_eq_some hg

/-! ### Runs -/

/-- A file with graphs of any type in the root schema and nothing else. -/
def graphsOnly (gs : List (UInt32 × String)) : Catalog :=
  { graphs := gs.map fun g => ⟨g.1, g.2, rootSchema, .any⟩ }

theorem graphsOnly_within {gs : List (UInt32 × String)} (hcount : gs.length < 256 ^ 4)
    (hnames : ∀ g ∈ gs, NameFits g.2) : (graphsOnly gs).Within := by
  have hzero : 0 < 256 ^ 4 := by decide
  have hone : 1 < 256 ^ 4 := by decide
  refine ⟨fun t ht => (nomatch ht), hzero, fun t ht => (nomatch ht), hone, ?_, fun g hg => ?_⟩
  · rw [graphsOnly, List.length_map]
    exact hcount
  · obtain ⟨n, hn, rfl⟩ := List.mem_map.1 hg
    exact ⟨hnames n hn, trivial⟩

theorem graphsOnly_valid {gs : List (UInt32 × String)}
    (hids : ((graphsOnly gs).graphs.map GraphDef.id).Nodup)
    (hplaces : ((graphsOnly gs).graphs.map fun g => (g.schema, g.name)).Nodup) :
    (graphsOnly gs).validate = .ok () := by
  have hdefs : (graphsOnly gs).graphs.forM (graphsOnly gs).checkDef = .ok () :=
    forM_ok.2 fun g hg => by
      obtain ⟨n, -, rfl⟩ := List.mem_map.1 hg
      rfl
  have hnames : (graphsOnly gs).tableNames = [] := rfl
  have hids' : ∀ err, ensure ((graphsOnly gs).graphs.map GraphDef.id).Nodup err = .ok () :=
    fun _ => ensure_ok.2 hids
  have hplaces' : ∀ err,
      ensure ((graphsOnly gs).graphs.map fun g => (g.schema, g.name)).Nodup err = .ok () :=
    fun _ => ensure_ok.2 hplaces
  simp only [Catalog.validate, hnames, List.map_nil, noRepeat_nil, hids', hplaces', hdefs]
  rfl

theorem graphsOnly_decode {gs : List (UInt32 × String)} (hvalid : (graphsOnly gs).validate = .ok ())
    (hwithin : (graphsOnly gs).Within) :
    Catalog.decode (graphsOnly gs).encode = .ok (graphsOnly gs) := by
  have hnames : (graphsOnly gs).NamesFit := by
    refine ⟨fun l hl => (nomatch hl), fun s hs => ?_⟩
    rw [List.mem_singleton.1 hs]
    exact nameFits_rootSchema
  exact (Catalog.decode_encode_iff hvalid).2
    (((Catalog.valid_of_validate hvalid).fits_iff hnames).2 hwithin)

theorem loadCatalog_exec {s : Ledger} (h : Catalog.decode s.catalog.encode = .ok s.catalog) :
    loadCatalog.exec s = (.ok (), s) := by
  rw [Fallible.exec, loadCatalog, h]

theorem published_exec {s : Ledger} (h : s.catalog.validate = .ok ()) (effect : Effect) :
    (published effect).exec s = (.ok effect, s) := by
  have hstore : storeCatalog.exec s = (check s.catalog.validate : LedgerM Unit).exec s := rfl
  rw [published, exec_bind, hstore, h]
  rfl

/-- A statement that reads the catalog as it is and then publishes `t`. -/
theorem step_of_exec {s t : Ledger} {stmt : CatalogStmt} {params : Params} (effect : Effect)
    {x : LedgerM Effect} (hload : Catalog.decode s.catalog.encode = .ok s.catalog)
    (hx : stmt.apply params = (do loadCatalog; x)) (hexec : x.exec s = (published effect).exec t)
    (hvalid : t.catalog.validate = .ok ()) :
    s.step (.statement stmt params) = some t := by
  have hrun : (FileAct.statement stmt params).run.exec s = (.ok (), t) := by
    rw [FileAct.run, exec_bind, hx, exec_bind, loadCatalog_exec hload]
    dsimp only
    rw [hexec, published_exec hvalid]
    rfl
  rw [Ledger.step, hrun]

def makeGraph (name : String) : FileAct :=
  .statement (.createGraph ⟨none, name⟩ false false .any none) []

def takeGraph (name : String) : FileAct := .statement (.dropGraph ⟨none, name⟩ false) []

/-- The files of the two runs below, and what they have handed out. -/
def onlyA : Ledger := ⟨graphsOnly [(0, "home"), (1, "a")], [0, 1], []⟩

theorem home_decode : Catalog.decode Ledger.new.catalog.encode = .ok Ledger.new.catalog :=
  @graphsOnly_decode [(0, "home")] (graphsOnly_valid (by decide) (by decide))
    (graphsOnly_within (by decide) (by decide))

theorem onlyA_valid : onlyA.catalog.validate = .ok () := graphsOnly_valid (by decide) (by decide)

theorem onlyA_decode : Catalog.decode onlyA.catalog.encode = .ok onlyA.catalog :=
  graphsOnly_decode onlyA_valid (graphsOnly_within (by decide) (by decide))

theorem new_step_onlyA : Ledger.new.step (makeGraph "a") = some onlyA :=
  step_of_exec .created home_decode rfl rfl onlyA_valid

/-- The last graph is dropped, and the next one gets its id. -/
theorem not_ids_nameOne : ¬ ∀ s t : Ledger, Run Ledger.step anyAction Ledger.new s →
    Run Ledger.step anyAction s t →
      t.graphLog.Nodup ∧ t.tableLog.Nodup ∧
        ∀ (handle : GraphHandle) (n : ℕ), s.Means handle.id n →
          ∀ name, t.catalog.checkRef name handle = .ok () → t.Means handle.id n := by
  intro hall
  set gone : Ledger := ⟨graphsOnly [(0, "home")], [0, 1], []⟩ with hgone
  set onlyB : Ledger := ⟨graphsOnly [(0, "home"), (1, "b")], [0, 1, 1], []⟩ with honlyB
  have hdrop : onlyA.step (takeGraph "a") = some gone :=
    step_of_exec .dropped onlyA_decode rfl rfl (graphsOnly_valid (by decide) (by decide))
  have hmake : gone.step (makeGraph "b") = some onlyB :=
    step_of_exec .created home_decode rfl rfl (graphsOnly_valid (by decide) (by decide))
  have hfirst : Run Ledger.step anyAction Ledger.new onlyA :=
    (Run.refl _).tail trivial new_step_onlyA
  have hrest : Run Ledger.step anyAction onlyA onlyB :=
    ((Run.refl _).tail trivial hdrop).tail trivial hmake
  have honce := (hall onlyA onlyB hfirst hrest).1
  exact absurd honce (by decide)

theorem readsBack_of_decode {c : Catalog} (h : Catalog.decode c.encode = .ok c) : c.ReadsBack := by
  intro c' h'
  rw [h] at h'
  exact (Except.ok.inj h').symm

/-- A graph that is not the last one is dropped. -/
theorem ids_nameOne_dropA : ∃ s t : Ledger,
    s.Means 0 0 ∧ t.catalog.graphIds = [0, 2] ∧ t.Means 0 0 ∧ t.graphLog.Nodup := by
  set both : Ledger := ⟨graphsOnly [(0, "home"), (1, "a"), (2, "b")], [0, 1, 2], []⟩ with hboth
  set onlyB : Ledger := ⟨graphsOnly [(0, "home"), (2, "b")], [0, 1, 2], []⟩ with honlyB
  have hvalid : both.catalog.validate = .ok () := graphsOnly_valid (by decide) (by decide)
  have hdecode : Catalog.decode both.catalog.encode = .ok both.catalog :=
    graphsOnly_decode hvalid (graphsOnly_within (by decide) (by decide))
  have hmake : onlyA.step (makeGraph "b") = some both :=
    step_of_exec .created onlyA_decode rfl rfl hvalid
  have hdrop : both.step (takeGraph "a") = some onlyB :=
    step_of_exec .dropped hdecode rfl rfl (graphsOnly_valid (by decide) (by decide))
  have hsafe₁ : (makeGraph "a").Safe Ledger.new :=
    ⟨readsBack_of_decode home_decode, Or.inl rfl, fun id hid => nomatch hid⟩
  have hsafe₂ : (makeGraph "b").Safe onlyA :=
    ⟨readsBack_of_decode onlyA_decode, Or.inl rfl, fun id hid => nomatch hid⟩
  have hsafe₃ : (takeGraph "a").Safe both := by
    refine ⟨readsBack_of_decode hdecode, Or.inl rfl, fun id hid => ?_⟩
    have hone : id = 1 := (Option.some.inj hid).symm
    rw [hone]
    have hgraphs : ∀ x ∈ [(0 : UInt32), 1, 2], ∃ y ∈ [(0 : UInt32), 2], x ≤ y := by simp
    exact ⟨hgraphs, fun x hx => nomatch hx⟩
  have hfirst : Run Ledger.step (fun s a => FileAct.Safe s a) Ledger.new onlyA :=
    (Run.refl _).tail hsafe₁ new_step_onlyA
  have hrest : Run Ledger.step (fun s a => FileAct.Safe s a) onlyA onlyB :=
    ((Run.refl _).tail hsafe₂ hmake).tail hsafe₃ hdrop
  have hhome : onlyA.Means 0 0 := ⟨rfl, rfl⟩
  obtain ⟨honce, -, hmeans⟩ := ids_nameOne hfirst hrest
  refine ⟨onlyA, onlyB, hhome, rfl, ?_, honce⟩
  exact ((hmeans ⟨0, "/", "home", 1⟩ 0 hhome).2.1 0 rfl).2

end Zu.Schema
