import Zu.Schema.Grown
import Zu.Schema.Store

/-!
# A catalog that was stored can be loaded

Every limit of the reader is kept by the operations, by the check before a store, or by
what `Within` asks of the names and lists the operations do not look at. The other way
round, a catalog that was read is read again from what it encodes to; its bytes are the
ones it was read from exactly when its declared types were in the writer's spelling,
since the reader takes others, the two bytes a column writes for a list among them.
-/

namespace Zu.Schema

open Lib File

/-! ### The operations -/

/-- A call of one of the operations of a catalog. -/
inductive Op
  | internLabel (name : String)
  | declareLabel (table : UInt32) (label : String)
  | addGraphType (type : GraphType)
  | dropGraphType (name : String)
  | addSchema (path : String)
  | dropSchema (path : String)
  | addGraph (name schema : String) (type : GraphTypeOf)
  | dropGraph (id : UInt32)
  | copyGraphTables (source target : UInt32)
  | growNode (id : UInt32) (nodeCount : UInt64)
  | setEdgeCount (id : UInt32) (edgeCount : UInt64)
  | upsertNode (name : String) (nodeCount : UInt64)
  | createNodeIn (graph : UInt32) (name : String)
  | upsertRelAs (name : String) (fromId toId : UInt32) (edgeCount : UInt64) (undirected : Bool)

namespace Op

/-- What the operation leaves of a catalog, whether it fails or not. -/
def apply (c : Catalog) : Op → Catalog
  | .internLabel name => ((Schema.internLabel name).exec c).2
  | .declareLabel table label => ((Schema.declareLabel table label).exec c).2
  | .addGraphType type => ((Schema.addGraphType type).exec c).2
  | .dropGraphType name => ((Schema.dropGraphType name).exec c).2
  | .addSchema path => ((Schema.addSchema path).exec c).2
  | .dropSchema path => ((Schema.dropSchema path).exec c).2
  | .addGraph name schema type => ((Schema.addGraph name schema type).exec c).2
  | .dropGraph id => ((Schema.dropGraph id).exec c).2
  | .copyGraphTables source target => ((Schema.copyGraphTables source target).exec c).2
  | .growNode id nodeCount => ((Schema.growNode id nodeCount).exec c).2
  | .setEdgeCount id edgeCount => ((Schema.setEdgeCount id edgeCount).exec c).2
  | .upsertNode name nodeCount => ((Schema.upsertNode name nodeCount).exec c).2
  | .createNodeIn graph name => ((Schema.createNodeIn graph name).exec c).2
  | .upsertRelAs name fromId toId edgeCount undirected =>
      ((Schema.upsertRelAs name fromId toId edgeCount undirected).exec c).2

/-- A new catalog after a sequence of operations. -/
def runAll (ops : List Op) : Catalog := ops.foldl apply Catalog.new

end Op

theorem Op.namesFit {c : Catalog} (h : c.NamesFit) (op : Op) : (op.apply c).NamesFit := by
  have hP := closed_namesFit
  have hhome : ∀ c : Catalog, c.NamesFit → c.ensureHome.NamesFit := fun _ hc => hc.ensureHome
  cases op with
  | internLabel name => exact Triple.exec_snd (internLabel_triple hP.label name) h
  | declareLabel table label => exact Triple.exec_snd (declareLabel_triple hP table label) h
  | addGraphType type => exact Triple.exec_snd (addGraphType_triple hP type) h
  | dropGraphType name => exact Triple.exec_snd (dropGraphType_triple hP name) h
  | addSchema path => exact Triple.exec_snd (addSchema_triple hP path) h
  | dropSchema path => exact Triple.exec_snd (dropSchema_triple hP path) h
  | addGraph name schema type =>
      exact Triple.exec_snd (addGraph_triple (fun _ _ hc _ => hc) name schema type) h
  | dropGraph id =>
      rw [apply, exec_dropGraph]
      split_ifs
      · exact h
      · exact h
  | copyGraphTables source target => exact Triple.exec_snd (copyGraphTables_triple hP source target) h
  | growNode id nodeCount => exact Triple.exec_snd (growNode_triple hP id nodeCount) h
  | setEdgeCount id edgeCount => exact Triple.exec_snd (setEdgeCount_triple hP id edgeCount) h
  | upsertNode name nodeCount => exact Triple.exec_snd (upsertNode_triple hP hhome name nodeCount) h
  | createNodeIn graph name => exact Triple.exec_snd (createNodeIn_triple hP graph name) h
  | upsertRelAs name fromId toId edgeCount undirected =>
      exact Triple.exec_snd (upsertRelAs_triple hP hhome name fromId toId edgeCount undirected) h

theorem namesFit_runAll (ops : List Op) : (Op.runAll ops).NamesFit := by
  have hrun : ∀ c : Catalog, c.NamesFit → (ops.foldl Op.apply c).NamesFit := by
    induction ops with
    | nil => exact fun c hc => hc
    | cons op ops ih => exact fun c hc => ih _ (Op.namesFit hc op)
  refine hrun _ ⟨fun l hl => (nomatch hl), fun s hs => ?_⟩
  rw [List.mem_singleton.1 hs]
  exact nameFits_rootSchema

/-! ### What the check before a store gives -/

/-- What a catalog that passed its check is known to be. -/
structure Catalog.Valid (c : Catalog) : Prop where
  idsLe : ∀ id ∈ c.tableIds, id ≤ maxTableId
  idsNodup : c.tableIds.Nodup
  labelCount : c.labels.length ≤ maxLabels
  primary : ∀ t ∈ c.nodes, t.labels.head?.bind c.labelName = some t.name
  labelsNodup : ∀ t ∈ c.nodes, t.labels.Nodup
  labelsLt : ∀ t ∈ c.nodes, ∀ l ∈ t.labels, l.toNat < c.labels.length
  graphTypes : ∀ t ∈ c.graphTypes, t.validate c.labels.length .stored = .ok ()
  graphIdsNodup : c.graphIds.Nodup
  schemas : ∀ g ∈ c.graphs, g.schema ∈ c.schemas
  typeOf : ∀ g ∈ c.graphs, c.checkTypeOf g = .ok ()

theorem worst_lt {c : Catalog} {t : NodeTable} (h : c.checkWorst t = .ok ()) :
    ∀ l ∈ t.labels, l.toNat < c.labels.length := by
  intro l hl
  have hmem : l.toNat ∈ t.labels.map UInt16.toNat := List.mem_map_of_mem hl
  rw [Catalog.checkWorst] at h
  cases hmax : (t.labels.map UInt16.toNat).max? with
  | none =>
      rw [List.max?_eq_none_iff.1 hmax] at hmem
      exact nomatch hmem
  | some worst =>
      rw [hmax] at h
      exact ((List.max?_eq_some_iff.1 hmax).2 _ hmem).trans_lt (ensure_ok.1 h)

theorem Catalog.valid_of_validate {c : Catalog} (h : c.validate = .ok ()) : c.Valid := by
  unfold validate at h
  obtain ⟨⟨⟩, hle, h₁⟩ := except_bind_ok.1 h
  obtain ⟨⟨⟩, hids, h₂⟩ := except_bind_ok.1 h₁
  obtain ⟨⟨⟩, -, h₃⟩ := except_bind_ok.1 h₂
  obtain ⟨⟨⟩, hcount, h₄⟩ := except_bind_ok.1 h₃
  obtain ⟨⟨⟩, -, h₅⟩ := except_bind_ok.1 h₄
  obtain ⟨⟨⟩, hlabels, h₆⟩ := except_bind_ok.1 h₅
  obtain ⟨⟨⟩, -, h₇⟩ := except_bind_ok.1 h₆
  obtain ⟨⟨⟩, -, h₈⟩ := except_bind_ok.1 h₇
  obtain ⟨⟨⟩, htypes, h₉⟩ := except_bind_ok.1 h₈
  obtain ⟨⟨⟩, -, h₁₀⟩ := except_bind_ok.1 h₉
  obtain ⟨⟨⟩, hgraphs, h₁₁⟩ := except_bind_ok.1 h₁₀
  obtain ⟨⟨⟩, -, h₁₂⟩ := except_bind_ok.1 h₁₁
  obtain ⟨⟨⟩, hdefs, -⟩ := except_bind_ok.1 h₁₂
  have hnode : ∀ t ∈ c.nodes, t.labels.head?.bind c.labelName = some t.name ∧
      t.labels.Nodup ∧ ∀ l ∈ t.labels, l.toNat < c.labels.length := by
    intro t ht
    obtain ⟨⟨⟩, hhead, k₁⟩ := except_bind_ok.1 (forM_ok.1 hlabels t ht)
    obtain ⟨⟨⟩, hnodup, hworst⟩ := except_bind_ok.1 k₁
    exact ⟨ensure_ok.1 hhead, ensure_ok.1 hnodup, worst_lt hworst⟩
  have hdef : ∀ g ∈ c.graphs, g.schema ∈ c.schemas ∧ c.checkTypeOf g = .ok () := by
    intro g hg
    obtain ⟨⟨⟩, hschema, htype⟩ := except_bind_ok.1 (forM_ok.1 hdefs g hg)
    exact ⟨of_decide_eq_true (ensure_ok.1 hschema), htype⟩
  exact {
    idsLe := fun id hid => ensure_ok.1 (forM_ok.1 hle id hid)
    idsNodup := ensure_ok.1 hids
    labelCount := ensure_ok.1 hcount
    primary := fun t ht => (hnode t ht).1
    labelsNodup := fun t ht => (hnode t ht).2.1
    labelsLt := fun t ht => (hnode t ht).2.2
    graphTypes := forM_ok.1 htypes
    graphIdsNodup := ensure_ok.1 hgraphs
    schemas := fun g hg => (hdef g hg).1
    typeOf := fun g hg => (hdef g hg).2 }

theorem length_le_of_nodup_lt {xs : List ℕ} {n : ℕ} (hnodup : xs.Nodup)
    (hlt : ∀ x ∈ xs, x < n) : xs.length ≤ n := by
  have hsub : xs ⊆ List.range n := fun x hx => List.mem_range.2 (hlt x hx)
  have hlen := (List.subperm_of_subset hnodup hsub).length_le
  rwa [List.length_range] at hlen

namespace Catalog

variable {c : Catalog}

theorem Valid.tableCount (h : c.Valid) : c.tableIds.length ≤ 2 ^ 14 := by
  have hnodup : (c.tableIds.map UInt32.toNat).Nodup :=
    h.idsNodup.map fun _ _ => UInt32.toNat_inj.1
  rw [← List.length_map UInt32.toNat]
  refine length_le_of_nodup_lt hnodup fun x hx => ?_
  obtain ⟨id, hid, rfl⟩ := List.mem_map.1 hx
  have hle := UInt32.le_iff_toNat_le.1 (h.idsLe id hid)
  exact hle.trans_lt (by decide)

theorem Valid.labelSet (h : c.Valid) {t : NodeTable} (ht : t ∈ c.nodes) :
    t.labels.length ≤ c.labels.length := by
  have hnodup : (t.labels.map UInt16.toNat).Nodup :=
    (h.labelsNodup t ht).map fun _ _ => UInt16.toNat_inj.1
  rw [← List.length_map UInt16.toNat]
  refine length_le_of_nodup_lt hnodup fun x hx => ?_
  obtain ⟨l, hl, rfl⟩ := List.mem_map.1 hx
  exact h.labelsLt t ht l hl

theorem Valid.name_mem (h : c.Valid) {t : NodeTable} (ht : t ∈ c.nodes) :
    t.name ∈ c.labels := by
  obtain ⟨l, -, hl⟩ := Option.bind_eq_some_iff.1 (h.primary t ht)
  exact List.mem_of_getElem? hl

theorem Valid.nodeFits (h : c.Valid) (hnames : c.NamesFit) {t : NodeTable} (ht : t ∈ c.nodes) :
    t.Fits c.labels.length := by
  have hlabels := h.labelSet ht
  exact {
    name := hnames.1 _ (h.name_mem ht)
    few := (hlabels.trans h.labelCount).trans_lt (by decide)
    declared := hlabels }

end Catalog

/-! ### What the check leaves open -/

/-- The limits of the reader on an element type that its check leaves open. -/
structure ElementType.Within (e : ElementType) : Prop where
  name : NameFits e.name
  labels : e.labels.length ≤ maxLabels
  key : e.keyLabels.ids.length ≤ maxLabels
  count : e.properties.length < 256 ^ 2
  properties : ∀ p ∈ e.properties, p.Fits

structure GraphType.Within (t : GraphType) : Prop where
  name : NameFits t.name
  count : t.elements.length < 256 ^ 4
  elements : ∀ e ∈ t.elements, e.Within

def GraphTypeOf.Within : GraphTypeOf → Prop
  | .inline type => type.Within
  | _ => True

/-- The limits of the reader that neither the operations nor the check before a store
look at. -/
structure Catalog.Within (c : Catalog) : Prop where
  rels : ∀ t ∈ c.rels, NameFits t.name
  typeCount : c.graphTypes.length < 256 ^ 4
  graphTypes : ∀ t ∈ c.graphTypes, t.Within
  schemaCount : c.schemas.length < 256 ^ 4
  graphCount : c.graphs.length < 256 ^ 4
  graphs : ∀ g ∈ c.graphs, NameFits g.name ∧ g.graphType.Within

theorem GraphType.element_some {t : GraphType} {name : String} {e : ElementType}
    (h : t.element name = some e) : e ∈ t.elements ∧ e.name = name := by
  have hname := List.find?_some h
  exact ⟨List.mem_of_find?_eq_some h, of_decide_eq_true hname⟩

theorem Catalog.graphType_some {c : Catalog} {name : String} {t : GraphType}
    (h : c.graphType name = some t) : t ∈ c.graphTypes ∧ t.name = name := by
  have hname := List.find?_some h
  exact ⟨List.mem_of_find?_eq_some h, of_decide_eq_true hname⟩

theorem ElementType.end_of_check {e : ElementType} {t : GraphType} (h : t.Within)
    {origin : Origin} {fin : Option String} (hend : e.checkEnd t origin fin = .ok ()) :
    ∃ name, fin = some name ∧ NameFits name := by
  cases fin with
  | none => exact nomatch hend
  | some name =>
      obtain ⟨o, ho, -⟩ := (Option.any_eq_true _ _).1 (ensure_ok.1 hend)
      obtain ⟨hmem, hname⟩ := GraphType.element_some ho
      exact ⟨name, rfl, hname ▸ (h.elements o hmem).name⟩

theorem ElementType.endsFit_of_check {e : ElementType} {t : GraphType} (h : t.Within)
    {origin : Origin} (hends : e.checkEnds t origin = .ok ()) : e.EndsFit := by
  unfold checkEnds at hends
  unfold EndsFit
  cases hkind : e.kind with
  | node =>
      rw [hkind] at hends
      exact ensure_ok.1 hends
  | edge =>
      rw [hkind] at hends
      have hboth := forM_ok.1 hends
      obtain ⟨a, hfrom, ha⟩ := end_of_check h (hboth e.fromType List.mem_cons_self)
      obtain ⟨b, hto, hb⟩ :=
        end_of_check h (hboth e.toType (List.mem_cons_of_mem _ List.mem_cons_self))
      exact ⟨a, b, hfrom, hto, ha, hb⟩

theorem GraphType.element_of_validate {t : GraphType} {labels : ℕ} {origin : Origin}
    (h : t.validate labels origin = .ok ()) {e : ElementType} (he : e ∈ t.elements) :
    (∀ p ∈ e.properties, (declaredTypeBytes p.type).isSome) ∧ e.checkEnds t origin = .ok () := by
  obtain ⟨⟨⟩, -, helems⟩ := except_bind_ok.1 h
  obtain ⟨⟨⟩, -, h₁⟩ := except_bind_ok.1 (forM_ok.1 helems e he)
  obtain ⟨⟨⟩, -, h₂⟩ := except_bind_ok.1 h₁
  obtain ⟨⟨⟩, -, h₃⟩ := except_bind_ok.1 h₂
  obtain ⟨⟨⟩, htypes, h₄⟩ := except_bind_ok.1 h₃
  obtain ⟨⟨⟩, hends, -⟩ := except_bind_ok.1 h₄
  exact ⟨fun p hp => ensure_ok.1 (forM_ok.1 htypes p hp), hends⟩

theorem GraphType.fits_iff_within {t : GraphType} {labels : ℕ} {origin : Origin}
    (h : t.validate labels origin = .ok ()) : t.Fits ↔ t.Within := by
  constructor
  · intro hfits
    exact ⟨hfits.name, hfits.count, fun e he =>
      have hfit := hfits.elements e he
      ⟨hfit.name, hfit.labels, hfit.key, hfit.count, hfit.properties⟩⟩
  · intro hwithin
    exact ⟨hwithin.name, hwithin.count, fun e he =>
      have hfit := hwithin.elements e he
      ⟨hfit.name, hfit.labels, hfit.key,
        ElementType.endsFit_of_check hwithin (element_of_validate h he).2, hfit.count,
        hfit.properties⟩⟩

namespace Catalog

variable {c : Catalog}

/-- The type a graph is of fits when it is within the limits left open. -/
theorem Valid.typeOfFits (h : c.Valid) (htypes : ∀ t ∈ c.graphTypes, t.Within) {g : GraphDef}
    (hg : g ∈ c.graphs) : g.graphType.Fits ↔ g.graphType.Within := by
  have htype := h.typeOf g hg
  unfold checkTypeOf at htype
  cases hof : g.graphType with
  | any => exact Iff.rfl
  | named name =>
      rw [hof] at htype
      obtain ⟨t, ht⟩ := Option.isSome_iff_exists.1 (ensure_ok.1 htype)
      obtain ⟨hmem, hname⟩ := graphType_some ht
      exact iff_of_true (hname ▸ (htypes t hmem).name) trivial
  | inline type =>
      rw [hof] at htype
      exact GraphType.fits_iff_within htype

/-- A catalog that passed its check fits exactly when it is within the limits the check
leaves open. -/
theorem Valid.fits_iff (h : c.Valid) (hnames : c.NamesFit) : c.Fits ↔ c.Within := by
  have hids := h.tableCount
  rw [tableIds, List.length_append, List.length_map, List.length_map] at hids
  constructor
  · intro hfits
    have htypes : ∀ t ∈ c.graphTypes, t.Within := fun t ht =>
      (GraphType.fits_iff_within (h.graphTypes t ht)).1 (hfits.graphTypes t ht)
    exact {
      rels := hfits.rels
      typeCount := hfits.typeCount
      graphTypes := htypes
      schemaCount := hfits.schemaCount
      graphCount := hfits.graphCount
      graphs := fun g hg => ⟨(hfits.graphs g hg).name,
        (h.typeOfFits htypes hg).1 (hfits.graphs g hg).type⟩ }
  · intro hwithin
    exact {
      nodeCount := by omega
      nodes := fun t ht => h.nodeFits hnames ht
      relCount := by omega
      rels := hwithin.rels
      labelCount := h.labelCount.trans_lt (by decide)
      labels := hnames.1
      typeCount := hwithin.typeCount
      graphTypes := fun t ht =>
        (GraphType.fits_iff_within (h.graphTypes t ht)).2 (hwithin.graphTypes t ht)
      schemaCount := hwithin.schemaCount
      schemas := hnames.2
      graphCount := hwithin.graphCount
      graphs := fun g hg => ⟨(hwithin.graphs g hg).1, hnames.2 _ (h.schemas g hg),
        (h.typeOfFits hwithin.graphTypes hg).2 (hwithin.graphs g hg).2⟩ }

/-- Every type a valid catalog that fits writes down is read back from the writer's
spelling. -/
theorem Valid.declared (h : c.Valid) (hfits : c.Fits) {ty : LogicalType}
    (hty : ty ∈ c.declared) : (declaredTypeBytes ty).isSome ∧ ty.Kept := by
  have hone : ∀ (t : GraphType), t.validate c.labels.length .stored = .ok () → t.Fits →
      ty ∈ t.declared → (declaredTypeBytes ty).isSome ∧ ty.Kept := by
    intro t ht hfit hmem
    obtain ⟨e, he, hmem⟩ := List.mem_flatMap.1 hmem
    obtain ⟨p, hp, rfl⟩ := List.mem_map.1 hmem
    exact ⟨(GraphType.element_of_validate ht he).1 p hp,
      ((hfit.elements e he).properties p hp).2⟩
  rcases List.mem_append.1 hty with hmem | hmem
  · obtain ⟨t, ht, hmem⟩ := List.mem_flatMap.1 hmem
    exact hone t (h.graphTypes t ht) (hfits.graphTypes t ht) hmem
  · obtain ⟨g, hg, hmem⟩ := List.mem_flatMap.1 hmem
    have htype := h.typeOf g hg
    have hfit := (hfits.graphs g hg).type
    unfold checkTypeOf at htype
    cases hof : g.graphType with
    | any =>
        rw [hof] at hmem
        exact nomatch hmem
    | named name =>
        rw [hof] at hmem
        exact nomatch hmem
    | inline type =>
        rw [hof] at hmem htype hfit
        exact hone type htype hfit hmem

theorem encode_version (c : Catalog) : c.encode.take 2 = leBytes 2 catalogVersion := rfl

/-- A valid catalog is read back from its bytes exactly when it fits. -/
theorem decode_encode_iff (hvalid : c.validate = .ok ()) : decode c.encode = .ok c ↔ c.Fits := by
  constructor
  · intro hread
    exact (@decodeAs_ok _ typeSpelling _ gives_decodeDeclaredType _ (encode_version c) hread).1
  · intro hfits
    exact decodeAs_encodeAs hfits hvalid fun ty hty =>
      have hdeclared := (valid_of_validate hvalid).declared hfits hty
      decodes_spelling hdeclared.1 hdeclared.2

/-- What the reader took is read again from what it encodes to. -/
theorem decode_encode_of_decode {bytes : Bytes}
    (hversion : bytes.take 2 = leBytes 2 catalogVersion) (h : decode bytes = .ok c) :
    decode c.encode = .ok c := by
  obtain ⟨hfits, hvalid, -⟩ :=
    @decodeAs_ok _ typeSpelling _ gives_decodeDeclaredType _ hversion h
  exact (decode_encode_iff hvalid).2 hfits

/-- The bytes are the ones the catalog was read from exactly when the types in them were
in the writer's spelling. -/
theorem encode_eq_iff {bytes : Bytes} (hversion : bytes.take 2 = leBytes 2 catalogVersion)
    (h : decode bytes = .ok c) :
    c.encode = bytes ↔ decodeAs spelledType bytes = .ok c := by
  obtain ⟨hfits, hvalid, -⟩ :=
    @decodeAs_ok _ typeSpelling _ gives_decodeDeclaredType _ hversion h
  constructor
  · rintro rfl
    exact decodeAs_encodeAs hfits hvalid fun ty hty =>
      have hdeclared := (valid_of_validate hvalid).declared hfits hty
      decodes_spelledType hdeclared.1 hdeclared.2
  · intro hread
    exact ((decodeAs_ok gives_spelledType hversion hread).2.2 spells_spelledType).symm

end Catalog

/-! ### A catalog that was stored -/

/-- What a load finds after a store: the catalog, exactly when it is within the limits
the check leaves open. -/
theorem load_iff_within {crc : Bytes → UInt32} (ops : List Op) {f₀ f : Zu1File}
    (hfile : Storable crc f₀ (File.chunks chainCapacity (Op.runAll ops).encode).length)
    (hstore : ((Op.runAll ops).store crc).exec f₀ = (.ok (), f)) :
    Catalog.load crc f = .ok (Op.runAll ops) ↔ (Op.runAll ops).Within := by
  obtain ⟨hvalid, hload⟩ := (store_triple _ hfile f₀ rfl).1 () f hstore
  rw [hload, Catalog.decode_encode_iff hvalid]
  exact (Catalog.valid_of_validate hvalid).fits_iff (namesFit_runAll ops)

/-- A catalog that was stored is loaded again, when the names and lists that nothing
checks are within the limits of the reader; and a catalog that was read encodes to the
bytes it was read from, up to the spelling of its declared types. -/
theorem stored_loads (crc : Bytes → UInt32) :
    (∀ (ops : List Op) (f₀ f : Zu1File), (Op.runAll ops).Within →
      Storable crc f₀ (File.chunks chainCapacity (Op.runAll ops).encode).length →
      ((Op.runAll ops).store crc).exec f₀ = (.ok (), f) →
        Catalog.load crc f = .ok (Op.runAll ops)) ∧
    ∀ (bytes : Bytes) (c : Catalog), bytes.take 2 = leBytes 2 catalogVersion →
      Catalog.decode bytes = .ok c →
        Catalog.decode c.encode = .ok c ∧
          (c.encode = bytes ↔ Catalog.decodeAs spelledType bytes = .ok c) := by
  constructor
  · intro ops f₀ f hwithin hfile hstore
    exact (load_iff_within ops hfile hstore).2 hwithin
  · intro bytes c hversion hread
    exact ⟨Catalog.decode_encode_of_decode hversion hread, Catalog.encode_eq_iff hversion hread⟩

/-- One node table, and the graph and the schema every catalog has. -/
def people : List Op := [.upsertNode "Person" 3]

theorem people_valid : (Op.runAll people).validate = .ok () := by
  have hnames : (Op.runAll people).tableNames = [(0, "Person")] := rfl
  simp only [Catalog.validate, hnames, List.map_cons, List.map_nil, noRepeat_singleton]
  rfl

theorem people_within : (Op.runAll people).Within := by
  refine ⟨fun t ht => (nomatch ht), by decide, fun t ht => (nomatch ht), by decide, by decide,
    fun g hg => ?_⟩
  rw [List.mem_singleton.1 hg]
  exact ⟨by decide, trivial⟩

set_option maxRecDepth 4000 in
theorem stored_loads_people :
    (∃ f, ((Op.runAll people).store fun _ => 0).exec (create "people.zu1") = (.ok (), f) ∧
      Catalog.load (fun _ => 0) f = .ok (Op.runAll people)) ∧
    Catalog.decode (Op.runAll people).encode = .ok (Op.runAll people) := by
  have hfile : Storable (fun _ => 0) (create "people.zu1")
      (File.chunks chainCapacity (Op.runAll people).encode).length := by
    refine ⟨rfl, fun ptrs h => ?_, fun ptrs h => ?_, by decide⟩
    · cases h
      exact List.nodup_nil
    · cases h
      exact fun b hb => nomatch hb
  have hok : (((Op.runAll people).store fun _ => 0).exec (create "people.zu1")).1 = .ok () := by
    rw [Catalog.store, people_valid]
    rfl
  have hread : Catalog.decode (Op.runAll people).encode = .ok (Op.runAll people) :=
    (Catalog.decode_encode_iff people_valid).2
      (((Catalog.valid_of_validate people_valid).fits_iff (namesFit_runAll people)).2 people_within)
  refine ⟨⟨_, Prod.ext hok rfl, ?_⟩, ?_⟩
  · exact (stored_loads fun _ => 0).1 people _ _ people_within hfile (Prod.ext hok rfl)
  · exact ((stored_loads fun _ => 0).2 _ _ (Catalog.encode_version _) hread).1

/-- An element type with a property declared as a list. -/
def post : ElementType :=
  { name := "Post", kind := .node, labels := [], keyLabels := .none
    properties := [⟨"tags", .list .bool none, false⟩] }

def posts : GraphType := { name := "posts", closed := false, elements := [post] }

def tagged : Catalog := { graphTypes := [posts] }

/-- The two bytes a column writes for a list without a bound. -/
def columnSpelling : LogicalType → Bytes
  | .list elem none => listCode :: typeSpelling elem
  | type => typeSpelling type

theorem post_valid : post.validate posts 0 .stored = .ok () := by
  have hnames : post.properties.map PropertyType.name = ["tags"] := rfl
  simp only [ElementType.validate, hnames, noRepeat_singleton]
  rfl

theorem posts_valid : posts.validate 0 .stored = .ok () := by
  have hnames : posts.elements.map ElementType.name = ["Post"] := rfl
  have helems : posts.elements.forM (fun e => e.validate posts 0 .stored) = .ok () :=
    forM_ok.2 fun e he => by
      rw [List.mem_singleton.1 he]
      exact post_valid
  simp only [GraphType.validate, hnames, noRepeat_singleton, helems]
  rfl

theorem tagged_valid : tagged.validate = .ok () := by
  have hnames : tagged.tableNames = [] := rfl
  have htypes : tagged.graphTypes.forM (fun t => t.validate tagged.labels.length .stored) =
      .ok () := forM_ok.2 fun t ht => by
    rw [List.mem_singleton.1 ht]
    exact posts_valid
  simp only [Catalog.validate, hnames, List.map_nil, noRepeat_nil, htypes]
  rfl

theorem tagged_within : tagged.Within := by
  refine ⟨fun t ht => (nomatch ht), by decide, fun t ht => ?_, by decide, by decide,
    fun g hg => ?_⟩
  · rw [List.mem_singleton.1 ht]
    refine ⟨by decide, by decide, fun e he => ?_⟩
    rw [List.mem_singleton.1 he]
    refine ⟨by decide, by decide, by decide, by decide, fun p hp => ?_⟩
    rw [List.mem_singleton.1 hp]
    exact ⟨by decide, fun h => (nomatch h), trivial⟩
  · rw [List.mem_singleton.1 hg]
    exact ⟨by decide, trivial⟩

theorem tagged_fits : tagged.Fits := by
  refine ((Catalog.valid_of_validate tagged_valid).fits_iff ⟨fun l hl => (nomatch hl), ?_⟩).2
    tagged_within
  intro s hs
  rw [List.mem_singleton.1 hs]
  exact nameFits_rootSchema

/-- The bytes of a list as a column writes it are taken, and never written back. -/
theorem not_stored_loads : ¬ ∀ (bytes : Bytes) (c : Catalog),
    bytes.take 2 = leBytes 2 catalogVersion → Catalog.decode bytes = .ok c → c.encode = bytes := by
  intro hall
  have hread : Catalog.decode (tagged.encodeAs columnSpelling) = .ok tagged :=
    decodeAs_encodeAs tagged_fits tagged_valid fun ty hty => by
      rw [List.mem_singleton.1 hty]
      exact fun rest => rfl
  exact absurd (hall _ _ rfl hread) (by decide)

end Zu.Schema
