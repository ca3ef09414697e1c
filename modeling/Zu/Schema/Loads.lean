import Zu.Schema.Declared

/-!
# A catalog that fits is read back as it was written

`Fits` collects the limits of the reader: names of 1 to 256 bytes, label sets of at
most 64, and lists no longer than the field of their length can say. A catalog the
reader gives fits, and a catalog that fits is read back, whatever the spelling of its
declared types that the reader takes.
-/

namespace Zu.Schema

open Lib

/-! ### The limits of the reader -/

def PropertyType.Fits (p : PropertyType) : Prop := NameFits p.name ∧ p.type.Kept

/-- The ends an element type of its kind has. -/
def ElementType.EndsFit (e : ElementType) : Prop :=
  match e.kind with
  | .node => e.fromType = none ∧ e.toType = none
  | .edge => ∃ a b, e.fromType = some a ∧ e.toType = some b ∧ NameFits a ∧ NameFits b

structure ElementType.Fits (e : ElementType) : Prop where
  name : NameFits e.name
  labels : e.labels.length ≤ maxLabels
  key : e.keyLabels.ids.length ≤ maxLabels
  ends : e.EndsFit
  count : e.properties.length < 256 ^ 2
  properties : ∀ p ∈ e.properties, p.Fits

structure GraphType.Fits (t : GraphType) : Prop where
  name : NameFits t.name
  count : t.elements.length < 256 ^ 4
  elements : ∀ e ∈ t.elements, e.Fits

def GraphTypeOf.Fits : GraphTypeOf → Prop
  | .any => True
  | .named name => NameFits name
  | .inline type => type.Fits

structure GraphDef.Fits (g : GraphDef) : Prop where
  name : NameFits g.name
  schema : NameFits g.schema
  type : g.graphType.Fits

structure NodeTable.Fits (labelCount : ℕ) (t : NodeTable) : Prop where
  name : NameFits t.name
  few : t.labels.length < 256 ^ 2
  declared : t.labels.length ≤ labelCount

structure Catalog.Fits (c : Catalog) : Prop where
  nodeCount : c.nodes.length < 256 ^ 4
  nodes : ∀ t ∈ c.nodes, t.Fits c.labels.length
  relCount : c.rels.length < 256 ^ 4
  rels : ∀ t ∈ c.rels, NameFits t.name
  labelCount : c.labels.length < 256 ^ 4
  labels : ∀ l ∈ c.labels, NameFits l
  typeCount : c.graphTypes.length < 256 ^ 4
  graphTypes : ∀ t ∈ c.graphTypes, t.Fits
  schemaCount : c.schemas.length < 256 ^ 4
  schemas : ∀ s ∈ c.schemas, NameFits s
  graphCount : c.graphs.length < 256 ^ 4
  graphs : ∀ g ∈ c.graphs, g.Fits

def ElementType.declared (e : ElementType) : List LogicalType :=
  e.properties.map PropertyType.type

def GraphType.declared (t : GraphType) : List LogicalType :=
  t.elements.flatMap ElementType.declared

def GraphTypeOf.declared : GraphTypeOf → List LogicalType
  | .inline type => type.declared
  | _ => []

/-- Every type the catalog writes down. -/
def Catalog.declared (c : Catalog) : List LogicalType :=
  c.graphTypes.flatMap GraphType.declared ++
    c.graphs.flatMap fun g => g.graphType.declared

/-! ### Lists -/

section

variable {α : Type} {p : Reader ZuError α} {enc : α → Bytes}

theorem decodes_decodeList {k : ℕ} {as : List α} (hlen : as.length < 256 ^ k)
    (h : ∀ a ∈ as, Decodes p (enc a) a) :
    Decodes (decodeList k p) (encodeList k enc as) as :=
  (decodes_readNat hlen).bind (Decodes.readN h)

theorem gives_decodeList {P : α → Prop} (h : Gives p P) (k : ℕ) :
    Gives (decodeList k p) fun as => as.length < 256 ^ k ∧ ∀ a ∈ as, P a := by
  intro bs as rest hread
  obtain ⟨n, mid, hn, h₁⟩ := reader_bind_ok.1 hread
  have hlen : as.length = n := length_readN h₁
  exact ⟨hlen ▸ (readNat_ok hn).1, h.readN n h₁⟩

theorem spells_decodeList (h : Spells p enc) (k : ℕ) :
    Spells (decodeList k p) (encodeList k enc) := by
  intro bs as rest hread
  obtain ⟨n, mid, hn, h₁⟩ := reader_bind_ok.1 hread
  have hlen : as.length = n := length_readN h₁
  rw [(readNat_ok hn).2, h.readN n h₁, encodeList, hlen, List.append_assoc]

end

theorem gives_decodeName : Gives decodeName NameFits := fun _ _ _ h => (decodeName_ok h).1

theorem spells_decodeName : Spells decodeName encodeName := fun _ _ _ h => (decodeName_ok h).2

/-! ### Graph types -/

section

variable {readType : Reader ZuError LogicalType} {spell : LogicalType → Bytes}

theorem decodes_property {p : PropertyType} (h : NameFits p.name)
    (htype : Decodes readType (spell p.type) p.type) :
    Decodes (decodeProperty readType) (encodeProperty spell p) p := by
  have hread := (decodes_decodeName h).bind (f := fun name => do
      let type ← readType
      let optional ← readFlag "a property's optionality"
      return ({ name, type, optional } : PropertyType))
    (htype.bind ((decodes_readFlag _ p.optional).bind_pure rfl))
  rwa [← List.append_assoc] at hread

theorem decodeProperty_ok (hkept : Gives readType LogicalType.Kept) {p : PropertyType}
    {bs rest : Bytes} (h : decodeProperty readType bs = .ok (p, rest)) :
    p.Fits ∧ (Spells readType spell → bs = encodeProperty spell p ++ rest) := by
  obtain ⟨name, mid, hname, h₁⟩ := reader_bind_ok.1 h
  obtain ⟨type, mid₁, htype, h₂⟩ := reader_bind_ok.1 h₁
  obtain ⟨optional, mid₂, hflag, h₃⟩ := reader_bind_ok.1 h₂
  cases reader_pure_ok.1 h₃
  refine ⟨⟨(decodeName_ok hname).1, hkept htype⟩, fun hspell => ?_⟩
  rw [(decodeName_ok hname).2, hspell htype, readFlag_ok hflag, encodeProperty]
  simp only [List.append_assoc]

theorem decodes_ends {e : ElementType} (h : e.EndsFit) :
    Decodes (decodeEnds e.kind) (encodeEnds e) (e.fromType, e.toType) := by
  unfold ElementType.EndsFit at h
  unfold encodeEnds
  cases hkind : e.kind with
  | node =>
      rw [hkind] at h
      rw [h.1, h.2]
      exact Decodes.pure _
  | edge =>
      rw [hkind] at h
      obtain ⟨a, b, ha, hb, hfit, hfit'⟩ := h
      rw [ha, hb]
      exact (decodes_decodeName hfit).bind ((decodes_decodeName hfit').bind_pure rfl)

theorem decodeEnds_ok {kind : ElementKind} {ends : Option String × Option String}
    {bs rest : Bytes} (h : decodeEnds kind bs = .ok (ends, rest)) {e : ElementType}
    (hkind : e.kind = kind) (hfrom : e.fromType = ends.1) (hto : e.toType = ends.2) :
    e.EndsFit ∧ bs = encodeEnds e ++ rest := by
  unfold ElementType.EndsFit encodeEnds
  rw [hkind, hfrom, hto]
  cases kind with
  | node =>
      cases reader_pure_ok.1 h
      exact ⟨⟨rfl, rfl⟩, rfl⟩
  | edge =>
      obtain ⟨a, mid, ha, h₁⟩ := reader_bind_ok.1 h
      obtain ⟨b, mid₁, hb, h₂⟩ := reader_bind_ok.1 h₁
      cases reader_pure_ok.1 h₂
      refine ⟨⟨a, b, rfl, rfl, (decodeName_ok ha).1, (decodeName_ok hb).1⟩, ?_⟩
      rw [(decodeName_ok ha).2, (decodeName_ok hb).2, ← List.append_assoc]
      rfl

theorem flags_spec (e : ElementType) :
    decide (e.flags.toNat % 2 = 1) = e.isOpen ∧ decide (2 ≤ e.flags.toNat) = e.undirected := by
  rw [ElementType.flags]
  cases e.isOpen <;> cases e.undirected <;> exact ⟨rfl, rfl⟩

theorem flags_eq {flags : UInt8} (h : flags.toNat < 4) {e : ElementType}
    (hopen : e.isOpen = decide (flags.toNat % 2 = 1))
    (hdir : e.undirected = decide (2 ≤ flags.toNat)) : e.flags = flags := by
  rw [ElementType.flags, hopen, hdir, ← UInt8.toNat_inj, UInt8.toNat_ofNat']
  generalize flags.toNat = n at h
  interval_cases n <;> rfl

theorem decodes_element {e : ElementType} (h : e.Fits)
    (htypes : ∀ t ∈ e.declared, Decodes readType (spell t) t) :
    Decodes (decodeElement readType) (encodeElement spell e) e := by
  have hprops : Decodes (decodeList 2 (decodeProperty readType))
      (encodeList 2 (encodeProperty spell) e.properties) e.properties :=
    decodes_decodeList h.count fun p hp =>
      decodes_property (h.properties p hp).1 (htypes _ (List.mem_map_of_mem hp))
  obtain ⟨hopen, hdir⟩ := flags_spec e
  refine (decodes_decodeName h.name).bind ((decodes_decodeKind e.kind).bind
    ((decodes_decodeFlags e).bind ((decodes_decodeLabels h.labels).bind ?_)))
  rw [← List.append_assoc]
  refine (decodes_decodeKey h.key).bind ((decodes_ends h.ends).bind (hprops.bind_pure ?_))
  simp only [hopen, hdir]

theorem decodeElement_ok (hkept : Gives readType LogicalType.Kept) {e : ElementType}
    {bs rest : Bytes} (h : decodeElement readType bs = .ok (e, rest)) :
    e.Fits ∧ (Spells readType spell → bs = encodeElement spell e ++ rest) := by
  obtain ⟨name, mid, hname, h₁⟩ := reader_bind_ok.1 h
  obtain ⟨kind, mid₁, hkind, h₂⟩ := reader_bind_ok.1 h₁
  obtain ⟨flags, mid₂, hflags, h₃⟩ := reader_bind_ok.1 h₂
  obtain ⟨labels, mid₃, hlabels, h₄⟩ := reader_bind_ok.1 h₃
  obtain ⟨key, mid₄, hkey, h₅⟩ := reader_bind_ok.1 h₄
  obtain ⟨ends, mid₅, hends, h₆⟩ := reader_bind_ok.1 h₅
  obtain ⟨props, mid₆, hprops, h₇⟩ := reader_bind_ok.1 h₆
  cases reader_pure_ok.1 h₇
  have hfit : Gives (decodeProperty readType) PropertyType.Fits :=
    fun _ _ _ h => (@decodeProperty_ok _ spell hkept _ _ _ h).1
  obtain ⟨hcount, hall⟩ := gives_decodeList hfit 2 hprops
  obtain ⟨hfour, hflags⟩ := decodeFlags_ok hflags
  set e : ElementType := { name, kind, labels, keyLabels := key, properties := props
                           isOpen := flags.toNat % 2 = 1, fromType := ends.1, toType := ends.2
                           undirected := 2 ≤ flags.toNat } with he
  obtain ⟨hfits, hspelled⟩ := decodeEnds_ok (e := e) hends rfl rfl rfl
  refine ⟨⟨(decodeName_ok hname).1, (decodeLabels_ok hlabels).1, (decodeKey_ok hkey).1, hfits,
    hcount, hall⟩, fun hspell => ?_⟩
  have hprop : Spells (decodeProperty readType) (encodeProperty spell) :=
    fun _ _ _ h => (decodeProperty_ok hkept h).2 hspell
  have hbits : e.flags = flags := flags_eq hfour rfl rfl
  rw [(decodeName_ok hname).2, decodeKind_ok hkind, hflags, (decodeLabels_ok hlabels).2,
    (decodeKey_ok hkey).2, hspelled, spells_decodeList hprop 2 hprops, encodeElement, hbits]
  simp only [List.append_assoc, he]

theorem decodes_graphType {t : GraphType} (h : t.Fits)
    (htypes : ∀ ty ∈ t.declared, Decodes readType (spell ty) ty) :
    Decodes (decodeGraphType readType) (encodeGraphType spell t) t := by
  have helems : Decodes (decodeList 4 (decodeElement readType))
      (encodeList 4 (encodeElement spell) t.elements) t.elements :=
    decodes_decodeList h.count fun e he => decodes_element (h.elements e he) fun ty hty =>
      htypes ty (List.mem_flatMap.2 ⟨e, he, hty⟩)
  exact (decodes_decodeName h.name).bind ((decodes_readFlag _ t.closed).bind
    (helems.bind_pure rfl))

theorem decodeGraphType_ok (hkept : Gives readType LogicalType.Kept) {t : GraphType}
    {bs rest : Bytes} (h : decodeGraphType readType bs = .ok (t, rest)) :
    t.Fits ∧ (Spells readType spell → bs = encodeGraphType spell t ++ rest) := by
  obtain ⟨name, mid, hname, h₁⟩ := reader_bind_ok.1 h
  obtain ⟨closed, mid₁, hclosed, h₂⟩ := reader_bind_ok.1 h₁
  obtain ⟨elements, mid₂, helems, h₃⟩ := reader_bind_ok.1 h₂
  cases reader_pure_ok.1 h₃
  have hfit : Gives (decodeElement readType) ElementType.Fits :=
    fun _ _ _ h => (@decodeElement_ok _ spell hkept _ _ _ h).1
  obtain ⟨hcount, hall⟩ := gives_decodeList hfit 4 helems
  refine ⟨⟨(decodeName_ok hname).1, hcount, hall⟩, fun hspell => ?_⟩
  have helem : Spells (decodeElement readType) (encodeElement spell) :=
    fun _ _ _ h => (decodeElement_ok hkept h).2 hspell
  rw [(decodeName_ok hname).2, readFlag_ok hclosed, spells_decodeList helem 4 helems,
    encodeGraphType]
  simp only [List.append_assoc]

theorem decodes_typeOf {t : GraphTypeOf} (h : t.Fits)
    (htypes : ∀ ty ∈ t.declared, Decodes readType (spell ty) ty) :
    Decodes (decodeTypeOf readType) ([t.code] ++ encodeTypeOf spell t) t := by
  refine (decodes_nextByte t.code _).bind ?_
  cases t with
  | any => exact Decodes.pure _
  | named name => exact (decodes_decodeName h).bind_pure rfl
  | inline type => exact (decodes_graphType h htypes).bind_pure rfl

theorem decodeTypeOf_ok (hkept : Gives readType LogicalType.Kept) {t : GraphTypeOf}
    {bs rest : Bytes} (h : decodeTypeOf readType bs = .ok (t, rest)) :
    t.Fits ∧ (Spells readType spell → bs = [t.code] ++ encodeTypeOf spell t ++ rest) := by
  obtain ⟨code, mid, hcode, h₁⟩ := reader_bind_ok.1 h
  rw [nextByte_ok hcode]
  split_ifs at h₁ with h0 h1 h2
  · cases reader_pure_ok.1 h₁
    rw [h0]
    exact ⟨trivial, fun _ => rfl⟩
  · obtain ⟨name, mid₁, hname, h₂⟩ := reader_bind_ok.1 h₁
    cases reader_pure_ok.1 h₂
    rw [h1, (decodeName_ok hname).2]
    exact ⟨(decodeName_ok hname).1, fun _ => rfl⟩
  · obtain ⟨type, mid₁, htype, h₂⟩ := reader_bind_ok.1 h₁
    cases reader_pure_ok.1 h₂
    obtain ⟨hfits, hspelled⟩ := @decodeGraphType_ok _ spell hkept _ _ _ htype
    refine ⟨hfits, fun hspell => ?_⟩
    rw [h2, hspelled hspell]
    rfl
  · exact (reader_throw_ok.1 h₁).elim

theorem decodes_graph {g : GraphDef} (h : g.Fits)
    (htypes : ∀ ty ∈ g.graphType.declared, Decodes readType (spell ty) ty) :
    Decodes (decodeGraph readType) (encodeGraph spell g) g :=
  (decodes_readU32 g.id).bind ((decodes_decodeName h.name).bind
    ((decodes_decodeName h.schema).bind ((decodes_typeOf h.type htypes).bind_pure rfl)))

theorem decodeGraph_ok (hkept : Gives readType LogicalType.Kept) {g : GraphDef}
    {bs rest : Bytes} (h : decodeGraph readType bs = .ok (g, rest)) :
    g.Fits ∧ (Spells readType spell → bs = encodeGraph spell g ++ rest) := by
  obtain ⟨id, mid, hid, h₁⟩ := reader_bind_ok.1 h
  obtain ⟨name, mid₁, hname, h₂⟩ := reader_bind_ok.1 h₁
  obtain ⟨schema, mid₂, hschema, h₃⟩ := reader_bind_ok.1 h₂
  obtain ⟨type, mid₃, htype, h₄⟩ := reader_bind_ok.1 h₃
  cases reader_pure_ok.1 h₄
  obtain ⟨hfits, hspelled⟩ := @decodeTypeOf_ok _ spell hkept _ _ _ htype
  refine ⟨⟨(decodeName_ok hname).1, (decodeName_ok hschema).1, hfits⟩, fun hspell => ?_⟩
  rw [spells_readU32 hid, (decodeName_ok hname).2, (decodeName_ok hschema).2, hspelled hspell,
    encodeGraph]
  simp only [List.append_assoc]

end

/-! ### Tables -/

theorem decodes_node {labelCount : ℕ} {t : NodeTable} (h : t.Fits labelCount) :
    Decodes (decodeNode catalogVersion labelCount) (encodeNode t) t := by
  have hlabels : Decodes (decodeDeclared t.name labelCount) (encodeLabels t.labels) t.labels :=
    (decodes_readNat h.few).bind ((decodes_refuseIf (not_lt.2 h.declared) _).bind
      (Decodes.readN fun l _ => decodes_readU16 l))
  exact (decodes_readU32 t.id).bind ((decodes_decodeName h.name).bind
    ((decodes_readU32 t.graph).bind ((decodes_readU64 t.nodeCount).bind (hlabels.bind_pure rfl))))

theorem decodeNode_ok {labelCount : ℕ} {t : NodeTable} {bs rest : Bytes}
    (h : decodeNode catalogVersion labelCount bs = .ok (t, rest)) :
    t.Fits labelCount ∧ bs = encodeNode t ++ rest := by
  obtain ⟨id, mid, hid, h₁⟩ := reader_bind_ok.1 h
  obtain ⟨name, mid₁, hname, h₂⟩ := reader_bind_ok.1 h₁
  obtain ⟨graph, mid₂, hgraph, h₃⟩ := reader_bind_ok.1 h₂
  obtain ⟨nodeCount, mid₃, hcount, h₄⟩ := reader_bind_ok.1 h₃
  obtain ⟨labels, mid₄, hlabels, h₅⟩ := reader_bind_ok.1 h₄
  cases reader_pure_ok.1 h₅
  obtain ⟨n, mid₅, hn, h₆⟩ := reader_bind_ok.1 hlabels
  obtain ⟨⟨⟩, mid₆, hpass, h₇⟩ := reader_bind_ok.1 h₆
  obtain ⟨hfew, rfl⟩ := refuseIf_ok hpass
  have hlen : labels.length = n := length_readN h₇
  subst hlen
  refine ⟨⟨(decodeName_ok hname).1, (readNat_ok hn).1, not_lt.1 hfew⟩, ?_⟩
  rw [spells_readU32 hid, (decodeName_ok hname).2, spells_readU32 hgraph, spells_readU64 hcount,
    (readNat_ok hn).2, spells_readU16.readN _ h₇, encodeNode, encodeLabels]
  simp only [List.append_assoc]

theorem decodes_rel {t : RelTable} (h : NameFits t.name) :
    Decodes (decodeRel catalogVersion) (encodeRel t) t :=
  (decodes_readU32 t.id).bind ((decodes_decodeName h).bind ((decodes_readU32 t.graph).bind
    ((decodes_readU32 t.fromId).bind ((decodes_readU32 t.toId).bind
      ((decodes_readU64 t.edgeCount).bind ((decodes_decodeDirection t.undirected).bind_pure
        rfl))))))

theorem decodeRel_ok {t : RelTable} {bs rest : Bytes}
    (h : decodeRel catalogVersion bs = .ok (t, rest)) :
    NameFits t.name ∧ bs = encodeRel t ++ rest := by
  obtain ⟨id, mid, hid, h₁⟩ := reader_bind_ok.1 h
  obtain ⟨name, mid₁, hname, h₂⟩ := reader_bind_ok.1 h₁
  obtain ⟨graph, mid₂, hgraph, h₃⟩ := reader_bind_ok.1 h₂
  obtain ⟨fromId, mid₃, hfrom, h₄⟩ := reader_bind_ok.1 h₃
  obtain ⟨toId, mid₄, hto, h₅⟩ := reader_bind_ok.1 h₄
  obtain ⟨edgeCount, mid₅, hcount, h₆⟩ := reader_bind_ok.1 h₅
  obtain ⟨undirected, mid₆, hdir, h₇⟩ := reader_bind_ok.1 h₆
  cases reader_pure_ok.1 h₇
  refine ⟨(decodeName_ok hname).1, ?_⟩
  rw [spells_readU32 hid, (decodeName_ok hname).2, spells_readU32 hgraph, spells_readU32 hfrom,
    spells_readU32 hto, spells_readU64 hcount, decodeDirection_ok hdir, encodeRel]
  simp only [List.append_assoc]

/-! ### The whole catalog -/

section

variable {readType : Reader ZuError LogicalType} {spell : LogicalType → Bytes} {c : Catalog}

theorem decodes_body (h : c.Fits) (htypes : ∀ ty ∈ c.declared, Decodes readType (spell ty) ty) :
    Decodes (decodeBody readType catalogVersion c.nodes.length c.rels.length)
      (encodeBody spell c) c := by
  have hnodes : Decodes (readN (decodeNode catalogVersion c.labels.length) c.nodes.length)
      (c.nodes.flatMap encodeNode) c.nodes := Decodes.readN fun t ht => decodes_node (h.nodes t ht)
  have hrels : Decodes (readN (decodeRel catalogVersion) c.rels.length)
      (c.rels.flatMap encodeRel) c.rels := Decodes.readN fun t ht => decodes_rel (h.rels t ht)
  have hlabels : Decodes (readN decodeName c.labels.length) (c.labels.flatMap encodeName)
      c.labels := Decodes.readN fun l hl => decodes_decodeName (h.labels l hl)
  have hgraphTypes : Decodes (decodeList 4 (decodeGraphType readType))
      (encodeList 4 (encodeGraphType spell) c.graphTypes) c.graphTypes :=
    decodes_decodeList h.typeCount fun t ht => decodes_graphType (h.graphTypes t ht)
      fun ty hty => htypes ty (List.mem_append_left _ (List.mem_flatMap.2 ⟨t, ht, hty⟩))
  have hschemas : Decodes (decodeList 4 decodeName) (encodeList 4 encodeName c.schemas)
      c.schemas := decodes_decodeList h.schemaCount fun s hs => decodes_decodeName (h.schemas s hs)
  have hgraphs : Decodes (decodeList 4 (decodeGraph readType))
      (encodeList 4 (encodeGraph spell) c.graphs) c.graphs :=
    decodes_decodeList h.graphCount fun g hg => decodes_graph (h.graphs g hg)
      fun ty hty => htypes ty (List.mem_append_right _ (List.mem_flatMap.2 ⟨g, hg, hty⟩))
  exact (decodes_readNat h.labelCount).bind (hnodes.bind (hrels.bind (hlabels.bind
    (hgraphTypes.bind (hschemas.bind (hgraphs.bind_pure rfl))))))

theorem decodeBody_ok (hkept : Gives readType LogicalType.Kept) {n m : ℕ}
    (hn : n < 256 ^ 4) (hm : m < 256 ^ 4) {bs rest : Bytes}
    (h : decodeBody readType catalogVersion n m bs = .ok (c, rest)) :
    c.Fits ∧ c.nodes.length = n ∧ c.rels.length = m ∧
      (Spells readType spell → bs = encodeBody spell c ++ rest) := by
  obtain ⟨labelCount, mid, hcount, h₁⟩ := reader_bind_ok.1 h
  obtain ⟨nodes, mid₁, hnodes, h₂⟩ := reader_bind_ok.1 h₁
  obtain ⟨rels, mid₂, hrels, h₃⟩ := reader_bind_ok.1 h₂
  obtain ⟨labels, mid₃, hlabels, h₄⟩ := reader_bind_ok.1 h₃
  obtain ⟨graphTypes, mid₄, htypes, h₅⟩ := reader_bind_ok.1 h₄
  obtain ⟨schemas, mid₅, hschemas, h₆⟩ := reader_bind_ok.1 h₅
  obtain ⟨graphs, mid₆, hgraphs, h₇⟩ := reader_bind_ok.1 h₆
  cases reader_pure_ok.1 h₇
  have hlen : labels.length = labelCount := length_readN hlabels
  have hnodeLen : nodes.length = n := length_readN hnodes
  have hrelLen : rels.length = m := length_readN hrels
  subst hlen hnodeLen hrelLen
  have hnode : Gives (decodeNode catalogVersion labels.length) (NodeTable.Fits labels.length) :=
    fun _ _ _ h => (decodeNode_ok h).1
  have hrel : Gives (decodeRel catalogVersion) fun t => NameFits t.name :=
    fun _ _ _ h => (decodeRel_ok h).1
  have htype : Gives (decodeGraphType readType) GraphType.Fits :=
    fun _ _ _ h => (@decodeGraphType_ok _ spell hkept _ _ _ h).1
  have hgraph : Gives (decodeGraph readType) GraphDef.Fits :=
    fun _ _ _ h => (@decodeGraph_ok _ spell hkept _ _ _ h).1
  have htypes' := gives_decodeList htype 4 htypes
  have hschemas' := gives_decodeList gives_decodeName 4 hschemas
  have hgraphs' := gives_decodeList hgraph 4 hgraphs
  refine ⟨⟨hn, hnode.readN _ hnodes, hm, hrel.readN _ hrels, (readNat_ok hcount).1,
    gives_decodeName.readN _ hlabels, htypes'.1, htypes'.2, hschemas'.1, hschemas'.2,
    hgraphs'.1, hgraphs'.2⟩, rfl, rfl, fun hspell => ?_⟩
  have hnode' : Spells (decodeNode catalogVersion labels.length) encodeNode :=
    fun _ _ _ h => (decodeNode_ok h).2
  have hrel' : Spells (decodeRel catalogVersion) encodeRel := fun _ _ _ h => (decodeRel_ok h).2
  have htype' : Spells (decodeGraphType readType) (encodeGraphType spell) :=
    fun _ _ _ h => (decodeGraphType_ok hkept h).2 hspell
  have hgraph' : Spells (decodeGraph readType) (encodeGraph spell) :=
    fun _ _ _ h => (decodeGraph_ok hkept h).2 hspell
  rw [(readNat_ok hcount).2, hnode'.readN _ hnodes, hrel'.readN _ hrels,
    spells_decodeName.readN _ hlabels, spells_decodeList htype' 4 htypes,
    spells_decodeList spells_decodeName 4 hschemas, spells_decodeList hgraph' 4 hgraphs,
    encodeBody]
  simp only [List.append_assoc]

/-- A catalog that fits and that is valid is read back as it was written. -/
theorem decodeAs_encodeAs (h : c.Fits) (hvalid : c.validate = .ok ())
    (htypes : ∀ ty ∈ c.declared, Decodes readType (spell ty) ty) :
    Catalog.decodeAs readType (c.encodeAs spell) = .ok c := by
  have hhead : nextBytes 10 (corrupt "truncated header") (c.encodeAs spell) =
      .ok (encodeHead c, encodeBody spell c) :=
    decodes_nextBytes (encodeHead c) _ _
  have hversion : fromLe ((encodeHead c).take 2) = catalogVersion := rfl
  have hnodes : fromLe (((encodeHead c).drop 2).take 4) = c.nodes.length :=
    fromLe_leBytes_of_lt h.nodeCount
  have hrels : fromLe ((encodeHead c).drop 6) = c.rels.length := fromLe_leBytes_of_lt h.relCount
  have hbody := decodes_body h htypes []
  rw [List.append_nil] at hbody
  rw [Catalog.decodeAs, hhead, ok_bind]
  simp only [hversion, hnodes, hrels, hbody, ok_bind]
  rw [Catalog.withNames, if_neg (by decide), ok_bind, hvalid]
  rfl

theorem decodeAs_ok (hkept : Gives readType LogicalType.Kept) {bytes : Bytes}
    (hversion : bytes.take 2 = leBytes 2 catalogVersion)
    (h : Catalog.decodeAs readType bytes = .ok c) :
    c.Fits ∧ c.validate = .ok () ∧ (Spells readType spell → bytes = c.encodeAs spell) := by
  obtain ⟨head, hhead, h₁⟩ := except_bind_ok.1 h
  obtain ⟨hlen, hbytes⟩ := nextBytes_ok hhead
  have hv : head.1.take 2 = leBytes 2 catalogVersion := by
    rw [← hversion, hbytes, List.take_append_of_le_length (by omega)]
  obtain ⟨⟨⟩, -, h₂⟩ := except_bind_ok.1 h₁
  rw [hv] at h₂
  obtain ⟨body, hbody, h₃⟩ := except_bind_ok.1 h₂
  obtain ⟨⟨⟩, hrest, h₄⟩ := except_bind_ok.1 h₃
  obtain ⟨c', hc', h₅⟩ := except_bind_ok.1 h₄
  obtain ⟨⟨⟩, hvalid, h₆⟩ := except_bind_ok.1 h₅
  have hc : body.1 = c := by
    rw [Catalog.withNames, if_neg (by decide)] at hc'
    exact (Except.ok.inj hc').trans (Except.ok.inj h₆)
  have hc'' : c' = c := Except.ok.inj h₆
  rw [hc''] at hvalid
  have hlt : ∀ d : Bytes, d.length = 4 → fromLe d < 256 ^ 4 := fun d hd => hd ▸ fromLe_lt d
  have hlen₁ : ((head.1.drop 2).take 4).length = 4 := by
    rw [List.length_take, List.length_drop]; omega
  have hlen₂ : (head.1.drop 6).length = 4 := by
    rw [List.length_drop]; omega
  have hbody' : decodeBody readType catalogVersion (fromLe ((head.1.drop 2).take 4))
      (fromLe (head.1.drop 6)) head.2 = .ok (body.1, body.2) := hbody
  obtain ⟨hfits, hnodes, hrels, hspelled⟩ :=
    @decodeBody_ok _ spell _ hkept _ _ (hlt _ hlen₁) (hlt _ hlen₂) _ _ hbody'
  rw [hc] at hfits hnodes hrels hspelled
  refine ⟨hfits, hvalid, fun hspell => ?_⟩
  have hparts : head.1 = encodeHead c := by
    have h₁ : leBytes 4 c.nodes.length = (head.1.drop 2).take 4 := by
      rw [hnodes, leBytes_fromLe_of_length hlen₁]
    have h₂ : leBytes 4 c.rels.length = (head.1.drop 2).drop 4 := by
      rw [hrels, leBytes_fromLe_of_length hlen₂, List.drop_drop]
    rw [encodeHead, ← hv, h₁, h₂, List.take_append_drop, List.take_append_drop]
  rw [hbytes, hspelled hspell, ensure_ok.1 hrest, List.append_nil, hparts, Catalog.encodeAs]

end

end Zu.Schema
